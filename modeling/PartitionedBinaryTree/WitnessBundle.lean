/-
# Witness bundles (`pbt/stem_subscription.py`)

A provider posts one bundle for each block: who made it, the hash of an encrypted blob and the
commitments of the packets in it, under one `bundle_commitment`.  The preimage of this commitment
puts its fields side by side without their lengths, and the widths of the block root, of the
provider id and of the blob hash are checked nowhere.

`witnessBundle_binds_iff` says what the commitment binds: all fields, among bundles that have
these three fields of the same lengths.
-/
import PartitionedBinaryTree.BucketManifest

namespace Pbt

/-! ## The functions of the source -/

/-- `WitnessBundle`. -/
structure WitnessBundle where
  epoch : ℤ
  blockNumber : ℤ
  blockRoot : Bytes
  providerId : Bytes
  bundleCommitment : Bytes
  encryptedBlobHash : Bytes
  packetCommitments : List Bytes
  storageLocatorHash : Bytes := []
  deriving DecidableEq, Repr

/-- `b"pbt-bundle-v1"`. -/
def bundleDomain : Bytes := [112, 98, 116, 45, 98, 117, 110, 100, 108, 101, 45, 118, 49]

/-- `build_witness_bundle`. -/
def buildWitnessBundle (H : HashFunction) (epoch blockNumber : ℤ)
    (blockRoot providerId encryptedBlobHash : Bytes) (packetCommitments : List Bytes)
    (storageLocatorHash : Bytes := []) : HashPy WitnessBundle := do
  let commitments := packetCommitments.insertionSort (· ≤ ·)
  let epochBytes ← HashPy.ofPy (intToBytes epoch 8)
  let blockNumberBytes ← HashPy.ofPy (intToBytes blockNumber 8)
  let packetsRoot ← HashPy.ofHash (hashConcat H commitments)
  let bundleCommitment ← HashPy.ofHash (treeHash H (bundleDomain ++ epochBytes ++
    blockNumberBytes ++ blockRoot ++ providerId ++ encryptedBlobHash ++ packetsRoot.val ++
    storageLocatorHash))
  pure {
    epoch := epoch
    blockNumber := blockNumber
    blockRoot := blockRoot
    providerId := providerId
    bundleCommitment := bundleCommitment.val
    encryptedBlobHash := encryptedBlobHash
    packetCommitments := commitments
    storageLocatorHash := storageLocatorHash }

/-- `verify_witness_bundle`. -/
def verifyWitnessBundle (H : HashFunction) (bundle : WitnessBundle) : HashPy Bool := do
  let expected ← buildWitnessBundle H bundle.epoch bundle.blockNumber bundle.blockRoot
    bundle.providerId bundle.encryptedBlobHash bundle.packetCommitments bundle.storageLocatorHash
  pure (expected.bundleCommitment == bundle.bundleCommitment)

/-! ## The preimage of a bundle commitment -/

/-- The sorted commitments of a bundle. -/
def WitnessBundle.sortedPackets (bundle : WitnessBundle) : List Bytes :=
  bundle.packetCommitments.insertionSort (· ≤ ·)

/-- The digest of the sorted commitments. -/
def WitnessBundle.packetsRoot (H : HashFunction) (bundle : WitnessBundle) : Digest :=
  (hashConcat H bundle.sortedPackets).val

/-- The string that a bundle commitment is the hash of. -/
def WitnessBundle.preimage (H : HashFunction) (bundle : WitnessBundle) : Bytes :=
  bundleDomain ++ natToBE 8 bundle.epoch.toNat ++ natToBE 8 bundle.blockNumber.toNat ++
    bundle.blockRoot ++ bundle.providerId ++ bundle.encryptedBlobHash ++
    (bundle.packetsRoot H).val ++ bundle.storageLocatorHash

/-- The numbers of a bundle that can be hashed. -/
structure BundleNumbers (bundle : WitnessBundle) : Prop where
  epoch_nonneg : 0 ≤ bundle.epoch
  epoch_lt : bundle.epoch < 256 ^ 8
  blockNumber_nonneg : 0 ≤ bundle.blockNumber
  blockNumber_lt : bundle.blockNumber < 256 ^ 8

variable {H : HashFunction} {bundle bundle' : WitnessBundle} {qs qs' : List Bytes}

/-- The preimage cut into its fields. -/
theorem preimage_eq_flatten (H : HashFunction) (bundle : WitnessBundle) :
    bundle.preimage H = ([bundleDomain, natToBE 8 bundle.epoch.toNat,
      natToBE 8 bundle.blockNumber.toNat, bundle.blockRoot, bundle.providerId,
      bundle.encryptedBlobHash, (bundle.packetsRoot H).val] ++ bundle.storageLocatorHash ::
        []).flatten := by
  simp [WitnessBundle.preimage]

/-- **`verify_witness_bundle`** is true exactly on bundles whose numbers fit and whose commitment
is the hash of their preimage. -/
theorem verifyWitnessBundle_returns_true_iff :
    (verifyWitnessBundle H bundle).Returns true qs ↔
      BundleNumbers bundle ∧ (H (bundle.preimage H)).val = bundle.bundleCommitment ∧
        qs = (hashConcat H bundle.sortedPackets).queries ++ [bundle.preimage H] := by
  simp only [verifyWitnessBundle, buildWitnessBundle, bind_assoc, pure_bind,
    HashPy.returns_ofPy_bind_iff, HashPy.returns_ofHash_bind_iff, HashPy.returns_pure_iff,
    intToBytes_eq_ok_iff, beq_iff_eq, val_treeHash, queries_treeHash]
  constructor
  · rintro ⟨epoch, ⟨hepoch, hepochLt, rfl⟩, number, ⟨hnumber, hnumberLt, rfl⟩, rest,
      ⟨rest', ⟨hcommitment, rfl⟩, rfl⟩, rfl⟩
    exact ⟨⟨hepoch, hepochLt, hnumber, hnumberLt⟩, hcommitment, rfl⟩
  · rintro ⟨h, hcommitment, rfl⟩
    exact ⟨_, ⟨h.epoch_nonneg, h.epoch_lt, rfl⟩, _, ⟨h.blockNumber_nonneg, h.blockNumber_lt, rfl⟩,
      _, ⟨_, ⟨hcommitment, rfl⟩, rfl⟩, rfl⟩

/-- What two accepted bundles with one commitment hash to it are equal strings, or collide. -/
theorem preimage_eq_or_collision (h : (verifyWitnessBundle H bundle).Returns true qs)
    (h' : (verifyWitnessBundle H bundle').Returns true qs')
    (hcommitment : bundle.bundleCommitment = bundle'.bundleCommitment) :
    bundle.preimage H = bundle'.preimage H ∨ Collision H (qs ++ qs') := by
  obtain ⟨-, hhash, rfl⟩ := verifyWitnessBundle_returns_true_iff.mp h
  obtain ⟨-, hhash', rfl⟩ := verifyWitnessBundle_returns_true_iff.mp h'
  have heq : H (bundle.preimage H) = H (bundle'.preimage H) := by
    apply Subtype.val_injective
    rw [hhash, hhash', hcommitment]
  refine eq_or_collision (List.mem_append_left _ ?_) (List.mem_append_right _ ?_) heq
  · exact List.mem_append_right _ (List.mem_singleton_self _)
  · exact List.mem_append_right _ (List.mem_singleton_self _)

/-- Bundles with one digest of their sorted commitments list the same commitments, up to their
order, or inputs collide. -/
theorem perm_or_collision (h : (verifyWitnessBundle H bundle).Returns true qs)
    (h' : (verifyWitnessBundle H bundle').Returns true qs')
    (hroot : bundle.packetsRoot H = bundle'.packetsRoot H) :
    bundle.packetCommitments.Perm bundle'.packetCommitments ∨ Collision H (qs ++ qs') := by
  obtain ⟨-, -, rfl⟩ := verifyWitnessBundle_returns_true_iff.mp h
  obtain ⟨-, -, rfl⟩ := verifyWitnessBundle_returns_true_iff.mp h'
  rcases hashConcat_inj hroot with hsorted | hcol
  · left
    have hperm : bundle.sortedPackets.Perm bundle.packetCommitments := List.perm_insertionSort _ _
    rw [hsorted] at hperm
    exact hperm.symm.trans (List.perm_insertionSort _ _)
  · right
    exact hcol.mono_append (List.subset_append_left _ _) (List.subset_append_left _ _)

/-- **Equal preimages** have equal fields when the block roots, the provider ids and the blob
hashes have equal lengths. -/
theorem fields_eq_of_preimage_eq (h : BundleNumbers bundle) (h' : BundleNumbers bundle')
    (hpreimage : bundle.preimage H = bundle'.preimage H)
    (hroot : bundle.blockRoot.length = bundle'.blockRoot.length)
    (hprovider : bundle.providerId.length = bundle'.providerId.length)
    (hblob : bundle.encryptedBlobHash.length = bundle'.encryptedBlobHash.length) :
    bundle.epoch = bundle'.epoch ∧ bundle.blockNumber = bundle'.blockNumber ∧
      bundle.blockRoot = bundle'.blockRoot ∧ bundle.providerId = bundle'.providerId ∧
      bundle.encryptedBlobHash = bundle'.encryptedBlobHash ∧
      bundle.packetsRoot H = bundle'.packetsRoot H ∧
      bundle.storageLocatorHash = bundle'.storageLocatorHash := by
  rw [preimage_eq_flatten, preimage_eq_flatten] at hpreimage
  have hfields := pieces_eq_of_flatten_eq hpreimage (by simp [hroot, hprovider, hblob]) rfl
  simp only [List.cons_append, List.nil_append, List.cons.injEq, and_true, true_and] at hfields
  obtain ⟨hepoch, hnumber, hrootEq, hproviderEq, hblobEq, hpackets, hlocator⟩ := hfields
  refine ⟨?_, ?_, hrootEq, hproviderEq, hblobEq, Subtype.val_injective hpackets, hlocator⟩
  · exact natToBE_toNat_inj h.epoch_nonneg h.epoch_lt h'.epoch_nonneg h'.epoch_lt hepoch
  · exact natToBE_toNat_inj h.blockNumber_nonneg h.blockNumber_lt h'.blockNumber_nonneg
      h'.blockNumber_lt hnumber

/-- **What a bundle commitment binds**: of two accepted bundles with one commitment, all fields
are equal and the packet commitments are permutations of each other, or two of the strings that
their verification hashes collide, exactly when the block roots, the provider ids and the blob
hashes have equal lengths, or strings collide. -/
theorem witnessBundle_binds_iff (H : HashFunction) (bundle bundle' : WitnessBundle)
    (qs qs' : List Bytes) (h : (verifyWitnessBundle H bundle).Returns true qs)
    (h' : (verifyWitnessBundle H bundle').Returns true qs')
    (hcommitment : bundle.bundleCommitment = bundle'.bundleCommitment) :
    ((bundle.epoch = bundle'.epoch ∧ bundle.blockNumber = bundle'.blockNumber ∧
        bundle.blockRoot = bundle'.blockRoot ∧ bundle.providerId = bundle'.providerId ∧
        bundle.encryptedBlobHash = bundle'.encryptedBlobHash ∧
        bundle.storageLocatorHash = bundle'.storageLocatorHash ∧
        bundle.packetCommitments.Perm bundle'.packetCommitments) ∨ Collision H (qs ++ qs')) ↔
      (bundle.blockRoot.length = bundle'.blockRoot.length ∧
        bundle.providerId.length = bundle'.providerId.length ∧
        bundle.encryptedBlobHash.length = bundle'.encryptedBlobHash.length) ∨
        Collision H (qs ++ qs') := by
  apply or_collision_congr
  · rintro ⟨-, -, hroot, hprovider, hblob, -, -⟩
    rw [hroot, hprovider, hblob]
    exact ⟨rfl, rfl, rfl⟩
  · rintro ⟨hroot, hprovider, hblob⟩
    rcases preimage_eq_or_collision h h' hcommitment with hpreimage | hcol
    · obtain ⟨hepoch, hnumber, hrootEq, hproviderEq, hblobEq, hpackets, hlocator⟩ :=
        fields_eq_of_preimage_eq (verifyWitnessBundle_returns_true_iff.mp h).1
          (verifyWitnessBundle_returns_true_iff.mp h').1 hpreimage hroot hprovider hblob
      rcases perm_or_collision h h' hpackets with hperm | hcol
      · exact Or.inl ⟨hepoch, hnumber, hrootEq, hproviderEq, hblobEq, hlocator, hperm⟩
      · exact Or.inr hcol
    · exact Or.inr hcol

/-! ## Bundles that are made -/

/-- The bundle with the commitment of its other fields. -/
def WitnessBundle.committed (H : HashFunction) (bundle : WitnessBundle) : WitnessBundle :=
  { bundle with bundleCommitment := (H (bundle.preimage H)).val }

/-- **A bundle with its own commitment** is accepted. -/
theorem verifyWitnessBundle_committed (h : BundleNumbers bundle) :
    (verifyWitnessBundle H (bundle.committed H)).Returns true
      ((hashConcat H bundle.sortedPackets).queries ++ [bundle.preimage H]) :=
  verifyWitnessBundle_returns_true_iff.mpr
    ⟨⟨h.epoch_nonneg, h.epoch_lt, h.blockNumber_nonneg, h.blockNumber_lt⟩, rfl, rfl⟩

/-- **What `build_witness_bundle` makes, `verify_witness_bundle` accepts**, hashing the same
strings: the packets are sorted already when they are sorted again. -/
theorem verifyWitnessBundle_of_build {epoch blockNumber : ℤ}
    {blockRoot providerId encryptedBlobHash storageLocatorHash : Bytes}
    {packetCommitments : List Bytes}
    (h : (buildWitnessBundle H epoch blockNumber blockRoot providerId encryptedBlobHash
      packetCommitments storageLocatorHash).Returns bundle qs) :
    (verifyWitnessBundle H bundle).Returns true qs := by
  simp only [buildWitnessBundle, HashPy.returns_ofPy_bind_iff, HashPy.returns_ofHash_bind_iff,
    HashPy.returns_pure_iff, intToBytes_eq_ok_iff] at h
  obtain ⟨epochBytes, ⟨hepoch, hepochLt, rfl⟩, numberBytes, ⟨hnumber, hnumberLt, rfl⟩, rest,
    ⟨rest', ⟨rfl, rfl⟩, rfl⟩, rfl⟩ := h
  have hsorted : (packetCommitments.insertionSort (· ≤ ·)).insertionSort (· ≤ ·) =
      packetCommitments.insertionSort (· ≤ ·) :=
    (List.pairwise_insertionSort (· ≤ ·) packetCommitments).insertionSort_eq
  refine verifyWitnessBundle_returns_true_iff.mpr
    ⟨⟨hepoch, hepochLt, hnumber, hnumberLt⟩, ?_, ?_⟩
  · rw [WitnessBundle.preimage, WitnessBundle.packetsRoot, WitnessBundle.sortedPackets, hsorted]
    rfl
  · rw [WitnessBundle.preimage, WitnessBundle.packetsRoot, WitnessBundle.sortedPackets, hsorted]
    rfl

/-- A hash function that counts bytes. -/
def lengthHash : HashFunction := fun data => BytesN.ofNat 32 data.length

/-- A bundle of the first block, with its commitment. -/
def firstBundle (providerId encryptedBlobHash : Bytes) (packetCommitments : List Bytes) :
    WitnessBundle :=
  WitnessBundle.committed lengthHash {
    epoch := 0
    blockNumber := 0
    blockRoot := zeroBytes 32
    providerId := providerId
    bundleCommitment := []
    encryptedBlobHash := encryptedBlobHash
    packetCommitments := packetCommitments }

theorem verifyWitnessBundle_firstBundle (providerId encryptedBlobHash : Bytes)
    (packetCommitments : List Bytes) : ∃ qs : List Bytes, (verifyWitnessBundle lengthHash
      (firstBundle providerId encryptedBlobHash packetCommitments)).Returns true qs :=
  ⟨_, verifyWitnessBundle_committed ⟨le_refl 0, by norm_num, le_refl 0, by norm_num⟩⟩

/-- Two bundles that list their packets in different orders. -/
theorem witnessBundle_binds_iff_reordered : ∃ qs qs' : List Bytes,
    (firstBundle [1] [2] [[3], [4, 4]]).packetCommitments.Perm
      (firstBundle [1] [2] [[4, 4], [3]]).packetCommitments ∨ Collision lengthHash (qs ++ qs') := by
  obtain ⟨qs, h⟩ := verifyWitnessBundle_firstBundle [1] [2] [[3], [4, 4]]
  obtain ⟨qs', h'⟩ := verifyWitnessBundle_firstBundle [1] [2] [[4, 4], [3]]
  refine ⟨qs, qs', ?_⟩
  have hbinds := witnessBundle_binds_iff _ _ _ qs qs' h h' (by decide +kernel)
  rcases hbinds.mpr (Or.inl ⟨rfl, rfl, rfl⟩) with hfields | hcol
  · exact Or.inl hfields.2.2.2.2.2.2
  · exact Or.inr hcol

/-! ## Fields that shift -/

/-- **A shifted boundary**: what stands at the end of the provider id may as well stand at the
start of the blob hash. -/
theorem preimage_shift (H : HashFunction) (bundle : WitnessBundle) (provider moved rest : Bytes) :
    WitnessBundle.preimage H { bundle with
        providerId := provider ++ moved, encryptedBlobHash := rest } =
      WitnessBundle.preimage H { bundle with
        providerId := provider, encryptedBlobHash := moved ++ rest } := by
  simp [WitnessBundle.preimage, WitnessBundle.packetsRoot, WitnessBundle.sortedPackets]

/-- Without packets, what is hashed is the empty string and the preimage. -/
theorem queries_of_no_packets (h : (verifyWitnessBundle H bundle).Returns true qs)
    (hnone : bundle.packetCommitments = []) : qs = [[], bundle.preimage H] := by
  obtain ⟨-, -, rfl⟩ := verifyWitnessBundle_returns_true_iff.mp h
  have hsorted : bundle.sortedPackets = [] := by
    rw [WitnessBundle.sortedPackets, hnone, List.insertionSort_nil]
  rw [hsorted]
  rfl

/-- `b"provider-a"`. -/
def providerA : Bytes := [112, 114, 111, 118, 105, 100, 101, 114, 45, 97]

/-- A bundle of `provider-a` with a blob hash of 32 bytes `x`. -/
def honestBundle : WitnessBundle := firstBundle providerA ([120] ++ List.replicate 31 120) []

/-- The bundle of `provider-ax` with a blob hash of 31 bytes `x`. -/
def shiftedBundle : WitnessBundle := firstBundle (providerA ++ [120]) (List.replicate 31 120) []

theorem preimage_shiftedBundle :
    shiftedBundle.preimage lengthHash = honestBundle.preimage lengthHash := by
  rw [shiftedBundle, honestBundle, firstBundle, firstBundle, WitnessBundle.committed,
    WitnessBundle.committed]
  apply preimage_shift

/-- **Two providers, one commitment**: both bundles are accepted, their preimages are one string,
and no strings that are hashed collide. -/
theorem witnessBundle_not_bound : ∃ qs qs' : List Bytes,
    (verifyWitnessBundle lengthHash shiftedBundle).Returns true qs ∧
      (verifyWitnessBundle lengthHash honestBundle).Returns true qs' ∧
      shiftedBundle.bundleCommitment = honestBundle.bundleCommitment ∧
      shiftedBundle.providerId ≠ honestBundle.providerId ∧
      ¬ Collision lengthHash (qs ++ qs') := by
  obtain ⟨qs, h⟩ : ∃ qs : List Bytes,
      (verifyWitnessBundle lengthHash shiftedBundle).Returns true qs :=
    verifyWitnessBundle_firstBundle _ _ _
  obtain ⟨qs', h'⟩ : ∃ qs : List Bytes,
      (verifyWitnessBundle lengthHash honestBundle).Returns true qs :=
    verifyWitnessBundle_firstBundle _ _ _
  refine ⟨qs, qs', h, h', ?_, by decide, ?_⟩
  · rw [← (verifyWitnessBundle_returns_true_iff.mp h).2.1,
      ← (verifyWitnessBundle_returns_true_iff.mp h').2.1, preimage_shiftedBundle]
  · have hlengths : lengthHash [] ≠ lengthHash (honestBundle.preimage lengthHash) := by
      decide +kernel
    refine not_collision_of_ne hlengths ?_
    intro data hdata
    rw [queries_of_no_packets h rfl, queries_of_no_packets h' rfl, preimage_shiftedBundle] at hdata
    simp only [List.cons_append, List.nil_append, List.mem_cons, List.not_mem_nil, or_false]
      at hdata
    rcases hdata with h | h | h | h
    · exact Or.inl h
    · exact Or.inr h
    · exact Or.inl h
    · exact Or.inr h

end Pbt
