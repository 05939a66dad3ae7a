/-
# Bucket manifests (`pbt/stem_subscription.py`)

A manifest lists the commitments of the packets of one bucket, next to the digest of the list
that `_hash_concat` makes.  That digest commits to the whole list (`packetsRoot_binds`), since
`_hash_concat` is a hash chain from the empty string on.

The record `BUCKET_MANIFEST_V1` carries a manifest.  Its reader accepts exactly the wire forms
of manifests within its limit that verify.  `wireFormats_exact` puts this together with
`SUB_REG_V1`.
-/
import PartitionedBinaryTree.Lib.HashChain
import PartitionedBinaryTree.Registration
import Mathlib.Data.List.Sort

namespace Pbt

/-! ## The functions of the source -/

/-- `MAX_MANIFEST_PACKET_COUNT`. -/
def maxManifestPacketCount : ℕ := 16384

/-- `BucketManifest`. -/
structure BucketManifest where
  epoch : ℤ
  bucketId : ℤ
  packetCommitments : List Bytes
  packetsRoot : Bytes
  deriving DecidableEq, Repr

/-- `current + item`. -/
def chainLink (current : Digest) (item : Bytes) : Bytes := current.val ++ item

/-- `_hash_concat`. -/
def hashConcat (H : HashFunction) (items : List Bytes) : Logged Bytes Digest :=
  HashChain.chain H chainLink [] items

/-- The loop of `build_bucket_manifest` over the packets, for one of them. -/
def checkBucketPacket (epoch bucketId : ℤ) (packet : StemWitnessPacket) : Py Unit := do
  raiseIf (packet.epoch ≠ epoch) "packet epoch mismatch"
  raiseIf (packet.bucketId ≠ bucketId) "packet bucket mismatch"

/-- `build_bucket_manifest`. -/
def buildBucketManifest (H : HashFunction) (epoch bucketId : ℤ)
    (packets : List StemWitnessPacket) : HashPy BucketManifest := do
  HashPy.ofPy (packets.forM (checkBucketPacket epoch bucketId))
  let digests ← packets.mapM (packetCommitmentV1 H)
  let commitments := (digests.map Subtype.val).insertionSort (· ≤ ·)
  let root ← HashPy.ofHash (hashConcat H commitments)
  pure {
    epoch := epoch
    bucketId := bucketId
    packetCommitments := commitments
    packetsRoot := root.val }

/-- `verify_bucket_manifest`. -/
def verifyBucketManifest (H : HashFunction) (manifest : BucketManifest) : Logged Bytes Bool := do
  let root ← hashConcat H manifest.packetCommitments
  pure (root.val == manifest.packetsRoot)

/-- `encode_bucket_manifest_v1`. -/
def encodeBucketManifestV1 (manifest : BucketManifest) : Py Bytes := do
  raiseIf (manifest.epoch < 0 ∨ manifest.bucketId < 0)
    "manifest numeric fields must be non-negative"
  raiseIf (manifest.packetsRoot.length ≠ 32) "packets_root must be 32 bytes"
  raiseIf (∃ commitment ∈ manifest.packetCommitments, commitment.length ≠ 32)
    "packet commitments must be 32 bytes"
  let packetCount := manifest.packetCommitments.length
  raiseIf (packetCount > 0xFFFFFFFF) "packet_count out of range"
  let epoch ← intToBytes manifest.epoch 8
  let bucketId ← intToBytes manifest.bucketId 4
  let count ← intToBytes packetCount 4
  pure ([wireVersionV1] ++ epoch ++ bucketId ++ count ++ manifest.packetCommitments.flatten ++
    manifest.packetsRoot)

/-- `decode_bucket_manifest_v1` up to the check of `packets_root`. -/
def decodeManifestFields (blob : Bytes) : Py BucketManifest := do
  let (versionRaw, offset) ← readExact blob 0 1
  raiseIf (versionRaw.head? ≠ some wireVersionV1) "unknown version"
  let (epochRaw, offset) ← readExact blob offset 8
  let (bucketIdRaw, offset) ← readExact blob offset 4
  let (packetCountRaw, offset) ← readExact blob offset 4
  let packetCount := beToNat packetCountRaw
  raiseIf (packetCount > maxManifestPacketCount) "packet_count exceeds configured maximum"
  let (commitments, offset) ← readMany blob 32 packetCount offset
  let (packetsRoot, offset) ← readExact blob offset 32
  raiseIf (offset ≠ blob.length) "truncated payload"
  pure {
    epoch := intFromBytes epochRaw
    bucketId := intFromBytes bucketIdRaw
    packetCommitments := commitments
    packetsRoot := packetsRoot }

/-- `decode_bucket_manifest_v1`. -/
def decodeBucketManifestV1 (H : HashFunction) (blob : Bytes) : HashPy BucketManifest := do
  let manifest ← HashPy.ofPy (decodeManifestFields blob)
  let valid ← HashPy.ofHash (verifyBucketManifest H manifest)
  HashPy.ofPy (raiseIf (¬ valid) "packets_root mismatch")
  pure manifest

/-! ## The digest of a list -/

variable {H : HashFunction}

/-- A link has at least the 32 bytes of a digest. -/
theorem nil_ne_chainLink (current : Digest) (item : Bytes) : [] ≠ chainLink current item := by
  intro h
  have hlen := congrArg List.length h
  rw [chainLink, List.length_append, BytesN.length_val, List.length_nil] at hlen
  omega

/-- A link is made of its digest and its item in one way, since digests are of one width. -/
theorem chainLink_inj (d : Digest) (x : Bytes) (d' : Digest) (x' : Bytes)
    (h : chainLink d x = chainLink d' x') : d = d' ∧ x = x' := by
  obtain ⟨hd, hx⟩ := List.append_inj h (by rw [BytesN.length_val, BytesN.length_val])
  exact ⟨Subtype.val_injective hd, hx⟩

/-- **`_hash_concat`** commits to its list. -/
theorem hashConcat_inj {xs ys : List Bytes} (h : (hashConcat H xs).val = (hashConcat H ys).val) :
    xs = ys ∨ Collision H ((hashConcat H xs).queries ++ (hashConcat H ys).queries) :=
  HashChain.chain_inj nil_ne_chainLink chainLink_inj h

theorem verifyBucketManifest_eq_true_iff {manifest : BucketManifest} :
    (verifyBucketManifest H manifest).val = true ↔
      (hashConcat H manifest.packetCommitments).val.val = manifest.packetsRoot := beq_iff_eq

theorem queries_verifyBucketManifest (manifest : BucketManifest) :
    (verifyBucketManifest H manifest).queries =
      (hashConcat H manifest.packetCommitments).queries := List.append_nil _

/-- **`packets_root` commits to the list of a manifest**: verified manifests with one root list
the same commitments in the same order, or two of the strings that their verification hashes
collide. -/
theorem packetsRoot_binds (H : HashFunction) (manifest manifest' : BucketManifest)
    (hverify : (verifyBucketManifest H manifest).val = true)
    (hverify' : (verifyBucketManifest H manifest').val = true)
    (hroot : manifest.packetsRoot = manifest'.packetsRoot) :
    manifest.packetCommitments = manifest'.packetCommitments ∨
      Collision H ((verifyBucketManifest H manifest).queries ++
        (verifyBucketManifest H manifest').queries) := by
  have hval := verifyBucketManifest_eq_true_iff.mp hverify
  have hval' := verifyBucketManifest_eq_true_iff.mp hverify'
  rw [queries_verifyBucketManifest, queries_verifyBucketManifest]
  apply hashConcat_inj
  apply Subtype.val_injective
  rw [hval, hval', hroot]

/-- A manifest of three commitments, in an epoch. -/
def threeCommitmentsManifest (epoch : ℤ) : BucketManifest where
  epoch := epoch
  bucketId := 0
  packetCommitments := [zeroBytes 32, natToBE 32 1, natToBE 32 2]
  packetsRoot := (hashConcat placeHash [zeroBytes 32, natToBE 32 1, natToBE 32 2]).val.val

/-- Manifests of two epochs with one root. -/
theorem packetsRoot_binds_three :
    (threeCommitmentsManifest 0).packetCommitments =
        (threeCommitmentsManifest 1).packetCommitments ∨
      Collision placeHash ((verifyBucketManifest placeHash (threeCommitmentsManifest 0)).queries ++
        (verifyBucketManifest placeHash (threeCommitmentsManifest 1)).queries) :=
  packetsRoot_binds placeHash (threeCommitmentsManifest 0) (threeCommitmentsManifest 1)
    (verifyBucketManifest_eq_true_iff.mpr rfl) (verifyBucketManifest_eq_true_iff.mpr rfl) rfl

/-! ## The format -/

/-- The manifests that have a wire form. -/
structure ManifestEncodable (m : BucketManifest) : Prop where
  epoch_nonneg : 0 ≤ m.epoch
  epoch_lt : m.epoch < 256 ^ 8
  bucketId_nonneg : 0 ≤ m.bucketId
  bucketId_lt : m.bucketId < 256 ^ 4
  commitments_width : ∀ commitment ∈ m.packetCommitments, commitment.length = 32
  commitments_length : m.packetCommitments.length ≤ 0xFFFFFFFF
  packetsRoot_width : m.packetsRoot.length = 32

/-- The wire form of a manifest. -/
def manifestBytes (m : BucketManifest) : Bytes :=
  [wireVersionV1] ++ natToBE 8 m.epoch.toNat ++ natToBE 4 m.bucketId.toNat ++
    natToBE 4 m.packetCommitments.length ++ m.packetCommitments.flatten ++ m.packetsRoot

/-- **The manifest writer** accepts the encodable manifests and writes their wire form. -/
theorem encodeBucketManifestV1_eq_ok_iff {m : BucketManifest} {blob : Bytes} :
    encodeBucketManifestV1 m = .ok blob ↔ ManifestEncodable m ∧ blob = manifestBytes m := by
  simp only [encodeBucketManifestV1, py_bind_eq_ok_iff, raiseIf_eq_ok_iff, exists_const,
    intToBytes_eq_ok_iff, not_exists, not_and, not_or, not_not, not_lt, Int.toNat_natCast, pure,
    Except.pure, Except.ok.injEq]
  constructor
  · rintro ⟨⟨hepoch, hbucket⟩, hroot, hwidths, hcount, epoch, ⟨-, hepochLt, rfl⟩, bucket,
      ⟨-, hbucketLt, rfl⟩, count, ⟨-, -, rfl⟩, rfl⟩
    exact ⟨⟨hepoch, hepochLt, hbucket, hbucketLt, hwidths, hcount, hroot⟩, rfl⟩
  · rintro ⟨h, rfl⟩
    have hcountLt : (m.packetCommitments.length : ℤ) < 256 ^ 4 := by
      have := h.commitments_length
      omega
    exact ⟨⟨h.epoch_nonneg, h.bucketId_nonneg⟩, h.packetsRoot_width, h.commitments_width,
      h.commitments_length, _, ⟨h.epoch_nonneg, h.epoch_lt, rfl⟩, _,
      ⟨h.bucketId_nonneg, h.bucketId_lt, rfl⟩, _, ⟨Int.natCast_nonneg _, hcountLt, rfl⟩, rfl⟩

/-- **The manifest reader, up to the check of the root**: it accepts exactly the wire forms of
encodable manifests within its limit. -/
theorem decodeManifestFields_eq_ok_iff {m : BucketManifest} {blob : Bytes} :
    decodeManifestFields blob = .ok m ↔
      ManifestEncodable m ∧ m.packetCommitments.length ≤ maxManifestPacketCount ∧
        blob = manifestBytes m := by
  simp only [decodeManifestFields, py_bind_eq_ok_iff, raiseIf_eq_ok_iff, exists_const, Prod.exists,
    readExact_eq_ok_iff, not_lt, not_not, pure, Except.pure, Except.ok.injEq]
  constructor
  · rintro ⟨version, o₁, ⟨hversionLen, hversion⟩, hv1, epoch, o₂, ⟨hepochLen, hepoch⟩, bucket, o₃,
      ⟨hbucketLen, hbucket⟩, count, o₄, ⟨hcountLen, hcount⟩, hmax, commitments, o₅, hcommitments,
      root, o₆, ⟨hrootLen, hroot⟩, rfl, rfl⟩
    obtain ⟨hlen, hwidths, hspan⟩ := (readMany_eq_ok_iff hcount.end_le).mp hcommitments
    -- the counter spells the number of the commitments
    have hcountEq : count = natToBE 4 commitments.length := eq_natToBE hcountLen hlen.symm
    have hwhole := ((((hversion.append hepoch).append hbucket).append hcount).append hspan).append
      hroot
    rw [eq_singleton_of_head? hversionLen hv1, hcountEq] at hwhole
    have hbytes := spans_zero_iff.mp hwhole
    have hcountMax : commitments.length ≤ maxManifestPacketCount := by
      rw [hlen]
      exact hmax
    refine ⟨⟨intFromBytes_nonneg _, intFromBytes_lt hepochLen, intFromBytes_nonneg _,
      intFromBytes_lt hbucketLen, hwidths, le_trans hcountMax (by decide), hrootLen⟩, hcountMax, ?_⟩
    rw [manifestBytes, natToBE_intFromBytes hepochLen, natToBE_intFromBytes hbucketLen]
    exact hbytes.symm
  · rintro ⟨h, hmax, rfl⟩
    -- cut the wire form at the fields, from the last one back
    have hwhole := spans_zero_iff.mpr (rfl : manifestBytes m = manifestBytes m)
    obtain ⟨o₅, hspan, hroot⟩ := Spans.append_iff.mp hwhole
    obtain ⟨o₄, hspan, hcommitments⟩ := Spans.append_iff.mp hspan
    obtain ⟨o₃, hspan, hcount⟩ := Spans.append_iff.mp hspan
    obtain ⟨o₂, hspan, hbucket⟩ := Spans.append_iff.mp hspan
    obtain ⟨o₁, hversion, hepoch⟩ := Spans.append_iff.mp hspan
    have hcountVal : beToNat (natToBE 4 m.packetCommitments.length) = m.packetCommitments.length :=
      beToNat_natToBE (by have := h.commitments_length; omega)
    refine ⟨[wireVersionV1], o₁, ⟨rfl, hversion⟩, rfl, _, o₂, ⟨length_natToBE _ _, hepoch⟩, _, o₃,
      ⟨length_natToBE _ _, hbucket⟩, _, o₄, ⟨length_natToBE _ _, hcount⟩, ?_, m.packetCommitments,
      o₅, ?_, m.packetsRoot, _, ⟨h.packetsRoot_width, hroot⟩, rfl, ?_⟩
    · rw [hcountVal]
      exact hmax
    · exact (readMany_eq_ok_iff hcount.end_le).mpr
        ⟨hcountVal.symm, h.commitments_width, hcommitments⟩
    · rw [intFromBytes_natToBE h.epoch_nonneg h.epoch_lt,
        intFromBytes_natToBE h.bucketId_nonneg h.bucketId_lt]

/-- **`decode_bucket_manifest_v1`** accepts exactly what the writer writes for verified manifests
within the limit. -/
theorem outcome_decodeBucketManifestV1_iff {m : BucketManifest} {blob : Bytes} :
    (decodeBucketManifestV1 H blob).outcome = .ok m ↔
      encodeBucketManifestV1 m = .ok blob ∧
        m.packetCommitments.length ≤ maxManifestPacketCount ∧
        (verifyBucketManifest H m).val = true := by
  simp only [decodeBucketManifestV1, HashPy.outcome_bind, HashPy.outcome_ofPy,
    HashPy.outcome_ofHash, HashPy.outcome_pure, py_bind_eq_ok_iff, raiseIf_eq_ok_iff, exists_const,
    decodeManifestFields_eq_ok_iff, encodeBucketManifestV1_eq_ok_iff, not_not, Except.ok.injEq]
  constructor
  · rintro ⟨m', ⟨h, hmax, rfl⟩, -, rfl, hverify, rfl⟩
    exact ⟨⟨h, rfl⟩, hmax, hverify⟩
  · rintro ⟨⟨h, rfl⟩, hmax, hverify⟩
    exact ⟨m, ⟨h, hmax, rfl⟩, _, rfl, hverify, rfl⟩

/-! ## Generated manifests -/

/-- The commitments of some packets, sorted. -/
def sortedCommitments (H : HashFunction) (packets : List StemWitnessPacket) : List Bytes :=
  (packets.map fun packet => (H (packetBytes packet)).val).insertionSort (· ≤ ·)

/-- The manifest of some packets. -/
def manifestOf (H : HashFunction) (epoch bucketId : ℤ) (packets : List StemWitnessPacket) :
    BucketManifest where
  epoch := epoch
  bucketId := bucketId
  packetCommitments := sortedCommitments H packets
  packetsRoot := (hashConcat H (sortedCommitments H packets)).val.val

theorem outcome_packetCommitmentV1_eq_ok_iff {packet : StemWitnessPacket} {d : Digest} :
    (packetCommitmentV1 H packet).outcome = .ok d ↔
      PacketEncodable packet ∧ H (packetBytes packet) = d := by
  simp only [packetCommitmentV1, HashPy.outcome_bind, HashPy.outcome_ofPy, py_bind_eq_ok_iff,
    packetPayload_eq_ok_iff, HashPy.outcome_ofHash, val_treeHash, Except.ok.injEq]
  constructor
  · rintro ⟨payload, ⟨h, rfl⟩, rfl⟩
    exact ⟨h, rfl⟩
  · rintro ⟨h, rfl⟩
    exact ⟨_, ⟨h, rfl⟩, rfl⟩

/-- **`build_bucket_manifest`** returns on packets of its epoch and bucket that have a wire form,
and makes their manifest. -/
theorem outcome_buildBucketManifest_iff {epoch bucketId : ℤ} {packets : List StemWitnessPacket}
    {m : BucketManifest} :
    (buildBucketManifest H epoch bucketId packets).outcome = .ok m ↔
      (∀ packet ∈ packets, packet.epoch = epoch ∧ packet.bucketId = bucketId) ∧
        (∀ packet ∈ packets, PacketEncodable packet) ∧
        manifestOf H epoch bucketId packets = m := by
  have hcheck : ∀ packet, checkBucketPacket epoch bucketId packet = .ok () ↔
      packet.epoch = epoch ∧ packet.bucketId = bucketId := by
    intro packet
    simp only [checkBucketPacket, py_bind_eq_ok_iff, raiseIf_eq_ok_iff, not_not, exists_const]
  have hdigests : ∀ digests, (packets.mapM (packetCommitmentV1 H)).outcome = .ok digests ↔
      (∀ packet ∈ packets, PacketEncodable packet) ∧
        packets.map (fun packet => H (packetBytes packet)) = digests := by
    intro digests
    rw [HashPy.outcome_mapM, mapM_eq_ok_iff]
    simp only [outcome_packetCommitmentV1_eq_ok_iff]
    rw [List.forall₂_and_left, ← List.forall₂_map_left_iff, List.forall₂_eq_eq_eq]
  simp only [buildBucketManifest, HashPy.outcome_bind, HashPy.outcome_ofPy, HashPy.outcome_ofHash,
    HashPy.outcome_pure, py_bind_eq_ok_iff, forM_eq_ok_iff, hcheck, hdigests, exists_const,
    Except.ok.injEq]
  constructor
  · rintro ⟨hpackets, digests, ⟨hencodable, rfl⟩, root, rfl, rfl⟩
    refine ⟨hpackets, hencodable, ?_⟩
    rw [manifestOf, sortedCommitments, List.map_map]
    rfl
  · rintro ⟨hpackets, hencodable, rfl⟩
    refine ⟨hpackets, _, ⟨hencodable, rfl⟩, _, rfl, ?_⟩
    rw [manifestOf, sortedCommitments, List.map_map]
    rfl

theorem length_sortedCommitments (packets : List StemWitnessPacket) :
    (sortedCommitments H packets).length = packets.length := by
  rw [sortedCommitments, List.length_insertionSort, List.length_map]

theorem width_sortedCommitments (packets : List StemWitnessPacket) :
    ∀ commitment ∈ sortedCommitments H packets, commitment.length = 32 := by
  intro commitment hcommitment
  rw [sortedCommitments, List.mem_insertionSort] at hcommitment
  obtain ⟨packet, -, rfl⟩ := List.mem_map.mp hcommitment
  exact BytesN.length_val _

theorem verifyBucketManifest_manifestOf (epoch bucketId : ℤ) (packets : List StemWitnessPacket) :
    (verifyBucketManifest H (manifestOf H epoch bucketId packets)).val = true :=
  verifyBucketManifest_eq_true_iff.mpr rfl

/-- The numbers that the wire form of a manifest has room for. -/
def ManifestNumbers (epoch bucketId : ℤ) : Prop :=
  0 ≤ epoch ∧ epoch < 256 ^ 8 ∧ 0 ≤ bucketId ∧ bucketId < 256 ^ 4

/-- **Generated manifests survive** the codec: those of at least one packet, since the packet was
hashed with the numbers of the manifest, and the empty ones whose numbers fit. -/
theorem decode_encode_of_build {epoch bucketId : ℤ} {packets : List StemWitnessPacket}
    {m : BucketManifest} (hbuild : (buildBucketManifest H epoch bucketId packets).outcome = .ok m)
    (hmax : packets.length ≤ maxManifestPacketCount)
    (hnumbers : packets ≠ [] ∨ ManifestNumbers epoch bucketId) :
    ∃ blob, encodeBucketManifestV1 m = .ok blob ∧
      (decodeBucketManifestV1 H blob).outcome = .ok m := by
  obtain ⟨hpackets, hencodable, rfl⟩ := outcome_buildBucketManifest_iff.mp hbuild
  have hfits : ManifestNumbers epoch bucketId := by
    rcases hnumbers with hne | hfits
    · obtain ⟨packet, hmem⟩ := List.exists_mem_of_ne_nil packets hne
      obtain ⟨rfl, rfl⟩ := hpackets packet hmem
      have h := hencodable packet hmem
      exact ⟨h.epoch_nonneg, h.epoch_lt, h.bucketId_nonneg, h.bucketId_lt⟩
    · exact hfits
  obtain ⟨hepoch, hepochLt, hbucket, hbucketLt⟩ := hfits
  have hlen : (sortedCommitments H packets).length ≤ maxManifestPacketCount := by
    rw [length_sortedCommitments]
    exact hmax
  have hcount : (sortedCommitments H packets).length ≤ 0xFFFFFFFF := le_trans hlen (by decide)
  have henc : encodeBucketManifestV1 (manifestOf H epoch bucketId packets) =
      .ok (manifestBytes (manifestOf H epoch bucketId packets)) := by
    refine encodeBucketManifestV1_eq_ok_iff.mpr ⟨?_, rfl⟩
    exact ⟨hepoch, hepochLt, hbucket, hbucketLt, width_sortedCommitments packets, hcount,
      BytesN.length_val _⟩
  exact ⟨_, henc, outcome_decodeBucketManifestV1_iff.mpr
    ⟨henc, hlen, verifyBucketManifest_manifestOf epoch bucketId packets⟩⟩

/-- **`SUB_REG_V1` and `BUCKET_MANIFEST_V1` are exact formats.**  A registration that is written
is read back, and what is read is written as the string it was read from; a manifest that is read
is written as its string and verifies, and a generated manifest of at most
`MAX_MANIFEST_PACKET_COUNT` packets survives, if it has a packet or its numbers fit. -/
theorem wireFormats_exact (H : HashFunction) :
    (∀ r blob, encodeSubscriptionRegistrationV1 r = .ok blob →
      decodeSubscriptionRegistrationV1 blob = .ok r) ∧
    (∀ r blob, decodeSubscriptionRegistrationV1 blob = .ok r →
      encodeSubscriptionRegistrationV1 r = .ok blob) ∧
    (∀ m blob, (decodeBucketManifestV1 H blob).outcome = .ok m →
      encodeBucketManifestV1 m = .ok blob ∧ (verifyBucketManifest H m).val = true) ∧
    ∀ epoch bucketId packets m,
      (buildBucketManifest H epoch bucketId packets).outcome = .ok m →
      packets.length ≤ maxManifestPacketCount →
      packets ≠ [] ∨ ManifestNumbers epoch bucketId →
      ∃ blob, encodeBucketManifestV1 m = .ok blob ∧
        (decodeBucketManifestV1 H blob).outcome = .ok m := by
  refine ⟨?_, ?_, ?_, ?_⟩
  · intro r blob h
    exact decodeSubscriptionRegistrationV1_iff_encode.mpr h
  · intro r blob h
    exact decodeSubscriptionRegistrationV1_iff_encode.mp h
  · intro m blob h
    obtain ⟨henc, -, hverify⟩ := outcome_decodeBucketManifestV1_iff.mp h
    exact ⟨henc, hverify⟩
  · intro epoch bucketId packets m hbuild hmax hnumbers
    exact decode_encode_of_build hbuild hmax hnumbers

/-- **An empty bucket of a negative epoch**: the manifest is made, since there is no packet to
check, but it cannot be written. -/
theorem empty_manifest_not_encodable :
    (buildBucketManifest (fun _ => emptyValue) (-1) 0 []).outcome =
      .ok (manifestOf (fun _ => emptyValue) (-1) 0 []) ∧
    ∀ blob, encodeBucketManifestV1 (manifestOf (fun _ => emptyValue) (-1) 0 []) ≠ .ok blob := by
  constructor
  · refine outcome_buildBucketManifest_iff.mpr ⟨?_, ?_, rfl⟩
    · intro packet hpacket
      exact absurd hpacket List.not_mem_nil
    · intro packet hpacket
      exact absurd hpacket List.not_mem_nil
  · intro blob h
    have hepoch := (encodeBucketManifestV1_eq_ok_iff.mp h).1.epoch_nonneg
    exact absurd hepoch (by decide)

end Pbt
