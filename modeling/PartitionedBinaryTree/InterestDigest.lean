/-
# Interest digests (`pbt/stem_subscription.py`)

A wallet commits to the stems it is interested in by a keyed Bloom digest or by a keyed
accumulator.  Neither shows the order in which the stems were given: the accumulator sorts what
it hashes, and the bits of the Bloom filter are set by steps that commute and of which a second
one does nothing, so that repetitions do not show either.

`builders_unordered` says so of them and of the other builders of commitments over lists.
-/
import PartitionedBinaryTree.Lib.SetFold
import PartitionedBinaryTree.StateLens
import PartitionedBinaryTree.WitnessBundle

namespace Pbt

/-! ## The functions of the source -/

/-- `b"pbt-interest-bloom-v1"`. -/
def bloomDomain : Bytes :=
  [112, 98, 116, 45, 105, 110, 116, 101, 114, 101, 115, 116, 45, 98, 108, 111, 111, 109, 45, 118,
    49]

/-- `b"pbt-acc-entry-v1"`. -/
def accEntryDomain : Bytes :=
  [112, 98, 116, 45, 97, 99, 99, 45, 101, 110, 116, 114, 121, 45, 118, 49]

/-- `bitset[idx // 8] |= 1 << (idx % 8)`. -/
def setBit (bitset : Bytes) (idx : ℕ) : Bytes :=
  bitset.modify (idx / 8) (· ||| UInt8.ofNat (1 <<< (idx % 8)))

/-- `int.from_bytes(digest[:8], "big") % m_bits`. -/
def bloomIndex (digest : Digest) (mBits : ℤ) : ℕ :=
  (intFromBytes (digest.val.take 8) % mBits).toNat

/-- The inner loop of `make_keyed_bloom_interest_digest`, for the stem `stem`. -/
def addStemBits (H : HashFunction) (keyedSecret : Bytes) (mBits kHashes : ℤ) (bitset stem : Bytes) :
    HashPy Bytes :=
  (List.range kHashes.toNat).foldlM (fun bitset (i : ℕ) => do
    let iBytes ← HashPy.ofPy (intToBytes i 2)
    let digest ← HashPy.ofHash (treeHash H (bloomDomain ++ keyedSecret ++ iBytes ++ stem))
    pure (setBit bitset (bloomIndex digest mBits))) bitset

/-- `make_keyed_bloom_interest_digest`. -/
def makeKeyedBloomInterestDigest (H : HashFunction) (stems : List Bytes) (keyedSecret : Bytes)
    (mBits : ℤ := 2048) (kHashes : ℤ := 5) : HashPy Digest := do
  HashPy.ofPy (raiseIf (mBits ≤ 0 ∨ mBits % 8 ≠ 0) "m_bits must be a positive multiple of 8")
  HashPy.ofPy (raiseIf (kHashes ≤ 0) "k_hashes must be positive")
  let bitset ← stems.foldlM (addStemBits H keyedSecret mBits kHashes) (zeroBytes (mBits / 8).toNat)
  HashPy.ofHash (treeHash H bitset)

/-- `make_accumulator_interest_digest`. -/
def makeAccumulatorInterestDigest (H : HashFunction) (stems : List Bytes) (keyedSecret : Bytes) :
    HashPy Digest := do
  let digests ← stems.mapM fun stem =>
    HashPy.ofHash (treeHash H (accEntryDomain ++ keyedSecret ++ stem))
  let entries := (digests.map Subtype.val).insertionSort (· ≤ ·)
  HashPy.ofHash (hashConcat H entries)

/-! ## Setting bits -/

/-- Bits are set in any order. -/
instance rightCommutative_setBit : RightCommutative setBit where
  right_comm bitset i j := by
    rw [setBit, setBit, setBit, setBit]
    by_cases hbyte : i / 8 = j / 8
    · rw [hbyte, List.modify_modify_eq, List.modify_modify_eq]
      congr 1
      funext byte
      simp only [Function.comp_apply, UInt8.or_assoc]
      rw [UInt8.or_comm (UInt8.ofNat (1 <<< (i % 8)))]
    · rw [List.modify_modify_ne _ _ _ hbyte]

/-- A bit that is set stays as it is when it is set again. -/
theorem setBit_setBit (bitset : Bytes) (idx : ℕ) :
    setBit (setBit bitset idx) idx = setBit bitset idx := by
  rw [setBit, setBit, List.modify_modify_eq]
  congr 1
  funext byte
  simp only [Function.comp_apply, UInt8.or_assoc, UInt8.or_self]

/-! ## The Bloom filter -/

variable {H : HashFunction}

/-- The positions of a stem in the Bloom filter. -/
def stemIndices (H : HashFunction) (keyedSecret : Bytes) (mBits kHashes : ℤ) (stem : Bytes) :
    List ℕ :=
  (List.range kHashes.toNat).map fun i =>
    bloomIndex (H (bloomDomain ++ keyedSecret ++ natToBE 2 i ++ stem)) mBits

/-- The Bloom filter of some stems. -/
def bloomBits (H : HashFunction) (keyedSecret : Bytes) (mBits kHashes : ℤ) (stems : List Bytes) :
    Bytes :=
  (stems.flatMap (stemIndices H keyedSecret mBits kHashes)).foldl setBit
    (zeroBytes (mBits / 8).toNat)

/-- The bits of a stem are set, unless a counter does not fit its two bytes. -/
theorem outcome_addStemBits_iff {keyedSecret bitset stem bits : Bytes} {mBits kHashes : ℤ} :
    (addStemBits H keyedSecret mBits kHashes bitset stem).outcome = .ok bits ↔
      (∀ i ∈ List.range kHashes.toNat, i < 256 ^ 2) ∧
        (stemIndices H keyedSecret mBits kHashes stem).foldl setBit bitset = bits := by
  rw [addStemBits, HashPy.outcome_foldlM, stemIndices, List.foldl_map]
  refine foldlM_eq_ok_iff fun bitset i bits => ?_
  simp only [HashPy.outcome_bind, HashPy.outcome_ofPy, HashPy.outcome_ofHash, HashPy.outcome_pure,
    py_bind_eq_ok_iff, intToBytes_eq_ok_iff, val_treeHash, Except.ok.injEq]
  constructor
  · rintro ⟨iBytes, ⟨-, hlt, rfl⟩, digest, rfl, rfl⟩
    exact ⟨by exact_mod_cast hlt, rfl⟩
  · rintro ⟨hlt, rfl⟩
    exact ⟨_, ⟨Int.natCast_nonneg i, by exact_mod_cast hlt, rfl⟩, _, rfl, rfl⟩

/-- **`make_keyed_bloom_interest_digest`** hashes the Bloom filter of the stems. -/
theorem outcome_makeKeyedBloomInterestDigest_iff {stems : List Bytes} {keyedSecret : Bytes}
    {mBits kHashes : ℤ} {d : Digest} :
    (makeKeyedBloomInterestDigest H stems keyedSecret mBits kHashes).outcome = .ok d ↔
      (0 < mBits ∧ mBits % 8 = 0) ∧ 0 < kHashes ∧
        (∀ stem ∈ stems, ∀ i ∈ List.range kHashes.toNat, i < 256 ^ 2) ∧
        H (bloomBits H keyedSecret mBits kHashes stems) = d := by
  have hloop : ∀ bits, (stems.foldlM (fun bitset stem =>
        (addStemBits H keyedSecret mBits kHashes bitset stem).outcome)
        (zeroBytes (mBits / 8).toNat)) = .ok bits ↔
      (∀ stem ∈ stems, ∀ i ∈ List.range kHashes.toNat, i < 256 ^ 2) ∧
        bloomBits H keyedSecret mBits kHashes stems = bits := by
    intro bits
    rw [bloomBits, List.foldl_flatMap]
    exact foldlM_eq_ok_iff fun bitset stem bits => outcome_addStemBits_iff
  simp only [makeKeyedBloomInterestDigest, HashPy.outcome_bind, HashPy.outcome_ofPy,
    HashPy.outcome_foldlM, HashPy.outcome_ofHash, py_bind_eq_ok_iff, raiseIf_eq_ok_iff, hloop,
    exists_const, not_or, not_le, not_not, val_treeHash, Except.ok.injEq]
  constructor
  · rintro ⟨hbits, hhashes, _, ⟨hcounters, rfl⟩, rfl⟩
    exact ⟨hbits, hhashes, hcounters, rfl⟩
  · rintro ⟨hbits, hhashes, hcounters, rfl⟩
    exact ⟨hbits, hhashes, _, ⟨hcounters, rfl⟩, rfl⟩

/-- The Bloom filter of a set of stems. -/
theorem bloomBits_eq_of_mem_iff {keyedSecret : Bytes} {mBits kHashes : ℤ} {stems stems' : List Bytes}
    (h : ∀ stem, stem ∈ stems ↔ stem ∈ stems') :
    bloomBits H keyedSecret mBits kHashes stems = bloomBits H keyedSecret mBits kHashes stems' := by
  apply SetFold.foldl_eq_of_mem_iff setBit_setBit
  intro idx
  rw [List.mem_flatMap, List.mem_flatMap]
  exact exists_congr fun stem => and_congr_left' (h stem)

/-! ## The accumulator -/

/-- The sorted entries of the accumulator. -/
def sortedEntries (H : HashFunction) (stems : List Bytes) (keyedSecret : Bytes) : List Bytes :=
  (stems.map fun stem => (H (accEntryDomain ++ keyedSecret ++ stem)).val).insertionSort (· ≤ ·)

/-- **`make_accumulator_interest_digest`** hashes the sorted entries. -/
theorem outcome_makeAccumulatorInterestDigest (H : HashFunction) (stems : List Bytes)
    (keyedSecret : Bytes) : (makeAccumulatorInterestDigest H stems keyedSecret).outcome =
      .ok (hashConcat H (sortedEntries H stems keyedSecret)).val := by
  have hdigests : (stems.mapM fun stem =>
      HashPy.ofHash (treeHash H (accEntryDomain ++ keyedSecret ++ stem))).outcome =
      .ok (stems.map fun stem => H (accEntryDomain ++ keyedSecret ++ stem)) := by
    rw [HashPy.outcome_mapM, mapM_eq_ok_iff]
    simp only [HashPy.outcome_ofHash, val_treeHash, Except.ok.injEq]
    rw [← List.forall₂_map_left_iff, List.forall₂_eq_eq_eq]
  have hentries : (stems.map fun stem => H (accEntryDomain ++ keyedSecret ++ stem)).map Subtype.val =
      stems.map fun stem => (H (accEntryDomain ++ keyedSecret ++ stem)).val := List.map_map
  rw [makeAccumulatorInterestDigest, HashPy.outcome_bind, hdigests, py_ok_bind, sortedEntries,
    ← hentries]
  rfl

/-! ## Builders that do not show the order -/

/-- Two calls return equal results, or both raise. -/
def SameOutcome {α : Type} (x y : HashPy α) : Prop :=
  (∃ a, x.outcome = .ok a ∧ y.outcome = .ok a) ∨
    ((∃ e, x.outcome = .error e) ∧ ∃ e, y.outcome = .error e)

/-- The builder does the same on a list and on every permutation of it. -/
def Unordered {α β : Type} (build : List α → HashPy β) : Prop :=
  ∀ items items', items.Perm items' → SameOutcome (build items) (build items')

/-- The builder does the same on lists with the same items, however often they occur. -/
def UnorderedUnrepeated {α β : Type} (build : List α → HashPy β) : Prop :=
  ∀ items items', (∀ a, a ∈ items ↔ a ∈ items') → SameOutcome (build items) (build items')

theorem sameOutcome_of_iff {α : Type} {x y : HashPy α}
    (h : ∀ a, x.outcome = .ok a ↔ y.outcome = .ok a) : SameOutcome x y := by
  cases hx : x.outcome with
  | ok a => exact Or.inl ⟨a, hx, (h a).mp hx⟩
  | error e =>
      cases hy : y.outcome with
      | ok a => cases hx.symm.trans ((h a).mpr hy)
      | error e' => exact Or.inr ⟨⟨e, hx⟩, e', hy⟩

theorem SameOutcome.refl {α : Type} (x : HashPy α) : SameOutcome x x :=
  sameOutcome_of_iff fun _ => Iff.rfl

theorem UnorderedUnrepeated.unordered {α β : Type} {build : List α → HashPy β}
    (h : UnorderedUnrepeated build) : Unordered build :=
  fun items items' hperm => h items items' fun _ => hperm.mem_iff

theorem insertionSort_eq_of_perm {xs ys : List Bytes} (h : xs.Perm ys) :
    xs.insertionSort (· ≤ ·) = ys.insertionSort (· ≤ ·) := by
  have hperm : (xs.insertionSort (· ≤ ·)).Perm (ys.insertionSort (· ≤ ·)) :=
    ((List.perm_insertionSort _ xs).trans h).trans (List.perm_insertionSort _ ys).symm
  exact hperm.eq_of_pairwise' (List.pairwise_insertionSort _ xs) (List.pairwise_insertionSort _ ys)

theorem unordered_buildBucketManifest (epoch bucketId : ℤ) :
    Unordered (buildBucketManifest H epoch bucketId) := by
  intro packets packets' hperm
  have hsorted : sortedCommitments H packets = sortedCommitments H packets' :=
    insertionSort_eq_of_perm (hperm.map _)
  refine sameOutcome_of_iff fun m => ?_
  rw [outcome_buildBucketManifest_iff, outcome_buildBucketManifest_iff, manifestOf, manifestOf,
    hsorted]
  simp only [hperm.mem_iff]

theorem unordered_buildWitnessBundle (epoch blockNumber : ℤ)
    (blockRoot providerId encryptedBlobHash storageLocatorHash : Bytes) :
    Unordered fun commitments => buildWitnessBundle H epoch blockNumber blockRoot providerId
      encryptedBlobHash commitments storageLocatorHash := by
  intro commitments commitments' hperm
  dsimp only
  rw [buildWitnessBundle, buildWitnessBundle, insertionSort_eq_of_perm hperm]
  exact .refl _

theorem unordered_makeAccumulatorInterestDigest (keyedSecret : Bytes) :
    Unordered fun stems => makeAccumulatorInterestDigest H stems keyedSecret := by
  intro stems stems' hperm
  have hsorted : sortedEntries H stems keyedSecret = sortedEntries H stems' keyedSecret :=
    insertionSort_eq_of_perm (hperm.map _)
  refine sameOutcome_of_iff fun d => ?_
  rw [outcome_makeAccumulatorInterestDigest, outcome_makeAccumulatorInterestDigest, hsorted]

theorem unrepeated_makeKeyedBloomInterestDigest (keyedSecret : Bytes) (mBits kHashes : ℤ) :
    UnorderedUnrepeated fun stems =>
      makeKeyedBloomInterestDigest H stems keyedSecret mBits kHashes := by
  intro stems stems' hstems
  refine sameOutcome_of_iff fun d => ?_
  rw [outcome_makeKeyedBloomInterestDigest_iff, outcome_makeKeyedBloomInterestDigest_iff,
    bloomBits_eq_of_mem_iff hstems]
  simp only [hstems]

theorem unrepeated_deriveEphemeralStateLens (walletSecret scopeTag : Bytes)
    (currentEpoch ttlEpochs : ℤ) (maxUses : Option ℤ) :
    UnorderedUnrepeated fun targetStems => deriveEphemeralStateLens H targetStems walletSecret
      currentEpoch ttlEpochs scopeTag maxUses := by
  intro stems stems' hstems
  have hset : stems.toFinset = stems'.toFinset := by
    ext stem
    rw [List.mem_toFinset, List.mem_toFinset, hstems]
  dsimp only
  rw [deriveEphemeralStateLens, deriveEphemeralStateLens, hset]
  exact .refl _

/-- **Builders of commitments do not show the order of their inputs**: on a list and on every
permutation of it they return equal results or both raise, and the Bloom digest and the lens also
on lists that repeat items. -/
theorem builders_unordered (H : HashFunction) :
    (∀ epoch bucketId, Unordered (buildBucketManifest H epoch bucketId)) ∧
    (∀ epoch blockNumber blockRoot providerId encryptedBlobHash storageLocatorHash,
      Unordered fun packetCommitments => buildWitnessBundle H epoch blockNumber blockRoot
        providerId encryptedBlobHash packetCommitments storageLocatorHash) ∧
    (∀ keyedSecret, Unordered fun stems => makeAccumulatorInterestDigest H stems keyedSecret) ∧
    (∀ keyedSecret mBits kHashes, Unordered fun stems =>
      makeKeyedBloomInterestDigest H stems keyedSecret mBits kHashes) ∧
    (∀ walletSecret currentEpoch ttlEpochs scopeTag maxUses, Unordered fun targetStems =>
      deriveEphemeralStateLens H targetStems walletSecret currentEpoch ttlEpochs scopeTag
        maxUses) ∧
    (∀ keyedSecret mBits kHashes, UnorderedUnrepeated fun stems =>
      makeKeyedBloomInterestDigest H stems keyedSecret mBits kHashes) ∧
    (∀ walletSecret currentEpoch ttlEpochs scopeTag maxUses, UnorderedUnrepeated fun targetStems =>
      deriveEphemeralStateLens H targetStems walletSecret currentEpoch ttlEpochs scopeTag
        maxUses) := by
  refine ⟨unordered_buildBucketManifest, ?_, unordered_makeAccumulatorInterestDigest, ?_, ?_,
    unrepeated_makeKeyedBloomInterestDigest, ?_⟩
  · intro epoch blockNumber blockRoot providerId encryptedBlobHash storageLocatorHash
    exact unordered_buildWitnessBundle epoch blockNumber blockRoot providerId encryptedBlobHash
      storageLocatorHash
  · intro keyedSecret mBits kHashes
    exact (unrepeated_makeKeyedBloomInterestDigest keyedSecret mBits kHashes).unordered
  · intro walletSecret currentEpoch ttlEpochs scopeTag maxUses
    exact (unrepeated_deriveEphemeralStateLens walletSecret scopeTag currentEpoch ttlEpochs
      maxUses).unordered
  · intro walletSecret currentEpoch ttlEpochs scopeTag maxUses
    exact unrepeated_deriveEphemeralStateLens walletSecret scopeTag currentEpoch ttlEpochs maxUses

end Pbt
