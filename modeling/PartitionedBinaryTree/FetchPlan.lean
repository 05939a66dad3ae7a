/-
# Fetch plans (`pbt/stem_subscription.py`)

What a client asks for in one epoch: the buckets of the stems it wants, cover buckets
next to them, and the providers it asks.  All are derived from hashes, so that the plan
says nothing about the wanted stems beyond their buckets.

Python's sets of numbers are `Finset`s, and `sorted` of a set is `Finset.sort`.
`selectRedundantProviders_spec` says which providers a plan can name.
-/
import Mathlib.Data.Finset.Sort
import Mathlib.Data.Int.ConditionallyCompleteOrder
import PartitionedBinaryTree.FetchPolicy

namespace Pbt

/-! ## Buckets -/

/-- `b"pbt-bucket-v1"`. -/
def bucketDomain : Bytes := [112, 98, 116, 45, 98, 117, 99, 107, 101, 116, 45, 118, 49]

/-- `b"pbt-cover-v1"`. -/
def coverDomain : Bytes := [112, 98, 116, 45, 99, 111, 118, 101, 114, 45, 118, 49]

/-- `int.from_bytes(digest[:8], "big") % bucket_count`. -/
def bucketOfDigest (digest : Digest) (bucketCount : ℤ) : ℤ :=
  intFromBytes (digest.val.take 8) % bucketCount

/-- `bucket_for_stem`. -/
def bucketForStem (H : HashFunction) (stemPrefix : Bytes) (epoch bucketCount : ℤ)
    (globalSalt : Bytes) : HashPy ℤ := do
  HashPy.ofPy (raiseIf (bucketCount ≤ 0) "bucket_count must be positive")
  HashPy.ofPy (raiseIf (epoch < 0) "epoch must be non-negative")
  let epochBytes ← HashPy.ofPy (intToBytes epoch 8)
  let digest ← HashPy.ofHash (treeHash H (bucketDomain ++ globalSalt ++ epochBytes ++ stemPrefix))
  pure (bucketOfDigest digest bucketCount)

/-- The `while` loop of `build_cover_bucket_set`.  A nonce has four bytes, and the loop
raises at the first one that does not fit, before the fuel `coverFuel` runs out. -/
def addCoverBuckets (H : HashFunction) (wanted epoch : ℤ) (secretSeed : Bytes) (bucketCount : ℤ) :
    ℕ → ℤ → Finset ℤ → HashPy (Finset ℤ)
  | 0, _, _ => HashPy.ofPy (.error ⟨.overflowError, "int too big to convert"⟩)
  | fuel + 1, nonce, selected =>
      if selected.card < wanted then do
        let epochBytes ← HashPy.ofPy (intToBytes epoch 8)
        let nonceBytes ← HashPy.ofPy (intToBytes nonce 4)
        let candidateDigest ← HashPy.ofHash (treeHash H
          (coverDomain ++ secretSeed ++ epochBytes ++ nonceBytes))
        let candidate := bucketOfDigest candidateDigest bucketCount
        let selected := Insert.insert candidate selected
        if selected.card = bucketCount then pure selected
        else addCoverBuckets H wanted epoch secretSeed bucketCount fuel (nonce + 1) selected
      else pure selected

/-- One round for each nonce of four bytes, and one for the first that is longer. -/
def coverFuel : ℕ := 2 ^ 32 + 1

/-- `build_cover_bucket_set`. -/
def buildCoverBucketSet (H : HashFunction) (targetBuckets : Finset ℤ) (coverCount epoch : ℤ)
    (secretSeed : Bytes) (bucketCount : ℤ) : HashPy (List ℤ) := do
  HashPy.ofPy (raiseIf (coverCount < 0) "cover_count must be non-negative")
  HashPy.ofPy (raiseIf (bucketCount ≤ 0) "bucket_count must be positive")
  HashPy.ofPy (raiseIf (∃ bucket ∈ targetBuckets, bucket < 0 ∨ bucketCount ≤ bucket)
    "target bucket out of range")
  let selected ← addCoverBuckets H (targetBuckets.card + coverCount) epoch secretSeed bucketCount
    coverFuel 0 targetBuckets
  pure selected.sort

/-! ## Providers -/

/-- `b"pbt-provider-select-v1"`. -/
def providerSelectDomain : Bytes :=
  [112, 98, 116, 45, 112, 114, 111, 118, 105, 100, 101, 114, 45, 115, 101, 108, 101, 99, 116, 45,
    118, 49]

/-- The order of the pairs `(score, provider_id)`. -/
def scoreLe (a b : Bytes × Bytes) : Prop := a.1 < b.1 ∨ a.1 = b.1 ∧ a.2 ≤ b.2

instance : DecidableRel scoreLe := fun a b =>
  inferInstanceAs (Decidable (a.1 < b.1 ∨ a.1 = b.1 ∧ a.2 ≤ b.2))

/-- One round of the loop of `select_redundant_providers`. -/
def scoreProvider (H : HashFunction) (epoch : ℤ) (secretSeed providerId : Bytes) :
    HashPy (Bytes × Bytes) := do
  let epochBytes ← HashPy.ofPy (intToBytes epoch 8)
  let score ← HashPy.ofHash (treeHash H
    (providerSelectDomain ++ secretSeed ++ epochBytes ++ providerId))
  pure (score.val, providerId)

/-- `select_redundant_providers`. -/
def selectRedundantProviders (H : HashFunction) (availableProviderIds : List Bytes) (epoch : ℤ)
    (secretSeed : Bytes) (requiredCount : ℤ) (extraCount : ℤ := 0) : HashPy (List Bytes) := do
  HashPy.ofPy (raiseIf (epoch < 0) "epoch must be non-negative")
  HashPy.ofPy (raiseIf (requiredCount ≤ 0) "required_count must be positive")
  HashPy.ofPy (raiseIf (extraCount < 0) "extra_count must be non-negative")
  let deduped := availableProviderIds.toFinset.sort
  HashPy.ofPy (raiseIf (deduped.length < requiredCount)
    "insufficient providers for required_count")
  let scored ← deduped.mapM (scoreProvider H epoch secretSeed)
  let scored := scored.insertionSort scoreLe
  let take := min (scored.length : ℤ) (requiredCount + extraCount)
  pure ((scored.take take.toNat).map Prod.snd)

variable {H : HashFunction}

theorem scoreProvider_eq_ok {epoch : ℤ} {secretSeed providerId : Bytes} {pair : Bytes × Bytes}
    (h : (scoreProvider H epoch secretSeed providerId).outcome = .ok pair) :
    pair.2 = providerId := by
  rw [scoreProvider, HashPy.outcome_bind, py_bind_eq_ok_iff] at h
  obtain ⟨epochBytes, -, hscore⟩ := h
  cases hscore
  rfl

/-- **What is selected**: distinct available providers, as many as are wanted or, if there
are fewer, all. -/
theorem selectRedundantProviders_spec {availableProviderIds providers : List Bytes} {epoch : ℤ}
    {secretSeed : Bytes} {requiredCount extraCount : ℤ}
    (h : (selectRedundantProviders H availableProviderIds epoch secretSeed requiredCount
      extraCount).outcome = .ok providers) :
    providers.Nodup ∧ providers ⊆ availableProviderIds ∧
      (providers.length : ℤ) =
        min (availableProviderIds.toFinset.card : ℤ) (requiredCount + extraCount) := by
  simp only [selectRedundantProviders, HashPy.outcome_bind, HashPy.outcome_ofPy,
    HashPy.outcome_mapM, py_bind_eq_ok_iff, raiseIf_eq_ok_iff, mapM_eq_ok_iff, exists_and_left,
    exists_const, HashPy.outcome_pure, Except.ok.injEq] at h
  obtain ⟨-, hrequired, hextra, -, scored, hscored, rfl⟩ := h
  -- the pairs are the providers in another order, next to their scores
  have hids : availableProviderIds.toFinset.sort = scored.map Prod.snd := by
    have hpairs := List.forall₂_map_right_iff.mpr
      (hscored.imp fun _ _ hpair => (scoreProvider_eq_ok hpair).symm)
    rwa [List.forall₂_eq_eq_eq] at hpairs
  have hperm : ((scored.insertionSort scoreLe).map Prod.snd).Perm
      availableProviderIds.toFinset.sort := by
    rw [hids]
    exact (List.perm_insertionSort scoreLe scored).map Prod.snd
  have hlength : (scored.length : ℤ) = availableProviderIds.toFinset.card := by
    rw [← Finset.length_sort (s := availableProviderIds.toFinset) (r := (· ≤ ·)), hids,
      List.length_map]
  rw [List.map_take]
  refine ⟨?_, ?_, ?_⟩
  · have hnodup := hperm.nodup_iff.mpr (Finset.sort_nodup _ _)
    exact hnodup.sublist (List.take_sublist _ _)
  · intro providerId hmem
    have hsorted := hperm.mem_iff.mp (List.mem_of_mem_take hmem)
    exact List.mem_toFinset.mp ((Finset.mem_sort _).mp hsorted)
  · rw [List.length_take, List.length_map, List.length_insertionSort, hlength]
    omega

/-! ## The plan -/

/-- `StemFetchPlan`. -/
structure StemFetchPlan where
  epoch : ℤ
  targetBuckets : List ℤ
  fetchBuckets : List ℤ
  providerIds : List Bytes
  deriving DecidableEq, Repr

/-- `plan_fetch`. -/
def StemFetchPolicy.planFetch (H : HashFunction) (policy : StemFetchPolicy)
    (targetStems : List Bytes) (epoch : ℤ) (secretSeed globalSalt : Bytes)
    (availableProviderIds : List Bytes) : HashPy StemFetchPlan := do
  let buckets ← targetStems.mapM fun stem =>
    bucketForStem H stem epoch policy.bucketCount globalSalt
  let targetBuckets := buckets.toFinset
  let fetchBuckets ← buildCoverBucketSet H targetBuckets policy.coverCount epoch secretSeed
    policy.bucketCount
  let providers ← selectRedundantProviders H availableProviderIds epoch secretSeed
    policy.requiredProviderMatches policy.providerRedundancy
  pure {
    epoch := epoch
    targetBuckets := targetBuckets.sort
    fetchBuckets := fetchBuckets
    providerIds := providers }

end Pbt
