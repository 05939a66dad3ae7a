/-
# Widening a fetch plan (`pbt/stem_subscription.py`)

A retry asks for more cover buckets and more providers.  Both are selected from sequences
that do not depend on how many are wanted: the cover buckets from one sequence of hashed
nonces, the providers from one order of scores.  So the plan of a wider policy asks for
what the narrower one asks for, and for more (`planFetch_mono`).

`addCoverBuckets_spec` and `addCoverBuckets_mono` are the loop over the nonces, for one
run and for two.
-/
import Mathlib.Data.Int.Interval
import PartitionedBinaryTree.FetchPlan
import PartitionedBinaryTree.Reliability

namespace Pbt

variable {H : HashFunction}

/-! ## The loop over the nonces -/

/-- The bucket of one nonce. -/
def coverCandidate (H : HashFunction) (epoch : ℤ) (secretSeed : Bytes) (bucketCount nonce : ℤ) :
    Py ℤ := do
  let epochBytes ← intToBytes epoch 8
  let nonceBytes ← intToBytes nonce 4
  pure (bucketOfDigest (H (coverDomain ++ secretSeed ++ epochBytes ++ nonceBytes)) bucketCount)

/-- A bucket is in range. -/
theorem coverCandidate_mem {epoch bucketCount nonce candidate : ℤ} {secretSeed : Bytes}
    (hcount : 0 < bucketCount)
    (h : coverCandidate H epoch secretSeed bucketCount nonce = .ok candidate) :
    candidate ∈ Finset.Ico 0 bucketCount := by
  simp only [coverCandidate, py_bind_eq_ok_iff] at h
  obtain ⟨epochBytes, -, nonceBytes, -, hcandidate⟩ := h
  cases hcandidate
  rw [Finset.mem_Ico]
  exact ⟨Int.emod_nonneg _ hcount.ne', Int.emod_lt_of_pos _ hcount⟩

variable {wanted epoch bucketCount : ℤ} {secretSeed : Bytes}

/-- **One round**: the loop ends when there are enough buckets, or when it has them all. -/
theorem outcome_addCoverBuckets_succ (fuel : ℕ) (nonce : ℤ) (selected : Finset ℤ) :
    (addCoverBuckets H wanted epoch secretSeed bucketCount (fuel + 1) nonce selected).outcome =
      if selected.card < wanted then do
        let candidate ← coverCandidate H epoch secretSeed bucketCount nonce
        if (Insert.insert candidate selected).card = bucketCount then
          .ok (Insert.insert candidate selected)
        else (addCoverBuckets H wanted epoch secretSeed bucketCount fuel (nonce + 1)
          (Insert.insert candidate selected)).outcome
      else .ok selected := by
  rw [addCoverBuckets, coverCandidate]
  split_ifs with hwanted
  · rw [HashPy.outcome_bind, HashPy.outcome_ofPy]
    cases intToBytes epoch 8 with
    | error e => rfl
    | ok epochBytes =>
        rw [py_ok_bind, py_ok_bind, HashPy.outcome_bind, HashPy.outcome_ofPy]
        cases intToBytes nonce 4 with
        | error e => rfl
        | ok nonceBytes =>
            rw [py_ok_bind, py_ok_bind, HashPy.outcome_bind, pure_bind]
            show HashPy.outcome (if _ = _ then _ else _) = _
            rw [apply_ite HashPy.outcome]
            rfl
  · rfl

/-- **One run**: the buckets stay in range, none is dropped, and there are as many as are
wanted, or all. -/
theorem addCoverBuckets_spec (hcount : 0 < bucketCount) {fuel : ℕ} {nonce : ℤ}
    {selected result : Finset ℤ} (hrange : selected ⊆ Finset.Ico 0 bucketCount)
    (hwanted : selected.card ≤ wanted)
    (h : (addCoverBuckets H wanted epoch secretSeed bucketCount fuel nonce selected).outcome =
      .ok result) :
    selected ⊆ result ∧ result ⊆ Finset.Ico 0 bucketCount ∧
      (result.card : ℤ) = min bucketCount wanted := by
  induction fuel generalizing nonce selected with
  | zero => cases h
  | succ fuel ih =>
      rw [outcome_addCoverBuckets_succ] at h
      split_ifs at h with hmore
      · obtain ⟨candidate, hcandidate, h⟩ := py_bind_eq_ok_iff.mp h
        have hrange' : Insert.insert candidate selected ⊆ Finset.Ico 0 bucketCount :=
          Finset.insert_subset (coverCandidate_mem hcount hcandidate) hrange
        have hsubset : selected ⊆ Insert.insert candidate selected := Finset.subset_insert _ _
        have hstep := Finset.card_insert_le candidate selected
        have hgrow := Finset.card_le_card hsubset
        split_ifs at h with hfull
        · cases h
          exact ⟨hsubset, hrange', by omega⟩
        · obtain ⟨hsub, hresult⟩ := ih hrange' (by omega) h
          exact ⟨hsubset.trans hsub, hresult⟩
      · cases h
        have hcard := Finset.card_le_card hrange
        rw [Int.card_Ico] at hcard
        exact ⟨Finset.Subset.refl _, hrange, by omega⟩

/-- No run drops a bucket. -/
theorem subset_addCoverBuckets {fuel : ℕ} {nonce : ℤ} {selected result : Finset ℤ}
    (h : (addCoverBuckets H wanted epoch secretSeed bucketCount fuel nonce selected).outcome =
      .ok result) : selected ⊆ result := by
  induction fuel generalizing nonce selected with
  | zero => cases h
  | succ fuel ih =>
      rw [outcome_addCoverBuckets_succ] at h
      split_ifs at h
      · obtain ⟨candidate, -, h⟩ := py_bind_eq_ok_iff.mp h
        split_ifs at h
        · cases h
          exact Finset.subset_insert _ _
        · exact (Finset.subset_insert _ _).trans (ih h)
      · cases h
        exact Finset.Subset.refl _

/-- **Two runs** over the same nonces: the one that wants more selects what the other does. -/
theorem addCoverBuckets_mono {wanted' : ℤ} (hle : wanted ≤ wanted') {fuel : ℕ} {nonce : ℤ}
    {selected result result' : Finset ℤ}
    (h : (addCoverBuckets H wanted epoch secretSeed bucketCount fuel nonce selected).outcome =
      .ok result)
    (h' : (addCoverBuckets H wanted' epoch secretSeed bucketCount fuel nonce selected).outcome =
      .ok result') : result ⊆ result' := by
  induction fuel generalizing nonce selected with
  | zero => cases h
  | succ fuel ih =>
      rw [outcome_addCoverBuckets_succ] at h
      split_ifs at h with hmore
      · -- neither run ends here, unless this round completes the buckets
        rw [outcome_addCoverBuckets_succ, if_pos (hmore.trans_le hle)] at h'
        obtain ⟨candidate, hcandidate, h⟩ := py_bind_eq_ok_iff.mp h
        obtain ⟨candidate', hcandidate', h'⟩ := py_bind_eq_ok_iff.mp h'
        obtain rfl : candidate = candidate' := Except.ok.inj (hcandidate.symm.trans hcandidate')
        split_ifs at h h' with hfull
        · cases h
          cases h'
          exact Finset.Subset.refl _
        · exact ih h h'
      · cases h
        exact subset_addCoverBuckets h'

/-- What `build_cover_bucket_set` returns: the sorted result of the loop. -/
theorem buildCoverBucketSet_eq_ok {targetBuckets : Finset ℤ} {coverCount : ℤ} {buckets : List ℤ}
    (h : (buildCoverBucketSet H targetBuckets coverCount epoch secretSeed bucketCount).outcome =
      .ok buckets) :
    0 ≤ coverCount ∧ 0 < bucketCount ∧ targetBuckets ⊆ Finset.Ico 0 bucketCount ∧
      ∃ selected, (addCoverBuckets H (targetBuckets.card + coverCount) epoch secretSeed bucketCount
        coverFuel 0 targetBuckets).outcome = .ok selected ∧ buckets = selected.sort := by
  simp only [buildCoverBucketSet, HashPy.outcome_bind, HashPy.outcome_ofPy, py_bind_eq_ok_iff,
    raiseIf_eq_ok_iff, exists_and_left, exists_const, HashPy.outcome_pure, Except.ok.injEq] at h
  obtain ⟨hcover, hcount, hrange, selected, hloop, hbuckets⟩ := h
  refine ⟨not_lt.mp hcover, not_le.mp hcount, ?_, selected, hloop, hbuckets.symm⟩
  intro bucket hbucket
  have hout := not_or.mp fun h => hrange ⟨bucket, hbucket, h⟩
  exact Finset.mem_Ico.mpr ⟨not_lt.mp hout.1, not_le.mp hout.2⟩

/-! ## The selection of providers -/

/-- **Two selections** from one order of scores: the smaller one is the start of the other. -/
theorem selectRedundantProviders_prefix {availableProviderIds providers providers' : List Bytes}
    {requiredCount extraCount extraCount' : ℤ} (hle : extraCount ≤ extraCount')
    (h : (selectRedundantProviders H availableProviderIds epoch secretSeed requiredCount
      extraCount).outcome = .ok providers)
    (h' : (selectRedundantProviders H availableProviderIds epoch secretSeed requiredCount
      extraCount').outcome = .ok providers') : providers <+: providers' := by
  simp only [selectRedundantProviders, HashPy.outcome_bind, HashPy.outcome_ofPy,
    py_bind_eq_ok_iff, raiseIf_eq_ok_iff, exists_and_left, exists_const, HashPy.outcome_pure,
    Except.ok.injEq] at h h'
  obtain ⟨-, -, -, -, scored, hscored, rfl⟩ := h
  obtain ⟨-, -, -, -, scored', hscored', rfl⟩ := h'
  obtain rfl : scored = scored' := Except.ok.inj (hscored.symm.trans hscored')
  rw [List.map_take, List.map_take]
  exact List.take_prefix_take_left (by omega)

/-! ## Two plans -/

/-- The second policy asks for as much cover and redundancy as the first, or more, and they
agree otherwise. -/
structure Widens (policy policy' : StemFetchPolicy) : Prop extends SameChecks policy policy' where
  coverCount_le : policy.coverCount ≤ policy'.coverCount
  providerRedundancy_le : policy.providerRedundancy ≤ policy'.providerRedundancy

namespace Widens

theorem refl (policy : StemFetchPolicy) : Widens policy policy :=
  ⟨SameChecks.refl policy, le_refl _, le_refl _⟩

theorem trans {policy policy' policy'' : StemFetchPolicy} (h : Widens policy policy')
    (h' : Widens policy' policy'') : Widens policy policy'' :=
  ⟨h.toSameChecks.trans h'.toSameChecks, h.coverCount_le.trans h'.coverCount_le,
    h.providerRedundancy_le.trans h'.providerRedundancy_le⟩

end Widens

/-- **Tuning** widens the policy, when its limits allow for more than the policy has. -/
theorem tunePolicyFromReliability_widens {F : Type} [PyFloat F]
    {basePolicy policy : StemFetchPolicy} {tracker : ProviderReliabilityTracker}
    {providerIds : List Bytes} {minSuccessRate : F}
    {failureStreakThreshold maxExtraCover maxExtraRedundancy : ℤ} (hcover : 0 ≤ maxExtraCover)
    (hredundancy : 0 ≤ maxExtraRedundancy)
    (h : tunePolicyFromReliability basePolicy tracker providerIds minSuccessRate
      failureStreakThreshold maxExtraCover maxExtraRedundancy = .ok policy) :
    Widens basePolicy policy := by
  simp only [tunePolicyFromReliability, py_bind_eq_ok_iff] at h
  obtain ⟨_, -, _, -, hreplace⟩ := h
  obtain ⟨hsame, hcoverCount, hproviderRedundancy⟩ := StemFetchPolicy.replace_eq_ok hreplace
  refine ⟨hsame, ?_, ?_⟩
  · rw [hcoverCount]
    split_ifs <;> simp only [le_min_iff] <;> omega
  · rw [hproviderRedundancy]
    split_ifs <;> simp only [le_min_iff] <;> omega

/-- What a plan has to do with its policy and with the available providers. -/
structure StemFetchPlan.Follows (plan : StemFetchPlan) (policy : StemFetchPolicy)
    (availableProviderIds : List Bytes) : Prop where
  nodup_providerIds : plan.providerIds.Nodup
  providerIds_subset : plan.providerIds ⊆ availableProviderIds
  length_providerIds : (plan.providerIds.length : ℤ) = min (availableProviderIds.toFinset.card : ℤ)
    (policy.requiredProviderMatches + policy.providerRedundancy)
  nodup_fetchBuckets : plan.fetchBuckets.Nodup
  fetchBuckets_mem : ∀ bucket ∈ plan.fetchBuckets, 0 ≤ bucket ∧ bucket < policy.bucketCount
  targetBuckets_subset : plan.targetBuckets ⊆ plan.fetchBuckets
  length_fetchBuckets : (plan.fetchBuckets.length : ℤ) =
    min policy.bucketCount (plan.targetBuckets.length + policy.coverCount)

variable {policy policy' : StemFetchPolicy} {targetStems availableProviderIds : List Bytes}
  {globalSalt : Bytes} {plan plan' : StemFetchPlan}

/-- The parts of a plan, and where each comes from. -/
theorem planFetch_eq_ok (h : (policy.planFetch H targetStems epoch secretSeed globalSalt
      availableProviderIds).outcome = .ok plan) :
    ∃ buckets, (targetStems.mapM fun stem =>
        (bucketForStem H stem epoch policy.bucketCount globalSalt).outcome) = .ok buckets ∧
      plan.targetBuckets = buckets.toFinset.sort ∧
      (buildCoverBucketSet H buckets.toFinset policy.coverCount epoch secretSeed
        policy.bucketCount).outcome = .ok plan.fetchBuckets ∧
      (selectRedundantProviders H availableProviderIds epoch secretSeed
        policy.requiredProviderMatches policy.providerRedundancy).outcome = .ok plan.providerIds := by
  simp only [StemFetchPolicy.planFetch, HashPy.outcome_bind, HashPy.outcome_mapM,
    py_bind_eq_ok_iff, HashPy.outcome_pure, Except.ok.injEq] at h
  obtain ⟨buckets, hbuckets, fetchBuckets, hfetch, providers, hproviders, rfl⟩ := h
  exact ⟨buckets, hbuckets, rfl, hfetch, hproviders⟩

/-- **A plan follows its policy.** -/
theorem planFetch_follows (h : (policy.planFetch H targetStems epoch secretSeed globalSalt
      availableProviderIds).outcome = .ok plan) : plan.Follows policy availableProviderIds := by
  obtain ⟨buckets, -, htarget, hfetch, hproviders⟩ := planFetch_eq_ok h
  obtain ⟨hnodup, hsubset, hlength⟩ := selectRedundantProviders_spec hproviders
  obtain ⟨hcover, hcount, hrange, selected, hloop, hsorted⟩ := buildCoverBucketSet_eq_ok hfetch
  obtain ⟨hsub, hinrange, hcard⟩ := addCoverBuckets_spec hcount hrange (by omega) hloop
  refine ⟨hnodup, hsubset, hlength, ?_, ?_, ?_, ?_⟩
  · rw [hsorted]
    exact Finset.sort_nodup _ _
  · intro bucket hbucket
    rw [hsorted, Finset.mem_sort] at hbucket
    exact Finset.mem_Ico.mp (hinrange hbucket)
  · intro bucket hbucket
    rw [htarget, Finset.mem_sort] at hbucket
    rw [hsorted, Finset.mem_sort]
    exact hsub hbucket
  · rw [hsorted, htarget, Finset.length_sort, Finset.length_sort]
    exact hcard

/-- **Two plans** for one request: the wider one has the same targets, fetches the buckets of
the other and asks its providers first. -/
theorem planFetch_mono (hwidens : Widens policy policy')
    (h : (policy.planFetch H targetStems epoch secretSeed globalSalt
      availableProviderIds).outcome = .ok plan)
    (h' : (policy'.planFetch H targetStems epoch secretSeed globalSalt
      availableProviderIds).outcome = .ok plan') :
    plan.targetBuckets = plan'.targetBuckets ∧ plan.fetchBuckets ⊆ plan'.fetchBuckets ∧
      plan.providerIds <+: plan'.providerIds := by
  obtain ⟨buckets, hbuckets, htarget, hfetch, hproviders⟩ := planFetch_eq_ok h
  obtain ⟨buckets', hbuckets', htarget', hfetch', hproviders'⟩ := planFetch_eq_ok h'
  rw [← hwidens.bucketCount_eq] at hbuckets' hfetch'
  rw [← hwidens.requiredProviderMatches_eq] at hproviders'
  obtain rfl : buckets = buckets' := Except.ok.inj (hbuckets.symm.trans hbuckets')
  refine ⟨htarget.trans htarget'.symm, ?_,
    selectRedundantProviders_prefix hwidens.providerRedundancy_le hproviders hproviders'⟩
  obtain ⟨-, -, -, selected, hloop, hsorted⟩ := buildCoverBucketSet_eq_ok hfetch
  obtain ⟨-, -, -, selected', hloop', hsorted'⟩ := buildCoverBucketSet_eq_ok hfetch'
  have hmore := hwidens.coverCount_le
  have hsubset : selected ⊆ selected' := addCoverBuckets_mono (by omega) hloop hloop'
  intro bucket hbucket
  rw [hsorted, Finset.mem_sort] at hbucket
  rw [hsorted', Finset.mem_sort]
  exact hsubset hbucket

/-- **A wider policy only adds**: two plans for one request have the same target buckets, the
wider one fetches the buckets of the other and asks its providers first, and each follows its
policy. -/
theorem planFetch_widens (H : HashFunction) (policy policy' : StemFetchPolicy)
    (hwidens : Widens policy policy') (targetStems : List Bytes) (epoch : ℤ)
    (secretSeed globalSalt : Bytes) (availableProviderIds : List Bytes)
    (plan plan' : StemFetchPlan)
    (h : (policy.planFetch H targetStems epoch secretSeed globalSalt
      availableProviderIds).outcome = .ok plan)
    (h' : (policy'.planFetch H targetStems epoch secretSeed globalSalt
      availableProviderIds).outcome = .ok plan') :
    plan.targetBuckets = plan'.targetBuckets ∧ plan.fetchBuckets ⊆ plan'.fetchBuckets ∧
      plan.providerIds <+: plan'.providerIds ∧ plan.Follows policy availableProviderIds ∧
      plan'.Follows policy' availableProviderIds := by
  obtain ⟨htarget, hfetch, hproviders⟩ := planFetch_mono hwidens h h'
  exact ⟨htarget, hfetch, hproviders, planFetch_follows h, planFetch_follows h'⟩

/-- A policy for one stem without cover, with some redundancy. -/
def uncoveredPolicy (providerRedundancy : ℕ) : StemFetchPolicy :=
  { StemFetchPolicy.default with
    coverCount := 0
    requiredProviderMatches := 1
    providerRedundancy := providerRedundancy
    coverCount_nonneg := Int.natCast_nonneg 0
    requiredProviderMatches_pos := Int.one_pos
    providerRedundancy_nonneg := Int.natCast_nonneg _ }

/-- Its plans under a constant hash function, by the providers that are selected. -/
theorem planFetch_uncoveredPolicy {providerRedundancy : ℕ} {providers : List Bytes}
    (h : (selectRedundantProviders (fun _ => emptyValue) [[2], [1]] 0 [] 1
      providerRedundancy).outcome = .ok providers) :
    ((uncoveredPolicy providerRedundancy).planFetch (fun _ => emptyValue) [[7]] 0 [] []
      [[2], [1]]).outcome = .ok ⟨0, [0], [0], providers⟩ := by
  have hsorted : ([0] : List ℤ).toFinset.sort = [0] := Finset.sort_singleton _ 0
  have hloop : (addCoverBuckets (fun _ => emptyValue) (([0] : List ℤ).toFinset.card + 0) 0 [] 64
      coverFuel 0 ([0] : List ℤ).toFinset).outcome = .ok ([0] : List ℤ).toFinset := by
    rw [coverFuel, outcome_addCoverBuckets_succ, if_neg (by simp)]
  have hcover : (buildCoverBucketSet (fun _ => emptyValue) ([0] : List ℤ).toFinset 0 0 []
      64).outcome = .ok [0] := by
    rw [buildCoverBucketSet, raiseIf, raiseIf, raiseIf, if_neg (by decide), if_neg (by decide),
      if_neg (by decide)]
    simp only [HashPy.outcome_bind, HashPy.outcome_ofPy, py_ok_bind, hloop, HashPy.outcome_pure,
      hsorted]
  simp only [StemFetchPolicy.planFetch, HashPy.outcome_bind, HashPy.outcome_mapM,
    py_bind_eq_ok_iff]
  exact ⟨[0], rfl, [0], hcover, providers, h, by rw [hsorted]; rfl⟩

/-- With redundancy, the provider of the narrow plan is asked first. -/
theorem planFetch_widens_uncoveredPolicy :
    ∃ plan plan',
      ((uncoveredPolicy 0).planFetch (fun _ => emptyValue) [[7]] 0 [] [] [[2], [1]]).outcome =
        .ok plan ∧
      ((uncoveredPolicy 1).planFetch (fun _ => emptyValue) [[7]] 0 [] [] [[2], [1]]).outcome =
        .ok plan' ∧
      plan.providerIds = [[1]] ∧ plan'.providerIds = [[1], [2]] ∧
      plan.targetBuckets = plan'.targetBuckets ∧ plan.fetchBuckets ⊆ plan'.fetchBuckets ∧
      plan.providerIds <+: plan'.providerIds ∧ plan.Follows (uncoveredPolicy 0) [[2], [1]] ∧
      plan'.Follows (uncoveredPolicy 1) [[2], [1]] := by
  have hdeduped : ([[2], [1]] : List Bytes).toFinset.sort = [[1], [2]] := by
    have hset : ([[2], [1]] : List Bytes).toFinset = ([[1], [2]] : List Bytes).toFinset := by decide
    rw [hset, List.toFinset_sort _ (by decide)]
    decide
  have hnarrow : (selectRedundantProviders (fun _ => emptyValue) [[2], [1]] 0 [] 1
      (0 : ℕ)).outcome = .ok [[1]] := by
    unfold selectRedundantProviders
    rw [hdeduped]
    rfl
  have hwide : (selectRedundantProviders (fun _ => emptyValue) [[2], [1]] 0 [] 1
      (1 : ℕ)).outcome = .ok [[1], [2]] := by
    unfold selectRedundantProviders
    rw [hdeduped]
    rfl
  have hwidens : Widens (uncoveredPolicy 0) (uncoveredPolicy 1) :=
    ⟨⟨rfl, rfl, rfl, rfl⟩, le_refl 0, zero_le_one⟩
  exact ⟨_, _, planFetch_uncoveredPolicy hnarrow, planFetch_uncoveredPolicy hwide, rfl, rfl,
    planFetch_widens _ _ _ hwidens _ _ _ _ _ _ _ (planFetch_uncoveredPolicy hnarrow)
      (planFetch_uncoveredPolicy hwide)⟩

end Pbt
