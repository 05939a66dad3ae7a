/-
# Fetching with retries (`pbt/stem_subscription.py`)

`simulate_epoch_fetch_with_fallback` asks for a response, evaluates it, and when it is
rejected records what came of each provider, widens the policy and asks again.  The
tracker it records in may be the caller's, and keeps what was recorded when the call
raises; so the call is a method of the tracker.

`attempts_accepted` is the invariant of the loop: a result that is accepted is the one
of the response that was fetched last, under a policy with the caller's checks.
-/
import PartitionedBinaryTree.FetchPlan
import PartitionedBinaryTree.Reliability

namespace Pbt

/-! ## One call -/

/-- The arguments of `simulate_epoch_fetch_with_fallback`, next to the tracker.  The response
of `fetch_fn` may depend on the attempt. -/
structure EpochFetch (F : Type) where
  basePolicy : StemFetchPolicy
  targetStems : List Bytes
  epoch : ℤ
  secretSeed : Bytes
  globalSalt : Bytes
  availableProviderIds : List Bytes
  expectedBlockRoot : Bytes
  currentEpoch : ℤ
  fetchFn : ℤ → StemFetchPlan → Py (List StemWitnessPacket × List Bytes)
  maxAttempts : ℤ := 3
  adaptiveTuning : Bool := true
  tuningMinSuccessRate : F
  tuningFailureStreakThreshold : ℤ := 2

/-- The result, the plan it was reached with, and the number of attempts. -/
abbrev EpochFetchOutcome := LocalVerificationResult × StemFetchPlan × ℤ

namespace EpochFetch

variable {F : Type}

/-- `policy.plan_fetch` with the arguments of the call. -/
def plan (H : HashFunction) (fetch : EpochFetch F) (policy : StemFetchPolicy) :
    Py StemFetchPlan :=
  (policy.planFetch H fetch.targetStems fetch.epoch fetch.secretSeed fetch.globalSalt
    fetch.availableProviderIds).outcome

/-- What is recorded for one packet of a rejected response. -/
def recordResponse (H : HashFunction) (fetch : EpochFetch F) (policy : StemFetchPolicy)
    (pair : StemWitnessPacket × Bytes) : PyMethod ProviderReliabilityTracker Unit :=
  let (packet, providerId) := pair
  if packet.blockRoot ≠ fetch.expectedBlockRoot then
    modify (.recordResult providerId false "root mismatch")
  else if ¬ policy.fresh fetch.currentEpoch packet then
    modify (.recordResult providerId false "stale response")
  else do
    let valid ← PyMethod.ofPy (verifyWitnessPacket H packet).outcome
    if ¬ valid then modify (.recordResult providerId false "proof verification failed")
    else modify (.recordResult providerId true "ok")

/-- What is recorded for one provider of the plan. -/
def recordMissing (respondingProviders : Finset Bytes) (providerId : Bytes) :
    PyMethod ProviderReliabilityTracker Unit :=
  if providerId ∉ respondingProviders then
    modify (.recordResult providerId false "missing response")
  else pure ()

/-- What is recorded for a rejected response. -/
def recordAttempt (H : HashFunction) (fetch : EpochFetch F) (policy : StemFetchPolicy)
    (plan : StemFetchPlan) (packets : List StemWitnessPacket) (providerIds : List Bytes) :
    PyMethod ProviderReliabilityTracker Unit := do
  let respondingProviders := providerIds.toFinset
  (packets.zip providerIds).forM (fetch.recordResponse H policy)
  plan.providerIds.forM (recordMissing respondingProviders)

/-- The policy of the next attempt. -/
def nextPolicy [PyFloat F] (fetch : EpochFetch F) (policy : StemFetchPolicy) (plan : StemFetchPlan)
    (tracker : ProviderReliabilityTracker) : Py StemFetchPolicy :=
  if fetch.adaptiveTuning then
    tunePolicyFromReliability policy tracker plan.providerIds fetch.tuningMinSuccessRate
      fetch.tuningFailureStreakThreshold
  else policy.replace (policy.coverCount + 1) (policy.providerRedundancy + 1)

/-- The `for` loop, with `last_result` and `last_plan`; `left` attempts are to come. -/
def attempts [PyFloat F] (H : HashFunction) (fetch : EpochFetch F) :
    (left : ℕ) → (attempt : ℤ) → StemFetchPolicy → LocalVerificationResult → StemFetchPlan →
      PyMethod ProviderReliabilityTracker EpochFetchOutcome
  | 0, _, _, lastResult, lastPlan => pure (lastResult, lastPlan, fetch.maxAttempts)
  | left + 1, attempt, policy, _, _ => do
      let lastPlan ← PyMethod.ofPy (fetch.plan H policy)
      let (packets, providerIds) ← PyMethod.ofPy (fetch.fetchFn attempt lastPlan)
      let lastResult ← PyMethod.ofPy (policy.evaluateResponse H packets providerIds
        fetch.expectedBlockRoot fetch.currentEpoch).outcome
      if lastResult.accepted then pure (lastResult, lastPlan, attempt)
      else do
        fetch.recordAttempt H policy lastPlan packets providerIds
        if attempt = fetch.maxAttempts then pure (lastResult, lastPlan, fetch.maxAttempts)
        else do
          let tracker ← MonadState.get
          let policy ← PyMethod.ofPy (fetch.nextPolicy policy lastPlan tracker)
          attempts H fetch left (attempt + 1) policy lastResult lastPlan

/-- `simulate_epoch_fetch_with_fallback`. -/
def simulate [PyFloat F] (H : HashFunction) (fetch : EpochFetch F) :
    PyMethod ProviderReliabilityTracker EpochFetchOutcome := do
  PyMethod.ofPy (raiseIf (fetch.maxAttempts ≤ 0) "max_attempts must be positive")
  let lastPlan ← PyMethod.ofPy (fetch.plan H fetch.basePolicy)
  let lastResult : LocalVerificationResult := ⟨false, "no attempts executed"⟩
  fetch.attempts H fetch.maxAttempts.toNat 1 fetch.basePolicy lastResult lastPlan

section

variable {H : HashFunction} {fetch : EpochFetch F}

/-! ## The quorum of a response -/

/-- The providers have each sent a fresh packet under the expected root that verifies and
shows the value of the key, and they are enough. -/
structure Backed (H : HashFunction) (fetch : EpochFetch F)
    (pairs : List (StemWitnessPacket × Bytes)) (key value : Bytes) (providers : Finset Bytes) :
    Prop where
  enough : fetch.basePolicy.requiredProviderMatches ≤ providers.card
  packets : ∀ providerId ∈ providers, ∃ packet, (packet, providerId) ∈ pairs ∧
    fetch.basePolicy.fresh fetch.currentEpoch packet = true ∧
    packet.blockRoot = fetch.expectedBlockRoot ∧ packet.key = key ∧ packet.value = value ∧
    (verifyWitnessPacket H packet).outcome = .ok true

theorem Backed.nonempty {pairs : List (StemWitnessPacket × Bytes)} {key value : Bytes}
    {providers : Finset Bytes} (h : fetch.Backed H pairs key value providers) :
    providers.Nonempty := by
  rw [← Finset.card_pos]
  have hpos := fetch.basePolicy.requiredProviderMatches_pos
  exact_mod_cast hpos.trans_le h.enough

/-- A quorum of fresh packets is backed by its voters. -/
theorem backed_of_freshQuorum {policy : StemFetchPolicy} {pairs : List (StemWitnessPacket × Bytes)}
    (hpolicy : SameChecks fetch.basePolicy policy)
    (h : policy.FreshQuorum H fetch.expectedBlockRoot fetch.currentEpoch pairs) :
    ∃ key value providers, fetch.Backed H pairs key value providers := by
  obtain ⟨⟨key, value, root⟩, hcard⟩ := h
  refine ⟨key, value, _, hpolicy.requiredProviderMatches_eq.trans_le hcard, ?_⟩
  intro providerId hmem
  obtain ⟨⟨packet, providerId'⟩, hpair, hvote⟩ := Quorum.mem_votesOf.mp (Quorum.mem_voters.mp hmem)
  obtain ⟨hfresh, hroot, hverify, heq⟩ := StemFetchPolicy.responseBallot_eq_some_iff.mp hvote
  cases heq
  exact ⟨packet, hpair, (hpolicy.fresh_eq _ _).trans hfresh, hroot, rfl, rfl, hverify⟩

/-! ## What an accepted result has behind it -/

variable [PyFloat F]

theorem nextPolicy_sameChecks {policy policy' : StemFetchPolicy} {plan : StemFetchPlan}
    {tracker : ProviderReliabilityTracker}
    (h : fetch.nextPolicy policy plan tracker = .ok policy') : SameChecks policy policy' := by
  unfold nextPolicy at h
  split_ifs at h
  · exact tunePolicyFromReliability_sameChecks h
  · exact (StemFetchPolicy.replace_eq_ok h).1

/-- The response of an attempt is accepted, under a policy with the checks of the call. -/
def Accepted (H : HashFunction) (fetch : EpochFetch F) (plan : StemFetchPlan) (attempt : ℤ) :
    Prop :=
  ∃ policy packets providerIds, SameChecks fetch.basePolicy policy ∧
    fetch.plan H policy = .ok plan ∧ fetch.fetchFn attempt plan = .ok (packets, providerIds) ∧
    policy.Accepts H fetch.expectedBlockRoot fetch.currentEpoch packets providerIds

/-- **The loop** returns an accepted result only for an accepted response. -/
theorem attempts_accepted {left : ℕ} {attempt : ℤ} {policy : StemFetchPolicy}
    {lastResult result : LocalVerificationResult} {lastPlan plan : StemFetchPlan} {taken : ℤ}
    {tracker tracker' : ProviderReliabilityTracker} (hpolicy : SameChecks fetch.basePolicy policy)
    (hlast : lastResult.accepted = false)
    (h : (fetch.attempts H left attempt policy lastResult lastPlan).call tracker =
      (.ok (result, plan, taken), tracker'))
    (hacc : result.accepted = true) : fetch.Accepted H plan taken := by
  induction left generalizing attempt policy lastResult lastPlan tracker with
  | zero =>
      cases h
      rw [hlast] at hacc
      cases hacc
  | succ left ih =>
      rw [attempts] at h
      simp only [PyMethod.call_ofPy_bind_eq_ok_iff] at h
      obtain ⟨newPlan, hplan, ⟨packets, providerIds⟩, hfetch, newResult, heval, h⟩ := h
      by_cases haccepted : newResult.accepted = true
      · rw [if_pos haccepted] at h
        cases h
        exact ⟨policy, packets, providerIds, hpolicy, hplan, hfetch, result, heval, hacc⟩
      · rw [if_neg haccepted, PyMethod.call_bind_eq_ok_iff] at h
        obtain ⟨_, _, -, h⟩ := h
        have hrejected : newResult.accepted = false := eq_false_of_ne_true haccepted
        split_ifs at h with hend
        · -- the last attempt, and it was rejected
          cases h
          exact absurd hacc haccepted
        · rw [PyMethod.call_get_bind, PyMethod.call_ofPy_bind_eq_ok_iff] at h
          obtain ⟨newPolicy, hnext, h⟩ := h
          exact ih (hpolicy.trans (nextPolicy_sameChecks hnext)) hrejected h

/-- **The call** returns an accepted result only for an accepted response. -/
theorem simulate_accepted {result : LocalVerificationResult} {plan : StemFetchPlan} {taken : ℤ}
    {tracker tracker' : ProviderReliabilityTracker}
    (h : (fetch.simulate H).call tracker = (.ok (result, plan, taken), tracker'))
    (hacc : result.accepted = true) : fetch.Accepted H plan taken := by
  simp only [simulate, PyMethod.call_ofPy_bind_eq_ok_iff] at h
  obtain ⟨_, -, lastPlan, -, h⟩ := h
  exact attempts_accepted (SameChecks.refl _) rfl h hacc

/-- A first response that is accepted ends the call. -/
theorem simulate_of_accepts {plan : StemFetchPlan} {packets : List StemWitnessPacket}
    {providerIds : List Bytes} (hattempts : 0 < fetch.maxAttempts)
    (hplan : fetch.plan H fetch.basePolicy = .ok plan)
    (hfetch : fetch.fetchFn 1 plan = .ok (packets, providerIds))
    (haccepts : fetch.basePolicy.Accepts H fetch.expectedBlockRoot fetch.currentEpoch packets
      providerIds) (tracker : ProviderReliabilityTracker) :
    ∃ result, (fetch.simulate H).call tracker = (.ok (result, plan, 1), tracker) ∧
      result.accepted = true := by
  obtain ⟨result, heval, hacc⟩ := haccepts
  obtain ⟨left, hleft⟩ := Nat.exists_eq_succ_of_ne_zero (n := fetch.maxAttempts.toNat) (by omega)
  refine ⟨result, ?_, hacc⟩
  have hpositive : raiseIf (fetch.maxAttempts ≤ 0) "max_attempts must be positive" = .ok () :=
    raiseIf_eq_ok_iff.mpr (not_le.mpr hattempts)
  simp only [simulate, PyMethod.call_ofPy_bind_eq_ok_iff]
  refine ⟨(), hpositive, plan, hplan, ?_⟩
  rw [hleft, attempts]
  simp only [PyMethod.call_ofPy_bind_eq_ok_iff]
  refine ⟨plan, hplan, (packets, providerIds), hfetch, result, heval, ?_⟩
  rw [if_pos hacc]
  rfl

/-- **An accepted fetch has a quorum behind it.**  When the call returns an accepted result,
the response of its last attempt holds, for one value of one key, fresh packets under the
expected root that verify, from as many distinct providers as the policy requires. -/
theorem acceptedFetch_backed (H : HashFunction) (fetch : EpochFetch F)
    (tracker : ProviderReliabilityTracker) (result : LocalVerificationResult)
    (plan : StemFetchPlan) (taken : ℤ)
    (hreturns : ((fetch.simulate H).call tracker).1 = .ok (result, plan, taken))
    (hacc : result.accepted = true) :
    ∃ packets providerIds, fetch.fetchFn taken plan = .ok (packets, providerIds) ∧
      ∃ key value providers, fetch.Backed H (packets.zip providerIds) key value providers := by
  obtain ⟨policy, packets, providerIds, hpolicy, -, hfetch, haccepts⟩ :=
    simulate_accepted (Prod.ext hreturns rfl) hacc
  exact ⟨packets, providerIds, hfetch, backed_of_freshQuorum hpolicy haccepts.freshQuorum⟩

end

end EpochFetch

/-! ## Responses that do not answer the request -/

/-- Exact rates. -/
instance : PyFloat ℚ where
  zero := 0
  one := 1
  ratio a b := a / b
  sum := List.sum
  divInt x n := x / n
  lt a b := decide (a < b)
  le a b := decide (a ≤ b)

/-- A policy that is content with one provider. -/
def oneProviderPolicy : StemFetchPolicy :=
  { StemFetchPolicy.default with
    coverCount := 0
    requiredProviderMatches := 1
    providerRedundancy := 0
    coverCount_nonneg := le_refl 0
    requiredProviderMatches_pos := zero_lt_one
    providerRedundancy_nonneg := le_refl 0 }

/-- A fetch of one stem from the provider `[1]`, which gets the packet of the stem `[7]` under
the name of a provider. -/
def loneFetch (H : HashFunction) (stem providerId : Bytes) : EpochFetch ℚ where
  basePolicy := oneProviderPolicy
  targetStems := [stem]
  epoch := 0
  secretSeed := []
  globalSalt := []
  availableProviderIds := [[1]]
  expectedBlockRoot := (lonePacket H [7]).blockRoot
  currentEpoch := 0
  fetchFn _ _ := .ok ([lonePacket H [7]], [providerId])
  tuningMinSuccessRate := 7 / 10

/-- Its plan asks the provider `[1]`, and no cover buckets. -/
theorem plan_loneFetch (H : HashFunction) (stem providerId : Bytes) :
    ∃ bucket, (loneFetch H stem providerId).plan H oneProviderPolicy =
      .ok ⟨0, [bucket], [bucket], [[1]]⟩ := by
  obtain ⟨bucket, h0, hlt, hbucket⟩ : ∃ bucket, 0 ≤ bucket ∧ bucket < 64 ∧
      (bucketForStem H stem 0 64 []).outcome = .ok bucket :=
    ⟨_, Int.emod_nonneg _ (by decide), Int.emod_lt_of_pos _ (by decide), rfl⟩
  have hbuckets : ([stem].mapM fun stem => (bucketForStem H stem 0 64 []).outcome) =
      .ok [bucket] := by
    rw [List.mapM_cons, hbucket]
    rfl
  have hrange : raiseIf (∃ b ∈ ({bucket} : Finset ℤ), b < 0 ∨ 64 ≤ b)
      "target bucket out of range" = .ok () := by
    rw [raiseIf_eq_ok_iff]
    simp [h0, hlt]
  have hloop : addCoverBuckets H (({bucket} : Finset ℤ).card + 0) 0 [] 64 coverFuel 0 {bucket} =
      pure {bucket} := by
    rw [coverFuel, addCoverBuckets, if_neg (by simp)]
  have hsorted : ({bucket} : Finset ℤ).sort = [bucket] := Finset.sort_singleton _ bucket
  have hcover : (buildCoverBucketSet H {bucket} 0 0 [] 64).outcome = .ok [bucket] := by
    unfold buildCoverBucketSet
    rw [hrange, hloop]
    exact congrArg Except.ok hsorted
  have htarget : ([bucket] : List ℤ).toFinset.sort = [bucket] := Finset.sort_singleton _ bucket
  have hproviders : (selectRedundantProviders H [[1]] 0 [] 1 0).outcome = .ok [[1]] := by
    have hdeduped : ([[1]] : List Bytes).toFinset.sort = [[1]] := Finset.sort_singleton _ _
    unfold selectRedundantProviders
    rw [hdeduped]
    rfl
  refine ⟨bucket, ?_⟩
  show ((oneProviderPolicy.planFetch H [stem] 0 [] [] [[1]]).outcome) = _
  simp only [StemFetchPolicy.planFetch, HashPy.outcome_bind, HashPy.outcome_mapM,
    py_bind_eq_ok_iff]
  exact ⟨[bucket], hbuckets, [bucket], hcover, [[1]], hproviders,
    by rw [htarget]; rfl⟩

/-- The packet is accepted, whoever is said to have sent it. -/
theorem accepts_loneFetch (H : HashFunction) (providerId : Bytes) :
    oneProviderPolicy.Accepts H (lonePacket H [7]).blockRoot 0 [lonePacket H [7]] [providerId] := by
  refine StemFetchPolicy.accepts_iff.mpr ⟨[(lonePacket H [7], providerId)], [], rfl, ?_, ?_⟩
  · rintro pair hpair ⟨-, -, hshort⟩
    rw [List.mem_singleton.mp hpair] at hshort
    exact absurd hshort (lt_irrefl 2)
  · have helectors : (1 : ℤ) ≤ ({providerId} : Finset Bytes).card := le_refl 1
    apply Quorum.hasQuorum_of_forall_mem (k := (lonePacket H [7]).fingerprint) helectors
    intro providerId' hmem
    rw [Finset.mem_singleton.mp hmem]
    exact Quorum.mem_votesOf.mpr ⟨_, List.mem_cons_self, responseBallot_lonePacket rfl⟩

/-- So the call returns at the first attempt. -/
theorem simulate_loneFetch (H : HashFunction) (stem providerId : Bytes)
    (tracker : ProviderReliabilityTracker) :
    ∃ result bucket, ((loneFetch H stem providerId).simulate H).call tracker =
        (.ok (result, ⟨0, [bucket], [bucket], [[1]]⟩, 1), tracker) ∧ result.accepted = true := by
  obtain ⟨bucket, hplan⟩ := plan_loneFetch H stem providerId
  have hattempts : (0 : ℤ) < 3 := by decide
  have hcall := EpochFetch.simulate_of_accepts hattempts hplan rfl (accepts_loneFetch H providerId)
    tracker
  obtain ⟨result, hresult⟩ := hcall
  exact ⟨result, bucket, hresult⟩

/-- The packet is the quorum behind it. -/
theorem acceptedFetch_backed_lone :
    ∃ result plan, (((loneFetch (fun _ => emptyValue) [7] [1]).simulate
        (fun _ => emptyValue)).call .new).1 = .ok (result, plan, 1) ∧
      result.accepted = true ∧
      ∃ packets providerIds, (loneFetch (fun _ => emptyValue) [7] [1]).fetchFn 1 plan =
          .ok (packets, providerIds) ∧
        ∃ key value providers, (loneFetch (fun _ => emptyValue) [7] [1]).Backed
          (fun _ => emptyValue) (packets.zip providerIds) key value providers := by
  obtain ⟨result, bucket, hcall, hacc⟩ := simulate_loneFetch (fun _ => emptyValue) [7] [1] .new
  have hreturns : (((loneFetch (fun _ => emptyValue) [7] [1]).simulate
      (fun _ => emptyValue)).call .new).1 = .ok (result, ⟨0, [bucket], [bucket], [[1]]⟩, 1) := by
    rw [hcall]
  exact ⟨result, _, hreturns, hacc, EpochFetch.acceptedFetch_backed _ _ _ _ _ _ hreturns hacc⟩

/-- What the request asks for: the value of a key under a wanted stem, backed by providers of
the plan. -/
def EpochFetch.Answered {F : Type} (H : HashFunction) (fetch : EpochFetch F) (plan : StemFetchPlan)
    (pairs : List (StemWitnessPacket × Bytes)) : Prop :=
  ∃ key value providers, fetch.Backed H pairs key value providers ∧
    (∃ stem ∈ fetch.targetStems, ∃ i, splitKey key = .ok (stem, i)) ∧
    ∀ providerId ∈ providers, providerId ∈ plan.providerIds

/-- The call accepts a packet of another stem, and a packet of a provider that it has not
asked. -/
theorem not_answered_lone :
    (∃ result plan, ((loneFetch (fun _ => emptyValue) [8] [1]).simulate
        (fun _ => emptyValue)).call .new = (.ok (result, plan, 1), .new) ∧
      result.accepted = true ∧
      ¬ (loneFetch (fun _ => emptyValue) [8] [1]).Answered (fun _ => emptyValue) plan
        [(lonePacket (fun _ => emptyValue) [7], [1])]) ∧
    ∃ result plan, ((loneFetch (fun _ => emptyValue) [7] [9]).simulate
        (fun _ => emptyValue)).call .new = (.ok (result, plan, 1), .new) ∧
      result.accepted = true ∧
      ¬ (loneFetch (fun _ => emptyValue) [7] [9]).Answered (fun _ => emptyValue) plan
        [(lonePacket (fun _ => emptyValue) [7], [9])] := by
  constructor
  · obtain ⟨result, bucket, hcall, hacc⟩ := simulate_loneFetch (fun _ => emptyValue) [8] [1] .new
    refine ⟨result, _, hcall, hacc, ?_⟩
    rintro ⟨key, value, providers, hbacked, ⟨stem, hstem, i, hsplit⟩, -⟩
    -- the only packet has a key of the stem `[7]`
    obtain ⟨providerId, hmem⟩ := hbacked.nonempty
    obtain ⟨packet, hpacket, -, -, rfl, -⟩ := hbacked.packets providerId hmem
    rw [(Prod.mk.inj (List.mem_singleton.mp hpacket)).1] at hsplit
    rw [List.mem_singleton.mp hstem] at hsplit
    cases hsplit
  · obtain ⟨result, bucket, hcall, hacc⟩ := simulate_loneFetch (fun _ => emptyValue) [7] [9] .new
    refine ⟨result, _, hcall, hacc, ?_⟩
    rintro ⟨key, value, providers, hbacked, -, hplanned⟩
    obtain ⟨providerId, hmem⟩ := hbacked.nonempty
    obtain ⟨packet, hpacket, -⟩ := hbacked.packets providerId hmem
    have houtsider : providerId ∈ ([[1]] : List Bytes) := hplanned providerId hmem
    rw [(Prod.mk.inj (List.mem_singleton.mp hpacket)).2] at houtsider
    exact absurd houtsider (by decide)

end Pbt
