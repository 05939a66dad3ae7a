/-
# What a rejected fetch records (`pbt/stem_subscription.py`)

After a rejected attempt `simulate_epoch_fetch_with_fallback` records a result for each
provider that has sent a packet, and a missing response for each provider of the plan that
has not responded.  A provider counts as responding when the response names it; it is
recorded when it is named next to a packet.

The two loops are counted exactly (`attempts_recordAttempt`): a provider of the plan that
is named behind the last packet, or behind a packet that cannot be checked, is recorded by
neither of them.
-/
import PartitionedBinaryTree.EpochFetch
import PartitionedBinaryTree.WidenedPlan

namespace Pbt

/-! ## The counters -/

/-- A result is one more attempt of its provider. -/
theorem ProviderReliabilityTracker.attempts_recordResult (tracker : ProviderReliabilityTracker)
    (providerId other : Bytes) (accepted : Bool) (reason : String) :
    ((tracker.recordResult providerId accepted reason).get other).attempts =
      (tracker.get other).attempts + if providerId == other then 1 else 0 := by
  have hupdated : ∀ stats, (updated stats accepted reason).attempts = stats.attempts + 1 := by
    intro stats
    cases accepted with
    | true => rfl
    | false => rfl
  rw [get_recordResult]
  by_cases heq : other = providerId
  · rw [if_pos heq, hupdated, if_pos (beq_iff_eq.mpr heq.symm), heq]
  · rw [if_neg heq, if_neg fun h => heq (beq_iff_eq.mp h).symm, Nat.add_zero]

instance (policy : StemFetchPolicy) (root : Bytes) (currentEpoch : ℤ)
    (packet : StemWitnessPacket) : Decidable (policy.Malformed root currentEpoch packet) :=
  inferInstanceAs (Decidable (_ ∧ _ ∧ _))

namespace EpochFetch

variable {F : Type}

/-- The pair holds a packet that cannot be checked: it is fresh, under the expected root, and
its key has no stem. -/
def Uncheckable (fetch : EpochFetch F) (policy : StemFetchPolicy)
    (pair : StemWitnessPacket × Bytes) : Prop :=
  policy.Malformed fetch.expectedBlockRoot fetch.currentEpoch pair.1

instance (fetch : EpochFetch F) (policy : StemFetchPolicy) :
    DecidablePred (fetch.Uncheckable policy) :=
  fun pair => inferInstanceAs (Decidable (policy.Malformed _ _ pair.1))

/-- The providers next to a packet, up to the first packet that cannot be checked. -/
def answering (fetch : EpochFetch F) (policy : StemFetchPolicy)
    (pairs : List (StemWitnessPacket × Bytes)) : List Bytes :=
  (pairs.takeWhile fun pair => !decide (fetch.Uncheckable policy pair)).map Prod.snd

variable {H : HashFunction} {fetch : EpochFetch F} {policy : StemFetchPolicy}

theorem answering_cons {pair : StemWitnessPacket × Bytes} (h : ¬ fetch.Uncheckable policy pair)
    (pairs : List (StemWitnessPacket × Bytes)) :
    fetch.answering policy (pair :: pairs) = pair.2 :: fetch.answering policy pairs := by
  rw [answering, List.takeWhile_cons_of_pos (by simpa using h), List.map_cons]
  rfl

/-! ## The two loops -/

/-- A packet that cannot be checked ends the call, and nothing is recorded for it. -/
theorem call_recordResponse_of_uncheckable {pair : StemWitnessPacket × Bytes}
    (h : fetch.Uncheckable policy pair) (tracker : ProviderReliabilityTracker) :
    ∃ e, (fetch.recordResponse H policy pair).call tracker = (.error e, tracker) := by
  obtain ⟨hfresh, hroot, hshort⟩ := h
  obtain ⟨e, he⟩ : ∃ e, (verifyWitnessPacket H pair.1).outcome = .error e :=
    verifyWitnessPacket_fails_iff.mpr hshort
  refine ⟨e, ?_⟩
  rw [recordResponse, if_neg (not_not.mpr hroot), if_neg (not_not.mpr hfresh), PyMethod.call_bind,
    PyMethod.call_ofPy, he]

/-- For any other packet one result of its provider is recorded. -/
theorem call_recordResponse {pair : StemWitnessPacket × Bytes}
    (h : ¬ fetch.Uncheckable policy pair) (tracker : ProviderReliabilityTracker) :
    ∃ accepted reason, (fetch.recordResponse H policy pair).call tracker =
      (.ok (), tracker.recordResult pair.2 accepted reason) := by
  rw [recordResponse]
  by_cases hroot : pair.1.blockRoot = fetch.expectedBlockRoot
  · rw [if_neg (not_not.mpr hroot)]
    by_cases hfresh : policy.fresh fetch.currentEpoch pair.1 = true
    · rw [if_neg (not_not.mpr hfresh), PyMethod.call_bind, PyMethod.call_ofPy]
      cases hverify : (verifyWitnessPacket H pair.1).outcome with
      | error e =>
          have hshort := verifyWitnessPacket_fails_iff.mp ⟨e, hverify⟩
          exact absurd ⟨hfresh, hroot, hshort⟩ h
      | ok valid => cases valid <;> exact ⟨_, _, rfl⟩
    · rw [if_pos hfresh]
      exact ⟨_, _, rfl⟩
  · rw [if_pos hroot]
    exact ⟨_, _, rfl⟩

/-- **The loop over the packets** records one result for each of `answering`, and raises when
there is a packet that cannot be checked. -/
theorem call_forM_recordResponse (fetch : EpochFetch F) (H : HashFunction)
    (policy : StemFetchPolicy) (pairs : List (StemWitnessPacket × Bytes))
    (tracker : ProviderReliabilityTracker) :
    ∃ outcome tracker',
      (pairs.forM (fetch.recordResponse H policy)).call tracker = (outcome, tracker') ∧
      (outcome = .ok () ↔ ∀ pair ∈ pairs, ¬ fetch.Uncheckable policy pair) ∧
      ∀ providerId, (tracker'.get providerId).attempts =
        (tracker.get providerId).attempts + (fetch.answering policy pairs).count providerId := by
  induction pairs generalizing tracker with
  | nil => exact ⟨_, _, rfl, by simp, fun _ => rfl⟩
  | cons pair pairs ih =>
      by_cases hbad : fetch.Uncheckable policy pair
      · obtain ⟨e, he⟩ := call_recordResponse_of_uncheckable (H := H) hbad tracker
        refine ⟨.error e, tracker, ?_, by simp [hbad], fun providerId => ?_⟩
        · show (fetch.recordResponse H policy pair >>= _).call tracker = _
          rw [PyMethod.call_bind, he]
        · simp [answering, hbad]
      · obtain ⟨accepted, reason, hcall⟩ := call_recordResponse (H := H) hbad tracker
        obtain ⟨outcome, tracker', hrest, houtcome, hcount⟩ :=
          ih (tracker.recordResult pair.2 accepted reason)
        refine ⟨outcome, tracker', ?_, by simp [houtcome, hbad], fun providerId => ?_⟩
        · show (fetch.recordResponse H policy pair >>= _).call tracker = _
          rw [PyMethod.call_bind, hcall]
          exact hrest
        · rw [hcount, ProviderReliabilityTracker.attempts_recordResult, answering_cons hbad,
            List.count_cons]
          omega

/-- **The loop over the plan** records the providers that the response does not name. -/
theorem call_forM_recordMissing (respondingProviders : Finset Bytes) (providerIds : List Bytes)
    (tracker : ProviderReliabilityTracker) :
    ∃ tracker',
      (providerIds.forM (recordMissing respondingProviders)).call tracker = (.ok (), tracker') ∧
      ∀ providerId, (tracker'.get providerId).attempts = (tracker.get providerId).attempts +
        if providerId ∉ respondingProviders then providerIds.count providerId else 0 := by
  induction providerIds generalizing tracker with
  | nil => exact ⟨tracker, rfl, fun _ => by simp⟩
  | cons p providerIds ih =>
      by_cases hp : p ∈ respondingProviders
      · obtain ⟨tracker', hrest, hcount⟩ := ih tracker
        refine ⟨tracker', ?_, fun providerId => ?_⟩
        · show (recordMissing respondingProviders p >>= _).call tracker = _
          rw [recordMissing, if_neg (not_not.mpr hp)]
          exact hrest
        · rw [hcount]
          by_cases heq : p = providerId
          · rw [← heq, if_neg (not_not.mpr hp), if_neg (not_not.mpr hp)]
          · rw [List.count_cons_of_ne heq]
      · obtain ⟨tracker', hrest, hcount⟩ := ih (tracker.recordResult p false "missing response")
        refine ⟨tracker', ?_, fun providerId => ?_⟩
        · show (recordMissing respondingProviders p >>= _).call tracker = _
          rw [recordMissing, if_pos hp]
          exact hrest
        · rw [hcount, ProviderReliabilityTracker.attempts_recordResult, List.count_cons]
          by_cases heq : p = providerId
          · rw [← heq, if_pos hp, if_pos hp]
            omega
          · rw [if_neg fun h => heq (beq_iff_eq.mp h), Nat.add_zero, Nat.add_zero]

/-- **One rejected attempt**, counted exactly: a provider gets a result for each packet next to
which it is named, and one for each time it is planned without being named at all. -/
theorem attempts_recordAttempt (plan : StemFetchPlan) (packets : List StemWitnessPacket)
    (providerIds : List Bytes) (tracker : ProviderReliabilityTracker) (providerId : Bytes) :
    ((((fetch.recordAttempt H policy plan packets providerIds).call tracker).2.get
        providerId).attempts : ℕ) =
      (tracker.get providerId).attempts +
        (fetch.answering policy (packets.zip providerIds)).count providerId +
        if (∀ pair ∈ packets.zip providerIds, ¬ fetch.Uncheckable policy pair) ∧
          providerId ∉ providerIds then plan.providerIds.count providerId else 0 := by
  obtain ⟨outcome, between, hpackets, houtcome, hanswers⟩ :=
    fetch.call_forM_recordResponse H policy (packets.zip providerIds) tracker
  rw [recordAttempt, PyMethod.call_bind, hpackets]
  cases outcome with
  | error e =>
      have hbad : ¬ ∀ pair ∈ packets.zip providerIds, ¬ fetch.Uncheckable policy pair :=
        fun h => nomatch houtcome.mpr h
      rw [if_neg fun h => hbad h.1]
      exact hanswers providerId
  | ok u =>
      have hgood := houtcome.mp rfl
      obtain ⟨tracker', hplan, hmissing⟩ :=
        call_forM_recordMissing providerIds.toFinset plan.providerIds between
      show ((((plan.providerIds.forM (recordMissing providerIds.toFinset)).call between).2.get
        providerId).attempts : ℕ) = _
      rw [hplan, hmissing, hanswers]
      by_cases hmem : providerId ∈ providerIds
      · rw [if_neg (not_not.mpr (List.mem_toFinset.mpr hmem)), if_neg fun h => h.2 hmem]
      · rw [if_pos fun h => hmem (List.mem_toFinset.mp h), if_pos ⟨hgood, hmem⟩]

/-! ## Every attempt of a call -/

/-- An attempt whose response was rejected: the tracker before it and after it, where the
recording may have raised. -/
structure RejectedAttempt where
  attempt : ℤ
  policy : StemFetchPolicy
  plan : StemFetchPlan
  packets : List StemWitnessPacket
  providerIds : List Bytes
  before : ProviderReliabilityTracker
  after : ProviderReliabilityTracker

/-- The response of one attempt, with its plan and its result. -/
def respond (H : HashFunction) (fetch : EpochFetch F) (attempt : ℤ) (policy : StemFetchPolicy) :
    Py (StemFetchPlan × (List StemWitnessPacket × List Bytes) × LocalVerificationResult) := do
  let plan ← fetch.plan H policy
  let (packets, providerIds) ← fetch.fetchFn attempt plan
  let result ← (policy.evaluateResponse H packets providerIds fetch.expectedBlockRoot
    fetch.currentEpoch).outcome
  pure (plan, (packets, providerIds), result)

/-- The rejected attempts of the loop, in order. -/
def rejectedAttempts [PyFloat F] (H : HashFunction) (fetch : EpochFetch F) :
    (left : ℕ) → (attempt : ℤ) → StemFetchPolicy → ProviderReliabilityTracker →
      List RejectedAttempt
  | 0, _, _, _ => []
  | left + 1, attempt, policy, tracker =>
      match fetch.respond H attempt policy with
      | .error _ => []
      | .ok (plan, (packets, providerIds), result) =>
          if result.accepted then []
          else
            match (fetch.recordAttempt H policy plan packets providerIds).call tracker with
            | (.error _, tracker') =>
                [⟨attempt, policy, plan, packets, providerIds, tracker, tracker'⟩]
            | (.ok (), tracker') =>
                ⟨attempt, policy, plan, packets, providerIds, tracker, tracker'⟩ ::
                  if attempt = fetch.maxAttempts then []
                  else
                    match fetch.nextPolicy policy plan tracker' with
                    | .error _ => []
                    | .ok policy' => rejectedAttempts H fetch left (attempt + 1) policy' tracker'

/-- The rejected attempts of a call. -/
def rejected [PyFloat F] (H : HashFunction) (fetch : EpochFetch F)
    (tracker : ProviderReliabilityTracker) : List RejectedAttempt :=
  fetch.rejectedAttempts H fetch.maxAttempts.toNat 1 fetch.basePolicy tracker

/-- The tracker after some attempts. -/
def trackerAfter (tracker : ProviderReliabilityTracker) (log : List RejectedAttempt) :
    ProviderReliabilityTracker := (log.getLast?.map RejectedAttempt.after).getD tracker

theorem trackerAfter_cons (tracker : ProviderReliabilityTracker) (record : RejectedAttempt)
    (log : List RejectedAttempt) :
    trackerAfter tracker (record :: log) = trackerAfter record.after log := by
  cases log with
  | nil => rfl
  | cons record' log => rw [trackerAfter, List.getLast?_cons_cons]; rfl

/-- What the log says of an attempt: its response was rejected, and the tracker is the one
that recording the response has left. -/
structure RejectedAttempt.Made (H : HashFunction) (fetch : EpochFetch F)
    (record : RejectedAttempt) : Prop where
  rejected : ∃ result, fetch.respond H record.attempt record.policy =
    .ok (record.plan, (record.packets, record.providerIds), result) ∧ result.accepted = false
  after_eq : record.after = ((fetch.recordAttempt H record.policy record.plan record.packets
    record.providerIds).call record.before).2

/-- The plan of such an attempt is the plan of its policy. -/
theorem RejectedAttempt.Made.plan_eq {record : RejectedAttempt} (h : record.Made H fetch) :
    fetch.plan H record.policy = .ok record.plan := by
  obtain ⟨result, hrespond, -⟩ := h.rejected
  simp only [respond, py_bind_eq_ok_iff] at hrespond
  obtain ⟨plan, hplan, ⟨packets, providerIds⟩, -, result', -, heq⟩ := hrespond
  cases heq
  exact hplan

variable [PyFloat F]

/-- One round of the loop, by its response. -/
theorem call_attempts_succ (left : ℕ) (attempt : ℤ) (policy : StemFetchPolicy)
    (lastResult : LocalVerificationResult) (lastPlan : StemFetchPlan)
    (tracker : ProviderReliabilityTracker) :
    (fetch.attempts H (left + 1) attempt policy lastResult lastPlan).call tracker =
      match fetch.respond H attempt policy with
      | .error e => (.error e, tracker)
      | .ok (plan, (packets, providerIds), result) =>
          if result.accepted then (.ok (result, plan, attempt), tracker)
          else (do
            fetch.recordAttempt H policy plan packets providerIds
            if attempt = fetch.maxAttempts then pure (result, plan, fetch.maxAttempts)
            else do
              let tracker ← MonadState.get
              let policy ← PyMethod.ofPy (fetch.nextPolicy policy plan tracker)
              fetch.attempts H left (attempt + 1) policy result plan).call tracker := by
  rw [attempts, respond, PyMethod.call_bind, PyMethod.call_ofPy]
  cases fetch.plan H policy with
  | error e => rfl
  | ok plan =>
      dsimp only
      rw [py_ok_bind, PyMethod.call_bind, PyMethod.call_ofPy]
      cases fetch.fetchFn attempt plan with
      | error e => rfl
      | ok response =>
          obtain ⟨packets, providerIds⟩ := response
          dsimp only
          rw [py_ok_bind, PyMethod.call_bind, PyMethod.call_ofPy]
          cases (policy.evaluateResponse H packets providerIds fetch.expectedBlockRoot
            fetch.currentEpoch).outcome with
          | error e => rfl
          | ok result =>
              dsimp only
              rw [PyMethod.call_ite]
              rfl

/-- **The log is the run**: the call leaves the tracker as its last rejected attempt does. -/
theorem call_attempts_snd (left : ℕ) (attempt : ℤ) (policy : StemFetchPolicy)
    (lastResult : LocalVerificationResult) (lastPlan : StemFetchPlan)
    (tracker : ProviderReliabilityTracker) :
    ((fetch.attempts H left attempt policy lastResult lastPlan).call tracker).2 =
      trackerAfter tracker (fetch.rejectedAttempts H left attempt policy tracker) := by
  induction left generalizing attempt policy lastResult lastPlan tracker with
  | zero => rfl
  | succ left ih =>
      rw [call_attempts_succ, rejectedAttempts]
      cases fetch.respond H attempt policy with
      | error e => rfl
      | ok response =>
          obtain ⟨plan, ⟨packets, providerIds⟩, result⟩ := response
          dsimp only
          by_cases hacc : result.accepted = true
          · rw [if_pos hacc, if_pos hacc]
            rfl
          · rw [if_neg hacc, if_neg hacc, PyMethod.call_bind]
            rcases (fetch.recordAttempt H policy plan packets providerIds).call tracker with
              ⟨outcome, tracker'⟩
            cases outcome with
            | error e => rfl
            | ok u =>
                dsimp only
                rw [trackerAfter_cons]
                by_cases hend : attempt = fetch.maxAttempts
                · rw [if_pos hend, if_pos hend]
                  rfl
                · rw [if_neg hend, if_neg hend, PyMethod.call_get_bind, PyMethod.call_bind,
                    PyMethod.call_ofPy]
                  cases fetch.nextPolicy policy plan tracker' with
                  | error e => rfl
                  | ok policy' => exact ih (attempt + 1) policy' result plan tracker'

/-- **What one round adds to the log**: nothing, or one attempt and what the next rounds add. -/
theorem rejectedAttempts_succ_cases (fetch : EpochFetch F) (H : HashFunction) (left : ℕ)
    (attempt : ℤ) (policy : StemFetchPolicy) (tracker : ProviderReliabilityTracker) :
    fetch.rejectedAttempts H (left + 1) attempt policy tracker = [] ∨
      ∃ record rest, fetch.rejectedAttempts H (left + 1) attempt policy tracker = record :: rest ∧
        record.policy = policy ∧ record.Made H fetch ∧
        (rest = [] ∨ ∃ policy', fetch.nextPolicy policy record.plan record.after = .ok policy' ∧
          rest = fetch.rejectedAttempts H left (attempt + 1) policy' record.after) := by
  rw [rejectedAttempts]
  cases hrespond : fetch.respond H attempt policy with
  | error e => exact Or.inl rfl
  | ok response =>
      obtain ⟨plan, ⟨packets, providerIds⟩, result⟩ := response
      dsimp only
      by_cases hacc : result.accepted = true
      · rw [if_pos hacc]
        exact Or.inl rfl
      · rw [if_neg hacc]
        right
        cases hcall : (fetch.recordAttempt H policy plan packets providerIds).call tracker with
        | mk outcome tracker' =>
            have hmade : RejectedAttempt.Made H fetch
                ⟨attempt, policy, plan, packets, providerIds, tracker, tracker'⟩ :=
              ⟨⟨result, hrespond, eq_false_of_ne_true hacc⟩, (congrArg Prod.snd hcall).symm⟩
            cases outcome with
            | error e => exact ⟨_, [], rfl, rfl, hmade, Or.inl rfl⟩
            | ok u =>
                refine ⟨_, _, rfl, rfl, hmade, ?_⟩
                dsimp only
                split_ifs
                · exact Or.inl rfl
                · cases fetch.nextPolicy policy plan tracker' with
                  | error e => exact Or.inl rfl
                  | ok policy' => exact Or.inr ⟨policy', rfl, rfl⟩

/-- A retry widens the policy. -/
theorem nextPolicy_widens {policy' : StemFetchPolicy} {plan : StemFetchPlan}
    {tracker : ProviderReliabilityTracker}
    (h : fetch.nextPolicy policy plan tracker = .ok policy') : Widens policy policy' := by
  unfold nextPolicy at h
  split_ifs at h
  · exact tunePolicyFromReliability_widens (by decide) (by decide) h
  · obtain ⟨hsame, hcover, hredundancy⟩ := StemFetchPolicy.replace_eq_ok h
    exact ⟨hsame, by omega, by omega⟩

/-- **Every attempt of the log** was made, with a policy that widens the one of the next attempt. -/
theorem of_mem_rejectedAttempts {left : ℕ} {attempt : ℤ} {policy : StemFetchPolicy}
    {tracker : ProviderReliabilityTracker} {record : RejectedAttempt}
    (h : record ∈ fetch.rejectedAttempts H left attempt policy tracker) :
    record.Made H fetch ∧ Widens policy record.policy := by
  induction left generalizing attempt policy tracker with
  | zero => cases h
  | succ left ih =>
      obtain hnil | ⟨first, rest, hlog, hpolicy, hmade, hrest⟩ :=
        fetch.rejectedAttempts_succ_cases H left attempt policy tracker
      · rw [hnil] at h
        cases h
      · rw [hlog] at h
        rcases List.mem_cons.mp h with rfl | h
        · rw [hpolicy]
          exact ⟨hmade, Widens.refl policy⟩
        · obtain rfl | ⟨policy', hnext, rfl⟩ := hrest
          · cases h
          · exact ⟨(ih h).1, (nextPolicy_widens hnext).trans (ih h).2⟩

/-- **Retries only add**: in each call a later attempt has the target buckets of an earlier
one, fetches its buckets, and asks its providers first. -/
theorem rejected_plans_grow (H : HashFunction) (fetch : EpochFetch F)
    (tracker : ProviderReliabilityTracker) :
    (fetch.rejected H tracker).Pairwise fun record later =>
      record.plan.targetBuckets = later.plan.targetBuckets ∧
        record.plan.fetchBuckets ⊆ later.plan.fetchBuckets ∧
        record.plan.providerIds <+: later.plan.providerIds := by
  have hloop : ∀ left attempt policy tracker,
      (fetch.rejectedAttempts H left attempt policy tracker).Pairwise fun record later =>
        Widens record.policy later.policy := by
    intro left
    induction left with
    | zero => exact fun _ _ _ => List.Pairwise.nil
    | succ left ih =>
        intro attempt policy tracker
        obtain hnil | ⟨first, rest, hlog, hpolicy, -, hrest⟩ :=
          fetch.rejectedAttempts_succ_cases H left attempt policy tracker
        · rw [hnil]
          exact List.Pairwise.nil
        · rw [hlog]
          obtain rfl | ⟨policy', hnext, rfl⟩ := hrest
          · exact List.pairwise_singleton _ _
          · refine List.Pairwise.cons (fun later hlater => ?_) (ih _ _ _)
            rw [hpolicy]
            exact (nextPolicy_widens hnext).trans (of_mem_rejectedAttempts hlater).2
  refine (hloop _ _ _ tracker).imp_of_mem fun {record later} hrecord hlater hwidens => ?_
  exact planFetch_mono hwidens (of_mem_rejectedAttempts hrecord).1.plan_eq
    (of_mem_rejectedAttempts hlater).1.plan_eq

/-- Each provider of the attempt's plan got a result in it. -/
def RejectedAttempt.Recorded (record : RejectedAttempt) : Prop :=
  ∀ providerId ∈ record.plan.providerIds,
    (record.before.get providerId).attempts + 1 ≤ (record.after.get providerId).attempts

/-- Each provider of the plan stands next to a packet, before the first packet that cannot
be checked, or there is no such packet and the response does not name the provider. -/
def Covers (fetch : EpochFetch F) (policy : StemFetchPolicy) (plan : StemFetchPlan)
    (packets : List StemWitnessPacket) (providerIds : List Bytes) : Prop :=
  ∀ providerId ∈ plan.providerIds,
    providerId ∈ fetch.answering policy (packets.zip providerIds) ∨
      (∀ pair ∈ packets.zip providerIds, ¬ fetch.Uncheckable policy pair) ∧
        providerId ∉ providerIds

/-- **Which rejected attempts record every planned provider**: in each call, those whose
response covers the plan. -/
theorem plannedProviders_recorded_iff (H : HashFunction) (fetch : EpochFetch F)
    (tracker : ProviderReliabilityTracker) :
    ∀ record ∈ fetch.rejected H tracker,
      record.Recorded ↔
        fetch.Covers record.policy record.plan record.packets record.providerIds := by
  intro record hmem
  have hafter := (of_mem_rejectedAttempts hmem).1.after_eq
  refine forall₂_congr fun providerId hplanned => ?_
  have hcount := List.count_pos_iff.mpr hplanned
  rw [hafter, attempts_recordAttempt]
  constructor
  · intro hgrows
    by_contra hcontra
    obtain ⟨hsilent, hnamed⟩ := not_or.mp hcontra
    rw [List.count_eq_zero.mpr hsilent, if_neg hnamed] at hgrows
    omega
  · rintro (hanswers | hmissing)
    · have hpos := List.count_pos_iff.mpr hanswers
      omega
    · rw [if_pos hmissing]
      omega

/-- A first response that is rejected is in the log. -/
theorem exists_mem_rejected {H : HashFunction} (fetch : EpochFetch F) {plan : StemFetchPlan}
    {packets : List StemWitnessPacket} {providerIds : List Bytes} {result : LocalVerificationResult}
    (hattempts : 0 < fetch.maxAttempts)
    (hrespond : fetch.respond H 1 fetch.basePolicy = .ok (plan, (packets, providerIds), result))
    (hrejected : result.accepted = false) (tracker : ProviderReliabilityTracker) :
    ∃ record ∈ fetch.rejected H tracker, record.policy = fetch.basePolicy ∧
      record.plan = plan ∧ record.packets = packets ∧ record.providerIds = providerIds := by
  obtain ⟨left, hleft⟩ := Nat.exists_eq_succ_of_ne_zero (n := fetch.maxAttempts.toNat) (by omega)
  rw [rejected, hleft, rejectedAttempts, hrespond]
  dsimp only
  rw [if_neg (by simp [hrejected])]
  rcases (fetch.recordAttempt H fetch.basePolicy plan packets providerIds).call tracker with
    ⟨outcome, tracker'⟩
  cases outcome with
  | error e => exact ⟨_, List.mem_cons_self, rfl, rfl, rfl, rfl⟩
  | ok u => exact ⟨_, List.mem_cons_self, rfl, rfl, rfl, rfl⟩

end EpochFetch

/-- A fetch that gets no packet, and the names of some providers. -/
def emptyFetch (H : HashFunction) (providerIds : List Bytes) : EpochFetch ℚ :=
  { loneFetch H [7] [1] with fetchFn := fun _ _ => .ok ([], providerIds) }

/-- It is rejected. -/
theorem exists_mem_rejected_emptyFetch (H : HashFunction) (providerIds : List Bytes)
    (tracker : ProviderReliabilityTracker) :
    ∃ record ∈ (emptyFetch H providerIds).rejected H tracker,
      record.policy = oneProviderPolicy ∧ record.plan.providerIds = [[1]] ∧
        record.packets = [] ∧ record.providerIds = providerIds := by
  obtain ⟨bucket, hplan⟩ := plan_loneFetch H [7] [1]
  have hrespond : (emptyFetch H providerIds).respond H 1 oneProviderPolicy =
      .ok (⟨0, [bucket], [bucket], [[1]]⟩, ([], providerIds),
        ⟨false, "insufficient fresh packets for quorum"⟩) := by
    show ((loneFetch H [7] [1]).plan H oneProviderPolicy >>= _) = _
    rw [hplan]
    rfl
  have hattempts : (0 : ℤ) < 3 := by decide
  obtain ⟨record, hmem, hpolicy, hrecord, hpackets, hproviders⟩ :=
    (emptyFetch H providerIds).exists_mem_rejected hattempts hrespond rfl tracker
  exact ⟨record, hmem, hpolicy, by rw [hrecord], hpackets, hproviders⟩

/-- Without a response every planned provider is recorded. -/
theorem plannedProviders_recorded_emptyFetch :
    ∃ record ∈ (emptyFetch (fun _ => emptyValue) []).rejected (fun _ => emptyValue) .new,
      record.plan.providerIds = [[1]] ∧ record.Recorded := by
  obtain ⟨record, hmem, -, hplan, hpackets, hproviders⟩ :=
    exists_mem_rejected_emptyFetch (fun _ => emptyValue) [] .new
  refine ⟨record, hmem, hplan, ?_⟩
  refine (EpochFetch.plannedProviders_recorded_iff _ _ _ record hmem).mpr ?_
  intro providerId hplanned
  rw [hpackets, hproviders]
  exact Or.inr ⟨by simp, List.not_mem_nil⟩

/-- A provider that is named without a packet is not recorded. -/
theorem not_recorded_emptyFetch :
    ∃ record ∈ (emptyFetch (fun _ => emptyValue) [[1]]).rejected (fun _ => emptyValue) .new,
      ¬ record.Recorded := by
  obtain ⟨record, hmem, -, hplan, hpackets, hproviders⟩ :=
    exists_mem_rejected_emptyFetch (fun _ => emptyValue) [[1]] .new
  refine ⟨record, hmem, fun h => ?_⟩
  have hafter := (EpochFetch.of_mem_rejectedAttempts hmem).1.after_eq
  have hgrows := h [1] (by rw [hplan]; exact List.mem_cons_self)
  rw [hafter, EpochFetch.attempts_recordAttempt, hpackets, hproviders, List.zip_nil_left] at hgrows
  rw [if_neg fun h => h.2 List.mem_cons_self] at hgrows
  exact absurd hgrows (by simp [EpochFetch.answering])

end Pbt
