/-
# The history of a provider (`pbt/stem_subscription.py`)

The counters of `ProviderReliabilityTracker` are kept call by call.  Here they are read off
the calls at once (`ProviderTelemetry.ofCalls`): each counter is the number of calls of one
kind, and the streak is the length of the longest failing suffix.

Calls for different providers do not meet (`lookup_snapshot_after`), and a call adds to its
provider's counters what it adds to its history (`updated_ofCalls`).  So the telemetry of a
provider is that of its own calls, however the providers alternate.  A fetch touches the
tracker by such calls only (`EpochFetch.keeps_simulate`).
-/
import PartitionedBinaryTree.EpochFetch
import PartitionedBinaryTree.Lib.Epochs

namespace Pbt

/-! ## Calls -/

/-- The arguments of `record_result`. -/
structure RecordCall where
  providerId : Bytes
  accepted : Bool
  reason : String := ""
  deriving DecidableEq, Repr

/-- The calls for one provider, in order. -/
def callsOf (providerId : Bytes) (calls : List RecordCall) : List RecordCall :=
  calls.filter (·.providerId = providerId)

/-- The counter that a failure goes to. -/
inductive FailureKind
  | proof
  | stale
  | other
  deriving DecidableEq, Repr

/-- The kind of a failure, by its reason. -/
def FailureKind.ofReason (reason : String) : FailureKind :=
  if textIn "proof" reason then .proof
  else if textIn "fresh" reason ∨ textIn "stale" reason then .stale
  else .other

/-- How many of the calls have failed in this way. -/
def failures (kind : FailureKind) (calls : List RecordCall) : ℕ :=
  calls.countP fun call => !call.accepted && decide (FailureKind.ofReason call.reason = kind)

/-- The telemetry of some calls. -/
def ProviderTelemetry.ofCalls (calls : List RecordCall) : ProviderTelemetry where
  attempts := calls.length
  successes := calls.countP RecordCall.accepted
  proofFailures := failures .proof calls
  staleFailures := failures .stale calls
  otherFailures := failures .other calls
  consecutiveFailures := (Epochs.sinceReset RecordCall.accepted calls).length

theorem failures_concat_of_accepted (kind : FailureKind) (calls : List RecordCall)
    {call : RecordCall} (h : call.accepted = true) :
    failures kind (calls ++ [call]) = failures kind calls := by
  rw [failures, failures, List.countP_append, List.countP_singleton, h]
  rfl

theorem failures_concat_of_rejected (kind : FailureKind) (calls : List RecordCall)
    {call : RecordCall} (h : call.accepted = false) :
    failures kind (calls ++ [call]) =
      failures kind calls + if FailureKind.ofReason call.reason = kind then 1 else 0 := by
  rw [failures, failures, List.countP_append, List.countP_singleton, h]
  simp

/-- Every call is accepted or fails in one way. -/
theorem length_eq_countP_add_failures (calls : List RecordCall) :
    calls.length = calls.countP RecordCall.accepted + failures .proof calls +
      failures .stale calls + failures .other calls := by
  induction calls using List.reverseRecOn with
  | nil => rfl
  | append_singleton calls call ih =>
      rw [List.length_append, List.length_singleton, List.countP_append, List.countP_singleton]
      cases hacc : call.accepted with
      | true =>
          simp only [failures_concat_of_accepted _ calls hacc, if_pos]
          omega
      | false =>
          simp only [failures_concat_of_rejected _ calls hacc]
          cases FailureKind.ofReason call.reason <;> simp <;> omega

/-! ## The tracker after some calls -/

namespace ProviderReliabilityTracker

/-- The tracker after some calls of `record_result`. -/
def after (tracker : ProviderReliabilityTracker) (calls : List RecordCall) :
    ProviderReliabilityTracker :=
  calls.foldl
    (fun tracker call => tracker.recordResult call.providerId call.accepted call.reason) tracker

theorem after_append (tracker : ProviderReliabilityTracker) (calls later : List RecordCall) :
    tracker.after (calls ++ later) = (tracker.after calls).after later := List.foldl_append

/-- The dictionary is one accumulator for each provider. -/
theorem snapshot_after (tracker : ProviderReliabilityTracker) (calls : List RecordCall) :
    (tracker.after calls).snapshot =
      calls.foldl (fun stats call => OrderedDict.updateItem {} call.providerId
        (updated · call.accepted call.reason) stats) tracker.snapshot := by
  induction calls generalizing tracker with
  | nil => rfl
  | cons call calls ih => exact ih _

/-- **A provider has the telemetry of its own calls**, those for others left out. -/
theorem lookup_snapshot_after (tracker : ProviderReliabilityTracker) (calls : List RecordCall)
    (providerId : Bytes) :
    (tracker.after calls).snapshot.lookup providerId =
      if providerId ∈ calls.map RecordCall.providerId
      then some ((callsOf providerId calls).foldl
        (fun stats call => updated stats call.accepted call.reason) (tracker.get providerId))
      else tracker.snapshot.lookup providerId := by
  have hfold := OrderedDict.lookup_foldl_updateItem {} RecordCall.providerId
    (fun stats call => updated stats call.accepted call.reason) calls tracker.snapshot providerId
  rw [snapshot_after]
  by_cases hmem : providerId ∈ calls.map RecordCall.providerId
  · rw [if_pos hmem]
    exact hfold.trans (if_pos hmem)
  · rw [if_neg hmem]
    exact hfold.trans (if_neg hmem)

/-- A failure is counted under its kind. -/
theorem updated_false (stats : ProviderTelemetry) (reason : String) :
    updated stats false reason =
      { attempts := stats.attempts + 1
        successes := stats.successes
        proofFailures := stats.proofFailures +
          if FailureKind.ofReason reason = .proof then 1 else 0
        staleFailures := stats.staleFailures +
          if FailureKind.ofReason reason = .stale then 1 else 0
        otherFailures := stats.otherFailures +
          if FailureKind.ofReason reason = .other then 1 else 0
        consecutiveFailures := stats.consecutiveFailures + 1 } := by
  rw [updated, if_neg Bool.false_ne_true, FailureKind.ofReason]
  by_cases hproof : textIn "proof" reason = true
  · rw [if_pos hproof, if_pos hproof]
    rfl
  · rw [if_neg hproof, if_neg hproof]
    by_cases hstale : textIn "fresh" reason = true ∨ textIn "stale" reason = true
    · rw [if_pos hstale, if_pos hstale]
      rfl
    · rw [if_neg hstale, if_neg hstale]
      rfl

/-- **One more call** adds to the counters what it adds to the history. -/
theorem updated_ofCalls (calls : List RecordCall) (call : RecordCall) :
    updated (.ofCalls calls) call.accepted call.reason = .ofCalls (calls ++ [call]) := by
  have hlength : (calls ++ [call]).length = calls.length + 1 := List.length_append
  cases hacc : call.accepted with
  | true =>
      have haccepted : (calls ++ [call]).countP RecordCall.accepted =
          calls.countP RecordCall.accepted + 1 := by
        rw [List.countP_append, List.countP_singleton, if_pos hacc]
      rw [updated, if_pos rfl]
      simp only [ProviderTelemetry.ofCalls, failures_concat_of_accepted _ calls hacc, hlength,
        haccepted, Epochs.sinceReset_concat_of_reset hacc, List.length_nil]
  | false =>
      have haccepted : (calls ++ [call]).countP RecordCall.accepted =
          calls.countP RecordCall.accepted := by
        rw [List.countP_append, List.countP_singleton, if_neg (by simp [hacc]), Nat.add_zero]
      rw [updated_false]
      simp only [ProviderTelemetry.ofCalls, failures_concat_of_rejected _ calls hacc, hlength,
        haccepted, Epochs.sinceReset_concat hacc, List.length_append, List.length_singleton]

/-- The telemetry of a whole history, call by call. -/
theorem foldl_updated (calls : List RecordCall) :
    calls.foldl (fun stats call => updated stats call.accepted call.reason) {} =
      ProviderTelemetry.ofCalls calls := by
  induction calls using List.reverseRecOn with
  | nil => rfl
  | append_singleton calls call ih =>
      rw [List.foldl_concat, ih, updated_ofCalls]

theorem mem_providerIds_iff {providerId : Bytes} {calls : List RecordCall} :
    providerId ∈ calls.map RecordCall.providerId ↔ callsOf providerId calls ≠ [] := by
  rw [callsOf, ne_eq, List.filter_eq_nil_iff, List.mem_map]
  simp

/-- **The snapshot of a run**: the providers that were called, each with its telemetry. -/
theorem lookup_snapshot_new_after (calls : List RecordCall) (providerId : Bytes) :
    (new.after calls).snapshot.lookup providerId =
      if callsOf providerId calls = [] then none
      else some (ProviderTelemetry.ofCalls (callsOf providerId calls)) := by
  rw [lookup_snapshot_after]
  by_cases hcalls : callsOf providerId calls = []
  · rw [if_pos hcalls, if_neg fun h => mem_providerIds_iff.mp h hcalls]
    rfl
  · rw [if_neg hcalls, if_pos (mem_providerIds_iff.mpr hcalls)]
    exact congrArg some (foldl_updated _)

/-- **Each provider has the telemetry of its own calls.** -/
theorem get_new_after (calls : List RecordCall) (providerId : Bytes) :
    (new.after calls).get providerId = .ofCalls (callsOf providerId calls) := by
  show ((new.after calls).snapshot.lookup providerId).getD {} = _
  rw [lookup_snapshot_new_after]
  split_ifs with hcalls
  · rw [hcalls]
    rfl
  · rfl

end ProviderReliabilityTracker

/-! ## What the counters say -/

/-- The telemetry accounts for the calls of its provider. -/
structure ProviderTelemetry.AccountsFor (stats : ProviderTelemetry) (calls : List RecordCall) :
    Prop where
  attempts_eq_add : stats.attempts =
    stats.successes + stats.proofFailures + stats.staleFailures + stats.otherFailures
  attempts_eq : stats.attempts = calls.length
  successes_eq : stats.successes = calls.countP RecordCall.accepted
  proofFailures_eq : stats.proofFailures = failures .proof calls
  staleFailures_eq : stats.staleFailures = failures .stale calls
  otherFailures_eq : stats.otherFailures = failures .other calls
  consecutiveFailures_isGreatest : IsGreatest {n | ∃ suffix, suffix <:+ calls ∧
    (∀ call ∈ suffix, call.accepted = false) ∧ suffix.length = n} stats.consecutiveFailures

theorem ProviderTelemetry.accountsFor_ofCalls (calls : List RecordCall) :
    (ofCalls calls).AccountsFor calls where
  attempts_eq_add := length_eq_countP_add_failures calls
  attempts_eq := rfl
  successes_eq := rfl
  proofFailures_eq := rfl
  staleFailures_eq := rfl
  otherFailures_eq := rfl
  consecutiveFailures_isGreatest := Epochs.isGreatest_length_sinceReset RecordCall.accepted calls

namespace ProviderReliabilityTracker

/-- **The counters account for the history**: after every sequence of calls the telemetry of
each provider accounts for its calls, the snapshot shows it for the providers that were
called, and one more call leaves the other providers alone. -/
theorem recordResult_run (calls : List RecordCall) :
    (∀ providerId,
      ((new.after calls).get providerId).AccountsFor (callsOf providerId calls) ∧
      (new.after calls).snapshot.lookup providerId =
        if callsOf providerId calls = [] then none
        else some ((new.after calls).get providerId)) ∧
    ∀ (call : RecordCall) (other : Bytes), other ≠ call.providerId →
      (new.after (calls ++ [call])).get other = (new.after calls).get other ∧
      (new.after (calls ++ [call])).snapshot.lookup other =
        (new.after calls).snapshot.lookup other := by
  constructor
  · intro providerId
    rw [get_new_after]
    exact ⟨ProviderTelemetry.accountsFor_ofCalls _, lookup_snapshot_new_after calls providerId⟩
  · intro call other hother
    have hlookup : (new.after (calls ++ [call])).snapshot.lookup other =
        (new.after calls).snapshot.lookup other := by
      rw [after_append, lookup_snapshot_after, if_neg (by simpa using hother)]
    exact ⟨congrArg (fun stats => stats.getD {}) hlookup, hlookup⟩

/-- A success of one provider does not end the failures of another. -/
theorem recordResult_run_twoProviders :
    ([2] : Bytes) ≠ [1] ∧
      (new.after ([⟨[2], false, "stale response"⟩] ++ [⟨[1], true, "ok"⟩])).get [2] =
        (new.after [⟨[2], false, "stale response"⟩]).get [2] :=
  ⟨by decide, ((recordResult_run _).2 ⟨[1], true, "ok"⟩ [2] (by decide)).1⟩

/-- **The streak that tuning looks at** is long when a provider has failed that often in its
last calls. -/
theorem le_maxConsecutiveFailures_iff (calls : List RecordCall) (providerIds : List Bytes) {n : ℕ}
    (hn : 0 < n) :
    n ≤ (new.after calls).maxConsecutiveFailures providerIds ↔
      ∃ providerId ∈ providerIds, ∃ suffix, suffix <:+ callsOf providerId calls ∧
        (∀ call ∈ suffix, call.accepted = false) ∧ suffix.length = n := by
  have hstreak : ∀ providerId, n ≤ ((new.after calls).get providerId).consecutiveFailures ↔
      ∃ suffix, suffix <:+ callsOf providerId calls ∧
        (∀ call ∈ suffix, call.accepted = false) ∧ suffix.length = n := by
    intro providerId
    rw [get_new_after]
    exact Epochs.le_length_sinceReset_iff
  have hmax : ∀ streaks : List ℕ, n ≤ streaks.foldr max 0 ↔ ∃ streak ∈ streaks, n ≤ streak := by
    intro streaks
    induction streaks with
    | nil => simp [hn.ne']
    | cons streak streaks ih => rw [List.foldr_cons, le_max_iff, ih, List.exists_mem_cons_iff]
  rw [maxConsecutiveFailures, hmax]
  simp only [List.mem_map, exists_exists_and_eq_and, hstreak]

end ProviderReliabilityTracker

/-! ## Fetches -/

namespace ProviderReliabilityTracker

/-- The second tracker is the first one after some calls. -/
def Extends (tracker tracker' : ProviderReliabilityTracker) : Prop :=
  ∃ calls, tracker' = tracker.after calls

instance : IsPreorder ProviderReliabilityTracker Extends where
  refl tracker := ⟨[], rfl⟩
  trans := by
    rintro tracker _ _ ⟨calls, rfl⟩ ⟨later, rfl⟩
    exact ⟨calls ++ later, (after_append tracker calls later).symm⟩

theorem keeps_recordResult (providerId : Bytes) (accepted : Bool) (reason : String) :
    PyMethod.Keeps Extends (modify (recordResult providerId accepted reason)) :=
  PyMethod.Keeps.modify fun _ => ⟨[⟨providerId, accepted, reason⟩], rfl⟩

end ProviderReliabilityTracker

namespace EpochFetch

open ProviderReliabilityTracker

variable {F : Type} {H : HashFunction} {fetch : EpochFetch F} {policy : StemFetchPolicy}

theorem keeps_recordResponse (pair : StemWitnessPacket × Bytes) :
    PyMethod.Keeps Extends (fetch.recordResponse H policy pair) := by
  refine PyMethod.Keeps.ite (keeps_recordResult _ _ _) ?_
  refine PyMethod.Keeps.ite (keeps_recordResult _ _ _) ?_
  refine PyMethod.Keeps.bind (PyMethod.Keeps.ofPy _) fun valid => ?_
  exact PyMethod.Keeps.ite (keeps_recordResult _ _ _) (keeps_recordResult _ _ _)

theorem keeps_recordMissing (respondingProviders : Finset Bytes) (providerId : Bytes) :
    PyMethod.Keeps Extends (recordMissing respondingProviders providerId) :=
  PyMethod.Keeps.ite (keeps_recordResult _ _ _) (PyMethod.Keeps.pure _)

theorem keeps_recordAttempt (plan : StemFetchPlan) (packets : List StemWitnessPacket)
    (providerIds : List Bytes) :
    PyMethod.Keeps Extends (fetch.recordAttempt H policy plan packets providerIds) :=
  PyMethod.Keeps.bind (PyMethod.Keeps.forM keeps_recordResponse _) fun _ =>
    PyMethod.Keeps.forM (keeps_recordMissing _) _

variable [PyFloat F]

theorem keeps_attempts (left : ℕ) (attempt : ℤ) (policy : StemFetchPolicy)
    (lastResult : LocalVerificationResult) (lastPlan : StemFetchPlan) :
    PyMethod.Keeps Extends (fetch.attempts H left attempt policy lastResult lastPlan) := by
  induction left generalizing attempt policy lastResult lastPlan with
  | zero => exact PyMethod.Keeps.pure _
  | succ left ih =>
      refine PyMethod.Keeps.bind (PyMethod.Keeps.ofPy _) fun plan => ?_
      refine PyMethod.Keeps.bind (PyMethod.Keeps.ofPy _) fun ⟨packets, providerIds⟩ => ?_
      refine PyMethod.Keeps.bind (PyMethod.Keeps.ofPy _) fun result => ?_
      refine PyMethod.Keeps.ite (PyMethod.Keeps.pure _) ?_
      refine PyMethod.Keeps.bind (keeps_recordAttempt plan packets providerIds) fun _ => ?_
      refine PyMethod.Keeps.ite (PyMethod.Keeps.pure _) ?_
      refine PyMethod.Keeps.get_bind fun tracker => ?_
      exact PyMethod.Keeps.bind (PyMethod.Keeps.ofPy _) fun policy' => ih _ _ _ _

/-- **A fetch** touches the tracker by calls of `record_result` only, whether it returns or
raises. -/
theorem keeps_simulate (H : HashFunction) (fetch : EpochFetch F) :
    PyMethod.Keeps Extends (fetch.simulate H) := by
  refine PyMethod.Keeps.bind (PyMethod.Keeps.ofPy _) fun _ => ?_
  refine PyMethod.Keeps.bind (PyMethod.Keeps.ofPy _) fun plan => ?_
  exact keeps_attempts _ _ _ _ _

/-- The telemetry after a fetch is that of a longer history. -/
theorem get_simulate_after (H : HashFunction) (fetch : EpochFetch F) (history : List RecordCall) :
    ∃ calls, ∀ providerId,
      ((fetch.simulate H).call (new.after history)).2.get providerId =
        .ofCalls (callsOf providerId (history ++ calls)) := by
  obtain ⟨calls, hcalls⟩ := keeps_simulate H fetch (new.after history)
  refine ⟨calls, fun providerId => ?_⟩
  rw [hcalls, ← after_append, get_new_after]

end EpochFetch

end Pbt
