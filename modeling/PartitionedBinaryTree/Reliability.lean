/-
# The reliability of providers (`pbt/stem_subscription.py`)

`ProviderReliabilityTracker` counts what came of each request to a provider, and
`tune_policy_from_reliability` widens a fetch policy when its providers fail.  Rates are
floating-point numbers in the source: the type and its operations are parameters here,
and nothing is assumed of them.

However a policy is widened, it still asks for the same quorum and the same freshness
(`SameChecks`).
-/
import Mathlib.Data.List.Infix
import PartitionedBinaryTree.FetchPolicy

namespace Pbt

/-! ## Telemetry -/

/-- `ProviderTelemetry`. -/
structure ProviderTelemetry where
  attempts : ℕ := 0
  successes : ℕ := 0
  proofFailures : ℕ := 0
  staleFailures : ℕ := 0
  otherFailures : ℕ := 0
  consecutiveFailures : ℕ := 0
  deriving DecidableEq, Repr

/-- The operations of `float` that rates are computed with. -/
class PyFloat (F : Type) where
  zero : F
  one : F
  /-- `a / b` of two `int`s. -/
  ratio : ℤ → ℤ → F
  /-- `sum` of a list. -/
  sum : List F → F
  /-- `x / n` by an `int`. -/
  divInt : F → ℤ → F
  lt : F → F → Bool
  le : F → F → Bool

variable {F : Type} [PyFloat F]

/-- `success_rate`. -/
def ProviderTelemetry.successRate (stats : ProviderTelemetry) : F :=
  if stats.attempts = 0 then PyFloat.one else PyFloat.ratio stats.successes stats.attempts

/-- `ProviderReliabilityTracker`. -/
structure ProviderReliabilityTracker where
  stats : OrderedDict Bytes ProviderTelemetry

namespace ProviderReliabilityTracker

/-- `ProviderReliabilityTracker()`. -/
def new : ProviderReliabilityTracker := ⟨∅⟩

/-- `_get`. -/
def get (tracker : ProviderReliabilityTracker) (providerId : Bytes) : ProviderTelemetry :=
  (tracker.stats.lookup providerId).getD {}

/-- What `record_result` makes of the provider's counters. -/
def updated (stats : ProviderTelemetry) (accepted : Bool) (reason : String) : ProviderTelemetry :=
  if accepted then
    { stats with
      attempts := stats.attempts + 1
      successes := stats.successes + 1
      consecutiveFailures := 0 }
  else
    let failed :=
      if textIn "proof" reason then { stats with proofFailures := stats.proofFailures + 1 }
      else if textIn "fresh" reason ∨ textIn "stale" reason then
        { stats with staleFailures := stats.staleFailures + 1 }
      else { stats with otherFailures := stats.otherFailures + 1 }
    { failed with
      attempts := stats.attempts + 1
      consecutiveFailures := stats.consecutiveFailures + 1 }

/-- `record_result`. -/
def recordResult (providerId : Bytes) (accepted : Bool) (reason : String)
    (tracker : ProviderReliabilityTracker) : ProviderReliabilityTracker :=
  ⟨OrderedDict.setItem providerId (updated (tracker.get providerId) accepted reason) tracker.stats⟩

/-- `snapshot`, a copy of the dictionary. -/
def snapshot (tracker : ProviderReliabilityTracker) : OrderedDict Bytes ProviderTelemetry :=
  tracker.stats

/-- `average_success_rate`. -/
def averageSuccessRate (tracker : ProviderReliabilityTracker) (providerIds : List Bytes) : F :=
  if providerIds = [] then PyFloat.one
  else PyFloat.divInt (PyFloat.sum (providerIds.map fun pid => (tracker.get pid).successRate))
    providerIds.length

/-- `max_consecutive_failures`. -/
def maxConsecutiveFailures (tracker : ProviderReliabilityTracker) (providerIds : List Bytes) : ℕ :=
  (providerIds.map fun pid => (tracker.get pid).consecutiveFailures).foldr max 0

/-- A result changes the counters of its provider only. -/
theorem get_recordResult (tracker : ProviderReliabilityTracker) (providerId other : Bytes)
    (accepted : Bool) (reason : String) :
    (tracker.recordResult providerId accepted reason).get other =
      if other = providerId then updated (tracker.get providerId) accepted reason
      else tracker.get other := by
  rw [recordResult, get, OrderedDict.lookup_setItem]
  split_ifs with heq
  · rfl
  · rfl

end ProviderReliabilityTracker

/-! ## Tuning -/

/-- `replace(policy, cover_count=…, provider_redundancy=…)`. -/
def StemFetchPolicy.replace (policy : StemFetchPolicy) (coverCount providerRedundancy : ℤ) :
    Py StemFetchPolicy :=
  StemFetchPolicy.new policy.bucketCount coverCount policy.requiredProviderMatches
    providerRedundancy policy.maxEpochLag policy.maxFutureEpochSkew

/-- `tune_policy_from_reliability`. -/
def tunePolicyFromReliability (basePolicy : StemFetchPolicy) (tracker : ProviderReliabilityTracker)
    (providerIds : List Bytes) (minSuccessRate : F) (failureStreakThreshold : ℤ := 2)
    (maxExtraCover : ℤ := 8) (maxExtraRedundancy : ℤ := 8) : Py StemFetchPolicy := do
  raiseIf (¬ (PyFloat.lt PyFloat.zero minSuccessRate ∧ PyFloat.le minSuccessRate PyFloat.one))
    "min_success_rate must be in (0, 1]"
  raiseIf (failureStreakThreshold ≤ 0) "failure_streak_threshold must be positive"
  let avgRate : F := tracker.averageSuccessRate providerIds
  let maxStreak := tracker.maxConsecutiveFailures providerIds
  let (cover, redundancy) := (basePolicy.coverCount, basePolicy.providerRedundancy)
  let (cover, redundancy) :=
    if PyFloat.lt avgRate minSuccessRate then (cover + 1, redundancy + 1) else (cover, redundancy)
  let (cover, redundancy) :=
    if failureStreakThreshold ≤ maxStreak then (cover + 1, redundancy + 1) else (cover, redundancy)
  let cover := min cover (basePolicy.coverCount + maxExtraCover)
  let redundancy := min redundancy (basePolicy.providerRedundancy + maxExtraRedundancy)
  basePolicy.replace cover redundancy

/-! ## What stays the same -/

/-- The policies ask for the same quorum and the same freshness, over the same buckets. -/
structure SameChecks (policy policy' : StemFetchPolicy) : Prop where
  bucketCount_eq : policy.bucketCount = policy'.bucketCount
  requiredProviderMatches_eq : policy.requiredProviderMatches = policy'.requiredProviderMatches
  maxEpochLag_eq : policy.maxEpochLag = policy'.maxEpochLag
  maxFutureEpochSkew_eq : policy.maxFutureEpochSkew = policy'.maxFutureEpochSkew

namespace SameChecks

variable {policy policy' policy'' : StemFetchPolicy}

theorem refl (policy : StemFetchPolicy) : SameChecks policy policy := ⟨rfl, rfl, rfl, rfl⟩

theorem trans (h : SameChecks policy policy') (h' : SameChecks policy' policy'') :
    SameChecks policy policy'' :=
  ⟨h.bucketCount_eq.trans h'.bucketCount_eq,
    h.requiredProviderMatches_eq.trans h'.requiredProviderMatches_eq,
    h.maxEpochLag_eq.trans h'.maxEpochLag_eq,
    h.maxFutureEpochSkew_eq.trans h'.maxFutureEpochSkew_eq⟩

/-- They find the same packets fresh. -/
theorem fresh_eq (h : SameChecks policy policy') (currentEpoch : ℤ) (packet : StemWitnessPacket) :
    policy.fresh currentEpoch packet = policy'.fresh currentEpoch packet := by
  rw [StemFetchPolicy.fresh, StemFetchPolicy.fresh, h.maxEpochLag_eq, h.maxFutureEpochSkew_eq]

end SameChecks

/-- What `replace` returns. -/
theorem StemFetchPolicy.replace_eq_ok {policy policy' : StemFetchPolicy} {cover redundancy : ℤ}
    (h : policy.replace cover redundancy = .ok policy') :
    SameChecks policy policy' ∧ policy'.coverCount = cover ∧
      policy'.providerRedundancy = redundancy := by
  rw [replace, new] at h
  split_ifs at h <;> cases h
  exact ⟨⟨rfl, rfl, rfl, rfl⟩, rfl, rfl⟩

/-- **Tuning** leaves the checks as they are. -/
theorem tunePolicyFromReliability_sameChecks {basePolicy policy : StemFetchPolicy}
    {tracker : ProviderReliabilityTracker} {providerIds : List Bytes} {minSuccessRate : F}
    {failureStreakThreshold maxExtraCover maxExtraRedundancy : ℤ}
    (h : tunePolicyFromReliability basePolicy tracker providerIds minSuccessRate
      failureStreakThreshold maxExtraCover maxExtraRedundancy = .ok policy) :
    SameChecks basePolicy policy := by
  simp only [tunePolicyFromReliability, py_bind_eq_ok_iff] at h
  obtain ⟨_, -, _, -, hreplace⟩ := h
  exact (StemFetchPolicy.replace_eq_ok hreplace).1

end Pbt
