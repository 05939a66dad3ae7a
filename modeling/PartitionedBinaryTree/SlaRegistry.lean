/-
# Bonds of providers (`pbt/stem_subscription.py`)

`OptionalSLARegistry` holds a bond for each pair of a wallet and a provider.  A stake puts a
fresh bond in the place of an old one, a missed delivery takes a penalty off what is left to
slash, down to zero.

What a pair has after any calls, those for other pairs and those that raise among them, is
read off its own calls at once (`positionOf`, `registry_after`): the bond of its last stake, less the
penalties since.
-/
import Mathlib.Algebra.Order.BigOperators.Group.List
import PartitionedBinaryTree.Lib.Epochs
import PartitionedBinaryTree.Lib.OrderedDict
import PartitionedBinaryTree.PyRuntime

namespace Pbt

/-! ## Agreements -/

/-- `ProviderSLA`. -/
structure ProviderSLA where
  providerId : Bytes
  validFromEpoch : ℤ
  validUntilEpoch : ℤ
  maxLatencySlots : ℤ
  minAvailabilityBps : ℤ
  signature : Bytes
  deriving DecidableEq, Repr

/-- `verify_provider_sla`. -/
def verifyProviderSla (sla : ProviderSLA) (currentEpoch : ℤ) : Bool :=
  if sla.validUntilEpoch < sla.validFromEpoch then false
  else if ¬ (sla.validFromEpoch ≤ currentEpoch ∧ currentEpoch ≤ sla.validUntilEpoch) then false
  else if sla.maxLatencySlots ≤ 0 then false
  else if ¬ (0 ≤ sla.minAvailabilityBps ∧ sla.minAvailabilityBps ≤ 10000) then false
  else if sla.signature.length = 0 then false
  else true

/-- An agreement with terms in range is taken in the epochs of its window. -/
theorem verifyProviderSla_iff {sla : ProviderSLA} {currentEpoch : ℤ} :
    verifyProviderSla sla currentEpoch = true ↔
      (0 < sla.maxLatencySlots ∧ 0 ≤ sla.minAvailabilityBps ∧ sla.minAvailabilityBps ≤ 10000 ∧
        sla.signature ≠ []) ∧
      sla.validFromEpoch ≤ currentEpoch ∧ currentEpoch ≤ sla.validUntilEpoch := by
  unfold verifyProviderSla
  rw [← List.length_pos_iff]
  split_ifs <;> simp <;> omega

/-! ## The registry -/

/-- `BondPosition`. -/
structure BondPosition where
  walletId : Bytes
  providerId : Bytes
  bondAmount : ℤ
  slashable : ℤ
  deriving DecidableEq, Repr

/-- `OptionalSLARegistry`. -/
structure OptionalSLARegistry where
  positions : OrderedDict (Bytes × Bytes) BondPosition

namespace OptionalSLARegistry

/-- `__init__`. -/
def new : OptionalSLARegistry := ⟨∅⟩

/-- `stake`. -/
def stake (walletId providerId : Bytes) (bondAmount : ℤ) :
    PyMethod OptionalSLARegistry BondPosition := do
  PyMethod.ofPy (raiseIf (bondAmount ≤ 0) "bond_amount must be positive")
  let position : BondPosition := {
    walletId := walletId
    providerId := providerId
    bondAmount := bondAmount
    slashable := bondAmount }
  modify fun self => ⟨OrderedDict.setItem (walletId, providerId) position self.positions⟩
  pure position

/-- `slash_for_missed_delivery`. -/
def slashForMissedDelivery (walletId providerId : Bytes) (penalty : ℤ) :
    PyMethod OptionalSLARegistry BondPosition := do
  PyMethod.ofPy (raiseIf (penalty ≤ 0) "penalty must be positive")
  let self ← get
  match self.positions.lookup (walletId, providerId) with
  | none => throw ⟨.keyError, "no bond position found"⟩
  | some pos =>
      let pos := { pos with slashable := max 0 (pos.slashable - penalty) }
      modify fun self => ⟨OrderedDict.setItem (walletId, providerId) pos self.positions⟩
      pure pos

/-- `get_position`. -/
def getPosition (self : OptionalSLARegistry) (walletId providerId : Bytes) :
    Option BondPosition :=
  self.positions.lookup (walletId, providerId)

end OptionalSLARegistry

/-! ## Runs -/

/-- A call on the registry. -/
inductive SlaCall
  | stake (walletId providerId : Bytes) (bondAmount : ℤ)
  | slash (walletId providerId : Bytes) (penalty : ℤ)
  deriving DecidableEq, Repr

namespace SlaCall

/-- The method a call runs. -/
def method : SlaCall → PyMethod OptionalSLARegistry BondPosition
  | stake walletId providerId bondAmount =>
      OptionalSLARegistry.stake walletId providerId bondAmount
  | slash walletId providerId penalty =>
      OptionalSLARegistry.slashForMissedDelivery walletId providerId penalty

/-- The pair that a call is for. -/
def key : SlaCall → Bytes × Bytes
  | stake walletId providerId _ => (walletId, providerId)
  | slash walletId providerId _ => (walletId, providerId)

/-- The amount that a call names. -/
def amount : SlaCall → ℤ
  | stake _ _ bondAmount => bondAmount
  | slash _ _ penalty => penalty

/-- The text of the exception for an amount that is not positive. -/
def rangeMessage : SlaCall → String
  | stake _ _ _ => "bond_amount must be positive"
  | slash _ _ _ => "penalty must be positive"

/-- The call starts a bond. -/
def isStake : SlaCall → Bool
  | stake _ _ _ => true
  | slash _ _ _ => false

end SlaCall

/-- The calls for one pair that name a positive amount. -/
def slaCallsOf (key : Bytes × Bytes) (calls : List SlaCall) : List SlaCall :=
  calls.filter fun call => call.key = key ∧ 0 < call.amount

/-- The penalties since the last stake. -/
def penaltiesSince (calls : List SlaCall) : ℤ :=
  ((Epochs.sinceReset SlaCall.isStake calls).map SlaCall.amount).sum

/-- The position that its calls give a pair. -/
def positionOf (key : Bytes × Bytes) (calls : List SlaCall) : Option BondPosition :=
  (calls.filter SlaCall.isStake).getLast?.map fun call => {
    walletId := key.1
    providerId := key.2
    bondAmount := call.amount
    slashable := max 0 (call.amount - penaltiesSince calls) }

namespace OptionalSLARegistry

/-- The registry after some calls. -/
def after (calls : List SlaCall) : OptionalSLARegistry :=
  calls.foldl (fun self call => (call.method.call self).2) new

theorem after_concat (calls : List SlaCall) (call : SlaCall) :
    after (calls ++ [call]) = (call.method.call (after calls)).2 := by
  rw [after, List.foldl_append]
  rfl

/-! ### One call -/

theorem call_stake (self : OptionalSLARegistry) (walletId providerId : Bytes) (bondAmount : ℤ) :
    (stake walletId providerId bondAmount).call self =
      if 0 < bondAmount then
        (.ok ⟨walletId, providerId, bondAmount, bondAmount⟩,
          ⟨OrderedDict.setItem (walletId, providerId)
            ⟨walletId, providerId, bondAmount, bondAmount⟩ self.positions⟩)
      else (raiseValueError "bond_amount must be positive", self) := by
  unfold stake raiseIf
  split_ifs with h h' h'
  · omega
  · rfl
  · rfl
  · omega

theorem call_slash (self : OptionalSLARegistry) (walletId providerId : Bytes) (penalty : ℤ) :
    (slashForMissedDelivery walletId providerId penalty).call self =
      if 0 < penalty then
        match self.positions.lookup (walletId, providerId) with
        | none => (.error ⟨.keyError, "no bond position found"⟩, self)
        | some pos =>
            (.ok { pos with slashable := max 0 (pos.slashable - penalty) },
              ⟨OrderedDict.setItem (walletId, providerId)
                { pos with slashable := max 0 (pos.slashable - penalty) } self.positions⟩)
      else (raiseValueError "penalty must be positive", self) := by
  unfold slashForMissedDelivery raiseIf
  split_ifs with h h' h'
  · omega
  · rfl
  · show PyMethod.call (match self.positions.lookup (walletId, providerId) with
      | none => _
      | some pos => _) self = _
    cases self.positions.lookup (walletId, providerId) <;> rfl
  · omega

/-! ### The position of a pair -/

theorem slaCallsOf_concat (key : Bytes × Bytes) (calls : List SlaCall) (call : SlaCall) :
    slaCallsOf key (calls ++ [call]) =
      if call.key = key ∧ 0 < call.amount then slaCallsOf key calls ++ [call]
      else slaCallsOf key calls := by
  unfold slaCallsOf
  rw [List.filter_append]
  split_ifs with h
  · rw [List.filter_cons_of_pos (by simpa using h), List.filter_nil]
  · rw [List.filter_cons_of_neg (by simpa using h), List.filter_nil, List.append_nil]

/-- A stake is a fresh bond. -/
theorem positionOf_concat_stake (key : Bytes × Bytes) (own : List SlaCall)
    (walletId providerId : Bytes) {bondAmount : ℤ} (h : 0 < bondAmount) :
    positionOf key (own ++ [.stake walletId providerId bondAmount]) =
      some ⟨key.1, key.2, bondAmount, bondAmount⟩ := by
  have hreset : penaltiesSince (own ++ [.stake walletId providerId bondAmount]) = 0 := by
    rw [penaltiesSince, Epochs.sinceReset_concat_of_reset rfl]
    rfl
  unfold positionOf
  rw [hreset, List.filter_append, List.filter_cons_of_pos rfl, List.filter_nil,
    List.getLast?_concat, Option.map_some]
  simp only [SlaCall.amount, sub_zero, max_eq_right h.le]

/-- A penalty comes off what is left. -/
theorem positionOf_concat_slash (key : Bytes × Bytes) (own : List SlaCall)
    (walletId providerId : Bytes) {penalty : ℤ} (h : 0 < penalty) :
    positionOf key (own ++ [.slash walletId providerId penalty]) =
      (positionOf key own).map fun pos =>
        { pos with slashable := max 0 (pos.slashable - penalty) } := by
  have hsum : penaltiesSince (own ++ [.slash walletId providerId penalty]) =
      penaltiesSince own + penalty := by
    rw [penaltiesSince, Epochs.sinceReset_concat rfl, List.map_append, List.sum_append]
    simp [penaltiesSince, SlaCall.amount]
  unfold positionOf
  rw [hsum, List.filter_append, List.filter_cons_of_neg (by simp [SlaCall.isStake]),
    List.filter_nil, List.append_nil, Option.map_map]
  congr 1
  funext stake
  have hmax : max 0 (stake.amount - (penaltiesSince own + penalty)) =
      max 0 (max 0 (stake.amount - penaltiesSince own) - penalty) := by omega
  rw [hmax]
  rfl

/-- **The position of a pair** after any calls is the one that its own calls give it. -/
theorem lookup_after (calls : List SlaCall) (key : Bytes × Bytes) :
    (after calls).positions.lookup key = positionOf key (slaCallsOf key calls) := by
  induction calls using List.reverseRecOn with
  | nil => rfl
  | append_singleton calls call ih =>
      rw [after_concat, slaCallsOf_concat]
      cases call with
      | stake walletId providerId bondAmount =>
          rw [SlaCall.method, call_stake]
          by_cases hpos : 0 < bondAmount
          · rw [if_pos hpos]
            dsimp only
            rw [OrderedDict.lookup_setItem]
            by_cases hkey : key = (walletId, providerId)
            · rw [if_pos hkey, if_pos ⟨hkey.symm, hpos⟩, positionOf_concat_stake _ _ _ _ hpos, hkey]
            · rw [if_neg hkey, if_neg fun h => hkey h.1.symm, ih]
          · rw [if_neg hpos, if_neg fun h => hpos h.2, ih]
      | slash walletId providerId penalty =>
          rw [SlaCall.method, call_slash]
          by_cases hpos : 0 < penalty
          · rw [if_pos hpos]
            by_cases hkey : key = (walletId, providerId)
            · rw [← hkey, if_pos ⟨hkey.symm, hpos⟩, positionOf_concat_slash _ _ _ _ hpos, ← ih]
              cases hlookup : (after calls).positions.lookup key with
              | none => exact hlookup
              | some pos =>
                  dsimp only
                  rw [OrderedDict.lookup_setItem, if_pos rfl]
                  rfl
            · rw [if_neg fun h => hkey h.1.symm, ← ih]
              cases (after calls).positions.lookup (walletId, providerId) with
              | none => rfl
              | some pos =>
                  dsimp only
                  rw [OrderedDict.lookup_setItem, if_neg hkey]
          · rw [if_neg hpos, if_neg fun h => hpos h.2, ih]

theorem amount_pos_of_mem_slaCallsOf {key : Bytes × Bytes} {calls : List SlaCall} {call : SlaCall}
    (h : call ∈ slaCallsOf key calls) : 0 < call.amount := by
  have := List.of_mem_filter h
  simp only [decide_eq_true_eq] at this
  exact this.2

theorem penaltiesSince_nonneg (key : Bytes × Bytes) (calls : List SlaCall) :
    0 ≤ penaltiesSince (slaCallsOf key calls) := by
  refine List.sum_nonneg fun amount hamount => ?_
  obtain ⟨call, hcall, rfl⟩ := List.mem_map.mp hamount
  have hmem : call ∈ slaCallsOf key calls :=
    (List.rtakeWhile_suffix _ _).subset hcall
  exact (amount_pos_of_mem_slaCallsOf hmem).le

/-- What a call comes to: the position of its pair after it, or the exception for an amount that
is not positive or a pair that has never staked. -/
theorem call_after (calls : List SlaCall) (call : SlaCall) :
    (call.method.call (after calls)).1 =
      if 0 < call.amount then
        ((after (calls ++ [call])).positions.lookup call.key).elim
          (.error ⟨.keyError, "no bond position found"⟩) .ok
      else raiseValueError call.rangeMessage := by
  rw [after_concat]
  by_cases hpos : 0 < call.amount
  · rw [if_pos hpos]
    cases call with
    | stake walletId providerId bondAmount =>
        have hbond : 0 < bondAmount := hpos
        rw [SlaCall.method, call_stake, if_pos hbond]
        dsimp only [SlaCall.key]
        rw [OrderedDict.lookup_setItem, if_pos rfl]
        rfl
    | slash walletId providerId penalty =>
        have hpenalty : 0 < penalty := hpos
        rw [SlaCall.method, call_slash, if_pos hpenalty]
        dsimp only [SlaCall.key]
        cases hlookup : (after calls).positions.lookup (walletId, providerId) with
        | none =>
            dsimp only
            rw [hlookup]
            rfl
        | some pos =>
            dsimp only
            rw [OrderedDict.lookup_setItem, if_pos rfl]
            rfl
  · rw [if_neg hpos]
    cases call with
    | stake walletId providerId bondAmount =>
        have hbond : ¬ 0 < bondAmount := hpos
        rw [SlaCall.method, call_stake, if_neg hbond]
        rfl
    | slash walletId providerId penalty =>
        have hpenalty : ¬ 0 < penalty := hpos
        rw [SlaCall.method, call_slash, if_neg hpenalty]
        rfl

/-- **The registry after any calls.**  A pair has the bond of its last stake, of which its
penalties since then are no longer slashable; what is slashable lies between zero and the bond;
and a call returns the position of its pair after it, or raises. -/
theorem registry_after (calls : List SlaCall) :
    (∀ walletId providerId, (after calls).getPosition walletId providerId =
      positionOf (walletId, providerId) (slaCallsOf (walletId, providerId) calls)) ∧
    (∀ walletId providerId pos, (after calls).getPosition walletId providerId = some pos →
      0 < pos.bondAmount ∧ 0 ≤ pos.slashable ∧ pos.slashable ≤ pos.bondAmount) ∧
    ∀ call : SlaCall, (call.method.call (after calls)).1 =
      if 0 < call.amount then
        (positionOf call.key (slaCallsOf call.key (calls ++ [call]))).elim
          (.error ⟨.keyError, "no bond position found"⟩) .ok
      else raiseValueError call.rangeMessage := by
  refine ⟨fun walletId providerId => lookup_after calls _, fun walletId providerId pos h => ?_,
    fun call => ?_⟩
  · rw [getPosition, lookup_after, positionOf, Option.map_eq_some_iff] at h
    obtain ⟨call, hlast, rfl⟩ := h
    have hpos : 0 < call.amount :=
      amount_pos_of_mem_slaCallsOf (List.mem_of_mem_filter (List.mem_of_getLast? hlast))
    have hpenalties := penaltiesSince_nonneg (walletId, providerId) calls
    exact ⟨hpos, le_max_left _ _, max_le hpos.le (sub_le_self _ hpenalties)⟩
  · rw [call_after, lookup_after]

end OptionalSLARegistry

end Pbt
