/-
# The stem gas meter (`pbt/gas.py`)

The meter keeps the stems that were opened and those that were verified in the current
block.  The first access to a stem opens it and pays for the branch, unless it is a
verified cache hit, which pays a discount price and opens the stem as well.

So a later access to a stem that was opened at a discount pays for a chunk only, whether or
not it was verified: no access of the block has paid for the branch.  `branchesPaid_iff` says
which sequences of calls are free of this.
-/
import Mathlib.Data.Finset.Basic
import PartitionedBinaryTree.Lib.Epochs
import PartitionedBinaryTree.TreeRuns

namespace Pbt

/-! ## The meter -/

/-- `StemGasPolicy`: costs that have passed `__post_init__`. -/
structure StemGasPolicy where
  witnessBranchCost : ℤ
  witnessChunkCost : ℤ
  writeNewLeafCost : ℤ
  verifiedCacheHitReadCost : ℤ
  branch_nonneg : 0 ≤ witnessBranchCost
  chunk_nonneg : 0 ≤ witnessChunkCost
  newLeaf_nonneg : 0 ≤ writeNewLeafCost
  cacheHit_nonneg : 0 ≤ verifiedCacheHitReadCost

/-- `StemGasPolicy(…)`. -/
def StemGasPolicy.new (witnessBranchCost : ℤ := 8) (witnessChunkCost : ℤ := 2)
    (writeNewLeafCost : ℤ := 5) (verifiedCacheHitReadCost : ℤ := 1) : Py StemGasPolicy :=
  if hbranch : witnessBranchCost < 0 then
    raiseValueError "witness_branch_cost must be non-negative"
  else if hchunk : witnessChunkCost < 0 then
    raiseValueError "witness_chunk_cost must be non-negative"
  else if hleaf : writeNewLeafCost < 0 then
    raiseValueError "write_new_leaf_cost must be non-negative"
  else if hhit : verifiedCacheHitReadCost < 0 then
    raiseValueError "verified_cache_hit_read_cost must be non-negative"
  else .ok ⟨witnessBranchCost, witnessChunkCost, writeNewLeafCost, verifiedCacheHitReadCost,
    nonneg_of_not_neg hbranch, nonneg_of_not_neg hchunk, nonneg_of_not_neg hleaf,
    nonneg_of_not_neg hhit⟩

/-- `StemGasPolicy()`. -/
def StemGasPolicy.default : StemGasPolicy :=
  ⟨8, 2, 5, 1, Int.natCast_nonneg 8, Int.natCast_nonneg 2, Int.natCast_nonneg 5,
    Int.natCast_nonneg 1⟩

/-- The defaults pass their own checks. -/
theorem StemGasPolicy.new_default : StemGasPolicy.new = .ok .default := rfl

/-- `StemCharge`. -/
structure StemCharge where
  totalCost : ℤ
  usedBranchOpening : Bool
  usedVerifiedCacheDiscount : Bool
  deriving DecidableEq, Repr

/-- `VerificationAwareStemGasMeter`. -/
structure StemGasMeter where
  policy : StemGasPolicy
  openedStems : Finset Bytes
  verifiedHotStems : Finset Bytes

namespace StemGasMeter

/-- `VerificationAwareStemGasMeter(policy)`. -/
def new (policy : Option StemGasPolicy) : StemGasMeter := ⟨policy.getD .default, ∅, ∅⟩

/-- `new_block`. -/
def newBlock : PyMethod StemGasMeter Unit :=
  modify fun self => { self with openedStems := ∅, verifiedHotStems := ∅ }

/-- `mark_stem_verified`. -/
def markStemVerified (stemPrefix : Bytes) : PyMethod StemGasMeter Unit :=
  modify fun self => { self with verifiedHotStems := self.verifiedHotStems ∪ {stemPrefix} }

/-- `mark_key_verified`. -/
def markKeyVerified (key : Bytes) : PyMethod StemGasMeter Unit := do
  let (stemPrefix, _) ← PyMethod.ofPy (splitKey key)
  markStemVerified stemPrefix

/-- `charge_read`. -/
def chargeRead (stemPrefix : Bytes) (locallyVerified : Bool) :
    PyMethod StemGasMeter StemCharge := do
  let self ← MonadState.get
  if stemPrefix ∉ self.openedStems then
    let canUseVerifiedDiscount := locallyVerified && decide (stemPrefix ∈ self.verifiedHotStems)
    modify fun self => { self with openedStems := self.openedStems ∪ {stemPrefix} }
    if canUseVerifiedDiscount then
      pure ⟨self.policy.verifiedCacheHitReadCost, false, true⟩
    else
      pure ⟨self.policy.witnessBranchCost + self.policy.witnessChunkCost, true, false⟩
  else
    pure ⟨self.policy.witnessChunkCost, false, false⟩

/-- `charge_write`. -/
def chargeWrite (stemPrefix : Bytes) (isNewLeaf locallyVerified : Bool) :
    PyMethod StemGasMeter StemCharge := do
  let base ← chargeRead stemPrefix locallyVerified
  let self ← MonadState.get
  let extra := if isNewLeaf then self.policy.writeNewLeafCost else 0
  pure ⟨base.totalCost + extra, base.usedBranchOpening, base.usedVerifiedCacheDiscount⟩

end StemGasMeter

/-! ## Runs -/

/-- A call on the meter. -/
inductive MeterCall
  | newBlock
  | markStemVerified (stemPrefix : Bytes)
  | markKeyVerified (key : Bytes)
  | chargeRead (stemPrefix : Bytes) (locallyVerified : Bool)
  | chargeWrite (stemPrefix : Bytes) (isNewLeaf locallyVerified : Bool)
  deriving DecidableEq

namespace MeterCall

/-- The method a call runs, with the charge it returns. -/
def method : MeterCall → PyMethod StemGasMeter (Option StemCharge)
  | newBlock => (fun _ => none) <$> StemGasMeter.newBlock
  | markStemVerified stemPrefix => (fun _ => none) <$> StemGasMeter.markStemVerified stemPrefix
  | markKeyVerified key => (fun _ => none) <$> StemGasMeter.markKeyVerified key
  | chargeRead stemPrefix locallyVerified =>
      some <$> StemGasMeter.chargeRead stemPrefix locallyVerified
  | chargeWrite stemPrefix isNewLeaf locallyVerified =>
      some <$> StemGasMeter.chargeWrite stemPrefix isNewLeaf locallyVerified

/-- The call starts a block. -/
def startsBlock : MeterCall → Bool
  | newBlock => true
  | _ => false

/-- The stem an access is charged for. -/
def chargedStem : MeterCall → Option Bytes
  | chargeRead stemPrefix _ => some stemPrefix
  | chargeWrite stemPrefix _ _ => some stemPrefix
  | _ => none

/-- The access signals that local verification succeeded. -/
def locallyVerified : MeterCall → Bool
  | chargeRead _ locallyVerified => locallyVerified
  | chargeWrite _ _ locallyVerified => locallyVerified
  | _ => false

/-- The stem the call marks as verified; a key that is too short has none. -/
def markedStem : MeterCall → Option Bytes
  | markStemVerified stemPrefix => some stemPrefix
  | markKeyVerified key =>
      match splitKey key with
      | .ok (stemPrefix, _) => some stemPrefix
      | .error _ => none
  | _ => none

end MeterCall

namespace StemGasMeter

/-- The meter after a call, also when it raises. -/
def step (meter : StemGasMeter) (call : MeterCall) : StemGasMeter := (call.method.call meter).2

/-- A new meter after some calls. -/
def after (policy : Option StemGasPolicy) (calls : List MeterCall) : StemGasMeter :=
  calls.foldl step (new policy)

/-- What a call after some others is charged. -/
def chargeAfter (policy : Option StemGasPolicy) (calls : List MeterCall) (call : MeterCall) :
    Option StemCharge :=
  match (call.method.call (after policy calls)).1 with
  | .ok charge => charge
  | .error _ => none

end StemGasMeter

/-- The calls of the current block. -/
def currentBlock (calls : List MeterCall) : List MeterCall :=
  Epochs.sinceReset MeterCall.startsBlock calls

/-! ## One call -/

namespace StemGasMeter

/-- **An access**: the branch is opened by the first one, unless it is a verified cache hit. -/
theorem call_chargeRead (meter : StemGasMeter) (stemPrefix : Bytes) (locallyVerified : Bool) :
    ∃ charge,
      (chargeRead stemPrefix locallyVerified).call meter =
        (.ok charge, { meter with openedStems := meter.openedStems ∪ {stemPrefix} }) ∧
      (charge.usedVerifiedCacheDiscount = true ↔ stemPrefix ∉ meter.openedStems ∧
        locallyVerified = true ∧ stemPrefix ∈ meter.verifiedHotStems) ∧
      (charge.usedBranchOpening = true ↔ stemPrefix ∉ meter.openedStems ∧
        ¬ (locallyVerified = true ∧ stemPrefix ∈ meter.verifiedHotStems)) := by
  unfold chargeRead
  rw [PyMethod.call_get_bind]
  by_cases hopened : stemPrefix ∈ meter.openedStems
  · have hunion : meter.openedStems ∪ {stemPrefix} = meter.openedStems := by simpa using hopened
    rw [if_neg (not_not.mpr hopened), PyMethod.call_pure, hunion]
    exact ⟨_, rfl, by simp [hopened], by simp [hopened]⟩
  · rw [if_pos hopened, PyMethod.call_modify_bind, PyMethod.call_ite]
    by_cases hhit : locallyVerified = true ∧ stemPrefix ∈ meter.verifiedHotStems
    · rw [if_pos (by simpa using hhit), PyMethod.call_pure]
      exact ⟨_, rfl, by simp [hopened, hhit], by simp [hhit]⟩
    · rw [if_neg (by simpa using hhit), PyMethod.call_pure]
      exact ⟨_, rfl, by simpa using fun _ => not_and.mp hhit, by simp [hopened, hhit]⟩

/-- A write opens the branch, and uses the discount, as a read does. -/
theorem call_chargeWrite (meter : StemGasMeter) (stemPrefix : Bytes)
    (isNewLeaf locallyVerified : Bool) {charge : StemCharge} {meter' : StemGasMeter}
    (h : (chargeRead stemPrefix locallyVerified).call meter = (.ok charge, meter')) :
    ∃ charge',
      (chargeWrite stemPrefix isNewLeaf locallyVerified).call meter = (.ok charge', meter') ∧
      charge'.usedVerifiedCacheDiscount = charge.usedVerifiedCacheDiscount ∧
      charge'.usedBranchOpening = charge.usedBranchOpening := by
  unfold chargeWrite
  rw [PyMethod.call_bind, h]
  exact ⟨_, rfl, rfl, rfl⟩

/-- **The charge of any access**, and the stems that are open after it. -/
theorem call_method_of_chargedStem {call : MeterCall} {stemPrefix : Bytes}
    (h : call.chargedStem = some stemPrefix) (meter : StemGasMeter) :
    ∃ charge,
      call.method.call meter =
        (.ok (some charge), { meter with openedStems := meter.openedStems ∪ {stemPrefix} }) ∧
      (charge.usedVerifiedCacheDiscount = true ↔ stemPrefix ∉ meter.openedStems ∧
        call.locallyVerified = true ∧ stemPrefix ∈ meter.verifiedHotStems) ∧
      (charge.usedBranchOpening = true ↔ stemPrefix ∉ meter.openedStems ∧
        ¬ (call.locallyVerified = true ∧ stemPrefix ∈ meter.verifiedHotStems)) := by
  cases call with
  | newBlock => cases h
  | markStemVerified s => cases h
  | markKeyVerified key => cases h
  | chargeRead s verified =>
      cases h
      obtain ⟨charge, hcall, hdiscount, hbranch⟩ := call_chargeRead meter stemPrefix verified
      refine ⟨charge, ?_, hdiscount, hbranch⟩
      rw [MeterCall.method, PyMethod.call_map, hcall]
      rfl
  | chargeWrite s isNewLeaf verified =>
      cases h
      obtain ⟨charge, hread, hdiscount, hbranch⟩ := call_chargeRead meter stemPrefix verified
      obtain ⟨charge', hcall, hdiscount', hbranch'⟩ :=
        call_chargeWrite meter stemPrefix isNewLeaf verified hread
      refine ⟨charge', ?_, by rwa [hdiscount'], by rwa [hbranch']⟩
      rw [MeterCall.method, PyMethod.call_map, hcall]
      rfl

/-- **What a call does to the stems of the block.** -/
theorem mem_step_iff (meter : StemGasMeter) (call : MeterCall) (stemPrefix : Bytes) :
    (stemPrefix ∈ (step meter call).openedStems ↔ call.startsBlock = false ∧
      (stemPrefix ∈ meter.openedStems ∨ call.chargedStem = some stemPrefix)) ∧
    (stemPrefix ∈ (step meter call).verifiedHotStems ↔ call.startsBlock = false ∧
      (stemPrefix ∈ meter.verifiedHotStems ∨ call.markedStem = some stemPrefix)) := by
  cases hcharged : call.chargedStem with
  | some s =>
      -- an access marks nothing
      obtain ⟨charge, hcall, -, -⟩ := call_method_of_chargedStem hcharged meter
      rw [step, hcall]
      cases call <;> cases hcharged <;>
        simp [MeterCall.startsBlock, MeterCall.markedStem, eq_comm, or_comm]
  | none =>
      cases call with
      | newBlock => simp [step, MeterCall.method, newBlock, MeterCall.startsBlock]
      | markStemVerified s =>
          simp [step, MeterCall.method, markStemVerified, MeterCall.startsBlock,
            MeterCall.markedStem, eq_comm, or_comm]
      | markKeyVerified key =>
          rw [step, MeterCall.method, PyMethod.call_map, markKeyVerified, PyMethod.call_bind,
            PyMethod.call_ofPy]
          cases hsplit : splitKey key with
          | error e => simp [MeterCall.startsBlock, MeterCall.markedStem, hsplit]
          | ok slot =>
              simp [markStemVerified, MeterCall.startsBlock, MeterCall.markedStem, hsplit, eq_comm,
                or_comm]
      | chargeRead s verified => cases hcharged
      | chargeWrite s isNewLeaf verified => cases hcharged

/-! ## Every run -/

variable {policy : Option StemGasPolicy} {calls : List MeterCall} {call : MeterCall}
  {stemPrefix : Bytes}

/-- **The opened stems** are those that the current block has charged. -/
theorem mem_openedStems_after : stemPrefix ∈ (after policy calls).openedStems ↔
    ∃ c ∈ currentBlock calls, c.chargedStem = some stemPrefix :=
  Epochs.mem_foldl_iff (fun s meter => s ∈ meter.openedStems) (fun _ => Finset.notMem_empty _)
    (fun meter c s => (mem_step_iff meter c s).1) calls stemPrefix

/-- **The verified stems** are those that the current block has marked. -/
theorem mem_verifiedHotStems_after : stemPrefix ∈ (after policy calls).verifiedHotStems ↔
    ∃ c ∈ currentBlock calls, c.markedStem = some stemPrefix :=
  Epochs.mem_foldl_iff (fun s meter => s ∈ meter.verifiedHotStems)
    (fun _ => Finset.notMem_empty _) (fun meter c s => (mem_step_iff meter c s).2) calls stemPrefix

/-- The charge of an access after some calls, by what the block has charged and marked. -/
theorem chargeAfter_of_chargedStem (policy : Option StemGasPolicy) (calls : List MeterCall)
    (h : call.chargedStem = some stemPrefix) :
    ∃ charge, chargeAfter policy calls call = some charge ∧
      (charge.usedVerifiedCacheDiscount = true ↔
        stemPrefix ∉ (after policy calls).openedStems ∧ call.locallyVerified = true ∧
          ∃ c ∈ currentBlock calls, c.markedStem = some stemPrefix) ∧
      (charge.usedBranchOpening = true ↔
        stemPrefix ∉ (after policy calls).openedStems ∧ ¬ (call.locallyVerified = true ∧
          ∃ c ∈ currentBlock calls, c.markedStem = some stemPrefix)) := by
  obtain ⟨charge, hcall, hdiscount, hbranch⟩ := call_method_of_chargedStem h (after policy calls)
  rw [mem_verifiedHotStems_after] at hdiscount hbranch
  refine ⟨charge, ?_, hdiscount, hbranch⟩
  rw [chargeAfter, hcall]

/-- What is charged is an access to a stem. -/
theorem chargedStem_of_chargeAfter {charge : StemCharge}
    (h : chargeAfter policy calls call = some charge) :
    ∃ stemPrefix, call.chargedStem = some stemPrefix := by
  cases call with
  | newBlock => cases h
  | markStemVerified s => cases h
  | markKeyVerified key =>
      rw [chargeAfter, MeterCall.method, PyMethod.call_map] at h
      cases hkey : ((markKeyVerified key).call (after policy calls)).1 with
      | error e =>
          rw [hkey] at h
          cases h
      | ok u =>
          rw [hkey] at h
          cases h
  | chargeRead s verified => exact ⟨s, rfl⟩
  | chargeWrite s isNewLeaf verified => exact ⟨s, rfl⟩

/-- An access that opens the branch is the first one to its stem in the block, and not a
verified cache hit; so there is one at most. -/
theorem usedBranchOpening_iff {charge : StemCharge}
    (hstem : call.chargedStem = some stemPrefix)
    (h : chargeAfter policy calls call = some charge) :
    charge.usedBranchOpening = true ↔
      (∀ c ∈ currentBlock calls, c.chargedStem ≠ some stemPrefix) ∧
        ¬ (call.locallyVerified = true ∧
          ∃ c ∈ currentBlock calls, c.markedStem = some stemPrefix) := by
  obtain ⟨charge', hcharge, -, hbranch⟩ := chargeAfter_of_chargedStem policy calls hstem
  obtain rfl : charge' = charge := Option.some.inj (hcharge.symm.trans h)
  rw [hbranch, mem_openedStems_after]
  simp only [not_exists, not_and, ne_eq]

end StemGasMeter

/-! ## Unpaid branches -/

open StemGasMeter

/-- Every access that does not use the discount opens the branch, or comes after an access
to the stem in the same block that did. -/
def BranchesPaid (policy : Option StemGasPolicy) (calls : List MeterCall) : Prop :=
  ∀ before call later charge, calls = before ++ call :: later →
    chargeAfter policy before call = some charge → charge.usedVerifiedCacheDiscount = false →
    charge.usedBranchOpening = true ∨
      ∃ earlier opening between charge', before = earlier ++ opening :: between ∧
        (∀ c ∈ between, c.startsBlock = false) ∧ opening.chargedStem = call.chargedStem ∧
        chargeAfter policy earlier opening = some charge' ∧ charge'.usedBranchOpening = true

/-- The first access of a block to a stem signals local verification, and the stem has been
marked before it. -/
def OpensAtDiscount (block : List MeterCall) (stemPrefix : Bytes) : Prop :=
  ∃ earlier opening between, block = earlier ++ opening :: between ∧
    opening.chargedStem = some stemPrefix ∧ (∀ c ∈ earlier, c.chargedStem ≠ some stemPrefix) ∧
    opening.locallyVerified = true ∧ ∃ c ∈ earlier, c.markedStem = some stemPrefix

/-- No access comes, in its block, after a first access to its stem at a discount. -/
def NoAccessAfterDiscount (calls : List MeterCall) : Prop :=
  ∀ before call later stemPrefix, calls = before ++ call :: later →
    call.chargedStem = some stemPrefix → ¬ OpensAtDiscount (currentBlock before) stemPrefix

variable {policy : Option StemGasPolicy} {calls : List MeterCall}

/-- The access that pays for a branch is the first one of the block to its stem; when that one
had the discount, there is none. -/
theorem BranchesPaid.noAccessAfterDiscount (h : BranchesPaid policy calls) :
    NoAccessAfterDiscount calls := by
  rintro before call later stemPrefix hcalls hstem
    ⟨earlier, opening, between, hblock, hopening, hfirst, hverified, hmarked⟩
  have hopened : stemPrefix ∈ (after policy before).openedStems :=
    mem_openedStems_after.mpr ⟨opening, by simp [hblock], hopening⟩
  obtain ⟨charge, hcharge, hdiscount, hbranch⟩ :=
    chargeAfter_of_chargedStem policy before hstem
  have hnodiscount : charge.usedVerifiedCacheDiscount = false := by
    rw [← Bool.not_eq_true, hdiscount]
    exact fun h => h.1 hopened
  obtain hpaid | ⟨earlier', opening', between', charge', hbefore, hbetween, hstem', hcharge',
    hpaid⟩ := h before call later charge hcalls hcharge hnodiscount
  · exact (hbranch.mp hpaid).1 hopened
  · -- the access that pays is the first one to the stem, which had the discount
    rw [hstem] at hstem'
    obtain ⟨hfirst', hnohit⟩ := (usedBranchOpening_iff hstem' hcharge').mp hpaid
    have hsplit : currentBlock before = currentBlock earlier' ++ opening' :: between' := by
      refine Epochs.sinceReset_eq_append_cons_iff.mpr ⟨earlier', hbefore, rfl, ?_⟩
      intro c hc
      rcases List.mem_cons.mp hc with rfl | hc
      · cases c <;> first | rfl | cases hstem'
      · exact hbetween c hc
    obtain ⟨heq, rfl⟩ := Epochs.first_unique (p := fun c => c.chargedStem = some stemPrefix)
      hstem' hopening hfirst' hfirst (hsplit.symm.trans hblock)
    rw [heq] at hnohit
    exact hnohit ⟨hverified, hmarked⟩

/-- The first access of the block to a stem pays for the branch, unless it has the discount. -/
theorem NoAccessAfterDiscount.branchesPaid (h : NoAccessAfterDiscount calls) :
    BranchesPaid policy calls := by
  intro before call later charge hcalls hcharge hnodiscount
  obtain ⟨stemPrefix, hstem⟩ := chargedStem_of_chargeAfter hcharge
  by_cases hopened : ∃ c ∈ currentBlock before, c.chargedStem = some stemPrefix
  · -- the first access of the block to the stem has paid for the branch
    obtain ⟨c, hc, hcstem⟩ := hopened
    obtain ⟨earlier, opening, between, hblock, hopening, hfirst⟩ :=
      Epochs.exists_first (p := fun c => c.chargedStem = some stemPrefix) hc hcstem
    obtain ⟨past, hbefore, hpast, hnoreset⟩ := Epochs.sinceReset_eq_append_cons_iff.mp hblock
    obtain ⟨charge', hcharge', -⟩ :=
      chargeAfter_of_chargedStem policy past hopening
    refine Or.inr ⟨past, opening, between, charge', hbefore,
      fun c hc => hnoreset c (List.mem_cons_of_mem _ hc), hopening.trans hstem.symm, hcharge', ?_⟩
    rw [usedBranchOpening_iff hopening hcharge', currentBlock, hpast]
    refine ⟨hfirst, fun ⟨hverified, hmarked⟩ => ?_⟩
    exact h before call later stemPrefix hcalls hstem
      ⟨earlier, opening, between, hblock, hopening, hfirst, hverified, hmarked⟩
  · -- the access is the first one to the stem, and not a verified cache hit
    left
    obtain ⟨charge', hcharge', hdiscount, hbranch⟩ :=
      chargeAfter_of_chargedStem policy before hstem
    obtain rfl : charge' = charge := Option.some.inj (hcharge'.symm.trans hcharge)
    have hclosed : stemPrefix ∉ (after policy before).openedStems :=
      fun hmem => hopened (mem_openedStems_after.mp hmem)
    rw [← Bool.not_eq_true, hdiscount] at hnodiscount
    exact hbranch.mpr ⟨hclosed, fun hhit => hnodiscount ⟨hclosed, hhit⟩⟩

/-- **When no branch is left unpaid**: exactly when no stem that was opened at a discount is
accessed again in its block. -/
theorem branchesPaid_iff (policy : Option StemGasPolicy) (calls : List MeterCall) :
    BranchesPaid policy calls ↔ NoAccessAfterDiscount calls :=
  ⟨BranchesPaid.noAccessAfterDiscount, NoAccessAfterDiscount.branchesPaid⟩

/-- A stem marked as verified, read with the signal, and read again without it: the second
read pays for a chunk, and nothing in the block has paid for the branch. -/
theorem not_branchesPaid : ¬ ∀ policy calls, BranchesPaid policy calls := by
  intro h
  have hpaid := h none [.markStemVerified [0], .chargeRead [0] true, .chargeRead [0] false]
  refine hpaid.noAccessAfterDiscount [.markStemVerified [0], .chargeRead [0] true]
    (.chargeRead [0] false) [] [0] rfl rfl
    ⟨[.markStemVerified [0]], .chargeRead [0] true, [], by decide, rfl, ?_, rfl, ?_⟩
  · simp [MeterCall.chargedStem]
  · exact ⟨_, List.mem_cons_self, rfl⟩

end Pbt
