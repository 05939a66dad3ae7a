/-
# The quota of a lens (`pbt/stem_subscription.py`)

A lens answers while its epoch is current, its quota is not used up and it has not been
discarded.  `consume` takes from the quota, down to zero and no further: the call that uses
the quota up may ask for more than is left of it, and is applied.

`quota_run` is the invariant of the runs: what is left of the quota is what the
applied calls have not asked for, and all of them but the last have asked for less than the
quota.
-/
import Mathlib.Algebra.Order.BigOperators.Group.List
import PartitionedBinaryTree.StateLens

namespace Pbt

/-! ## The methods of a lens -/

namespace EphemeralStateLens

/-- `is_active`. -/
def isActive (self : EphemeralStateLens) (currentEpoch : ℤ) : Py Bool := do
  raiseIf (currentEpoch < 0) "current_epoch must be non-negative"
  if self.disposed then pure false
  else if ∃ remaining ∈ self.remainingUses, remaining ≤ 0 then pure false
  else pure (decide (self.createdEpoch ≤ currentEpoch ∧ currentEpoch ≤ self.expiresAtEpoch))

/-- `discard`. -/
def discard : PyMethod EphemeralStateLens Unit :=
  modify fun self => { self with stemPrefixes := [], disposed := true }

/-- `consume`. -/
def consume (currentEpoch : ℤ) (uses : ℤ := 1) : PyMethod EphemeralStateLens Bool := do
  PyMethod.ofPy (raiseIf (uses ≤ 0) "uses must be positive")
  let self ← MonadState.get
  let active ← PyMethod.ofPy (self.isActive currentEpoch)
  if ¬ active then pure false
  else
    match self.remainingUses with
    | none => pure true
    | some remaining => do
        modify fun self => { self with remainingUses := some (max 0 (remaining - uses)) }
        if max 0 (remaining - uses) = 0 then discard else pure ()
        pure true

/-- `filter_packets_by_ephemeral_lens`. -/
def filterPackets (lens : EphemeralStateLens) (packets : List StemWitnessPacket)
    (currentEpoch : ℤ) : Py (List StemWitnessPacket) := do
  let active ← lens.isActive currentEpoch
  if ¬ active then pure []
  else pure (packets.filter fun packet => decide (packet.stemPrefix ∈ lens.stemPrefixes))

end EphemeralStateLens

/-- A call on a lens. -/
inductive LensCall
  | isActive (currentEpoch : ℤ)
  | consume (currentEpoch uses : ℤ)
  | discard
  | filterPackets (packets : List StemWitnessPacket) (currentEpoch : ℤ)

namespace EphemeralStateLens

/-- The lens after a call, also when it raises. -/
def step (lens : EphemeralStateLens) : LensCall → EphemeralStateLens
  | .consume currentEpoch uses => ((consume currentEpoch uses).call lens).2
  | .discard => (discard.call lens).2
  | .isActive _ => lens
  | .filterPackets _ _ => lens

/-- The lens after some calls. -/
def run (lens : EphemeralStateLens) (calls : List LensCall) : EphemeralStateLens :=
  calls.foldl step lens

/-- The uses of a `consume` call that returns `True`. -/
def applied (lens : EphemeralStateLens) : LensCall → List ℤ
  | .consume currentEpoch uses =>
      match ((consume currentEpoch uses).call lens).1 with
      | .ok true => [uses]
      | _ => []
  | _ => []

/-- The uses of the `consume` calls that return `True`, in order. -/
def acceptedUses (lens : EphemeralStateLens) : List LensCall → List ℤ
  | [] => []
  | call :: calls => lens.applied call ++ (lens.step call).acceptedUses calls

/-! ## One call -/

variable {lens : EphemeralStateLens}

theorem isActive_of_neg {currentEpoch : ℤ} (h : currentEpoch < 0) :
    lens.isActive currentEpoch = raiseValueError "current_epoch must be non-negative" := by
  rw [isActive, raiseIf, if_pos h]
  rfl

/-- A lens is active in its epochs, while it is not disposed and has uses left. -/
theorem isActive_eq_ok_true_iff {currentEpoch : ℤ} : lens.isActive currentEpoch = .ok true ↔
    0 ≤ currentEpoch ∧ lens.disposed = false ∧ (∀ remaining ∈ lens.remainingUses, 0 < remaining) ∧
      lens.createdEpoch ≤ currentEpoch ∧ currentEpoch ≤ lens.expiresAtEpoch := by
  rw [isActive]
  by_cases hepoch : currentEpoch < 0
  · rw [raiseIf, if_pos hepoch]
    exact iff_of_false (fun h => nomatch h) fun h => not_le.mpr hepoch h.1
  · rw [raiseIf, if_neg hepoch, py_ok_bind]
    split_ifs with hdisposed huses
    · exact iff_of_false (fun h => nomatch h) fun h => nomatch hdisposed.symm.trans h.2.1
    · obtain ⟨remaining, hremaining, hspent⟩ := huses
      exact iff_of_false (fun h => nomatch h)
        fun h => not_lt.mpr hspent (h.2.2.1 remaining hremaining)
    · show Except.ok _ = _ ↔ _
      rw [Except.ok.injEq, decide_eq_true_iff]
      refine ⟨fun h => ⟨not_lt.mp hepoch, eq_false_of_ne_true hdisposed, ?_, h⟩, fun h => h.2.2.2⟩
      intro remaining hremaining
      exact not_le.mp fun hspent => huses ⟨remaining, hremaining, hspent⟩

theorem isActive_of_disposed (h : lens.disposed = true) {currentEpoch : ℤ}
    (hepoch : 0 ≤ currentEpoch) : lens.isActive currentEpoch = .ok false := by
  rw [isActive, raiseIf, if_neg (not_lt.mpr hepoch), py_ok_bind, if_pos h]
  rfl

/-- `consume`, with the checks it makes. -/
theorem call_consume (lens : EphemeralStateLens) (currentEpoch uses : ℤ) :
    (consume currentEpoch uses).call lens =
      match raiseIf (uses ≤ 0) "uses must be positive", lens.isActive currentEpoch with
      | .error e, _ => (.error e, lens)
      | .ok (), .error e => (.error e, lens)
      | .ok (), .ok false => (.ok false, lens)
      | .ok (), .ok true =>
          match lens.remainingUses with
          | none => (.ok true, lens)
          | some remaining =>
              if max 0 (remaining - uses) = 0 then
                (.ok true, { lens with
                  stemPrefixes := [], remainingUses := some (max 0 (remaining - uses)),
                  disposed := true })
              else (.ok true, { lens with remainingUses := some (max 0 (remaining - uses)) }) := by
  rw [consume, PyMethod.call_bind, PyMethod.call_ofPy]
  cases raiseIf (uses ≤ 0) "uses must be positive" with
  | error e => rfl
  | ok u =>
      dsimp only
      rw [PyMethod.call_get_bind, PyMethod.call_bind, PyMethod.call_ofPy]
      cases lens.isActive currentEpoch with
      | error e => rfl
      | ok active =>
          cases active with
          | false => rfl
          | true =>
              cases lens.remainingUses with
              | none => rfl
              | some remaining =>
                  dsimp only
                  rw [if_neg (not_not.mpr rfl), PyMethod.call_modify_bind, PyMethod.call_ite]
                  rfl

/-- **What `consume` can do**: nothing, or take from the quota of an active lens, or, without
a quota, just answer. -/
theorem call_consume_cases (lens : EphemeralStateLens) (currentEpoch uses : ℤ) :
    (∃ outcome, outcome ≠ .ok true ∧ (consume currentEpoch uses).call lens = (outcome, lens)) ∨
    (0 < uses ∧ lens.isActive currentEpoch = .ok true ∧
      ((lens.remainingUses = none ∧ (consume currentEpoch uses).call lens = (.ok true, lens)) ∨
        ∃ remaining lens', lens.remainingUses = some remaining ∧
          (consume currentEpoch uses).call lens = (.ok true, lens') ∧
          lens'.remainingUses = some (max 0 (remaining - uses)) ∧
          (remaining ≤ uses → lens'.disposed = true))) := by
  rw [call_consume]
  by_cases huses : uses ≤ 0
  · rw [raiseIf, if_pos huses]
    refine Or.inl ⟨_, ?_, rfl⟩
    intro h
    cases h
  · rw [raiseIf, if_neg huses]
    cases hactive : lens.isActive currentEpoch with
    | error e =>
        refine Or.inl ⟨_, ?_, rfl⟩
        intro h
        cases h
    | ok active =>
        cases active with
        | false =>
            refine Or.inl ⟨_, ?_, rfl⟩
            intro h
            cases h
        | true =>
            refine Or.inr ⟨not_le.mp huses, rfl, ?_⟩
            cases hremaining : lens.remainingUses with
            | none => exact Or.inl ⟨rfl, rfl⟩
            | some remaining =>
                right
                dsimp only
                split_ifs with hspent
                · exact ⟨remaining, _, rfl, rfl, rfl, fun _ => rfl⟩
                · exact ⟨remaining, _, rfl, rfl, rfl, by omega⟩

/-! ## Disposed lenses -/

/-- No call revives a lens. -/
theorem disposed_step (h : lens.disposed = true) (call : LensCall) :
    (lens.step call).disposed = true := by
  cases call with
  | isActive currentEpoch => exact h
  | filterPackets packets currentEpoch => exact h
  | discard => rfl
  | consume currentEpoch uses =>
      obtain ⟨outcome, -, hcall⟩ | ⟨-, hactive, -⟩ := call_consume_cases lens currentEpoch uses
      · rw [step, hcall]
        exact h
      · exact nomatch h.symm.trans (isActive_eq_ok_true_iff.mp hactive).2.1

theorem disposed_run (h : lens.disposed = true) (calls : List LensCall) :
    (lens.run calls).disposed = true := by
  induction calls generalizing lens with
  | nil => exact h
  | cons call calls ih => exact ih (disposed_step h call)

/-- A disposed lens consumes nothing and shows nothing. -/
theorem call_of_disposed (h : lens.disposed = true) {currentEpoch : ℤ} (hepoch : 0 ≤ currentEpoch) :
    lens.isActive currentEpoch = .ok false ∧
      (∀ uses, 0 < uses → (consume currentEpoch uses).call lens = (.ok false, lens)) ∧
      ∀ packets, lens.filterPackets packets currentEpoch = .ok [] := by
  have hactive := isActive_of_disposed h hepoch
  refine ⟨hactive, fun uses huses => ?_, fun packets => ?_⟩
  · rw [call_consume, raiseIf, if_neg (not_le.mpr huses), hactive]
  · rw [filterPackets, hactive]
    rfl

/-- A negative epoch raises on any lens. -/
theorem call_of_neg (lens : EphemeralStateLens) {currentEpoch : ℤ} (h : currentEpoch < 0) :
    (∃ message, lens.isActive currentEpoch = raiseValueError message) ∧
      (∀ uses, ∃ message,
        ((consume currentEpoch uses).call lens).1 = raiseValueError message) ∧
      ∀ packets, ∃ message, lens.filterPackets packets currentEpoch = raiseValueError message := by
  refine ⟨⟨_, isActive_of_neg h⟩, fun uses => ?_, fun packets => ?_⟩
  · rw [call_consume, isActive_of_neg h]
    by_cases huses : uses ≤ 0
    · rw [raiseIf, if_pos huses]
      exact ⟨_, rfl⟩
    · rw [raiseIf, if_neg huses]
      exact ⟨_, rfl⟩
  · rw [filterPackets, isActive_of_neg h]
    exact ⟨_, rfl⟩

/-! ## The quota over a run -/

/-- **What one call does to the quota**: a call is applied while something is left, and takes
what it asks for, or all that is left. -/
theorem quota_step {remaining : ℤ} (h : lens.remainingUses = some remaining) (call : LensCall) :
    (lens.applied call = [] ∧ (lens.step call).remainingUses = some remaining) ∨
    ∃ uses, 0 < uses ∧ 0 < remaining ∧ lens.applied call = [uses] ∧
      (lens.step call).remainingUses = some (max 0 (remaining - uses)) := by
  cases call with
  | isActive currentEpoch => exact Or.inl ⟨rfl, h⟩
  | filterPackets packets currentEpoch => exact Or.inl ⟨rfl, h⟩
  | discard => exact Or.inl ⟨rfl, h⟩
  | consume currentEpoch uses =>
      rw [applied, step]
      obtain ⟨outcome, houtcome, hcall⟩ | ⟨huses, hactive, ⟨hnone, -⟩ |
        ⟨remaining', lens', hremaining', hcall, hleft, -⟩⟩ :=
          call_consume_cases lens currentEpoch uses
      · rw [hcall]
        left
        refine ⟨?_, h⟩
        split
        · exact absurd ‹_› houtcome
        · rfl
      · exact nomatch hnone.symm.trans h
      · obtain rfl : remaining = remaining' := Option.some.inj (h.symm.trans hremaining')
        rw [hcall]
        have hpos := (isActive_eq_ok_true_iff.mp hactive).2.2.1 remaining h
        exact Or.inr ⟨uses, huses, hpos, rfl, hleft⟩

/-- **The quota over a run**: what is left is what the applied calls have not asked for, each
of them has asked for something, and all but the last for less than the quota. -/
theorem quota_run {remaining : ℤ} (h : lens.remainingUses = some remaining) (h0 : 0 ≤ remaining)
    (calls : List LensCall) :
    (lens.run calls).remainingUses = some (max 0 (remaining - (lens.acceptedUses calls).sum)) ∧
      (∀ uses ∈ lens.acceptedUses calls, 0 < uses) ∧
      ∀ earlier last, lens.acceptedUses calls = earlier ++ [last] → earlier.sum < remaining := by
  induction calls generalizing lens remaining with
  | nil =>
      refine ⟨?_, fun uses huses => absurd huses List.not_mem_nil, ?_⟩
      · rw [run, List.foldl_nil, acceptedUses, List.sum_nil, sub_zero, max_eq_right h0, h]
      · intro earlier last hlast
        exact absurd hlast.symm (List.append_ne_nil_of_right_ne_nil _ (List.cons_ne_nil _ _))
  | cons call calls ih =>
      rw [acceptedUses]
      obtain ⟨happlied, hstep⟩ | ⟨uses, huses, hpos, happlied, hstep⟩ := quota_step h call
      · rw [happlied, List.nil_append]
        exact ih hstep h0
      · obtain ⟨hleft, hrest, hbound⟩ := ih hstep (le_max_left 0 _)
        rw [happlied, List.singleton_append]
        have hsum : 0 ≤ ((lens.step call).acceptedUses calls).sum :=
          List.sum_nonneg fun x hx => (hrest x hx).le
        refine ⟨?_, List.forall_mem_cons.mpr ⟨huses, hrest⟩, ?_⟩
        · show ((lens.step call).run calls).remainingUses = _
          rw [hleft, List.sum_cons]
          congr 1
          omega
        · intro earlier last hlast
          cases earlier with
          | nil => exact hpos
          | cons first earlier =>
              obtain ⟨rfl, htail⟩ := List.cons.inj hlast
              have hearlier := hbound earlier last htail
              have hnonneg : 0 ≤ earlier.sum := by
                refine List.sum_nonneg fun x hx => (hrest x ?_).le
                rw [htail]
                exact List.mem_append_left _ hx
              rw [List.sum_cons]
              omega

end EphemeralStateLens

/-! ## Derived lenses -/

/-- **The quota of a derived lens**: over every run the `consume` calls that return `True`, all
but the last, ask for less than the quota together, and what is left is the rest of it or
nothing.  Once the lens is disposed, it stays inactive and shows nothing, whatever epoch that is
not negative it is asked for.  A negative epoch raises on any lens. -/
theorem lensQuota_run (H : HashFunction) (a : LensArguments) (lens : EphemeralStateLens)
    (qs : List Bytes) (maxUses : ℤ) (h : (a.derive H).Returns lens qs)
    (hmax : a.maxUses = some maxUses) (calls : List LensCall) :
    (lens.run calls).remainingUses = some (max 0 (maxUses - (lens.acceptedUses calls).sum)) ∧
      (∀ earlier last, lens.acceptedUses calls = earlier ++ [last] → earlier.sum < maxUses) ∧
      ((lens.run calls).disposed = true → ∀ later currentEpoch, 0 ≤ currentEpoch →
        (lens.run (calls ++ later)).isActive currentEpoch = .ok false ∧
        (∀ uses, 0 < uses →
          ((EphemeralStateLens.consume currentEpoch uses).call (lens.run (calls ++ later))).1 =
            .ok false) ∧
        ∀ packets, (lens.run (calls ++ later)).filterPackets packets currentEpoch = .ok []) ∧
      ∀ (other : EphemeralStateLens) currentEpoch, currentEpoch < 0 →
        (∃ message, other.isActive currentEpoch = raiseValueError message) ∧
        (∀ uses, ∃ message, ((EphemeralStateLens.consume currentEpoch uses).call other).1 =
          raiseValueError message) ∧
        ∀ packets, ∃ message,
          other.filterPackets packets currentEpoch = raiseValueError message := by
  obtain ⟨haccepted, rfl, -⟩ := derive_returns_iff.mp h
  have hpos := haccepted.uses_pos maxUses hmax
  have hquota : (a.lens H).remainingUses = some maxUses := hmax
  obtain ⟨hleft, -, hbound⟩ := EphemeralStateLens.quota_run hquota hpos.le calls
  refine ⟨hleft, hbound, fun hdisposed later currentEpoch hepoch => ?_,
    fun other currentEpoch hneg => EphemeralStateLens.call_of_neg other hneg⟩
  have hlater : ((a.lens H).run (calls ++ later)).disposed = true := by
    rw [EphemeralStateLens.run, List.foldl_append]
    exact EphemeralStateLens.disposed_run hdisposed later
  obtain ⟨hactive, hconsume, hfilter⟩ := EphemeralStateLens.call_of_disposed hlater hepoch
  exact ⟨hactive, fun uses huses => congrArg Prod.fst (hconsume uses huses), hfilter⟩

/-- A lens of the first epoch with one use. -/
def oneUseLens : LensArguments := { firstLens [[7]] with maxUses := some 1 }

theorem accepted_oneUseLens : oneUseLens.Accepted :=
  { accepted_firstLens [[7]] with
    uses_pos := fun uses huses => by
      rw [Option.mem_def] at huses
      cases huses
      exact one_pos
    uses_lt := fun uses huses => by
      rw [Option.mem_def] at huses
      cases huses
      norm_num }

theorem derive_oneUseLens (H : HashFunction) :
    (oneUseLens.derive H).Returns (oneUseLens.lens H) [oneUseLens.preimage] :=
  derive_returns_iff.mpr ⟨accepted_oneUseLens, rfl, rfl⟩

/-- A use after another: the second call is not applied. -/
theorem lensQuota_run_oneUse :
    ((oneUseLens.lens fun _ => emptyValue).run [.consume 0 1, .consume 0 1]).remainingUses =
      some 0 := by
  have hrun := (lensQuota_run (fun _ => emptyValue) oneUseLens _ _ 1 (derive_oneUseLens _) rfl
    [.consume 0 1, .consume 0 1]).1
  have huses : ((oneUseLens.lens fun _ => emptyValue).acceptedUses
      [.consume 0 1, .consume 0 1]) = [1] := rfl
  rw [hrun, huses]
  rfl

/-- One call may ask for more than the whole quota, and returns `True`; and a negative epoch
raises on a disposed lens. -/
theorem not_lensQuota_oneUse :
    (∃ lens qs, (oneUseLens.derive fun _ => emptyValue).Returns lens qs ∧
      ¬ (lens.acceptedUses [.consume 0 5]).sum ≤ 1) ∧
    ∃ lens qs, (oneUseLens.derive fun _ => emptyValue).Returns lens qs ∧
      (lens.run [.discard]).disposed = true ∧
      (lens.run [.discard]).isActive (-1) ≠ .ok false := by
  refine ⟨⟨_, _, derive_oneUseLens _, ?_⟩, _, _, derive_oneUseLens _, rfl, ?_⟩
  · have huses : ((oneUseLens.lens fun _ => emptyValue).acceptedUses [.consume 0 5]) = [5] := rfl
    rw [huses]
    decide
  · rw [EphemeralStateLens.isActive_of_neg (by decide)]
    intro h
    cases h

end Pbt
