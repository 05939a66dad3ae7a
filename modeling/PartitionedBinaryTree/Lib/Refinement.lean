/-
# Data refinement of fallible calls

A call that may fail is an `Except` value.  A concrete call refines an abstract
one up to a relation of their results (`Refines`) when it returns a related
value whenever the abstract call returns.  The two sides may have different
errors and different result types; nothing is asked where the abstract call fails.

The rules follow the shape of a program: `Refines.ok`, `Refines.bind`,
`Refines.ite`, and `Refines.foldlM` for a loop that threads a state, which lifts
a step that keeps the relation to every run.

A call that may read and fill one memo cell is a `StateM` computation;
`Memoised` is its specification when the cell is unset or right, and `FillsWith`
says what it does to a cell with any content.
-/
import Mathlib.Data.Option.Basic
import Mathlib.Tactic.Common

/-! ## Refinement -/

section Refines

variable {ε δ ι α β α' β' : Type} {R : α → β → Prop} {S : α' → β' → Prop}

/-- Whenever the abstract call `y` returns, so does `x`, and the results are related. -/
def Refines (R : α → β → Prop) (x : Except ε α) (y : Except δ β) : Prop :=
  ∀ b, y = .ok b → ∃ a, x = .ok a ∧ R a b

namespace Refines

theorem ok {a : α} {b : β} (h : R a b) : Refines R (.ok a : Except ε α) (.ok b : Except δ β) := by
  intro b' hb
  cases hb
  exact ⟨a, rfl, h⟩

/-- Anything refines a call that fails. -/
theorem error {x : Except ε α} {e : δ} : Refines R x (.error e : Except δ β) := by
  intro b hb
  cases hb

/-- **Calls in sequence** refine when the first ones do and related results are
followed by calls that do. -/
theorem bind {x : Except ε α} {y : Except δ β} {f : α → Except ε α'} {g : β → Except δ β'}
    (hx : Refines R x y) (hf : ∀ a b, R a b → Refines S (f a) (g b)) :
    Refines S (x >>= f) (y >>= g) := by
  intro b' hb'
  cases y with
  | error e => cases hb'
  | ok b =>
      obtain ⟨a, rfl, hab⟩ := hx b rfl
      exact hf a b hab b' hb'

/-- A concrete call that goes on with a computation on its result. -/
theorem bind_pure {γ : Type} {T : γ → β → Prop} {x : Except ε α} {y : Except δ β} {f : α → γ}
    (hx : Refines R x y) (hf : ∀ a b, R a b → T (f a) b) :
    Refines T (x >>= fun a => pure (f a)) y := by
  intro b hb
  obtain ⟨a, rfl, hab⟩ := hx b hb
  exact ⟨f a, rfl, hf a b hab⟩

/-- Two branches on one condition. -/
theorem ite {p : Prop} [Decidable p] {x x' : Except ε α} {y y' : Except δ β}
    (hpos : p → Refines R x y) (hneg : ¬ p → Refines R x' y') :
    Refines R (if p then x else x') (if p then y else y') := by
  by_cases hp : p
  · rw [if_pos hp, if_pos hp]
    exact hpos hp
  · rw [if_neg hp, if_neg hp]
    exact hneg hp

/-- **The run rule**: a step that refines a step, call by call, refines it over
every sequence of calls. -/
theorem foldlM {step : α → ι → Except ε α} {step' : β → ι → Except δ β}
    (hstep : ∀ a b i, R a b → Refines R (step a i) (step' b i)) (calls : List ι) {a : α} {b : β}
    (h : R a b) : Refines R (calls.foldlM step a) (calls.foldlM step' b) := by
  induction calls generalizing a b with
  | nil => exact ok h
  | cons i calls ih =>
      rw [List.foldlM_cons, List.foldlM_cons]
      exact bind (hstep a b i h) fun a' b' h' => ih h'

end Refines

end Refines

/-! ## Memo cells -/

section Memo

variable {α β σ : Type}

/-- The cell is unset or holds `b`. -/
def MemoOf (cell : Option β) (b : β) : Prop := ∀ d ∈ cell, d = b

@[simp] theorem memoOf_none (b : β) : MemoOf none b := by
  intro d hd
  cases hd

@[simp] theorem memoOf_some {d b : β} : MemoOf (some d) b ↔ d = b := by
  simp [MemoOf]

/-- A call that finds the cell unset or right leaves it so, and what it returns
satisfies `post`. -/
def Memoised (b : β) (x : StateM (Option β) α) (post : α → Prop) : Prop :=
  ∀ cell, MemoOf cell b → post (x.run cell).1 ∧ MemoOf (x.run cell).2 b

namespace Memoised

variable {b : β} {post : α → Prop}

theorem pure {a : α} (h : post a) : Memoised b (Pure.pure a) post :=
  fun _ hcell => ⟨h, hcell⟩

theorem bind {α' : Type} {x : StateM (Option β) α} {f : α → StateM (Option β) α'}
    {post' : α' → Prop} (hx : Memoised b x post) (hf : ∀ a, post a → Memoised b (f a) post') :
    Memoised b (x >>= f) post' := by
  intro cell hcell
  obtain ⟨hpost, hcell'⟩ := hx cell hcell
  exact hf _ hpost _ hcell'

end Memoised

/-- A call that leaves the cell as it is, or fills it with `b` when it is unset. -/
def FillsWith (b : β) (x : StateM (Option β) α) : Prop :=
  ∀ cell, (x.run cell).2 = cell ∨ cell = none ∧ (x.run cell).2 = some b

namespace FillsWith

variable {b : β} {x : StateM (Option β) α}

theorem pure {a : α} : FillsWith b (Pure.pure a : StateM (Option β) α) := fun _ => Or.inl rfl

theorem bind {α' : Type} {f : α → StateM (Option β) α'} (hx : FillsWith b x)
    (hf : ∀ a, FillsWith b (f a)) : FillsWith b (x >>= f) := by
  intro cell
  have hrest : ((x >>= f).run cell).2 = ((f (x.run cell).1).run (x.run cell).2).2 := rfl
  rw [hrest]
  rcases hx cell with hcell | ⟨rfl, hcell⟩
  · rw [hcell]
    exact hf _ cell
  · -- a cell that was just filled stays filled
    rw [hcell]
    rcases hf (x.run none).1 (some b) with hsame | ⟨hnone, -⟩
    · exact Or.inr ⟨rfl, hsame⟩
    · cases hnone

/-- What a reader of the cell sees, with `b` for an unset cell, does not change. -/
theorem getD_eq (hx : FillsWith b x) (cell : Option β) :
    (x.run cell).2.getD b = cell.getD b := by
  rcases hx cell with hcell | ⟨rfl, hcell⟩
  · rw [hcell]
  · rw [hcell]
    rfl

end FillsWith

end Memo
