/-
# Two programs with one result

Two calls that may fail have the same result, up to a relation of what they
return, when both return related values or both fail (`SameResult`); the texts of
their errors are not compared.  Where `Refines` lets the concrete call do more
than the abstract one, here neither does.

The rules follow the shape of a program: `SameResult.bind`, `SameResult.ite`,
and `SameResult.foldlM` and `SameResult.mapM` for loops over two lists that are
related item by item.

What the rounds of a loop that returned have in common is said by
`forall_of_foldlM_eq_ok` and `forall_of_mapM_eq_ok`.
-/
import Mathlib.Data.List.Forall2

variable {ε δ ι κ α β α' β' : Type} {R : α → β → Prop} {S : α' → β' → Prop}

/-- Both calls return, related values, or both fail. -/
def SameResult (R : α → β → Prop) : Except ε α → Except δ β → Prop
  | .ok a, .ok b => R a b
  | .error _, .error _ => True
  | _, _ => False

namespace SameResult

theorem ok {a : α} {b : β} (h : R a b) :
    SameResult R (.ok a : Except ε α) (.ok b : Except δ β) := h

theorem error (e : ε) (d : δ) :
    SameResult R (.error e : Except ε α) (.error d : Except δ β) := trivial

/-- **Calls in sequence** have the same result when the first ones do and related
results are followed by calls that do. -/
theorem bind {x : Except ε α} {y : Except δ β} {f : α → Except ε α'} {g : β → Except δ β'}
    (hx : SameResult R x y) (hf : ∀ a b, R a b → SameResult S (f a) (g b)) :
    SameResult S (x >>= f) (y >>= g) := by
  cases x with
  | error e =>
      cases y with
      | error d => exact trivial
      | ok b => exact hx.elim
  | ok a =>
      cases y with
      | error d => exact hx.elim
      | ok b => exact hf a b hx

/-- Two branches on one condition. -/
theorem ite {p q : Prop} [Decidable p] [Decidable q] {x x' : Except ε α} {y y' : Except δ β}
    (hpq : p ↔ q) (hpos : p → SameResult R x y) (hneg : ¬ p → SameResult R x' y') :
    SameResult R (if p then x else x') (if q then y else y') := by
  by_cases hp : p
  · rw [if_pos hp, if_pos (hpq.mp hp)]
    exact hpos hp
  · rw [if_neg hp, if_neg (mt hpq.mpr hp)]
    exact hneg hp

/-- **The run rule**: rounds with the same result make loops with the same result. -/
theorem foldlM {Q : ι → κ → Prop} {step : α → ι → Except ε α} {step' : β → κ → Except δ β}
    (hstep : ∀ a b i k, R a b → Q i k → SameResult R (step a i) (step' b k))
    {xs : List ι} {ys : List κ} (hlists : List.Forall₂ Q xs ys) {a : α} {b : β} (h : R a b) :
    SameResult R (xs.foldlM step a) (ys.foldlM step' b) := by
  induction hlists generalizing a b with
  | nil => exact h
  | cons hhead _ ih =>
      rw [List.foldlM_cons, List.foldlM_cons]
      exact bind (hstep _ _ _ _ h hhead) fun _ _ h' => ih h'

/-- A list comprehension over each of two related lists. -/
theorem mapM {Q : ι → κ → Prop} {f : ι → Except ε α} {g : κ → Except δ β}
    (hf : ∀ i k, Q i k → SameResult R (f i) (g k)) {xs : List ι} {ys : List κ}
    (hlists : List.Forall₂ Q xs ys) :
    SameResult (List.Forall₂ R) (xs.mapM f) (ys.mapM g) := by
  induction hlists with
  | nil => exact List.Forall₂.nil
  | cons hhead _ ih =>
      rw [List.mapM_cons, List.mapM_cons]
      refine bind (hf _ _ hhead) fun a b hab => ?_
      exact bind ih fun as bs has => List.Forall₂.cons hab has

/-- What the first call returns the second one returns as well. -/
theorem exists_ok {x : Except ε α} {y : Except δ β} (h : SameResult R x y) {a : α}
    (hx : x = .ok a) : ∃ b, y = .ok b ∧ R a b := by
  subst hx
  cases y with
  | error d => exact h.elim
  | ok b => exact ⟨b, rfl, h⟩

/-- What the second call returns the first one returns as well. -/
theorem exists_ok' {x : Except ε α} {y : Except δ β} (h : SameResult R x y) {b : β}
    (hy : y = .ok b) : ∃ a, x = .ok a ∧ R a b := by
  subst hy
  cases x with
  | error e => exact h.elim
  | ok a => exact ⟨a, rfl, h⟩

end SameResult

/-! ## Calls and loops that return -/

theorem except_bind_eq_ok_iff {x : Except ε α} {f : α → Except ε β} {b : β} :
    x >>= f = .ok b ↔ ∃ a, x = .ok a ∧ f a = .ok b := by
  cases x <;> simp [bind, Except.bind]

/-- Each round of a loop that returns returns. -/
theorem forall_of_foldlM_eq_ok {step : α → ι → Except ε α} {p : ι → Prop}
    (hstep : ∀ a i a', step a i = .ok a' → p i) {xs : List ι} {a a' : α}
    (h : xs.foldlM step a = .ok a') : ∀ i ∈ xs, p i := by
  induction xs generalizing a with
  | nil => exact List.forall_mem_nil p
  | cons i xs ih =>
      rw [List.foldlM_cons, except_bind_eq_ok_iff] at h
      obtain ⟨a₁, hhead, htail⟩ := h
      exact List.forall_mem_cons.mpr ⟨hstep a i a₁ hhead, ih htail⟩

/-- The same for a list comprehension. -/
theorem forall_of_mapM_eq_ok {f : ι → Except ε α} {p : ι → Prop}
    (hf : ∀ i a, f i = .ok a → p i) {xs : List ι} {as : List α} (h : xs.mapM f = .ok as) :
    ∀ i ∈ xs, p i := by
  induction xs generalizing as with
  | nil => exact List.forall_mem_nil p
  | cons i xs ih =>
      rw [List.mapM_cons, except_bind_eq_ok_iff] at h
      obtain ⟨a, hhead, htail⟩ := h
      obtain ⟨as', has', -⟩ := except_bind_eq_ok_iff.mp htail
      exact List.forall_mem_cons.mpr ⟨hf i a hhead, ih has'⟩
