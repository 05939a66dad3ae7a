/-
# Folds over sets

A list is folded into a state by steps that commute and of which a second one does nothing.
The state that is reached depends on the set of the items only, neither on their order nor on
how often they occur (`foldl_eq_of_mem_iff`).
-/
import Mathlib.Data.List.Perm.Basic

namespace SetFold

variable {α σ : Type} {step : σ → α → σ} [RightCommutative step]

/-- An item that was folded in does nothing any more. -/
theorem step_foldl_of_mem (hidem : ∀ s a, step (step s a) a = step s a) {items : List α} {a : α}
    (ha : a ∈ items) (s : σ) : step (items.foldl step s) a = items.foldl step s := by
  obtain ⟨before, after, rfl⟩ := List.append_of_mem ha
  have hperm : (before ++ a :: after).Perm (before ++ after ++ [a]) :=
    List.perm_middle.trans (List.perm_append_singleton a (before ++ after)).symm
  rw [hperm.foldl_eq, List.foldl_concat, hidem]

theorem foldl_append_of_subset (hidem : ∀ s a, step (step s a) a = step s a) {items more : List α}
    (h : more ⊆ items) (s : σ) : (items ++ more).foldl step s = items.foldl step s := by
  rw [List.foldl_append]
  induction more with
  | nil => rfl
  | cons a more ih =>
      rw [List.foldl_cons, step_foldl_of_mem hidem (h List.mem_cons_self)]
      exact ih fun b hb => h (List.mem_cons_of_mem a hb)

/-- **Lists with the same items** are folded into the same state. -/
theorem foldl_eq_of_mem_iff (hidem : ∀ s a, step (step s a) a = step s a) {xs ys : List α}
    (h : ∀ a, a ∈ xs ↔ a ∈ ys) (s : σ) : xs.foldl step s = ys.foldl step s :=
  calc
    xs.foldl step s = (xs ++ ys).foldl step s :=
      (foldl_append_of_subset hidem (fun a => (h a).mpr) s).symm
    _ = (ys ++ xs).foldl step s := List.perm_append_comm.foldl_eq s
    _ = ys.foldl step s := foldl_append_of_subset hidem (fun a => (h a).mp) s

end SetFold
