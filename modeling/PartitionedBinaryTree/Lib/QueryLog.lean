/-
# Computations that record what they hash

A computation that may apply one fixed function to inputs of its choice, and
that keeps the list of those inputs (`Logged`).  The value and the list come
out of one definition, so a statement about "the inputs hashed while computing
this" talks about the computation itself.

`Collision f qs` says two different inputs of the list `qs` have one image
under `f`.  Equal images of listed inputs are then equal inputs or a collision
(`eq_or_collision`), which is the only way a collision enters a proof.
-/
import Mathlib.Data.List.Nodup

/-- A value together with the inputs that were queried to obtain it, in order. -/
structure Logged (ι : Type) (α : Type) where
  val : α
  queries : List ι
  deriving Repr, DecidableEq

namespace Logged

variable {ι δ α β : Type}

instance : Monad (Logged ι) where
  pure a := ⟨a, []⟩
  bind m f := ⟨(f m.val).val, m.queries ++ (f m.val).queries⟩

/-- Apply `f` to `x` and record the input. -/
def query (f : ι → δ) (x : ι) : Logged ι δ := ⟨f x, [x]⟩

@[simp] theorem val_pure (a : α) : (pure a : Logged ι α).val = a := rfl

@[simp] theorem queries_pure (a : α) : (pure a : Logged ι α).queries = [] := rfl

@[simp] theorem val_bind (m : Logged ι α) (f : α → Logged ι β) :
    (m >>= f).val = (f m.val).val := rfl

@[simp] theorem queries_bind (m : Logged ι α) (f : α → Logged ι β) :
    (m >>= f).queries = m.queries ++ (f m.val).queries := rfl

instance : LawfulMonad (Logged ι) := LawfulMonad.mk' _
  (fun m => by
    show Logged.mk m.val (m.queries ++ []) = m
    rw [List.append_nil])
  (fun _ _ => rfl)
  (fun m f g => by
    show Logged.mk _ (m.queries ++ (f m.val).queries ++ (g (f m.val).val).queries) =
      Logged.mk _ (m.queries ++ ((f m.val).queries ++ (g (f m.val).val).queries))
    rw [List.append_assoc]
    rfl)

@[simp] theorem val_map (g : α → β) (m : Logged ι α) : (g <$> m).val = g m.val := rfl

@[simp] theorem queries_map (g : α → β) (m : Logged ι α) : (g <$> m).queries = m.queries :=
  List.append_nil _

@[simp] theorem val_query (f : ι → δ) (x : ι) : (query f x).val = f x := rfl

@[simp] theorem queries_query (f : ι → δ) (x : ι) : (query f x).queries = [x] := rfl

end Logged

/-! ## Collisions -/

section Collision

variable {ι δ : Type} {f : ι → δ} {qs qs' : List ι}

/-- Two different inputs of the list have the same image. -/
def Collision (f : ι → δ) (qs : List ι) : Prop :=
  ∃ x ∈ qs, ∃ y ∈ qs, x ≠ y ∧ f x = f y

theorem not_collision_nil : ¬ Collision f [] := by
  rintro ⟨x, hx, -⟩
  cases hx

/-- A collision in a part of the inputs is a collision in all of them. -/
theorem Collision.mono (h : Collision f qs) (hsub : qs ⊆ qs') : Collision f qs' := by
  obtain ⟨x, hx, y, hy, hne, heq⟩ := h
  exact ⟨x, hsub hx, y, hsub hy, hne, heq⟩

/-- The same for the inputs of two computations. -/
theorem Collision.mono_append {rs rs' : List ι} (h : Collision f (qs ++ rs)) (hqs : qs ⊆ qs')
    (hrs : rs ⊆ rs') : Collision f (qs' ++ rs') :=
  h.mono (List.append_subset.mpr
    ⟨List.subset_append_of_subset_left _ hqs, List.subset_append_of_subset_right _ hrs⟩)

/-- Equal images of two listed inputs: the inputs are equal, or they collide. -/
theorem eq_or_collision {x y : ι} (hx : x ∈ qs) (hy : y ∈ qs) (h : f x = f y) :
    x = y ∨ Collision f qs := by
  by_cases hxy : x = y
  · exact Or.inl hxy
  · exact Or.inr ⟨x, hx, y, hy, hxy, h⟩

/-- The same for the inputs of two computations that query once. -/
theorem eq_or_collision_pair {x y : ι} (h : f x = f y) : x = y ∨ Collision f ([x] ++ [y]) :=
  eq_or_collision (List.mem_append_left _ (List.mem_singleton_self x))
    (List.mem_append_right _ (List.mem_singleton_self y)) h

/-- Equal images of two lists of listed inputs: the lists are equal, or inputs collide. -/
theorem map_eq_or_collision {xs ys : List ι} (hx : xs ⊆ qs) (hy : ys ⊆ qs)
    (h : xs.map f = ys.map f) : xs = ys ∨ Collision f qs := by
  induction xs generalizing ys with
  | nil =>
      left
      exact (List.map_eq_nil_iff.mp h.symm).symm
  | cons x xs ih =>
      cases ys with
      | nil => cases h
      | cons y ys =>
          rw [List.map_cons, List.map_cons, List.cons.injEq] at h
          rw [List.cons_subset] at hx hy
          rcases eq_or_collision hx.1 hy.1 h.1 with rfl | hcol
          · rcases ih hx.2 hy.2 h.2 with rfl | hcol
            · exact Or.inl rfl
            · exact Or.inr hcol
          · exact Or.inr hcol

/-- What holds up to a collision: it is enough that one statement implies the other, and is
implied by it up to a collision. -/
theorem or_collision_congr {p q : Prop} (h : p → q) (h' : q → p ∨ Collision f qs) :
    p ∨ Collision f qs ↔ q ∨ Collision f qs := by
  constructor
  · rintro (hp | hcol)
    · exact Or.inl (h hp)
    · exact Or.inr hcol
  · rintro (hq | hcol)
    · exact h' hq
    · exact Or.inr hcol

/-- No collision among inputs that are all the same. -/
theorem not_collision_of_forall_eq {a : ι} (h : ∀ x ∈ qs, x = a) : ¬ Collision f qs := by
  rintro ⟨x, hx, y, hy, hne, -⟩
  exact hne ((h x hx).trans (h y hy).symm)

/-- Two computations that query one input each, the same, find no collision. -/
theorem not_collision_pair (a : ι) : ¬ Collision f ([a] ++ [a]) := by
  apply not_collision_of_forall_eq
  intro x hx
  rcases List.mem_append.mp hx with hx | hx
  · exact List.mem_singleton.mp hx
  · exact List.mem_singleton.mp hx

/-- No collision among two inputs with different images. -/
theorem not_collision_of_ne {a b : ι} (hab : f a ≠ f b) (h : ∀ x ∈ qs, x = a ∨ x = b) :
    ¬ Collision f qs := by
  rintro ⟨x, hx, y, hy, hne, heq⟩
  rcases h x hx with rfl | rfl
  · rcases h y hy with rfl | rfl
    · exact hne rfl
    · exact hab heq
  · rcases h y hy with rfl | rfl
    · exact hab heq.symm
    · exact hne rfl

/-- No collision among inputs of which the images are all different. -/
theorem not_collision_of_nodup (h : (qs'.map f).Nodup) (hsub : qs ⊆ qs') : ¬ Collision f qs := by
  rintro ⟨x, hx, y, hy, hne, heq⟩
  exact hne (List.inj_on_of_nodup_map h (hsub hx) (hsub hy) heq)

end Collision
