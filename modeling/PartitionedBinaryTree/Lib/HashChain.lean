/-
# Hash chains

A list is hashed item by item: a digest is linked with the next item, and the link is
hashed again.  The chain of the empty list is the digest of an input that is no link.

So equal digests of two chains are traced back from their ends: their last links are equal
or collide, and a chain that ends earlier than the other would make its start equal to a link
(`chain_inj`).
-/
import Mathlib.Data.List.Induction
import PartitionedBinaryTree.Lib.QueryLog

namespace HashChain

variable {ι δ α : Type}

/-- The links of the items, from a digest on. -/
def extend (answer : ι → δ) (link : δ → α → ι) : δ → List α → Logged ι δ
  | current, [] => pure current
  | current, item :: items => do
      let current ← Logged.query answer (link current item)
      extend answer link current items

/-- The chain of some items, from the digest of `start` on. -/
def chain (answer : ι → δ) (link : δ → α → ι) (start : ι) (items : List α) : Logged ι δ := do
  let current ← Logged.query answer start
  extend answer link current items

variable {answer : ι → δ} {link : δ → α → ι} {start : ι}

/-- The last link of an extension. -/
theorem extend_concat (current : δ) (items : List α) (item : α) :
    extend answer link current (items ++ [item]) =
      (extend answer link current items >>= fun d => Logged.query answer (link d item)) := by
  induction items generalizing current with
  | nil => rfl
  | cons x items ih =>
      rw [List.cons_append, extend, extend, bind_assoc]
      congr 1
      funext d
      exact ih d

/-- The last link of a chain. -/
theorem chain_concat (items : List α) (item : α) :
    chain answer link start (items ++ [item]) =
      (chain answer link start items >>= fun d => Logged.query answer (link d item)) := by
  rw [chain, chain, bind_assoc]
  congr 1
  funext d
  exact extend_concat d items item

theorem queries_chain_concat (items : List α) (item : α) :
    (chain answer link start (items ++ [item])).queries =
      (chain answer link start items).queries ++
        [link (chain answer link start items).val item] := by
  rw [chain_concat]
  rfl

theorem val_chain_concat (items : List α) (item : α) :
    (chain answer link start (items ++ [item])).val =
      answer (link (chain answer link start items).val item) := by
  rw [chain_concat]
  rfl

/-- Every chain hashes its start. -/
theorem start_mem_queries (items : List α) : start ∈ (chain answer link start items).queries :=
  List.mem_append_left _ List.mem_cons_self

/-- The chain of a list that is not empty does not end like the empty one, or inputs collide. -/
theorem collision_of_chain_nil (hstart : ∀ d x, start ≠ link d x) {items : List α} {item : α}
    (h : answer start = (chain answer link start (items ++ [item])).val) :
    Collision answer (chain answer link start (items ++ [item])).queries := by
  have hlast : link (chain answer link start items).val item ∈
      (chain answer link start (items ++ [item])).queries := by
    rw [queries_chain_concat]
    exact List.mem_append_right _ List.mem_cons_self
  rw [val_chain_concat] at h
  rcases eq_or_collision (start_mem_queries _) hlast h with heq | hcol
  · exact absurd heq (hstart _ _)
  · exact hcol

/-- **Chains commit to their lists**: chains with one digest are made of the same items in the
same order, or two of the inputs that they hash collide.  The induction is on the last item. -/
theorem chain_inj (hstart : ∀ d x, start ≠ link d x)
    (hlink : ∀ d x d' x', link d x = link d' x' → d = d' ∧ x = x') {xs ys : List α}
    (h : (chain answer link start xs).val = (chain answer link start ys).val) :
    xs = ys ∨ Collision answer
      ((chain answer link start xs).queries ++ (chain answer link start ys).queries) := by
  induction xs using List.reverseRecOn generalizing ys with
  | nil =>
      rcases List.eq_nil_or_concat' ys with rfl | ⟨ys, y, rfl⟩
      · exact Or.inl rfl
      · right
        exact (collision_of_chain_nil hstart h).mono (List.subset_append_right _ _)
  | append_singleton xs x ih =>
      rcases List.eq_nil_or_concat' ys with rfl | ⟨ys, y, rfl⟩
      · right
        exact (collision_of_chain_nil hstart h.symm).mono (List.subset_append_left _ _)
      · rw [val_chain_concat, val_chain_concat] at h
        rw [queries_chain_concat, queries_chain_concat]
        -- the two last links, then the chains before them
        have hx := List.mem_append_right (chain answer link start xs).queries
          (List.mem_singleton_self (link (chain answer link start xs).val x))
        have hy := List.mem_append_right (chain answer link start ys).queries
          (List.mem_singleton_self (link (chain answer link start ys).val y))
        rcases eq_or_collision (List.mem_append_left _ hx) (List.mem_append_right _ hy) h with
          heq | hcol
        · obtain ⟨hval, rfl⟩ := hlink _ _ _ _ heq
          rcases ih hval with rfl | hcol
          · exact Or.inl rfl
          · exact Or.inr (hcol.mono_append (List.subset_append_left _ _)
              (List.subset_append_left _ _))
        · exact Or.inr hcol

end HashChain
