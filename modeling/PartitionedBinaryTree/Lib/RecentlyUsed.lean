/-
# The keys that were used last

The touches of a cache are a list, the latest one last; `List.dedup` keeps the last
touch of every key.  `recent n touches` are the `n` keys that were touched last, the
latest one last.  A bounded cache does not know all touches: `recent_concat` says
that it can go on from the recent keys alone, by moving the touched key to the end
and dropping the first key when there are too many.

An ordered dictionary is such a cache: reading an entry with `moveToEnd`, and storing
one by deleting it and adding it again, touch its key (`order_read`, `order_store`).
-/
import Mathlib.Data.List.Dedup
import Mathlib.Data.List.DropRight
import PartitionedBinaryTree.Lib.OrderedDict

namespace RecentlyUsed

variable {κ : Type} [DecidableEq κ]

/-- The `n` keys that were touched last, the latest one last. -/
def recent (n : ℕ) (touches : List κ) : List κ := touches.dedup.rtake n

/-- A key is touched: it moves to the end, or it is added there. -/
def touch (k : κ) (keys : List κ) : List κ := keys.erase k ++ [k]

/-- What a cache of `n` keys has after a touch. -/
def touchBounded (n : ℕ) (k : κ) (keys : List κ) : List κ :=
  if n < (touch k keys).length then (touch k keys).tail else touch k keys

@[simp] theorem recent_nil (n : ℕ) : recent n ([] : List κ) = [] := by
  rw [recent, List.dedup_nil, List.rtake_nil]

theorem length_recent_le (n : ℕ) (touches : List κ) : (recent n touches).length ≤ n := by
  rw [recent, List.rtake, List.length_drop]
  omega

/-- **One more touch**, with all touches known. -/
theorem dedup_concat (touches : List κ) (k : κ) :
    (touches ++ [k]).dedup = touch k touches.dedup := by
  induction touches with
  | nil => rfl
  | cons a touches ih =>
      rw [List.cons_append, List.dedup_cons, ih, List.dedup_cons]
      by_cases hk : a = k
      · subst hk
        rw [if_pos (List.mem_append_right _ List.mem_cons_self)]
        by_cases ha : a ∈ touches
        · rw [if_pos ha]
        · rw [if_neg ha, touch, touch, List.erase_cons_head,
            List.erase_of_not_mem fun h => ha (List.mem_dedup.mp h)]
      · have hmem : a ∈ touches ++ [k] ↔ a ∈ touches := by simp [hk]
        simp only [hmem]
        by_cases ha : a ∈ touches
        · rw [if_pos ha, if_pos ha]
        · rw [if_neg ha, if_neg ha, touch, touch, List.erase_cons_tail (by simpa using hk),
            List.cons_append]

/-- The last keys after a touch come from the last keys before it. -/
theorem rtake_touch {n : ℕ} (hn : 0 < n) {keys : List κ} (hkeys : keys.Nodup) (k : κ) :
    (touch k keys).rtake n = touchBounded n k (keys.rtake n) := by
  obtain ⟨old, last, hsplit, hlast, hcount⟩ :
      ∃ old last, keys = old ++ last ∧ keys.rtake n = last ∧
        last.length = min n keys.length := by
    refine ⟨keys.rdrop n, keys.rtake n, (List.take_append_drop _ _).symm, rfl, ?_⟩
    rw [List.rtake, List.length_drop]
    omega
  rw [hlast, touchBounded]
  subst hsplit
  rw [List.length_append] at hcount
  by_cases hk : k ∈ last
  · -- the key moves inside the last ones
    have hold : k ∉ old := fun h => List.disjoint_of_nodup_append hkeys h hk
    have hpos := List.length_pos_of_mem hk
    have hlen : (last.erase k ++ [k]).length = last.length := by
      rw [List.length_append, List.length_erase_of_mem hk, List.length_singleton]
      omega
    rw [touch, touch, List.erase_append_right _ hold, if_neg (by omega), List.append_assoc,
      List.rtake, List.length_append, hlen,
      show old.length + last.length - n = old.length by omega, List.drop_left]
  · have herase : (old ++ last).erase k = old.erase k ++ last := by
      by_cases hold : k ∈ old
      · rw [List.erase_append_left _ hold]
      · rw [List.erase_of_not_mem hold, List.erase_of_not_mem fun h =>
          (List.mem_append.mp h).elim hold hk]
    rw [touch, touch, herase, List.erase_of_not_mem hk, List.rtake]
    simp only [List.length_append, List.length_singleton]
    by_cases hfull : n < last.length + 1
    · -- the first of the last ones makes room
      rw [if_pos hfull]
      cases last with
      | nil =>
          rw [List.length_nil] at hcount hfull
          omega
      | cons a last =>
          rw [show (old.erase k).length + (a :: last).length + 1 - n =
            (old.erase k ++ [a]).length by
              simp only [List.length_append, List.length_cons, List.length_nil] at *
              omega,
            show old.erase k ++ a :: last ++ [k] = (old.erase k ++ [a]) ++ (last ++ [k]) by simp,
            List.drop_left]
          rfl
    · have hold : old = [] := List.length_eq_zero_iff.mp (by omega)
      subst hold
      rw [if_neg hfull, List.erase_nil, List.nil_append,
        show ([] : List κ).length + last.length + 1 - n = 0 by
          rw [List.length_nil]
          omega,
        List.drop_zero]

/-- **One more touch**, with the last keys known. -/
theorem recent_concat {n : ℕ} (hn : 0 < n) (touches : List κ) (k : κ) :
    recent n (touches ++ [k]) = touchBounded n k (recent n touches) := by
  rw [recent, dedup_concat, rtake_touch hn (List.nodup_dedup touches), recent]

/-- A key that is among the last ones takes no place from another. -/
theorem recent_concat_of_mem {n : ℕ} (hn : 0 < n) {touches : List κ} {k : κ}
    (hk : k ∈ recent n touches) :
    recent n (touches ++ [k]) = touch k (recent n touches) := by
  have hpos := List.length_pos_of_mem hk
  have hle := length_recent_le n touches
  have hlen : (touch k (recent n touches)).length = (recent n touches).length := by
    rw [touch, List.length_append, List.length_erase_of_mem hk, List.length_singleton]
    omega
  rw [recent_concat hn, touchBounded, if_neg (by omega)]

/-! ## Dictionaries as caches -/

variable {α : Type}

/-- Reading an entry. -/
theorem order_read {k : κ} {d : OrderedDict κ α} (hk : k ∈ d) :
    OrderedDict.order (OrderedDict.moveToEnd k d) = touch k (OrderedDict.order d) :=
  OrderedDict.order_moveToEnd hk

/-- Storing an entry: it is deleted when it is there, and added at the end. -/
theorem order_store (k : κ) (v : α) (d : OrderedDict κ α) :
    OrderedDict.order (OrderedDict.moveToEnd k
      (OrderedDict.setItem k v (if k ∈ d then d.erase k else d))) =
      touch k (OrderedDict.order d) := by
  obtain ⟨d', hd', horder, hk⟩ : ∃ d', (if k ∈ d then d.erase k else d) = d' ∧
      OrderedDict.order d' = (OrderedDict.order d).erase k ∧ k ∉ d' := by
    by_cases hk : k ∈ d
    · exact ⟨_, if_pos hk, OrderedDict.order_erase k d, fun h => (AList.mem_erase.mp h).1 rfl⟩
    · exact ⟨_, if_neg hk,
        (List.erase_of_not_mem fun h => hk (OrderedDict.mem_order.mp h)).symm, hk⟩
  have hadded : OrderedDict.order (OrderedDict.setItem k v d') = touch k (OrderedDict.order d) := by
    rw [OrderedDict.order_setItem, if_neg hk, horder, touch]
  have hmem : k ∈ OrderedDict.setItem k v d' := by
    rw [← OrderedDict.mem_order, hadded]
    exact List.mem_append_right _ List.mem_cons_self
  have hold : k ∉ (OrderedDict.order d).erase k := by
    rw [← horder]
    exact fun h => hk (OrderedDict.mem_order.mp h)
  rw [hd', order_read hmem, hadded, touch, touch, List.erase_append_right _ hold,
    List.erase_cons_head, List.append_nil]

end RecentlyUsed
