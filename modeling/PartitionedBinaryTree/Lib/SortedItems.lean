/-
# A dictionary and an ordered map that list the same items

A dictionary keeps its keys in the order of their first writes, an ordered map
in the order of the keys.  When both were written alike (`SameEntries`), the
items of the one, sorted by their keys, are the list of the other
(`sortedItems_eq`), whatever the order of the writes.
-/
import PartitionedBinaryTree.Lib.OrderedDict
import Mathlib.Tactic.Common
import Mathlib.Data.List.Sort

namespace OrderedDict

variable {κ α β : Type}

theorem nodup_items [DecidableEq κ] (d : OrderedDict κ α) : (items d).Nodup := by
  apply List.Nodup.of_map Prod.fst
  show (order d).Nodup
  rw [order_eq, List.nodup_reverse]
  exact d.keys_nodup

variable [Ord κ]

/-- The items of a dictionary, sorted by their keys. -/
def sortedItems (d : OrderedDict κ α) : List (κ × α) :=
  (items d).mergeSort fun a b => (compare a.1 b.1).isLE

variable [Std.TransOrd κ] {f : β → α} {m : Std.TreeMap κ β compare}

theorem pairwise_sortedItems (d : OrderedDict κ α) :
    (sortedItems d).Pairwise fun a b => (compare a.1 b.1).isLE = true := by
  apply List.pairwise_mergeSort
  · intro a b c hab hbc
    exact Std.TransOrd.isLE_trans hab hbc
  · intro a b
    rw [Std.OrientedOrd.eq_swap (a := a.1)]
    cases compare b.1 a.1 <;> rfl

/-- The list of the map, under `f`, is in the order of the keys, each of which is there once. -/
theorem pairwise_toList (m : Std.TreeMap κ β compare) (f : β → α) :
    (m.toList.map fun entry => (entry.1, f entry.2)).Pairwise fun a b =>
      compare a.1 b.1 = .lt :=
  List.pairwise_map.mpr Std.TreeMap.ordered_keys_toList

variable [DecidableEq κ] {d : OrderedDict κ α}

/-- The dictionary holds, key by key, what the map holds under `f`. -/
def SameEntries (f : β → α) (d : OrderedDict κ α) (m : Std.TreeMap κ β compare) : Prop :=
  ∀ k, d.lookup k = m[k]?.map f

theorem sameEntries_empty : SameEntries f (∅ : OrderedDict κ α) (∅ : Std.TreeMap κ β compare) := by
  intro k
  rw [Std.TreeMap.getElem?_emptyc]
  rfl

variable [Std.LawfulEqOrd κ]

/-- One write of each keeps the entries the same. -/
theorem SameEntries.setItem (h : SameEntries f d m) (k : κ) (v : β) :
    SameEntries f (OrderedDict.setItem k (f v) d) (m.insert k v) := by
  intro k'
  rw [lookup_setItem, Std.TreeMap.getElem?_insert, h k']
  by_cases hk : k' = k
  · rw [if_pos hk, if_pos (by rw [hk]; exact Std.ReflOrd.compare_self)]
    rfl
  · rw [if_neg hk, if_neg fun heq => hk (Std.LawfulEqOrd.eq_of_compare heq).symm]

/-- An item of the dictionary is an entry of the map. -/
theorem SameEntries.mem_items_iff (h : SameEntries f d m) {e : κ × α} :
    e ∈ items d ↔ e ∈ m.toList.map fun entry => (entry.1, f entry.2) := by
  obtain ⟨k, a⟩ := e
  rw [← lookup_eq_some_iff, h k, Option.map_eq_some_iff, List.mem_map]
  constructor
  · rintro ⟨v, hv, rfl⟩
    exact ⟨(k, v), Std.TreeMap.mem_toList_iff_getElem?_eq_some.mpr hv, rfl⟩
  · rintro ⟨⟨k', v⟩, hmem, heq⟩
    cases heq
    exact ⟨v, Std.TreeMap.mem_toList_iff_getElem?_eq_some.mp hmem, rfl⟩

/-- **The sorted items of the dictionary are the list of the map.** -/
theorem sortedItems_eq (h : SameEntries f d m) :
    sortedItems d = m.toList.map fun entry => (entry.1, f entry.2) := by
  have hperm : (sortedItems d).Perm (m.toList.map fun entry => (entry.1, f entry.2)) := by
    refine (List.mergeSort_perm _ _).trans ?_
    refine (List.perm_ext_iff_of_nodup (nodup_items d) ?_).mpr fun e => h.mem_items_iff
    refine (pairwise_toList m f).imp ?_
    rintro a b hlt rfl
    rw [Std.ReflOrd.compare_self] at hlt
    cases hlt
  have hlist : (m.toList.map fun entry => (entry.1, f entry.2)).Pairwise fun a b =>
      (compare a.1 b.1).isLE = true := by
    refine (pairwise_toList m f).imp ?_
    intro a b hlt
    rw [hlt]
    rfl
  refine hperm.eq_of_pairwise ?_ (pairwise_sortedItems d) hlist
  intro a b ha hb hab hba
  -- two items with one key are one item
  have hkey : a.1 = b.1 := Std.LawfulEqOrd.eq_of_compare (Std.OrientedCmp.isLE_antisymm hab hba)
  have ha' : d.lookup a.1 = some a.2 :=
    lookup_eq_some_iff.mpr ((List.mergeSort_perm _ _).mem_iff.mp ha)
  have hb' : d.lookup b.1 = some b.2 := lookup_eq_some_iff.mpr (h.mem_items_iff.mpr hb)
  rw [hkey, hb', Option.some.injEq] at ha'
  exact Prod.ext hkey ha'.symm

end OrderedDict
