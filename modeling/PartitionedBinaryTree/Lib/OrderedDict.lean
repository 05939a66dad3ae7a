/-
# Dictionaries that remember their order

A finite map with the order in which its keys were added, over Mathlib's
`AList`: the entries have distinct keys, and the entry that was added last
stands first.  `setItem` overwrites a key where it stands, `moveToEnd` and
`popOldest` act on the order.

What the operations do to the map is said by their `lookup` lemmas, which leave
the order out.  When each event updates the value of one key, a list of events leaves
a key with the fold of its own events (`lookup_foldl_updateItem`).  `group` collects
the entries of a list by their keys; the largest group is the one of the most frequent
key, the earliest of several (`argmax_group`).
-/
import Mathlib.Data.List.AList
import Mathlib.Data.List.MinMax

/-- A finite map with the order of its keys, the newest first. -/
abbrev OrderedDict (κ α : Type) := AList fun _ : κ => α

namespace OrderedDict

variable {κ α : Type}

/-- The entries in order, the oldest first. -/
def items (d : OrderedDict κ α) : List (κ × α) := (d.entries.map fun e => (e.1, e.2)).reverse

theorem mem_items {d : OrderedDict κ α} {k : κ} {v : α} :
    (k, v) ∈ items d ↔ ⟨k, v⟩ ∈ d.entries := by
  rw [items, List.mem_reverse, List.mem_map]
  constructor
  · rintro ⟨⟨k', v'⟩, hmem, heq⟩
    cases heq
    exact hmem
  · intro hmem
    exact ⟨⟨k, v⟩, hmem, rfl⟩

/-- The dictionary without its oldest entry. -/
def popOldest (d : OrderedDict κ α) : OrderedDict κ α :=
  ⟨d.entries.dropLast, d.nodupKeys.sublist (List.dropLast_sublist d.entries)⟩

variable [DecidableEq κ]

/-- Overwrite a key where it stands, or add it as the newest. -/
def setItem (k : κ) (v : α) (d : OrderedDict κ α) : OrderedDict κ α :=
  if k ∈ d then d.replace k v else d.insert k v

/-- Make a key the newest; a key that is not there is none. -/
def moveToEnd (k : κ) (d : OrderedDict κ α) : OrderedDict κ α :=
  match d.lookup k with
  | none => d
  | some v => d.insert k v

/-- The value of a key is the value of its entry. -/
theorem lookup_eq_some_iff {d : OrderedDict κ α} {k : κ} {v : α} :
    d.lookup k = some v ↔ (k, v) ∈ items d := by
  rw [mem_items]
  exact AList.mem_lookup_iff

/-- Overwriting the first entry of a key, in a list of entries. -/
theorem dlookup_kreplace (k k' : κ) (v : α) (l : List (Σ _ : κ, α)) :
    (l.kreplace k v).dlookup k' = if k' = k ∧ k ∈ l.keys then some v else l.dlookup k' := by
  induction l with
  | nil => simp [List.kreplace]
  | cons e l ih =>
      obtain ⟨k'', v'⟩ := e
      unfold List.kreplace at ih ⊢
      rw [List.lookmap_cons]
      by_cases hk : k = k''
      · subst hk
        rw [if_pos rfl]
        dsimp only
        by_cases hk' : k' = k
        · subst hk'
          simp
        · rw [List.dlookup_cons_ne _ _ hk', List.dlookup_cons_ne _ _ hk', if_neg fun h => hk' h.1]
      · rw [if_neg hk]
        dsimp only
        by_cases hk' : k' = k''
        · subst hk'
          rw [List.dlookup_cons_eq, List.dlookup_cons_eq, if_neg fun h => hk h.1.symm]
        · rw [List.dlookup_cons_ne _ _ hk', List.dlookup_cons_ne _ _ hk', ih]
          simp [hk]

theorem lookup_setItem (k k' : κ) (v : α) (d : OrderedDict κ α) :
    (setItem k v d).lookup k' = if k' = k then some v else d.lookup k' := by
  unfold setItem
  by_cases hk : k ∈ d
  · rw [if_pos hk]
    show (d.entries.kreplace k v).dlookup k' = _
    rw [dlookup_kreplace]
    by_cases hk' : k' = k
    · rw [if_pos ⟨hk', AList.mem_keys.mp hk⟩, if_pos hk']
    · rw [if_neg fun h => hk' h.1, if_neg hk']
      rfl
  · rw [if_neg hk]
    by_cases hk' : k' = k
    · rw [hk', AList.lookup_insert, if_pos rfl]
    · rw [AList.lookup_insert_ne hk', if_neg hk']

@[simp] theorem lookup_moveToEnd (k k' : κ) (d : OrderedDict κ α) :
    (moveToEnd k d).lookup k' = d.lookup k' := by
  unfold moveToEnd
  cases hk : d.lookup k with
  | none => rfl
  | some v =>
      by_cases hk' : k' = k
      · rw [hk', AList.lookup_insert, hk]
      · exact AList.lookup_insert_ne hk'

/-- What is left without the oldest entry was there before. -/
theorem lookup_of_popOldest {d : OrderedDict κ α} {k : κ} {v : α}
    (h : (popOldest d).lookup k = some v) : d.lookup k = some v :=
  AList.mem_lookup_iff.mpr ((List.dropLast_sublist d.entries).subset (AList.mem_lookup_iff.mp h))

/-- What is left without a key was there before. -/
theorem lookup_of_erase {d : OrderedDict κ α} {k k' : κ} {v : α}
    (h : (d.erase k).lookup k' = some v) : d.lookup k' = some v := by
  by_cases hk : k' = k
  · rw [hk, AList.lookup_erase] at h
    cases h
  · rwa [AList.lookup_erase_ne hk] at h

/-! ## The order of the keys -/

/-- The keys in order, the oldest first. -/
def order (d : OrderedDict κ α) : List κ := (items d).map Prod.fst

omit [DecidableEq κ] in
theorem order_eq (d : OrderedDict κ α) : order d = d.keys.reverse := by
  rw [order, items, List.map_reverse, List.map_map]
  rfl

omit [DecidableEq κ] in
theorem mem_order {d : OrderedDict κ α} {k : κ} : k ∈ order d ↔ k ∈ d := by
  rw [order_eq, List.mem_reverse, AList.mem_keys]

/-- A key keeps its place when it is overwritten, a new key comes last. -/
theorem order_setItem (k : κ) (v : α) (d : OrderedDict κ α) :
    order (setItem k v d) = if k ∈ d then order d else order d ++ [k] := by
  unfold setItem
  split_ifs with hk
  · rw [order_eq, AList.keys_replace, order_eq]
  · rw [order_eq, AList.keys_insert, List.reverse_cons, order_eq,
      List.erase_of_not_mem fun h => hk (AList.mem_keys.mpr h)]

/-- Erasing a key leaves the order of the others. -/
theorem order_erase (k : κ) (d : OrderedDict κ α) : order (d.erase k) = (order d).erase k := by
  have hnodup : d.keys.Nodup := AList.keys_nodup d
  rw [order_eq, order_eq, AList.keys_erase, hnodup.erase_eq_filter,
    (List.nodup_reverse.mpr hnodup).erase_eq_filter, List.filter_reverse]

theorem order_moveToEnd {k : κ} {d : OrderedDict κ α} (hk : k ∈ d) :
    order (moveToEnd k d) = (order d).erase k ++ [k] := by
  obtain ⟨v, hv⟩ := Option.isSome_iff_exists.mp (AList.lookup_isSome.mpr hk)
  have hmove : moveToEnd k d = d.insert k v := by
    rw [moveToEnd, hv]
  rw [hmove, order_eq, AList.keys_insert, List.reverse_cons, ← AList.keys_erase, ← order_eq,
    order_erase]

omit [DecidableEq κ] in
/-- The oldest key stands first. -/
theorem order_popOldest (d : OrderedDict κ α) : order (popOldest d) = (order d).tail := by
  rw [order, order, items, items, popOldest]
  dsimp only
  rw [List.map_dropLast, ← List.tail_reverse, List.map_tail]

/-! ## Accumulators -/

/-- Update the value of a key, which is `start` before it is there. -/
def updateItem (start : α) (k : κ) (f : α → α) (d : OrderedDict κ α) : OrderedDict κ α :=
  setItem k (f ((d.lookup k).getD start)) d

/-- **An accumulator for each key**: a list of events leaves a key with the fold of its own
events. -/
theorem lookup_foldl_updateItem {ι : Type} (start : α) (key : ι → κ) (step : α → ι → α)
    (events : List ι) (d : OrderedDict κ α) (k : κ) :
    (events.foldl (fun d e => updateItem start (key e) (step · e) d) d).lookup k =
      if k ∈ events.map key
      then some ((events.filter (key · = k)).foldl step ((d.lookup k).getD start))
      else d.lookup k := by
  induction events generalizing d with
  | nil => rfl
  | cons e events ih =>
      rw [List.foldl_cons, ih, updateItem, lookup_setItem, List.map_cons]
      by_cases hk : k = key e
      · subst hk
        rw [if_pos rfl, if_pos List.mem_cons_self, List.filter_cons_of_pos (by simp),
          List.foldl_cons, Option.getD_some]
        split_ifs with hmem
        · rfl
        · have hnone : events.filter (key · = key e) = [] := by
            rw [List.filter_eq_nil_iff]
            intro e' he' hkey
            exact hmem (List.mem_map.mpr ⟨e', he', by simpa using hkey⟩)
          rw [hnone, List.foldl_nil]
      · have hmem : k ∈ key e :: events.map key ↔ k ∈ events.map key := by
          simp [hk]
        rw [if_neg hk, List.filter_cons_of_neg (by simpa using Ne.symm hk)]
        simp only [hmem]

/-! ## Groups -/

/-- Append to the list of a key, which is empty before it is there. -/
def pushItem (k : κ) (x : α) (d : OrderedDict κ (List α)) : OrderedDict κ (List α) :=
  setItem k ((d.lookup k).getD [] ++ [x]) d

/-- The entries of a list, collected by their keys. -/
def group (l : List (κ × α)) : OrderedDict κ (List α) := l.foldl (fun d e => pushItem e.1 e.2 d) ∅

@[simp] theorem group_concat (l : List (κ × α)) (e : κ × α) :
    group (l ++ [e]) = pushItem e.1 e.2 (group l) := by
  rw [group, List.foldl_concat, ← group]

/-- The group of a key: its entries, in order. -/
theorem lookup_group (l : List (κ × α)) (k : κ) :
    (group l).lookup k =
      if k ∈ l.map Prod.fst then some ((l.filter (·.1 = k)).map Prod.snd) else none := by
  have hfold := lookup_foldl_updateItem [] Prod.fst (fun xs e => xs ++ [e.2]) l
    (∅ : OrderedDict κ (List α)) k
  rw [List.foldl_append_eq_append, ← List.flatMap_def, ← List.map_eq_flatMap] at hfold
  exact hfold

theorem mem_group {l : List (κ × α)} {k : κ} : k ∈ group l ↔ k ∈ l.map Prod.fst := by
  rw [← AList.lookup_isSome, lookup_group]
  split_ifs with h
  · exact iff_of_true rfl h
  · exact iff_of_false (by simp) h

/-- The groups stand in the order of their first entries. -/
theorem order_group_pairwise (l : List (κ × α)) :
    (order (group l)).Pairwise fun a b =>
      (l.map Prod.fst).idxOf a < (l.map Prod.fst).idxOf b := by
  induction l using List.reverseRecOn with
  | nil => exact List.Pairwise.nil
  | append_singleton l e ih =>
      obtain ⟨k, x⟩ := e
      -- more entries leave the first ones where they are
      have hidx : ∀ a ∈ order (group l),
          ((l ++ [(k, x)]).map Prod.fst).idxOf a = (l.map Prod.fst).idxOf a := by
        intro a ha
        rw [List.map_append, List.idxOf_append_of_mem (mem_group.mp (mem_order.mp ha))]
      have hold : (order (group l)).Pairwise fun a b =>
          ((l ++ [(k, x)]).map Prod.fst).idxOf a < ((l ++ [(k, x)]).map Prod.fst).idxOf b := by
        refine ih.imp_of_mem fun {a b} ha hb hab => ?_
        rw [hidx a ha, hidx b hb]
        exact hab
      rw [group_concat, pushItem, order_setItem]
      split_ifs with hk
      · exact hold
      · refine List.pairwise_append.mpr ⟨hold, List.pairwise_singleton _ _, fun a ha b hb => ?_⟩
        rw [List.mem_singleton.mp hb, hidx a ha, List.map_append,
          List.idxOf_append_of_notMem fun h => hk (mem_group.mpr h)]
        have hlt := List.idxOf_lt_length_of_mem (mem_group.mp (mem_order.mp ha))
        simp only [List.map_cons, List.map_nil, List.idxOf_cons_self]
        omega

/-- Positions in a list that is sorted by `f` compare as the values of `f`. -/
theorem idxOf_le_idxOf_iff {ι : Type} [DecidableEq ι] {l : List ι} {f : ι → ℕ}
    (h : l.Pairwise fun a b => f a < f b) {a b : ι} (ha : a ∈ l) (hb : b ∈ l) :
    l.idxOf a ≤ l.idxOf b ↔ f a ≤ f b := by
  have hlt : ∀ x ∈ l, ∀ y ∈ l, l.idxOf x < l.idxOf y → f x < f y := by
    intro x hx y hy hxy
    have hpair := List.pairwise_iff_getElem.mp h _ _ (List.idxOf_lt_length_of_mem hx)
      (List.idxOf_lt_length_of_mem hy) hxy
    rwa [List.getElem_idxOf, List.getElem_idxOf] at hpair
  constructor
  · intro hle
    rcases Nat.lt_or_eq_of_le hle with hidx | hidx
    · exact (hlt a ha b hb hidx).le
    · rw [(List.idxOf_inj ha).mp hidx]
  · intro hle
    by_contra hidx
    exact absurd (hlt b hb a ha (not_le.mp hidx)) (not_lt.mpr hle)

/-- How often a key occurs. -/
def frequency (ks : List κ) (k : κ) : ℕ := ks.count k

theorem frequency_eq_countP (ks : List κ) (k : κ) : frequency ks k = ks.countP (· = k) :=
  List.count_eq_countP

/-- The key occurs, no key occurs more often, and none that occurs as often occurs earlier. -/
def Leads (ks : List κ) (k : κ) : Prop :=
  k ∈ ks ∧ ∀ k', frequency ks k' ≤ frequency ks k ∧
    (frequency ks k' = frequency ks k → ks.idxOf k ≤ ks.idxOf k')

/-- The only key of a list leads it. -/
theorem leads_replicate {n : ℕ} (hn : n ≠ 0) (k : κ) :
    Leads (List.replicate n k) k ∧ frequency (List.replicate n k) k = n := by
  refine ⟨⟨List.mem_replicate.mpr ⟨hn, rfl⟩, fun k' => ⟨?_, fun _ => ?_⟩⟩, ?_⟩
  · rw [frequency, frequency, List.count_replicate_self]
    exact List.count_le_length.trans_eq List.length_replicate
  · cases n with
    | zero => exact absurd rfl hn
    | succ n =>
        rw [List.replicate_succ, List.idxOf_cons_self]
        exact Nat.zero_le _
  · exact List.count_replicate_self

theorem mem_items_group {l : List (κ × α)} {k : κ} {xs : List α} :
    (k, xs) ∈ items (group l) ↔
      k ∈ l.map Prod.fst ∧ xs = (l.filter (·.1 = k)).map Prod.snd := by
  rw [← lookup_eq_some_iff, lookup_group]
  split_ifs with h
  · rw [Option.some.injEq, eq_comm, and_iff_right h]
  · simp [h]

/-- A group is as long as its key is frequent. -/
theorem length_group (l : List (κ × α)) (k : κ) :
    ((l.filter (·.1 = k)).map Prod.snd).length = frequency (l.map Prod.fst) k := by
  rw [List.length_map, frequency_eq_countP, List.countP_map, List.countP_eq_length_filter]
  congr 1

/-- **The largest group**, the first of several, is the group of the leading key. -/
theorem argmax_group [DecidableEq α] (l : List (κ × α)) (k : κ) (xs : List α) :
    (items (group l)).argmax (fun e => e.2.length) = some (k, xs) ↔
      Leads (l.map Prod.fst) k ∧ xs = (l.filter (·.1 = k)).map Prod.snd := by
  have hpair : (items (group l)).Pairwise fun a b =>
      (l.map Prod.fst).idxOf a.1 < (l.map Prod.fst).idxOf b.1 := by
    have horder := order_group_pairwise l
    rwa [order, List.pairwise_map] at horder
  have hentry : ∀ k', k' ∈ l.map Prod.fst →
      (k', (l.filter (·.1 = k')).map Prod.snd) ∈ items (group l) :=
    fun k' hk' => mem_items_group.mpr ⟨hk', rfl⟩
  rw [List.argmax_eq_some_iff]
  constructor
  · rintro ⟨hmem, hmax, hfirst⟩
    obtain ⟨hk, rfl⟩ := mem_items_group.mp hmem
    refine ⟨⟨hk, fun k' => ?_⟩, rfl⟩
    by_cases hk' : k' ∈ l.map Prod.fst
    · have hle := hmax _ (hentry k' hk')
      have htie := hfirst _ (hentry k' hk')
      rw [idxOf_le_idxOf_iff hpair hmem (hentry k' hk')] at htie
      rw [length_group, length_group] at hle htie
      exact ⟨hle, fun heq => htie heq.ge⟩
    · -- a key that does not occur is no rival
      have hpos : 0 < frequency (l.map Prod.fst) k := List.count_pos_iff.mpr hk
      have hzero : frequency (l.map Prod.fst) k' = 0 := List.count_eq_zero_of_not_mem hk'
      rw [hzero]
      exact ⟨hpos.le, fun heq => absurd heq hpos.ne⟩
  · rintro ⟨⟨hk, hlead⟩, rfl⟩
    refine ⟨hentry k hk, ?_, ?_⟩
    · rintro ⟨k', xs⟩ hmem
      obtain ⟨-, rfl⟩ := mem_items_group.mp hmem
      rw [length_group, length_group]
      exact (hlead k').1
    · rintro ⟨k', xs⟩ hmem hle
      rw [idxOf_le_idxOf_iff hpair (hentry k hk) hmem]
      obtain ⟨-, rfl⟩ := mem_items_group.mp hmem
      rw [length_group, length_group] at hle
      exact (hlead k').2 (le_antisymm (hlead k').1 hle)

end OrderedDict
