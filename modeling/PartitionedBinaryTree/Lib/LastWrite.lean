/-
# Writes, of which the last one counts

A list of writes is a list of keys with values.  `lastWrite` is what a reader of a
key finds after all of them, when a later write of a key replaces the earlier ones.
Blocks of writes to different keys may be made in any order (`lastWrite_flatMap_perm`),
and each block is read as if it stood alone (`lastWrite_flatMap`).
-/
import Mathlib.Data.List.Induction
import Mathlib.Data.List.Nodup

section LastWrite

variable {ι κ κ' α : Type} [DecidableEq κ] [DecidableEq κ']

/-- The value of the last write of a key. -/
def lastWrite (ws : List (κ × α)) (k : κ) : Option α :=
  (ws.filter (·.1 = k)).getLast?.map Prod.snd

@[simp] theorem lastWrite_nil (k : κ) : lastWrite ([] : List (κ × α)) k = none := rfl

/-- A write of the key hides the earlier ones, another write is not seen. -/
theorem lastWrite_concat (ws : List (κ × α)) (w : κ × α) (k : κ) :
    lastWrite (ws ++ [w]) k = if w.1 = k then some w.2 else lastWrite ws k := by
  unfold lastWrite
  rw [List.filter_append]
  by_cases hk : w.1 = k
  · rw [if_pos hk, List.filter_singleton, decide_eq_true hk, cond_true, List.getLast?_concat]
    rfl
  · rw [if_neg hk, List.filter_singleton, decide_eq_false hk, cond_false, List.append_nil]

/-- The writes that come last are looked at first. -/
theorem lastWrite_append (xs ys : List (κ × α)) (k : κ) :
    lastWrite (xs ++ ys) k = (lastWrite ys k).or (lastWrite xs k) := by
  induction ys using List.reverseRecOn with
  | nil => simp
  | append_singleton ys w ih =>
      rw [← List.append_assoc, lastWrite_concat, lastWrite_concat, ih]
      split_ifs <;> rfl

theorem lastWrite_eq_none_iff {ws : List (κ × α)} {k : κ} :
    lastWrite ws k = none ↔ k ∉ ws.map Prod.fst := by
  induction ws using List.reverseRecOn with
  | nil => simp
  | append_singleton ws w ih =>
      rw [lastWrite_concat, List.map_append, List.map_singleton, List.mem_append,
        List.mem_singleton, not_or, ← ih]
      split_ifs with hk
      · simp [hk]
      · simp [Ne.symm hk]

/-- What is read was written. -/
theorem mem_of_lastWrite {ws : List (κ × α)} {k : κ} {v : α} (h : lastWrite ws k = some v) :
    (k, v) ∈ ws := by
  induction ws using List.reverseRecOn with
  | nil => cases h
  | append_singleton ws w ih =>
      rw [lastWrite_concat] at h
      split_ifs at h with hk
      · cases h
        exact List.mem_append_right _ (hk ▸ List.mem_singleton_self _)
      · exact List.mem_append_left _ (ih h)

/-- Keys that are written once read as they were written. -/
theorem lastWrite_of_mem {ws : List (κ × α)} (hnodup : (ws.map Prod.fst).Nodup) {k : κ} {v : α}
    (h : (k, v) ∈ ws) : lastWrite ws k = some v := by
  cases hread : lastWrite ws k with
  | none => exact absurd (List.mem_map_of_mem h) (lastWrite_eq_none_iff.mp hread)
  | some v' =>
      have heq := List.inj_on_of_nodup_map hnodup (mem_of_lastWrite hread) h rfl
      rw [(Prod.mk.inj heq).2]

/-- **Other names for the keys**, which no two of them share. -/
theorem lastWrite_map {f : κ → κ'} {ws : List (κ × α)} {k : κ}
    (hinj : ∀ w ∈ ws, f w.1 = f k → w.1 = k) :
    lastWrite (ws.map fun w => (f w.1, w.2)) (f k) = lastWrite ws k := by
  induction ws using List.reverseRecOn with
  | nil => rfl
  | append_singleton ws w ih =>
      have hw : f w.1 = f k ↔ w.1 = k :=
        ⟨hinj w (List.mem_append_right _ List.mem_cons_self), congrArg f⟩
      rw [List.map_append, List.map_singleton, lastWrite_concat, lastWrite_concat,
        ih fun w' hw' => hinj w' (List.mem_append_left _ hw')]
      simp only [hw]

/-! ## Blocks of writes -/

variable {block : ι → List (κ × α)}

/-- The blocks write different keys. -/
def WriteApart (block : ι → List (κ × α)) (x y : ι) : Prop :=
  ∀ k ∈ (block x).map Prod.fst, k ∉ (block y).map Prod.fst

omit [DecidableEq κ] in
theorem WriteApart.symm {x y : ι} (h : WriteApart block x y) : WriteApart block y x :=
  fun k hy hx => h k hx hy

/-- **Each block is read alone.** -/
theorem lastWrite_flatMap {xs : List ι} (h : xs.Pairwise (WriteApart block)) {k : κ} {v : α} :
    lastWrite (xs.flatMap block) k = some v ↔ ∃ x ∈ xs, lastWrite (block x) k = some v := by
  induction xs generalizing v with
  | nil => simp
  | cons x xs ih =>
      obtain ⟨hx, hxs⟩ := List.pairwise_cons.mp h
      rw [List.flatMap_cons, lastWrite_append]
      cases hrest : lastWrite (xs.flatMap block) k with
      | none =>
          rw [Option.none_or]
          have hnone : ¬ ∃ y ∈ xs, lastWrite (block y) k = some v := by
            rw [← ih hxs, hrest]
            exact fun heq => by cases heq
          simp [hnone]
      | some v' =>
          rw [Option.some_or, ← hrest, ih hxs]
          -- a later block writes the key, so that the first one does not
          obtain ⟨y, hy, hread⟩ := (ih hxs).mp hrest
          have hnone : lastWrite (block x) k = none := by
            rw [lastWrite_eq_none_iff]
            exact fun hk => hx y hy k hk (List.mem_map_of_mem (mem_of_lastWrite hread))
          simp [hnone]

/-- **Blocks that write different keys commute.** -/
theorem lastWrite_flatMap_perm {xs ys : List ι} (hperm : xs.Perm ys)
    (h : xs.Pairwise (WriteApart block)) :
    lastWrite (xs.flatMap block) = lastWrite (ys.flatMap block) := by
  have hys : ys.Pairwise (WriteApart block) := hperm.pairwise h fun hxy => hxy.symm
  funext k
  apply Option.ext
  intro v
  rw [lastWrite_flatMap h, lastWrite_flatMap hys]
  simp only [hperm.mem_iff]

end LastWrite
