/-
# Canonical form of the tree

A run whose inserts write no `EMPTY_VALUE` ends in the canonical tree of its
final map (`run_isCanonical`): the tree a specification builds from the map
alone, whatever the order of the calls was.

Writing `EMPTY_VALUE` is where the two updates part.  `delete` drops a stem
whose last live leaf goes, `insert` keeps it; `insert_empty_eq_delete_iff` says
exactly when the two agree.
-/
import PartitionedBinaryTree.Lib.LastWrite
import PartitionedBinaryTree.TreeRuns

namespace Pbt

open Node

/-! ## The stems of a map -/

/-- The values a map has under one stem prefix. -/
def stemOf (m : KeyMap) (stemPrefix : Bytes) : StemValues :=
  Vector.ofFn fun i => m (joinKey stemPrefix i)

/-- The stems of a map: the prefixes with a live leaf, with their values. -/
def stemsOf (m : KeyMap) (stemPrefix : Bytes) : Option StemValues :=
  if stemIsEmpty (stemOf m stemPrefix) then none else some (stemOf m stemPrefix)

/-- No stem of the tree is all-empty. -/
def NoEmptyStem (t : Node) : Prop := ∀ s vs, storedStem t s = some vs → stemIsEmpty vs = false

/-- An operation that does not write `EMPTY_VALUE`. -/
def TreeOp.WritesLive : TreeOp → Prop
  | insert _ value => value ≠ emptyValue.val
  | delete _ => True

/-- A stem with a live slot is not empty. -/
theorem stemIsEmpty_eq_false {vs : StemValues} {i : Fin stemSubtreeWidth}
    (h : getElem vs i i.isLt ≠ emptyValue) : stemIsEmpty vs = false := by
  rw [← Bool.not_eq_true, stemIsEmpty_iff]
  exact fun hall => h (hall i)

/-- One call that writes no `EMPTY_VALUE` leaves no all-empty stem. -/
theorem noEmptyStem_step {t : Node} (ht : WellFormed t) (hne : NoEmptyStem t) {op : TreeOp}
    (hop : op.WritesLive) : NoEmptyStem (step t op) := by
  intro s' vs' h
  obtain ⟨-, message, herr⟩ | ⟨s, i, v, t', -, rfl, hok, -, hread⟩ |
    ⟨s, i, t', -, rfl, hok, -, hread⟩ := apply_cases ht op
  · rw [step_of_error herr] at h
    exact hne s' vs' h
  · rw [step_of_ok hok, hread] at h
    split_ifs at h with hs
    · -- the slot that was written is live
      cases h
      refine stemIsEmpty_eq_false (i := i) ?_
      rw [getElem_setSlot, if_pos rfl]
      exact fun hv => hop (congrArg Subtype.val hv)
    · exact hne s' vs' h
  · rw [step_of_ok hok, hread] at h
    split_ifs at h with hs
    · -- a stem that the delete leaves has passed the emptiness test
      obtain ⟨vs, -, hclear⟩ := Option.bind_eq_some_iff.mp h
      rw [clearSlot] at hclear
      split_ifs at hclear with hempty
      cases hclear
      simpa using hempty
    · exact hne s' vs' h

/-- A run that writes no `EMPTY_VALUE` stores no all-empty stem. -/
theorem noEmptyStem_run {ops : List TreeOp} (h : ∀ op ∈ ops, op.WritesLive) :
    NoEmptyStem (run ops) := by
  induction ops using List.reverseRecOn with
  | nil => exact fun s vs hs => by simp [storedStem, BitTrie.lookup] at hs
  | append_singleton ops op ih =>
      rw [run_concat]
      exact noEmptyStem_step (wellFormed_run ops)
        (ih fun o ho => h o (List.mem_append_left _ ho)) (h op (by simp))

/-- The slots of a stem determine it. -/
theorem stemValues_ext {a b : StemValues}
    (h : ∀ i : Fin stemSubtreeWidth, getElem a i i.isLt = getElem b i i.isLt) : a = b :=
  Vector.ext fun i hi => h ⟨i, hi⟩

/-- The stems such a run stores are the stems of its final map. -/
theorem storedStem_run_eq_stemsOf {ops : List TreeOp} (h : ∀ op ∈ ops, op.WritesLive) :
    storedStem (run ops) = stemsOf (finalMap ops) := by
  funext s
  have hslots : (storedStem (run ops) s).getD emptyStem = stemOf (finalMap ops) s := by
    refine stemValues_ext fun i => ?_
    rw [getElem_storedStem_run]
    simp [stemOf]
  rw [stemsOf, ← hslots]
  cases hstem : storedStem (run ops) s with
  | none =>
      -- a stem that is not stored reads as the empty stem
      have hempty : stemIsEmpty emptyStem = true :=
        (stemIsEmpty_iff _).mpr fun i => getElem_emptyStem i i.isLt
      rw [Option.getD_none, if_pos hempty]
  | some vs => rw [Option.getD_some, noEmptyStem_run h s vs hstem, if_neg Bool.false_ne_true]

/-- **Canonical form and history independence.**  A run of inserts of live values
and deletes ends in the canonical tree of its final map and stores no all-empty
stem; runs with the same final map end in the same tree with the same root. -/
theorem run_isCanonical (ops : List TreeOp) (h : ∀ op ∈ ops, op.WritesLive) :
    BitTrie.IsCanonical pathBit (stemsOf (finalMap ops)) 0 (run ops) ∧
    (∀ p ∈ (run ops).leaves, stemIsEmpty p.2 = false) ∧
    (∀ ops' : List TreeOp, (∀ op ∈ ops', op.WritesLive) → finalMap ops' = finalMap ops →
      run ops' = run ops ∧ ∀ H, rootHash H (run ops') = rootHash H (run ops)) := by
  have hcanon : ∀ {ops : List TreeOp}, (∀ op ∈ ops, op.WritesLive) →
      BitTrie.IsCanonical pathBit (stemsOf (finalMap ops)) 0 (run ops) := by
    intro ops h
    have hwf := wellFormed_run ops
    rw [← storedStem_run_eq_stemsOf h]
    exact BitTrie.isCanonical_of_placed_compact hwf.placed hwf.compact
  refine ⟨hcanon h, fun p hp => ?_, fun ops' h' hmap => ?_⟩
  · exact noEmptyStem_run h p.1 p.2 ((wellFormed_run ops).storedStem_eq_some_iff.mpr hp)
  · have heq : run ops' = run ops := (hmap ▸ hcanon h').unique (hcanon h)
    exact ⟨heq, fun H => by rw [heq]⟩

/-- A split, a collapse and an overwrite, against the one insert that survives them. -/
theorem run_isCanonical_collapse :
    run [.insert [0, 0] (List.replicate 32 1), .insert [64, 0] (List.replicate 32 2),
      .insert [0, 0] (List.replicate 32 3), .delete [64, 0]] =
    run [.insert [0, 0] (List.replicate 32 3)] := by
  refine ((run_isCanonical [.insert [0, 0] (List.replicate 32 3)] ?_).2.2 _ ?_ ?_).1
  · simp [TreeOp.WritesLive, emptyValue, BytesN.zero, zeroBytes]
  · simp [TreeOp.WritesLive, emptyValue, BytesN.zero, zeroBytes]
  · funext key
    simp only [finalMap, List.foldl, TreeOp.update, List.length_replicate, List.length_cons,
      List.length_nil]
    by_cases h0 : key = [0, 0]
    · simp [h0]
    · by_cases h1 : key = [64, 0] <;> simp [h0, h1]

/-! ## Writing the empty value -/

/-- Another slot of the key's stem holds a live value. -/
def HasLiveSibling (t : Node) (key : Bytes) : Prop :=
  ∃ key', key'.dropLast = key.dropLast ∧ key' ≠ key ∧ key'.length = key.length ∧
    ∃ v, get t key' = .ok v ∧ v ≠ emptyValue

/-- In terms of slots: some other slot of the stem is live. -/
theorem hasLiveSibling_joinKey {t : Node} {s : Bytes} (hs : s ≠ []) (i : Fin stemSubtreeWidth) :
    HasLiveSibling t (joinKey s i) ↔
      ∃ j, j ≠ i ∧ getElem ((storedStem t s).getD emptyStem) j j.isLt ≠ emptyValue := by
  constructor
  · rintro ⟨key', hdrop, hne, hlen, v, hget, hv⟩
    have hlen' : 2 ≤ key'.length := hlen ▸ two_le_length_joinKey_iff.mpr hs
    obtain ⟨s', j, -, rfl⟩ := exists_splitKey hlen'
    rw [dropLast_joinKey, dropLast_joinKey] at hdrop
    subst hdrop
    rw [get_joinKey hs] at hget
    cases hget
    exact ⟨j, fun hj => hne (by rw [hj]), hv⟩
  · rintro ⟨j, hj, hv⟩
    exact ⟨joinKey s j, by rw [dropLast_joinKey, dropLast_joinKey],
      fun h => hj (joinKey_inj.mp h).2, by rw [length_joinKey, length_joinKey],
      _, get_joinKey hs j, hv⟩

/-- A cleared stem survives exactly when another slot is live. -/
theorem clearSlot_ne_none_iff (vs : StemValues) (i : Fin stemSubtreeWidth) :
    clearSlot i vs ≠ none ↔ ∃ j, j ≠ i ∧ getElem vs j j.isLt ≠ emptyValue := by
  have hiff : clearSlot i vs = none ↔ ∀ j, j ≠ i → vs[j] = emptyValue := by
    have hempty : clearSlot i vs = none ↔ stemIsEmpty (vs.set i emptyValue) = true := by
      rw [clearSlot]
      split_ifs with h <;> simp [h]
    rw [hempty, stemIsEmpty_iff]
    refine forall_congr' fun j => ?_
    rw [getElem_set_slot]
    split_ifs with hj
    · simp [hj]
    · simp [hj]
  rw [Ne, hiff]
  push Not
  rfl

/-- Trees that store the same stems are equal. -/
theorem WellFormed.eq_of_storedStem_eq {t t' : Node} (ht : WellFormed t) (ht' : WellFormed t')
    (h : storedStem t = storedStem t') : t = t' := by
  have hc := BitTrie.isCanonical_of_placed_compact ht.placed ht.compact
  have hc' := BitTrie.isCanonical_of_placed_compact ht'.placed ht'.compact
  have hmaps : (fun s => BitTrie.lookup pathBit s t 0) = fun s => BitTrie.lookup pathBit s t' 0 := h
  rw [hmaps] at hc
  exact hc.unique hc'

/-- **When writing `EMPTY_VALUE` is deletion.**  On a reachable tree `insert` of
`EMPTY_VALUE` and `delete` give the same tree, and the same root under every hash
function, exactly when another slot of the key's stem holds a live value. -/
theorem insert_empty_eq_delete_iff (t : Node) (ht : Reachable t) (key : Bytes)
    (hkey : 2 ≤ key.length) :
    (insert t key emptyValue.val = delete t key ∧
      ∀ H t₁ t₂, insert t key emptyValue.val = .ok t₁ → delete t key = .ok t₂ →
        (rootHash H t₁).val = (rootHash H t₂).val) ↔
    HasLiveSibling t key := by
  obtain ⟨s, i, hsplit, rfl⟩ := exists_splitKey hkey
  have hs : s ≠ [] := two_le_length_joinKey_iff.mp hkey
  obtain ⟨t₁, hins, hwf₁, hread₁⟩ := insertNode_spec ht.wellFormed s i emptyValue
  obtain ⟨hwf₂, hread₂⟩ := deleteNode_spec ht.wellFormed s i
  have hinsert : insert t (joinKey s i) emptyValue.val = .ok t₁ := by
    rw [insert, dif_pos emptyValue.property, hsplit]
    exact hins
  have hdelete : delete t (joinKey s i) = .ok (deleteNode t s i 0) := by
    rw [delete, hsplit]
    rfl
  rw [hinsert, hdelete, hasLiveSibling_joinKey hs]
  constructor
  · -- equal trees store the same stem, so clearing the slot did not drop it
    rintro ⟨heq, -⟩
    cases heq
    have hstem := (hread₁ s).symm.trans (hread₂ s)
    rw [if_pos rfl, if_pos rfl] at hstem
    cases hold : storedStem t s with
    | none =>
        rw [hold] at hstem
        cases hstem
    | some vs =>
        rw [hold, Option.bind_some] at hstem
        exact (clearSlot_ne_none_iff vs i).mp (hstem ▸ Option.some_ne_none _)
  · -- the stem survives the deletion with the same slots as after the insert
    rintro ⟨j, hj, hlive⟩
    have heq : t₁ = deleteNode t s i 0 := by
      refine hwf₁.eq_of_storedStem_eq hwf₂ (funext fun s' => ?_)
      rw [hread₁, hread₂]
      by_cases hs' : s' = s
      · rw [if_pos hs', if_pos hs']
        cases hold : storedStem t s with
        | none =>
            rw [hold, Option.getD_none] at hlive
            exact absurd (getElem_emptyStem j j.isLt) hlive
        | some vs =>
            rw [hold, Option.getD_some] at hlive
            have hkeep := (clearSlot_ne_none_iff vs i).mpr ⟨j, hj, hlive⟩
            rw [Option.bind_some]
            rw [clearSlot] at hkeep ⊢
            split_ifs at hkeep ⊢ with hempty
            · exact absurd rfl hkeep
            · rfl
      · rw [if_neg hs', if_neg hs']
    refine ⟨by rw [heq], fun H a b ha hb => ?_⟩
    cases ha
    cases hb
    rw [heq]

/-- The two agree on a stem with a second live leaf. -/
theorem insert_empty_eq_delete_two_leaves :
    insert (run [.insert [0, 0] (List.replicate 32 1), .insert [0, 1] (List.replicate 32 2)])
      [0, 0] emptyValue.val =
    delete (run [.insert [0, 0] (List.replicate 32 1), .insert [0, 1] (List.replicate 32 2)])
      [0, 0] := by
  refine ((insert_empty_eq_delete_iff _ ⟨_, rfl⟩ [0, 0] (by decide)).mpr ?_).1
  refine ⟨[0, 1], rfl, by decide, rfl, ⟨List.replicate 32 2, rfl⟩, ?_, ?_⟩
  · rw [get_run_eq_finalMap _ (by decide)]
    simp [finalMap, TreeOp.update]
  · simp [emptyValue, BytesN.zero, zeroBytes]

/-- They differ on the empty tree: `insert` stores an all-empty stem. -/
theorem insert_empty_ne_delete_emptyNode :
    insert emptyNode [0, 0] emptyValue.val ≠ delete emptyNode [0, 0] := by
  intro h
  cases h

/-! ## Runs of inserts -/

/-- The inserts of a list of leaves, in order. -/
def insertOps (ws : List (Bytes × Value)) : List TreeOp := ws.map fun w => .insert w.1 w.2.val

theorem insertOps_concat (ws : List (Bytes × Value)) (w : Bytes × Value) :
    insertOps (ws ++ [w]) = insertOps ws ++ [.insert w.1 w.2.val] := List.map_append

/-- The final map of a run of inserts: the last one of a key counts. -/
theorem finalMap_insertOps {ws : List (Bytes × Value)} (h : ∀ w ∈ ws, 2 ≤ w.1.length)
    (key : Bytes) : finalMap (insertOps ws) key = (lastWrite ws key).getD emptyValue := by
  induction ws using List.reverseRecOn with
  | nil => rfl
  | append_singleton ws w ih =>
      have hw : 2 ≤ w.1.length := h w (List.mem_append_right _ List.mem_cons_self)
      rw [insertOps_concat, finalMap_concat, TreeOp.update, dif_pos ⟨hw, w.2.property⟩,
        Function.update_apply, ih fun w' hw' => h w' (List.mem_append_left _ hw'),
        lastWrite_concat]
      by_cases hkey : key = w.1
      · rw [if_pos hkey, if_pos hkey.symm]
        rfl
      · rw [if_neg hkey, if_neg (Ne.symm hkey)]

/-- A run of inserts stores the stems of the keys that were written. -/
theorem storedStem_run_insertOps {ws : List (Bytes × Value)} (h : ∀ w ∈ ws, 2 ≤ w.1.length)
    (s : Bytes) :
    storedStem (run (insertOps ws)) s = none ↔ ∀ i, lastWrite ws (joinKey s i) = none := by
  induction ws using List.reverseRecOn with
  | nil => simp [insertOps, storedStem, BitTrie.lookup]
  | append_singleton ws w ih =>
      obtain ⟨key, v⟩ := w
      have hw : 2 ≤ key.length := h (key, v) (List.mem_append_right _ List.mem_cons_self)
      obtain ⟨s₀, i₀, -, rfl⟩ := exists_splitKey hw
      obtain ⟨t', hins, -, hread⟩ := insertNode_spec (wellFormed_run (insertOps ws)) s₀ i₀ v
      have hok : (TreeOp.insert (joinKey s₀ i₀) v.val).apply (run (insertOps ws)) = .ok t' := by
        rw [apply_insert_joinKey (two_le_length_joinKey_iff.mp hw), hins]
      rw [insertOps_concat, run_concat, step_of_ok hok, hread]
      by_cases hs : s = s₀
      · rw [if_pos hs]
        refine iff_of_false (Option.some_ne_none _) fun hnone => ?_
        have hlast := hnone i₀
        rw [hs, lastWrite_concat, if_pos rfl] at hlast
        cases hlast
      · have hne : ∀ i, joinKey s₀ i₀ ≠ joinKey s i := fun i heq => hs (joinKey_inj.mp heq).1.symm
        simp only [if_neg hs, lastWrite_concat, if_neg (hne _)]
        exact ih fun w' hw' => h w' (List.mem_append_left _ hw')

/-- **The last writes decide the tree** of a run of inserts, `EMPTY_VALUE` among them. -/
theorem run_insertOps_eq {ws ws' : List (Bytes × Value)} (h : ∀ w ∈ ws, 2 ≤ w.1.length)
    (h' : ∀ w ∈ ws', 2 ≤ w.1.length) (heq : lastWrite ws = lastWrite ws') :
    run (insertOps ws) = run (insertOps ws') := by
  refine (wellFormed_run _).eq_of_storedStem_eq (wellFormed_run _) ?_
  funext s
  have hslots : (storedStem (run (insertOps ws)) s).getD emptyStem =
      (storedStem (run (insertOps ws')) s).getD emptyStem := by
    refine stemValues_ext fun i => ?_
    rw [getElem_storedStem_run, getElem_storedStem_run, finalMap_insertOps h,
      finalMap_insertOps h', heq]
  have hnone : storedStem (run (insertOps ws)) s = none ↔
      storedStem (run (insertOps ws')) s = none := by
    rw [storedStem_run_insertOps h, storedStem_run_insertOps h', heq]
  cases hstem : storedStem (run (insertOps ws)) s with
  | none => exact (hnone.mp hstem).symm
  | some vs =>
      cases hstem' : storedStem (run (insertOps ws')) s with
      | none =>
          rw [hnone.mpr hstem'] at hstem
          cases hstem
      | some vs' =>
          rw [hstem, hstem'] at hslots
          exact congrArg some hslots

/-! ## Which trees are reached -/

/-- The writes of all slots of a stem. -/
def slotWrites (p : Bytes × StemValues) : List (Bytes × Value) :=
  (List.finRange stemSubtreeWidth).map fun i => (joinKey p.1 i, getElem p.2 i i.isLt)

theorem lastWrite_slotWrites (p : Bytes × StemValues) (s : Bytes) (i : Fin stemSubtreeWidth) :
    lastWrite (slotWrites p) (joinKey s i) = if p.1 = s then some (getElem p.2 i i.isLt) else none := by
  split_ifs with hs
  · have hnodup : ((slotWrites p).map Prod.fst).Nodup := by
      rw [slotWrites, List.map_map]
      exact (List.nodup_finRange _).map fun i j hij => (joinKey_inj.mp hij).2
    refine lastWrite_of_mem hnodup (List.mem_map.mpr ⟨i, List.mem_finRange i, ?_⟩)
    rw [hs]
  · rw [lastWrite_eq_none_iff, slotWrites, List.map_map]
    rintro hmem
    obtain ⟨j, -, hj⟩ := List.mem_map.mp hmem
    exact hs (joinKey_inj.mp hj).1

/-- **Every well-formed tree is reached**, if no prefix is empty: insert all slots of its stems. -/
theorem WellFormed.reachable {t : Node} (ht : WellFormed t) (hne : ∀ p ∈ t.leaves, p.1 ≠ []) :
    Reachable t := by
  have happart : t.leaves.Pairwise (WriteApart slotWrites) := by
    refine (List.pairwise_map.mp ht.placed.nodup_keys).imp fun {p q} hpq => ?_
    intro key hp hq
    obtain ⟨_, hx, rfl⟩ := List.mem_map.mp hp
    obtain ⟨i, -, rfl⟩ := List.mem_map.mp hx
    obtain ⟨_, hy, heq⟩ := List.mem_map.mp hq
    obtain ⟨j, -, rfl⟩ := List.mem_map.mp hy
    exact hpq (joinKey_inj.mp heq).1.symm
  have hlen : ∀ w ∈ t.leaves.flatMap slotWrites, 2 ≤ w.1.length := by
    intro w hw
    obtain ⟨p, hp, hw⟩ := List.mem_flatMap.mp hw
    obtain ⟨i, -, rfl⟩ := List.mem_map.mp hw
    exact two_le_length_joinKey_iff.mpr (hne p hp)
  -- a slot reads as it was written
  have hread : ∀ s i v, lastWrite (t.leaves.flatMap slotWrites) (joinKey s i) = some v ↔
      ∃ vs, storedStem t s = some vs ∧ getElem vs i i.isLt = v := by
    intro s i v
    rw [lastWrite_flatMap happart]
    constructor
    · rintro ⟨p, hp, hlast⟩
      rw [lastWrite_slotWrites] at hlast
      split_ifs at hlast with hs
      exact ⟨p.2, ht.storedStem_eq_some_iff.mpr (hs ▸ hp), Option.some.inj hlast⟩
    · rintro ⟨vs, hstem, rfl⟩
      refine ⟨(s, vs), ht.storedStem_eq_some_iff.mp hstem, ?_⟩
      rw [lastWrite_slotWrites, if_pos rfl]
  refine ⟨insertOps (t.leaves.flatMap slotWrites),
    ht.eq_of_storedStem_eq (wellFormed_run _) (funext fun s => ?_)⟩
  cases hstem : storedStem t s with
  | none =>
      symm
      rw [storedStem_run_insertOps hlen]
      intro i
      refine Option.eq_none_iff_forall_ne_some.mpr fun v hv => ?_
      obtain ⟨vs, hvs, -⟩ := (hread s i v).mp hv
      rw [hstem] at hvs
      cases hvs
  | some vs =>
      have hslot : ∀ i, lastWrite (t.leaves.flatMap slotWrites) (joinKey s i) =
          some (getElem vs i i.isLt) := fun i => (hread s i _).mpr ⟨vs, hstem, rfl⟩
      cases hrun : storedStem (run (insertOps (t.leaves.flatMap slotWrites))) s with
      | none =>
          have hnone := (storedStem_run_insertOps hlen s).mp hrun 0
          rw [hslot 0] at hnone
          cases hnone
      | some vs' =>
          refine congrArg some (stemValues_ext fun i => ?_)
          have hmap := getElem_storedStem_run (insertOps (t.leaves.flatMap slotWrites)) s i
          rw [hrun, finalMap_insertOps hlen, hslot i] at hmap
          exact hmap.symm

end Pbt
