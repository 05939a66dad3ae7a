/-
# Runs of the tree: its invariant, and the map it implements

A caller threads the root that `insert` and `delete` return, and keeps the root
it has when a call raises (`step`, `run`).  Along every run

* the tree is well formed (`wellFormed_run`): each stem lies on its own path and
  no `InternalNode` has fewer than two stems below it;
* no call recurses without end: a call raises exactly when its key is shorter
  than two bytes or its value is not 32 bytes wide (`apply_isError_iff`);
* the slots read back as the map the calls describe (`getElem_storedStem_run`).

`get_run` states the refinement: the tree implements `finalMap`.
-/
import PartitionedBinaryTree.Tree
import Mathlib.Logic.Function.Basic

namespace Pbt

open Node

/-! ## Keys -/

/-- The key of a slot: the stem prefix followed by the subindex byte. -/
def joinKey (stemPrefix : Bytes) (subindex : Fin stemSubtreeWidth) : Bytes :=
  stemPrefix ++ [UInt8.ofNat subindex.val]

@[simp] theorem length_joinKey (s : Bytes) (i : Fin stemSubtreeWidth) :
    (joinKey s i).length = s.length + 1 := by simp [joinKey]

theorem dropLast_joinKey (s : Bytes) (i : Fin stemSubtreeWidth) : (joinKey s i).dropLast = s :=
  List.dropLast_concat

/-- A slot is determined by its key. -/
theorem joinKey_inj {s s' : Bytes} {i i' : Fin stemSubtreeWidth} :
    joinKey s i = joinKey s' i' ↔ s = s' ∧ i = i' := by
  constructor
  · intro h
    obtain ⟨hs, hi⟩ := List.append_inj' h rfl
    refine ⟨hs, Fin.ext ?_⟩
    have hnat := congrArg UInt8.toNat (List.cons.inj hi).1
    rwa [UInt8.toNat_ofNat_of_lt' (by exact i.isLt), UInt8.toNat_ofNat_of_lt' (by exact i'.isLt)]
      at hnat
  · rintro ⟨rfl, rfl⟩
    rfl

/-- The key of a slot is long enough to split exactly when the prefix is not empty. -/
theorem two_le_length_joinKey_iff {s : Bytes} {i : Fin stemSubtreeWidth} :
    2 ≤ (joinKey s i).length ↔ s ≠ [] := by
  rw [length_joinKey, ← List.length_pos_iff]
  omega

/-- Splitting a key gives the slot it is the key of. -/
theorem splitKey_eq_ok_iff {key s : Bytes} {i : Fin stemSubtreeWidth} :
    splitKey key = .ok (s, i) ↔ key = joinKey s i ∧ 2 ≤ key.length := by
  unfold splitKey
  rcases List.eq_nil_or_concat key with rfl | ⟨p, b, rfl⟩
  · simp [raiseValueError, joinKey]
  · rw [List.concat_eq_append, List.getLast?_concat, List.dropLast_concat]
    dsimp only
    split_ifs with hshort
    · simp only [raiseValueError, reduceCtorEq, false_iff, not_and]
      omega
    · simp only [Except.ok.injEq, Prod.mk.injEq, not_lt.mp hshort, and_true]
      constructor
      · rintro ⟨rfl, rfl⟩
        simp [joinKey]
      · intro h
        obtain ⟨hp, hb⟩ := List.append_inj' h rfl
        refine ⟨hp, Fin.ext ?_⟩
        rw [(List.cons.inj hb).1]
        exact UInt8.toNat_ofNat_of_lt' i.isLt

theorem splitKey_joinKey {s : Bytes} (hs : s ≠ []) (i : Fin stemSubtreeWidth) :
    splitKey (joinKey s i) = .ok (s, i) :=
  splitKey_eq_ok_iff.mpr ⟨rfl, two_le_length_joinKey_iff.mpr hs⟩

/-- A key of at least two bytes splits. -/
theorem exists_splitKey {key : Bytes} (h : 2 ≤ key.length) :
    ∃ s i, splitKey key = .ok (s, i) ∧ key = joinKey s i := by
  have hne : key ≠ [] := by
    rintro rfl
    simp at h
  have hkey : key = joinKey key.dropLast ⟨(key.getLast hne).toNat, (key.getLast hne).toNat_lt⟩ := by
    rw [joinKey, UInt8.ofNat_toNat, List.dropLast_append_getLast]
  exact ⟨_, _, splitKey_eq_ok_iff.mpr ⟨hkey, h⟩, hkey⟩

/-- A shorter key makes `split_key` raise `ValueError`. -/
theorem splitKey_of_short {key : Bytes} (h : key.length < 2) :
    splitKey key = raiseValueError ("Key too short: " ++ bytesRepr key) := by
  unfold splitKey
  cases key.getLast? with
  | none => rfl
  | some b => exact if_pos h

/-! ## Stems stored in a tree -/

/-- The values of the stem with the given prefix, if the tree stores it. -/
def storedStem (t : Node) (stemPrefix : Bytes) : Option StemValues :=
  BitTrie.lookup pathBit stemPrefix t 0

/-- **The invariant of reachable trees.** -/
structure WellFormed (t : Node) : Prop where
  /-- Every stem lies on the path of its own prefix. -/
  placed : BitTrie.Placed pathBit 0 t
  /-- Every `InternalNode` has at least two stems below it. -/
  compact : t.Compact

theorem wellFormed_emptyNode : WellFormed emptyNode := ⟨trivial, trivial⟩

/-- A well-formed tree stores exactly the stems that are its leaves. -/
theorem WellFormed.storedStem_eq_some_iff {t : Node} (ht : WellFormed t) {s : Bytes}
    {vs : StemValues} : storedStem t s = some vs ↔ (s, vs) ∈ t.leaves :=
  BitTrie.lookup_eq_some_iff ht.placed

/-- **Specification of `_insert`.** -/
theorem insertNode_spec {t : Node} (ht : WellFormed t) (s : Bytes) (i : Fin stemSubtreeWidth)
    (v : Value) :
    ∃ t', insertNode t s i v 0 = .ok t' ∧ WellFormed t' ∧
      ∀ s', storedStem t' s' =
        if s' = s then some (setSlot i v (storedStem t s)) else storedStem t s' := by
  obtain ⟨t', ht'⟩ := BitTrie.upsert_isSome (f := setSlot i v) pathBit_separates ht.placed
    (BitTrie.under_zero s t)
  refine ⟨t', ?_, ⟨BitTrie.placed_upsert ht.placed ht', BitTrie.compact_upsert ht.compact ht'⟩,
    BitTrie.lookup_upsert ht.placed ht'⟩
  rw [insertNode_eq_upsert, ht']
  rfl

/-- **Specification of `_delete`.** -/
theorem deleteNode_spec {t : Node} (ht : WellFormed t) (s : Bytes) (i : Fin stemSubtreeWidth) :
    WellFormed (deleteNode t s i 0) ∧
      ∀ s', storedStem (deleteNode t s i 0) s' =
        if s' = s then (storedStem t s).bind (clearSlot i) else storedStem t s' := by
  rw [deleteNode_eq_prune]
  exact ⟨⟨BitTrie.placed_prune ht.placed, BitTrie.compact_prune ht.compact⟩,
    BitTrie.lookup_prune ht.placed⟩

/-- **Specification of `get`.** -/
theorem get_joinKey {t : Node} {s : Bytes} (hs : s ≠ []) (i : Fin stemSubtreeWidth) :
    get t (joinKey s i) = .ok (getElem ((storedStem t s).getD emptyStem) i i.isLt) := by
  rw [get, splitKey_joinKey hs]
  simp only [bind, Except.bind, pure, Except.pure, getNode_eq_lookup]
  rfl

/-- `get` raises on a short key. -/
theorem get_of_short {t : Node} {key : Bytes} (h : key.length < 2) :
    get t key = raiseValueError ("Key too short: " ++ bytesRepr key) := by
  rw [get, splitKey_of_short h]
  rfl

/-! ## Operations and runs -/

/-- A call on the tree. -/
inductive TreeOp
  | insert (key value : Bytes)
  | delete (key : Bytes)
  deriving DecidableEq, Repr

namespace TreeOp

/-- The call itself, on a given root. -/
def apply : TreeOp → Node → Py Node
  | insert key value, root => Pbt.insert root key value
  | delete key, root => Pbt.delete root key

/-- The calls that are within the contract: a key of at least two bytes and, for
an insert, a value of exactly 32 bytes. -/
def Valid : TreeOp → Prop
  | insert key value => 2 ≤ key.length ∧ value.length = 32
  | delete key => 2 ≤ key.length

end TreeOp

/-- One call by a caller that keeps its root when the call raises. -/
def step (root : Node) (op : TreeOp) : Node :=
  match op.apply root with
  | .ok root' => root'
  | .error _ => root

/-- A sequence of calls, starting from `EmptyNode()`. -/
def run (ops : List TreeOp) : Node := ops.foldl step emptyNode

@[simp] theorem run_nil : run [] = emptyNode := rfl

@[simp] theorem run_concat (ops : List TreeOp) (op : TreeOp) :
    run (ops ++ [op]) = step (run ops) op := by
  rw [run, List.foldl_concat, ← run]

/-- An insert within the contract is `_insert` at a slot. -/
theorem apply_insert_joinKey {s : Bytes} (hs : s ≠ []) (i : Fin stemSubtreeWidth) (v : Value)
    (t : Node) : (TreeOp.insert (joinKey s i) v.val).apply t = insertNode t s i v 0 := by
  rw [TreeOp.apply, insert, dif_pos v.property, splitKey_joinKey hs]
  rfl

/-- One insert makes a tree of one stem. -/
theorem run_lone {s : Bytes} (hs : s ≠ []) (i : Fin stemSubtreeWidth) (v : Value) :
    run [.insert (joinKey s i) v.val] = stemNode s (emptyStem.set i v i.isLt) := by
  rw [run, List.foldl_cons, List.foldl_nil, step, apply_insert_joinKey hs]
  rfl

/-- A second insert, of another stem, splits the only leaf. -/
theorem run_pair {s s' : Bytes} (hs : s ≠ []) (hs' : s' ≠ []) (hne : s ≠ s')
    (i : Fin stemSubtreeWidth) (v : Value) {t : Node}
    (hsplit : splitStems s (emptyStem.set i v i.isLt) s' i v (splitFuel s s' 0) 0 = .ok t) :
    run [.insert (joinKey s i) v.val, .insert (joinKey s' i) v.val] = t := by
  have hinsert : insertNode (stemNode s (emptyStem.set i v)) s' i v 0 = .ok t := by
    rw [insertNode, if_neg hne]
    exact hsplit
  have hrun := run_concat [.insert (joinKey s i) v.val] (.insert (joinKey s' i) v.val)
  rw [run_lone hs, step, apply_insert_joinKey hs', hinsert] at hrun
  exact hrun

/-- The trees that some sequence of calls produces. -/
def Reachable (t : Node) : Prop := ∃ ops, t = run ops

/-! ## The map a run describes -/

/-- What the calls should leave at each key. -/
abbrev KeyMap := Bytes → Value

/-- The effect of one call on the map; calls outside the contract have none. -/
def TreeOp.update : TreeOp → KeyMap → KeyMap
  | insert key value, m =>
      if h : 2 ≤ key.length ∧ value.length = 32 then Function.update m key ⟨value, h.2⟩ else m
  | delete key, m => if 2 ≤ key.length then Function.update m key emptyValue else m

/-- The final map of a run: the last insert of a key that no delete of it
follows decides, and `EMPTY_VALUE` otherwise. -/
def finalMap (ops : List TreeOp) : KeyMap := ops.foldl (fun m op => op.update m) fun _ => emptyValue

@[simp] theorem finalMap_nil (key : Bytes) : finalMap [] key = emptyValue := rfl

@[simp] theorem finalMap_concat (ops : List TreeOp) (op : TreeOp) :
    finalMap (ops ++ [op]) = op.update (finalMap ops) := by
  rw [finalMap, List.foldl_concat, ← finalMap]

/-! ## What one call can do -/

/-- **One call on a well-formed tree.**  It raises `ValueError` and is outside the
contract, or it writes one slot, or it clears one slot. -/
theorem apply_cases {t : Node} (ht : WellFormed t) (op : TreeOp) :
    (¬ op.Valid ∧ ∃ message, op.apply t = raiseValueError message) ∨
    (∃ s i v t', s ≠ [] ∧ op = .insert (joinKey s i) v.val ∧ op.apply t = .ok t' ∧
      WellFormed t' ∧ ∀ s', storedStem t' s' =
        if s' = s then some (setSlot i v (storedStem t s)) else storedStem t s') ∨
    (∃ s i t', s ≠ [] ∧ op = .delete (joinKey s i) ∧ op.apply t = .ok t' ∧
      WellFormed t' ∧ ∀ s', storedStem t' s' =
        if s' = s then (storedStem t s).bind (clearSlot i) else storedStem t s') := by
  cases op with
  | insert key value =>
      by_cases hv : value.length = 32
      · by_cases hk : 2 ≤ key.length
        · obtain ⟨s, i, hsplit, rfl⟩ := exists_splitKey hk
          obtain ⟨t', hins, hwf, hread⟩ := insertNode_spec ht s i ⟨value, hv⟩
          refine Or.inr (Or.inl ⟨s, i, ⟨value, hv⟩, t', two_le_length_joinKey_iff.mp hk, rfl, ?_,
            hwf, hread⟩)
          rw [TreeOp.apply, insert, dif_pos hv, hsplit]
          exact hins
        · refine Or.inl ⟨fun h => hk h.1, "Key too short: " ++ bytesRepr key, ?_⟩
          rw [TreeOp.apply, insert, dif_pos hv, splitKey_of_short (not_le.mp hk)]
          rfl
      · refine Or.inl ⟨fun h => hv h.2, "value must be exactly 32 bytes", ?_⟩
        rw [TreeOp.apply, insert, dif_neg hv]
  | delete key =>
      by_cases hk : 2 ≤ key.length
      · obtain ⟨s, i, hsplit, rfl⟩ := exists_splitKey hk
        obtain ⟨hwf, hread⟩ := deleteNode_spec ht s i
        refine Or.inr (Or.inr ⟨s, i, _, two_le_length_joinKey_iff.mp hk, rfl, ?_, hwf, hread⟩)
        rw [TreeOp.apply, delete, hsplit]
        rfl
      · refine Or.inl ⟨hk, "Key too short: " ++ bytesRepr key, ?_⟩
        rw [TreeOp.apply, delete, splitKey_of_short (not_le.mp hk)]
        rfl

/-- A call raises exactly when it is outside the contract. -/
theorem apply_isError_iff {t : Node} (ht : WellFormed t) (op : TreeOp) :
    (∃ e, op.apply t = .error e) ↔ ¬ op.Valid := by
  obtain ⟨hinvalid, message, herr⟩ | ⟨s, i, v, t', hs, rfl, hok, -⟩ | ⟨s, i, t', hs, rfl, hok, -⟩ :=
    apply_cases ht op
  · exact iff_of_true ⟨_, herr⟩ hinvalid
  all_goals
    refine iff_of_false ?_ (not_not.mpr ?_)
    · rintro ⟨e, he⟩
      rw [hok] at he
      cases he
  · exact ⟨two_le_length_joinKey_iff.mpr hs, v.property⟩
  · exact two_le_length_joinKey_iff.mpr hs

/-- A call that raises leaves the tree. -/
theorem step_of_error {t : Node} {op : TreeOp} {e : PyError} (h : op.apply t = .error e) :
    step t op = t := by
  rw [step, h]

theorem step_of_ok {t t' : Node} {op : TreeOp} (h : op.apply t = .ok t') : step t op = t' := by
  rw [step, h]

/-- A call outside the contract leaves the map. -/
theorem update_of_not_valid {op : TreeOp} (h : ¬ op.Valid) (m : KeyMap) : op.update m = m := by
  cases op with
  | insert key value => exact dif_neg h
  | delete key => exact if_neg h

theorem update_insert_joinKey {s : Bytes} (hs : s ≠ []) (i : Fin stemSubtreeWidth) (v : Value)
    (m : KeyMap) (s' : Bytes) (i' : Fin stemSubtreeWidth) :
    (TreeOp.insert (joinKey s i) v.val).update m (joinKey s' i') =
      if s' = s ∧ i' = i then v else m (joinKey s' i') := by
  rw [TreeOp.update, dif_pos ⟨two_le_length_joinKey_iff.mpr hs, v.property⟩,
    Function.update_apply]
  simp only [joinKey_inj, Subtype.coe_eta]

theorem update_delete_joinKey {s : Bytes} (hs : s ≠ []) (i : Fin stemSubtreeWidth)
    (m : KeyMap) (s' : Bytes) (i' : Fin stemSubtreeWidth) :
    (TreeOp.delete (joinKey s i)).update m (joinKey s' i') =
      if s' = s ∧ i' = i then emptyValue else m (joinKey s' i') := by
  rw [TreeOp.update, if_pos (two_le_length_joinKey_iff.mpr hs), Function.update_apply]
  simp only [joinKey_inj]

/-! ## Invariants of a run -/

/-- One call keeps the tree well formed. -/
theorem wellFormed_step {t : Node} (ht : WellFormed t) (op : TreeOp) : WellFormed (step t op) := by
  obtain ⟨-, message, herr⟩ | ⟨s, i, v, t', -, -, hok, hwf, -⟩ | ⟨s, i, t', -, -, hok, hwf, -⟩ :=
    apply_cases ht op
  · rw [step_of_error herr]
    exact ht
  · rw [step_of_ok hok]
    exact hwf
  · rw [step_of_ok hok]
    exact hwf

/-- **Every run keeps the tree well formed.** -/
theorem wellFormed_run (ops : List TreeOp) : WellFormed (run ops) := by
  induction ops using List.reverseRecOn with
  | nil => exact wellFormed_emptyNode
  | append_singleton ops op ih =>
      rw [run_concat]
      exact wellFormed_step ih op

theorem Reachable.wellFormed {t : Node} (h : Reachable t) : WellFormed t := by
  obtain ⟨ops, rfl⟩ := h
  exact wellFormed_run ops

theorem getElem_setSlot (i j : Fin stemSubtreeWidth) (v : Value) (old : Option StemValues) :
    getElem (setSlot i v old) j j.isLt =
      if j = i then v else getElem (old.getD emptyStem) j j.isLt :=
  getElem_set_slot _ i j v

/-- Dropping an all-empty stem is not seen by a reader of its slots. -/
theorem getElem_clearSlot (i j : Fin stemSubtreeWidth) (old : Option StemValues) :
    getElem ((old.bind (clearSlot i)).getD emptyStem) j j.isLt =
      if j = i then emptyValue else getElem (old.getD emptyStem) j j.isLt := by
  cases old with
  | none => simp
  | some vs =>
      rw [Option.getD_some, ← getElem_set_slot]
      by_cases hempty : stemIsEmpty (vs.set i emptyValue) = true
      · have hnone : clearSlot i vs = none := if_pos hempty
        simp only [Option.bind_some, hnone, Option.getD_none]
        rw [(stemIsEmpty_iff _).mp hempty j]
        exact getElem_emptyStem j j.isLt
      · have hsome : clearSlot i vs = some (vs.set i emptyValue) := if_neg hempty
        simp only [Option.bind_some, hsome, Option.getD_some]

/-- **The slots of a run read back as its final map.** -/
theorem getElem_storedStem_run (ops : List TreeOp) (s : Bytes) (i : Fin stemSubtreeWidth) :
    getElem ((storedStem (run ops) s).getD emptyStem) i i.isLt = finalMap ops (joinKey s i) := by
  induction ops using List.reverseRecOn generalizing s i with
  | nil => simp [storedStem, BitTrie.lookup]
  | append_singleton ops op ih =>
      rw [run_concat, finalMap_concat]
      obtain ⟨hinvalid, message, herr⟩ | ⟨s₀, i₀, v, t', hs₀, rfl, hok, -, hread⟩ |
        ⟨s₀, i₀, t', hs₀, rfl, hok, -, hread⟩ := apply_cases (wellFormed_run ops) op
      · rw [step_of_error herr, update_of_not_valid hinvalid]
        exact ih s i
      · -- an insert writes one slot of the stem `s₀`, and one key of the map
        rw [step_of_ok hok, hread, update_insert_joinKey hs₀]
        by_cases hs : s = s₀
        · subst hs
          rw [if_pos rfl, Option.getD_some, getElem_setSlot, ih]
          simp only [true_and]
        · rw [if_neg hs, if_neg fun h => hs h.1]
          exact ih s i
      · -- a delete clears the slot, and may drop the stem with it
        rw [step_of_ok hok, hread, update_delete_joinKey hs₀]
        by_cases hs : s = s₀
        · subst hs
          rw [if_pos rfl, getElem_clearSlot, ih]
          simp only [true_and]
        · rw [if_neg hs, if_neg fun h => hs h.1]
          exact ih s i

/-- `get` on a run returns the final map's value. -/
theorem get_run_eq_finalMap (ops : List TreeOp) {key : Bytes} (hkey : 2 ≤ key.length) :
    get (run ops) key = .ok (finalMap ops key) := by
  obtain ⟨s, i, -, rfl⟩ := exists_splitKey hkey
  rw [get_joinKey (two_le_length_joinKey_iff.mp hkey), getElem_storedStem_run]

/-- **The tree refines a map.**  After any sequence of calls, `get` returns the
final map's value at every key of at least two bytes; and the calls that raise,
which are the ones outside the contract, change neither the tree nor the map. -/
theorem get_run (ops : List TreeOp) :
    (∀ key, 2 ≤ key.length → get (run ops) key = .ok (finalMap ops key)) ∧
    (∀ op : TreeOp, (∃ e, op.apply (run ops) = .error e) ↔ ¬ op.Valid) ∧
    (∀ op : TreeOp, ¬ op.Valid →
      run (ops ++ [op]) = run ops ∧ finalMap (ops ++ [op]) = finalMap ops) := by
  refine ⟨fun key hkey => get_run_eq_finalMap ops hkey,
    apply_isError_iff (wellFormed_run ops), fun op hop => ?_⟩
  obtain ⟨e, he⟩ := (apply_isError_iff (wellFormed_run ops) op).mpr hop
  exact ⟨by rw [run_concat, step_of_error he],
    by rw [finalMap_concat, update_of_not_valid hop]⟩

end Pbt
