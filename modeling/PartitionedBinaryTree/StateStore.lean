/-
# The tree as the state of accounts (`pbt/tree.py`, `pbt/embedding.py`, `pbt/metadata.py`)

A client that keeps accounts in the tree derives the key of an item (basic data, code hash, code
chunk, storage slot, metadata entry) and inserts or deletes there.  What it has in mind is a map
from accounts and items to leaves.

The tree refines that map (`stateStore_refines`): after any sequence of such changes, of which
some may raise, each item reads back as the map has it, unless two strings hashed for the keys
collide; a change that raises leaves both as they are.
-/
import PartitionedBinaryTree.StateItems
import PartitionedBinaryTree.TreeRuns

namespace Pbt

/-! ## Changes of items -/

/-- A change of the leaf of an item: `insert` or `delete` at its key. -/
inductive ItemChange
  | write (address : Address32) (item : StateItem) (value : Bytes)
  | clear (address : Address32) (item : StateItem)
  deriving DecidableEq

namespace ItemChange

/-- The account of a change. -/
def address : ItemChange → Address32
  | write address _ _ => address
  | clear address _ => address

/-- The item of a change. -/
def item : ItemChange → StateItem
  | write _ item _ => item
  | clear _ item => item

/-- The key of a change. -/
def key (H : HashFunction) (layout : MetadataLayout) (change : ItemChange) : HashPy Bytes :=
  change.item.key H layout change.address.val

/-- The call on the tree, at a key. -/
def treeOp (change : ItemChange) (key : Bytes) : TreeOp :=
  match change with
  | write _ _ value => .insert key value
  | clear _ _ => .delete key

/-- The change of a tree: derive the key, then insert or delete. -/
def apply (H : HashFunction) (layout : MetadataLayout) (root : Node) (change : ItemChange) :
    HashPy Node := do
  let key ← change.key H layout
  HashPy.ofPy ((change.treeOp key).apply root)

/-- The same by a client that keeps its root when the change raises. -/
def step (H : HashFunction) (layout : MetadataLayout) (root : Node) (change : ItemChange) : Node :=
  match (change.apply H layout root).outcome with
  | .ok root' => root'
  | .error _ => root

/-- The account and the item of a change. -/
def place (change : ItemChange) : Address32 × StateItem := (change.address, change.item)

/-- The leaf that a change leaves, when its value has 32 bytes. -/
def leaf : ItemChange → Option Value
  | write _ _ value => if h : value.length = 32 then some ⟨value, h⟩ else none
  | clear _ _ => some emptyValue

/-- The changes that do not raise: the item has a key, and a value has 32 bytes. -/
def Valid (layout : MetadataLayout) (change : ItemChange) : Prop :=
  change.item.HasKey layout ∧ change.leaf.isSome

end ItemChange

/-- A sequence of changes of an empty tree. -/
def runChanges (H : HashFunction) (layout : MetadataLayout) (changes : List ItemChange) : Node :=
  changes.foldl (ItemChange.step H layout) .emptyNode

/-- The strings that are hashed for the keys of some changes. -/
def hashedByChanges (H : HashFunction) (layout : MetadataLayout) (changes : List ItemChange) :
    List Bytes :=
  changes.flatMap fun change => (change.key H layout).run.queries

/-! ## The map in mind -/

instance (layout : MetadataLayout) : Decidable layout.Accepted :=
  decidable_of_iff _ validateMetadataLayout_eq_ok_iff

instance (layout : MetadataLayout) : (item : StateItem) → Decidable (item.HasKey layout)
  | .basicData => isTrue trivial
  | .codeHash => isTrue trivial
  | .codeChunk chunkId =>
      inferInstanceAs (Decidable (0 ≤ chunkId ∧ (chunkId - 16) / 256 < 256 ^ 32))
  | .storageSlot storageKey =>
      inferInstanceAs (Decidable (0 ≤ storageKey ∧ (storageKey - 4) / 256 < 256 ^ 32))
  | .metadata _ => inferInstanceAs (Decidable layout.Accepted)

/-- What each item of each account holds; `EMPTY_VALUE` when nothing. -/
abbrev AccountState := Address32 × StateItem → Value

/-- The effect of a change on the map; one that raises has none. -/
def ItemChange.effect (layout : MetadataLayout) (change : ItemChange) (state : AccountState) :
    AccountState :=
  if change.item.HasKey layout then
    change.leaf.elim state fun leaf => Function.update state change.place leaf
  else state

/-- Another item is not touched. -/
theorem ItemChange.effect_of_ne {layout : MetadataLayout} {change : ItemChange}
    {state : AccountState} {place : Address32 × StateItem} (h : place ≠ change.place) :
    change.effect layout state place = state place := by
  unfold effect
  split_ifs
  · cases change.leaf with
    | none => rfl
    | some leaf => exact Function.update_of_ne h _ _
  · rfl

/-- The item of a change that does not raise holds its leaf. -/
theorem ItemChange.effect_place {layout : MetadataLayout} {change : ItemChange}
    {state : AccountState} {leaf : Value} (h : change.item.HasKey layout)
    (hleaf : change.leaf = some leaf) : change.effect layout state change.place = leaf := by
  rw [effect, if_pos h, hleaf]
  exact Function.update_self _ _ _

/-- The map after a sequence of changes. -/
def finalState (layout : MetadataLayout) (changes : List ItemChange) : AccountState :=
  changes.foldl (fun state change => change.effect layout state) fun _ => emptyValue

@[simp] theorem finalState_nil (layout : MetadataLayout) (place : Address32 × StateItem) :
    finalState layout [] place = emptyValue := rfl

theorem finalState_concat (layout : MetadataLayout) (changes : List ItemChange)
    (change : ItemChange) :
    finalState layout (changes ++ [change]) = change.effect layout (finalState layout changes) := by
  rw [finalState, List.foldl_concat, ← finalState]

/-- Changes of other items leave an item. -/
theorem finalState_append_of_ne {layout : MetadataLayout} (changes : List ItemChange)
    {later : List ItemChange} {place : Address32 × StateItem}
    (h : ∀ change ∈ later, change.place ≠ place) :
    finalState layout (changes ++ later) place = finalState layout changes place := by
  induction later using List.reverseRecOn with
  | nil => rw [List.append_nil]
  | append_singleton later change ih =>
      have hchange := h change (List.mem_append_right _ (List.mem_singleton_self _))
      rw [← List.append_assoc, finalState_concat,
        ItemChange.effect_of_ne (Ne.symm hchange),
        ih fun change hmem => h change (List.mem_append_left _ hmem)]

/-- Changes of different items leave each item its leaf. -/
theorem finalState_of_mem {layout : MetadataLayout} (before : List ItemChange)
    {changes : List ItemChange} (hnodup : (changes.map ItemChange.place).Nodup)
    {change : ItemChange} (hmem : change ∈ changes) (hkey : change.item.HasKey layout)
    {leaf : Value} (hleaf : change.leaf = some leaf) :
    finalState layout (before ++ changes) change.place = leaf := by
  obtain ⟨earlier, later, rfl⟩ := List.append_of_mem hmem
  have hlater : ∀ change' ∈ later, change'.place ≠ change.place := by
    intro change' hmem' heq
    rw [List.map_append, List.map_cons] at hnodup
    have hnotin := (List.nodup_cons.mp (List.nodup_append.mp hnodup).2.1).1
    exact hnotin (heq ▸ List.mem_map_of_mem hmem')
  rw [List.append_cons, ← List.append_assoc, finalState_append_of_ne _ hlater,
    ← List.append_assoc, finalState_concat]
  exact ItemChange.effect_place hkey hleaf

/-! ## Keys of items -/

variable {H : HashFunction} {layout : MetadataLayout}

/-- The four keys of an accepted layout. -/
theorem exists_metadataKeysForAddress (hlayout : layout.Accepted) (address : Bytes) :
    ∃ keys, (metadataKeysForAddress H address layout).Returns keys [address] := by
  have hkey : ∀ f, ∃ key,
      getTreeKey headerSubtree (H address).val (layout.subindex f) = .ok key := by
    intro f
    have hfree := hlayout.free f
    exact ⟨_, getTreeKey_eq_ok_iff.mpr ⟨by decide, ⟨by omega, by omega⟩, rfl⟩⟩
  obtain ⟨expiryEpoch, hexpiry⟩ := hkey .expiryEpoch
  obtain ⟨hotCold, hhot⟩ := hkey .hotCold
  obtain ⟨archivalTier, htier⟩ := hkey .archivalTier
  obtain ⟨flags, hflags⟩ := hkey .flags
  refine ⟨⟨expiryEpoch, hotCold, archivalTier, flags⟩, ?_⟩
  simp only [metadataKeysForAddress, HashPy.returns_ofPy_bind_iff,
    HashPy.returns_ofHash_bind_iff, HashPy.returns_pure_iff]
  exact ⟨_, validateMetadataLayout_eq_ok_iff.mpr hlayout, [], ⟨_, hexpiry, _, hhot, _, htier, _,
    hflags, rfl, rfl⟩, rfl⟩

/-- **An item has a key** exactly as `HasKey` says. -/
theorem StateItem.key_returns_iff {address key : Bytes} {item : StateItem} {qs : List Bytes} :
    (item.key H layout address).Returns key qs ↔
      item.HasKey layout ∧ key = (item.hashedKey layout address).bytes H ∧
        qs = (item.hashedKey layout address).preimages := by
  refine ⟨StateItem.key_returns, ?_⟩
  cases item with
  | basicData => exact fun h => getTreeKeyForBasicData_returns_iff.mpr h.2
  | codeHash => exact fun h => getTreeKeyForCodeHash_returns_iff.mpr h.2
  | codeChunk chunkId =>
      exact fun h => getTreeKeyForCodeChunk_returns_iff.mpr ⟨h.1.1, h.1.2, h.2⟩
  | storageSlot storageKey =>
      exact fun h => getTreeKeyForStorageSlot_returns_iff.mpr ⟨h.1.1, h.1.2, h.2⟩
  | metadata field =>
      rintro ⟨hlayout, rfl, rfl⟩
      obtain ⟨keys, hkeys⟩ := exists_metadataKeysForAddress (H := H) hlayout address
      have hget := (metadataKeysForAddress_returns hkeys).2.2 field
      exact HashPy.returns_bind_pure_iff.mpr ⟨keys, hkeys, hget⟩

/-! ## One change -/

namespace ItemChange

variable {change : ItemChange}

/-- The parts of the key of a change. -/
def hashedKey (layout : MetadataLayout) (change : ItemChange) : HashedKey :=
  change.item.hashedKey layout change.address.val

/-- A change with a key does to the tree what the call at that key does. -/
theorem outcome_apply_of_hasKey (h : change.item.HasKey layout) (root : Node) :
    (change.apply H layout root).outcome =
      (change.treeOp ((change.hashedKey layout).bytes H)).apply root := by
  have hkey : (change.key H layout).outcome = .ok ((change.hashedKey layout).bytes H) :=
    HashPy.outcome_eq_ok_iff.mpr ⟨_, StateItem.key_returns_iff.mpr ⟨h, rfl, rfl⟩⟩
  rw [apply, HashPy.outcome_bind, hkey]
  rfl

/-- A change without a key raises. -/
theorem outcome_apply_of_not_hasKey (h : ¬ change.item.HasKey layout) (root : Node) :
    ∃ e, (change.apply H layout root).outcome = .error e := by
  cases hkey : (change.key H layout).outcome with
  | error e =>
      refine ⟨e, ?_⟩
      rw [apply, HashPy.outcome_bind, hkey]
      rfl
  | ok key =>
      obtain ⟨qs, hreturns⟩ := HashPy.outcome_eq_ok_iff.mp hkey
      exact absurd (StateItem.key_returns hreturns).1 h

/-- A change with a key does what the call at that key does, another one leaves the tree. -/
theorem step_eq (H : HashFunction) (layout : MetadataLayout) (root : Node) (change : ItemChange) :
    change.step H layout root =
      if change.item.HasKey layout then
        Pbt.step root (change.treeOp ((change.hashedKey layout).bytes H))
      else root := by
  unfold step Pbt.step
  split_ifs with h
  · cases hcall : (change.treeOp ((change.hashedKey layout).bytes H)).apply root with
    | error e => rw [outcome_apply_of_hasKey h, hcall]
    | ok root' => rw [outcome_apply_of_hasKey h, hcall]
  · obtain ⟨e, he⟩ := outcome_apply_of_not_hasKey (H := H) h root
    rw [he]

/-- The call at a key is within its contract when the change leaves a leaf. -/
theorem valid_treeOp_iff {key : Bytes} (hkey : 2 ≤ key.length) :
    (change.treeOp key).Valid ↔ change.leaf.isSome := by
  cases change with
  | write address item value =>
      rw [leaf]
      split_ifs with hvalue
      · exact iff_of_true ⟨hkey, hvalue⟩ rfl
      · exact iff_of_false (fun h => hvalue h.2) Bool.false_ne_true
  | clear address item => exact iff_of_true hkey rfl

/-- What the call at a key does to a map from keys. -/
theorem update_treeOp {key : Bytes} (hkey : 2 ≤ key.length) (m : KeyMap) :
    (change.treeOp key).update m = change.leaf.elim m fun leaf => Function.update m key leaf := by
  cases change with
  | write address item value =>
      show dite _ _ _ = _
      by_cases hvalue : value.length = 32
      · rw [dif_pos ⟨hkey, hvalue⟩, leaf, dif_pos hvalue]
        rfl
      · rw [dif_neg fun h => hvalue h.2, leaf, dif_neg hvalue]
        rfl
  | clear address item => exact if_pos hkey

/-- **A change raises** exactly when it is outside the contract. -/
theorem apply_isError_iff {root : Node} (hroot : WellFormed root) :
    (∃ e, (change.apply H layout root).outcome = .error e) ↔ ¬ change.Valid layout := by
  by_cases h : change.item.HasKey layout
  · rw [outcome_apply_of_hasKey h, Pbt.apply_isError_iff hroot,
      valid_treeOp_iff (HashedKey.two_le_length_bytes H _), Valid, and_iff_right h]
  · exact iff_of_true (outcome_apply_of_not_hasKey h root) fun hvalid => h hvalid.1

end ItemChange

/-- The calls on the tree that the changes come to. -/
def treeCalls (H : HashFunction) (layout : MetadataLayout) (changes : List ItemChange) :
    List TreeOp :=
  (changes.filter fun change => change.item.HasKey layout).map fun change =>
    change.treeOp ((change.hashedKey layout).bytes H)

theorem treeCalls_concat (changes : List ItemChange) (change : ItemChange) :
    treeCalls H layout (changes ++ [change]) =
      treeCalls H layout changes ++
        if change.item.HasKey layout then [change.treeOp ((change.hashedKey layout).bytes H)]
        else [] := by
  unfold treeCalls
  rw [List.filter_append, List.map_append]
  congr 1
  split_ifs with h
  · rw [List.filter_cons_of_pos (by simpa using h)]
    rfl
  · rw [List.filter_cons_of_neg (by simpa using h)]
    rfl

/-- **A run of changes** is a run of calls. -/
theorem runChanges_eq_run (changes : List ItemChange) :
    runChanges H layout changes = run (treeCalls H layout changes) := by
  induction changes using List.reverseRecOn with
  | nil => rfl
  | append_singleton changes change ih =>
      rw [runChanges, List.foldl_concat, ← runChanges, ItemChange.step_eq, ih, treeCalls_concat]
      split_ifs with h
      · rw [run_concat]
      · rw [List.append_nil]

/-! ## The refinement -/

/-- **The map of the calls is the map in mind**, at the key of an item, or keys collide.  The
induction is on the run from its end: a change with the key of the item is about the item. -/
theorem finalMap_eq_or_collision (changes : List ItemChange) {address : Address32}
    {item : StateItem} (hitem : item.HasKey layout) :
    finalMap (treeCalls H layout changes) ((item.hashedKey layout address.val).bytes H) =
        finalState layout changes (address, item) ∨
      Collision H (hashedByChanges H layout changes ++
        (item.hashedKey layout address.val).preimages) := by
  induction changes using List.reverseRecOn with
  | nil => exact Or.inl rfl
  | append_singleton changes change ih =>
      have hhashed : hashedByChanges H layout (changes ++ [change]) =
          hashedByChanges H layout changes ++ (change.key H layout).run.queries := by
        simp [hashedByChanges]
      rw [treeCalls_concat, finalState_concat, hhashed]
      rcases ih with ih | hcol
      · by_cases h : change.item.HasKey layout
        · rw [if_pos h, finalMap_concat, ItemChange.effect, if_pos h,
            ItemChange.update_treeOp (HashedKey.two_le_length_bytes H _)]
          have hqueries : (change.key H layout).run.queries =
              (change.hashedKey layout).preimages := by
            have hreturns : (change.key H layout).Returns _ _ :=
              StateItem.key_returns_iff.mpr ⟨h, rfl, rfl⟩
            exact congrArg Logged.queries hreturns
          rw [hqueries]
          cases hleaf : change.leaf with
          | none => exact Or.inl ih
          | some leaf =>
              rw [Option.elim_some, Option.elim_some, Function.update_apply,
                Function.update_apply, ih]
              by_cases hkey : (item.hashedKey layout address.val).bytes H =
                  (change.hashedKey layout).bytes H
              · -- one key: the item of the change, unless preimages collide
                rcases HashedKey.bytes_inj (by decide) (List.subset_append_right _ _)
                  (List.subset_append_of_subset_left _ (List.subset_append_right _ _)) hkey
                  with hparts | hcol
                · obtain ⟨haddress, hitemEq⟩ := StateItem.hashedKey_inj hitem h hparts
                  rw [if_pos hkey, if_pos (Prod.ext haddress hitemEq)]
                  exact Or.inl rfl
                · exact Or.inr hcol
              · have hplace : ((address, item) : Address32 × StateItem) ≠ change.place := by
                  rintro hplace
                  obtain ⟨rfl, rfl⟩ := Prod.mk.inj hplace
                  exact hkey rfl
                rw [if_neg hkey, if_neg hplace]
                exact Or.inl rfl
        · rw [if_neg h, List.append_nil, ItemChange.effect, if_neg h]
          exact Or.inl ih
      · exact Or.inr (hcol.mono_append (List.subset_append_left _ _) (List.Subset.refl _))

/-- **The tree refines the map of accounts and items.** -/
theorem stateStore_refines (H : HashFunction) (layout : MetadataLayout)
    (changes : List ItemChange) :
    (∀ (address : Address32) (item : StateItem) (key : Bytes) (qs : List Bytes),
      (item.key H layout address.val).Returns key qs →
        get (runChanges H layout changes) key = .ok (finalState layout changes (address, item)) ∨
          Collision H (hashedByChanges H layout changes ++ qs)) ∧
      ∀ change : ItemChange, ¬ change.Valid layout ↔
        ∃ e, (change.apply H layout (runChanges H layout changes)).outcome = .error e := by
  constructor
  · intro address item key qs hkey
    obtain ⟨hitem, rfl, rfl⟩ := StateItem.key_returns hkey
    rw [runChanges_eq_run, get_run_eq_finalMap _ (HashedKey.two_le_length_bytes H _)]
    rcases finalMap_eq_or_collision (H := H) changes hitem with heq | hcol
    · exact Or.inl (congrArg Except.ok heq)
    · exact Or.inr hcol
  · intro change
    rw [runChanges_eq_run]
    exact (ItemChange.apply_isError_iff (wellFormed_run _)).symm

end Pbt
