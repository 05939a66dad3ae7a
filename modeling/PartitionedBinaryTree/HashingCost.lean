/-
# What the caches save (`pbt/nodes.py`, `pbt/tree.py`)

`_hash_cache` and `_EMPTY_HASH_CACHE` are there so that `tree_hash` is not called
again for a node that did not change.  The calls of a session are repeated here
with `tree_hash` recording the strings it is given (`nodeHashRecorded`,
`proofPathRecorded`, `Session.stepRecorded`); they compute what the calls of
`PartitionedBinaryTree.HashCache` compute (`val_stepRecorded`).

Hashing pays for every string with a node that has no cached hash (`pending`), and
an update leaves such nodes on the path of its key only (`Invalidated`), so a run
hashes one path per update (`length_hashed_run_le`).
-/
import PartitionedBinaryTree.Lib.Credits
import PartitionedBinaryTree.ProofSoundness
import PartitionedBinaryTree.SessionRuns

namespace Pbt

/-- Code that reads and fills `_EMPTY_HASH_CACHE`, and records what it hashes. -/
abbrev RecordedHashing := StateT (Option Digest) (Logged Bytes)

variable {H : HashFunction}

namespace CachedNode

/-! ## The calls, recorded -/

/-- `_empty_hash()`, recorded. -/
def emptyHashRecorded (H : HashFunction) : RecordedHashing Digest := do
  match ← MonadState.get with
  | some hash => pure hash
  | none =>
      let hash ← treeHash H []
      set (some hash)
      pure hash

/-- `node_hash`, recorded. -/
def nodeHashRecorded (H : HashFunction) : CachedNode → RecordedHashing (Digest × CachedNode)
  | emptyNode => do
      let hash ← emptyHashRecorded H
      pure (hash, emptyNode)
  | internalNode left right (some hash) => pure (hash, internalNode left right (some hash))
  | internalNode left right none => do
      let (leftHash, left') ← nodeHashRecorded H left
      let (rightHash, right') ← nodeHashRecorded H right
      let hash ← treeHash H (leftHash.val ++ rightHash.val)
      pure (hash, internalNode left' right' (some hash))
  | stemNode stemPrefix values (some hash) => pure (hash, stemNode stemPrefix values (some hash))
  | stemNode stemPrefix values none => do
      let hash ← treeHash H (stemPayload stemPrefix (stemBytes values))
      pure (hash, stemNode stemPrefix values (some hash))

/-- The `while` loop of `get_proof`, recorded. -/
def proofPathRecorded (H : HashFunction) (stemPrefix : Bytes) :
    CachedNode → ℕ → RecordedHashing ProofWalk
  | internalNode left right hashCache, depth => do
      let bit := pathBitAt stemPrefix depth
      if bit = 0 then
        let (sibling, right') ← nodeHashRecorded H right
        let walk ← proofPathRecorded H stemPrefix left (depth + 1)
        pure ⟨sibling.val :: walk.siblings, (bit : ℤ) :: walk.bits, walk.node,
          internalNode walk.start right' hashCache⟩
      else
        let (sibling, left') ← nodeHashRecorded H left
        let walk ← proofPathRecorded H stemPrefix right (depth + 1)
        pure ⟨sibling.val :: walk.siblings, (bit : ℤ) :: walk.bits, walk.node,
          internalNode left' walk.start hashCache⟩
  | node, _ => pure ⟨[], [], node, node⟩

/-! ## Recording changes nothing else -/

theorem mirrors_emptyHash : Mirrors (emptyHashRecorded H) (emptyHash H) := by
  intro cell
  cases cell with
  | none => rfl
  | some d => rfl

theorem mirrors_nodeHash (c : CachedNode) : Mirrors (nodeHashRecorded H c) (nodeHash H c) := by
  induction c with
  | emptyNode => exact mirrors_emptyHash.bind fun _ => Mirrors.pure _
  | stemNode s vs m =>
      cases m with
      | some d => exact Mirrors.pure _
      | none => exact fun _ => rfl
  | internalNode l r m ihl ihr =>
      cases m with
      | some d => exact Mirrors.pure _
      | none =>
          unfold nodeHashRecorded nodeHash
          apply ihl.bind
          rintro ⟨dl, l'⟩
          apply ihr.bind
          rintro ⟨dr, r'⟩
          exact fun _ => rfl

theorem mirrors_proofPath (s : Bytes) (c : CachedNode) (depth : ℕ) :
    Mirrors (proofPathRecorded H s c depth) (proofPath H s c depth) := by
  induction c generalizing depth with
  | emptyNode => exact Mirrors.pure _
  | stemNode s' vs m => exact Mirrors.pure _
  | internalNode l r m ihl ihr =>
      unfold proofPathRecorded proofPath
      dsimp only
      by_cases hbit : pathBitAt s depth = 0
      · rw [if_pos hbit, if_pos hbit]
        apply (mirrors_nodeHash r).bind
        rintro ⟨d, r'⟩
        exact (ihl (depth + 1)).bind fun _ => Mirrors.pure _
      · rw [if_neg hbit, if_neg hbit]
        apply (mirrors_nodeHash l).bind
        rintro ⟨d, l'⟩
        exact (ihr (depth + 1)).bind fun _ => Mirrors.pure _

/-! ## Hashing is paid for by the nodes it caches -/

/-- The number of nodes below a node, itself included, that have no cached hash. -/
def pending : CachedNode → ℕ
  | emptyNode => 0
  | internalNode left right hashCache =>
      left.pending + right.pending + if hashCache.isNone then 1 else 0
  | stemNode _ _ hashCache => if hashCache.isNone then 1 else 0

@[simp] theorem pending_emptyNode : emptyNode.pending = 0 := rfl

@[simp] theorem pending_internalNode_none (l r : CachedNode) :
    (internalNode l r none).pending = l.pending + r.pending + 1 := rfl

@[simp] theorem pending_internalNode_some (l r : CachedNode) (d : Digest) :
    (internalNode l r (some d)).pending = l.pending + r.pending := rfl

@[simp] theorem pending_stemNode_none (s : Bytes) (vs : StemValues) :
    (stemNode s vs none).pending = 1 := rfl

@[simp] theorem pending_stemNode_some (s : Bytes) (vs : StemValues) (d : Digest) :
    (stemNode s vs (some d)).pending = 0 := rfl

/-- Under a node with nothing to hash there is nothing to hash. -/
theorem pending_children_of_eq_zero {l r : CachedNode} {m : Option Digest}
    (h : (internalNode l r m).pending = 0) : l.pending = 0 ∧ r.pending = 0 := by
  have hsum : l.pending + r.pending + (if m.isNone then 1 else 0) = 0 := h
  omega

/-- An unset `_EMPTY_HASH_CACHE` will be paid for once. -/
def cellPotential (cell : Option Digest) : ℕ := if cell.isNone then 1 else 0

theorem pays_emptyHash : Pays cellPotential 0 (emptyHashRecorded H) fun _ => 0 := by
  intro cell
  cases cell with
  | none => exact Nat.le_refl 1
  | some d => exact Nat.le_refl 0

/-- **`node_hash` pays for each string with a node that it caches.** -/
theorem pays_nodeHash (c : CachedNode) :
    Pays cellPotential c.pending (nodeHashRecorded H c) fun out => out.2.pending := by
  induction c with
  | emptyNode => exact pays_emptyHash.bind fun _ => Pays.pure (Nat.le_refl 0)
  | stemNode s vs m =>
      cases m with
      | some d => exact Pays.pure (Nat.le_refl 0)
      | none => exact (Pays.query H _ 0).bind fun _ => Pays.pure (Nat.le_refl 0)
  | internalNode l r m ihl ihr =>
      cases m with
      | some d => exact Pays.pure (Nat.le_refl _)
      | none =>
          unfold nodeHashRecorded
          rw [pending_internalNode_none, Nat.add_assoc]
          -- the right child and this node wait while the left child is hashed
          apply (ihl.frame (r.pending + 1)).bind
          rintro ⟨dl, l'⟩
          show Pays _ (l'.pending + (r.pending + 1)) _ _
          rw [show l'.pending + (r.pending + 1) = r.pending + (l'.pending + 1) by omega]
          apply (ihr.frame (l'.pending + 1)).bind
          rintro ⟨dr, r'⟩
          apply (Pays.query H _ (r'.pending + l'.pending)).bind
          intro d
          refine Pays.pure ?_
          show l'.pending + r'.pending ≤ r'.pending + l'.pending
          omega

/-- The loop of `get_proof` pays likewise. -/
theorem pays_proofPath (s : Bytes) (c : CachedNode) (depth : ℕ) :
    Pays cellPotential c.pending (proofPathRecorded H s c depth) fun walk =>
      walk.start.pending := by
  induction c generalizing depth with
  | emptyNode => exact Pays.pure (Nat.le_refl _)
  | stemNode s' vs m => exact Pays.pure (Nat.le_refl _)
  | internalNode l r m ihl ihr =>
      unfold proofPathRecorded
      dsimp only
      have hpending : ∀ a b : CachedNode, (internalNode a b m).pending =
          a.pending + (b.pending + if m.isNone then 1 else 0) := fun _ _ => Nat.add_assoc _ _ _
      rw [hpending]
      generalize (if m.isNone then 1 else 0) = own at hpending
      by_cases hbit : pathBitAt s depth = 0
      · rw [if_pos hbit,
          show l.pending + (r.pending + own) = r.pending + (l.pending + own) by omega]
        apply ((pays_nodeHash r).frame (l.pending + own)).bind
        rintro ⟨d, r'⟩
        show Pays _ (r'.pending + (l.pending + own)) _ _
        rw [show r'.pending + (l.pending + own) = l.pending + (r'.pending + own) by omega]
        apply ((ihl (depth + 1)).frame (r'.pending + own)).bind
        intro walk
        exact Pays.pure (hpending walk.start r').le
      · rw [if_neg hbit]
        apply ((pays_nodeHash l).frame (r.pending + own)).bind
        rintro ⟨d, l'⟩
        show Pays _ (l'.pending + (r.pending + own)) _ _
        rw [show l'.pending + (r.pending + own) = r.pending + (l'.pending + own) by omega]
        apply ((ihr (depth + 1)).frame (l'.pending + own)).bind
        intro walk
        refine Pays.pure ((hpending l' walk.start).le.trans ?_)
        omega

/-! ## What an update does to the caches -/

/-- The `InternalNode`s on the walk of a prefix have no cached hash, and the node where it ends
is as `last` says. -/
def Opened (last : CachedNode → Prop) (stemPrefix : Bytes) : CachedNode → ℕ → Prop
  | internalNode left right hashCache, depth =>
      hashCache = none ∧
        if pathBitAt stemPrefix depth = 0 then left.Opened last stemPrefix (depth + 1)
        else right.Opened last stemPrefix (depth + 1)
  | node, _ => last node

/-- The number of nodes beside the walk of a prefix that have no cached hash. -/
def aside (stemPrefix : Bytes) : CachedNode → ℕ → ℕ
  | internalNode left right _, depth =>
      if pathBitAt stemPrefix depth = 0 then left.aside stemPrefix (depth + 1) + right.pending
      else left.pending + right.aside stemPrefix (depth + 1)
  | _, _ => 0

/-- What an update leaves: the walk of its prefix has no cached hash down to its end, and
beside it at most `before` nodes have none. -/
structure Invalidated (last : CachedNode → Prop) (stemPrefix : Bytes) (depth before : ℕ)
    (c : CachedNode) : Prop where
  opened : c.Opened last stemPrefix depth
  aside_le : c.aside stemPrefix depth ≤ before

/-- The node was written to. -/
def Written (c : CachedNode) : Prop := c.hashCache = none

section Invalidated

variable {last : CachedNode → Prop} {s : Bytes} {depth before : ℕ}

/-- An `InternalNode` over an invalidated left child. -/
theorem Invalidated.left {l : CachedNode} (r : CachedNode)
    (h : Invalidated last s (depth + 1) before l) (hbit : pathBitAt s depth = 0) :
    Invalidated last s depth (before + r.pending) (internalNode l r none) := by
  refine ⟨⟨rfl, ?_⟩, ?_⟩
  · rw [if_pos hbit]
    exact h.opened
  · rw [aside, if_pos hbit]
    exact Nat.add_le_add_right h.aside_le _

/-- An `InternalNode` over an invalidated right child. -/
theorem Invalidated.right (l : CachedNode) {r : CachedNode}
    (h : Invalidated last s (depth + 1) before r) (hbit : pathBitAt s depth ≠ 0) :
    Invalidated last s depth (l.pending + before) (internalNode l r none) := by
  refine ⟨⟨rfl, ?_⟩, ?_⟩
  · rw [if_neg hbit]
    exact h.opened
  · rw [aside, if_neg hbit]
    exact Nat.add_le_add_left h.aside_le _

theorem Invalidated.mono {before' : ℕ} {c : CachedNode} (h : Invalidated last s depth before c)
    (hle : before ≤ before') : Invalidated last s depth before' c :=
  ⟨h.opened, h.aside_le.trans hle⟩

/-- A walk that ends at once. -/
theorem invalidated_of_not_internalNode {c : CachedNode} (h : ∀ l r m, c ≠ internalNode l r m)
    (hlast : last c) : Invalidated last s depth before c := by
  cases c with
  | internalNode l r m => exact absurd rfl (h l r m)
  | emptyNode => exact ⟨hlast, Nat.zero_le _⟩
  | stemNode s' vs m => exact ⟨hlast, Nat.zero_le _⟩

/-- A stem that was just written. -/
theorem invalidated_stemNode (before : ℕ) (s' : Bytes) (vs : StemValues) :
    Invalidated Written s depth before (stemNode s' vs none) :=
  invalidated_of_not_internalNode (fun _ _ _ h => by cases h) rfl

end Invalidated

/-- One level of `_split_stems`. -/
theorem splitStems_cases {a b : Bytes} {vs : StemValues} {m : Option Digest}
    {i : Fin stemSubtreeWidth} {v : Value} {fuel depth : ℕ} {c : CachedNode}
    (h : splitStems a vs m b i v (fuel + 1) depth = .ok c) :
    (∃ child, splitStems a vs m b i v fuel (depth + 1) = .ok child ∧
      ((pathBitAt b depth = 0 ∧ c = internalNode child emptyNode none) ∨
        (pathBitAt b depth ≠ 0 ∧ c = internalNode emptyNode child none))) ∨
    (pathBitAt b depth = 0 ∧
      c = internalNode (stemNode b (emptyStem.set i v i.isLt) none) (stemNode a vs m) none) ∨
    (pathBitAt b depth ≠ 0 ∧
      c = internalNode (stemNode a vs m) (stemNode b (emptyStem.set i v i.isLt) none) none) := by
  unfold splitStems at h
  dsimp only at h
  by_cases heq : pathBitAt a depth = pathBitAt b depth
  · rw [if_pos heq] at h
    obtain ⟨child, hchild, h⟩ := py_bind_eq_ok_iff.mp h
    rw [heq] at h
    by_cases hbit : pathBitAt b depth = 0
    · rw [if_pos hbit] at h
      cases h
      exact Or.inl ⟨child, hchild, Or.inl ⟨hbit, rfl⟩⟩
    · rw [if_neg hbit] at h
      cases h
      exact Or.inl ⟨child, hchild, Or.inr ⟨hbit, rfl⟩⟩
  · rw [if_neg heq] at h
    by_cases hbit : pathBitAt b depth = 0
    · rw [if_pos hbit] at h
      cases h
      exact Or.inr (Or.inl ⟨hbit, rfl⟩)
    · rw [if_neg hbit] at h
      cases h
      exact Or.inr (Or.inr ⟨hbit, rfl⟩)

theorem invalidated_splitStems {a b : Bytes} {vs : StemValues} {m : Option Digest}
    {i : Fin stemSubtreeWidth} {v : Value} {fuel depth : ℕ} {c : CachedNode}
    (h : splitStems a vs m b i v fuel depth = .ok c) :
    Invalidated Written b depth (stemNode a vs m).pending c := by
  induction fuel generalizing depth c with
  | zero => cases h
  | succ fuel ih =>
      rcases splitStems_cases h with ⟨child, hchild, ⟨hbit, rfl⟩ | ⟨hbit, rfl⟩⟩ |
        ⟨hbit, rfl⟩ | ⟨hbit, rfl⟩
      · exact (ih hchild).left emptyNode hbit
      · exact ((ih hchild).right emptyNode hbit).mono (Nat.zero_add _).le
      · exact ((invalidated_stemNode 0 b _).left (stemNode a vs m) hbit).mono (Nat.zero_add _).le
      · exact (invalidated_stemNode 0 b _).right (stemNode a vs m) hbit

/-- **`_insert` invalidates the walk of its prefix** and nothing beside it. -/
theorem invalidated_insertNode {c c' : CachedNode} {s : Bytes} {i : Fin stemSubtreeWidth}
    {v : Value} {depth : ℕ} (h : insertNode c s i v depth = .ok c') :
    Invalidated Written s depth c.pending c' := by
  induction c generalizing depth c' with
  | emptyNode =>
      cases h
      exact invalidated_stemNode _ s _
  | stemNode s' vs m =>
      unfold insertNode at h
      by_cases heq : s' = s
      · rw [if_pos heq] at h
        cases h
        exact invalidated_stemNode _ s' _
      · rw [if_neg heq] at h
        exact invalidated_splitStems h
  | internalNode l r m ihl ihr =>
      have hpending : l.pending + r.pending ≤ (internalNode l r m).pending := Nat.le_add_right _ _
      unfold insertNode at h
      dsimp only at h
      by_cases hbit : pathBitAt s depth = 0
      · rw [if_pos hbit] at h
        obtain ⟨l', hchild, h⟩ := py_bind_eq_ok_iff.mp h
        cases h
        exact ((ihl hchild).left r hbit).mono hpending
      · rw [if_neg hbit] at h
        obtain ⟨r', hchild, h⟩ := py_bind_eq_ok_iff.mp h
        cases h
        exact ((ihr hchild).right l hbit).mono hpending

/-- What the collapse leaves: the node, or the one child that is no `InternalNode`. -/
theorem collapseInternal_cases (l r : CachedNode) :
    collapseInternal l r = internalNode l r none ∨
    (collapseInternal l r = l ∧ ∀ a b m, l ≠ internalNode a b m) ∨
    (collapseInternal l r = r ∧ ∀ a b m, r ≠ internalNode a b m) := by
  unfold collapseInternal
  split
  · exact Or.inr (Or.inl ⟨rfl, fun _ _ _ h => by cases h⟩)
  · exact Or.inr (Or.inr ⟨rfl, fun _ _ _ h => by cases h⟩)
  · exact Or.inr (Or.inl ⟨rfl, fun _ _ _ h => by cases h⟩)
  · exact Or.inl rfl

/-- **`_delete` invalidates the walk of its prefix**, whether it finds the stem or not. -/
theorem invalidated_deleteNode (c : CachedNode) (s : Bytes) (i : Fin stemSubtreeWidth)
    (depth : ℕ) : Invalidated (fun _ => True) s depth c.pending (deleteNode c s i depth) := by
  induction c generalizing depth with
  | emptyNode => exact invalidated_of_not_internalNode (fun _ _ _ h => by cases h) trivial
  | stemNode s' vs m =>
      unfold deleteNode
      dsimp only
      split_ifs
      · exact invalidated_of_not_internalNode (fun _ _ _ h => by cases h) trivial
      · exact invalidated_of_not_internalNode (fun _ _ _ h => by cases h) trivial
      · exact invalidated_of_not_internalNode (fun _ _ _ h => by cases h) trivial
  | internalNode l r m ihl ihr =>
      have hpending : l.pending + r.pending ≤ (internalNode l r m).pending := Nat.le_add_right _ _
      unfold deleteNode
      dsimp only
      by_cases hbit : pathBitAt s depth = 0
      · rw [if_pos hbit]
        rcases collapseInternal_cases (deleteNode l s i (depth + 1)) r with
          hnode | ⟨hl, hend⟩ | ⟨hr, hend⟩
        · rw [hnode]
          exact ((ihl (depth + 1)).left r hbit).mono hpending
        · rw [hl]
          exact invalidated_of_not_internalNode hend trivial
        · rw [hr]
          exact invalidated_of_not_internalNode hend trivial
      · rw [if_neg hbit]
        rcases collapseInternal_cases l (deleteNode r s i (depth + 1)) with
          hnode | ⟨hl, hend⟩ | ⟨hr, hend⟩
        · rw [hnode]
          exact ((ihr (depth + 1)).right l hbit).mono hpending
        · rw [hl]
          exact invalidated_of_not_internalNode hend trivial
        · rw [hr]
          exact invalidated_of_not_internalNode hend trivial

/-- **`insert` invalidates the walk of its key.** -/
theorem invalidated_insert {root root' : CachedNode} {key value : Bytes}
    (h : root.insert key value = .ok root') :
    ∃ s i, splitKey key = .ok (s, i) ∧ Invalidated Written s 0 root.pending root' := by
  unfold insert at h
  split_ifs at h with hv
  · obtain ⟨slot, hsplit, hnode⟩ := py_bind_eq_ok_iff.mp h
    exact ⟨slot.1, slot.2, hsplit, invalidated_insertNode hnode⟩
  · cases h

/-- **`delete` invalidates the walk of its key.** -/
theorem invalidated_delete {root root' : CachedNode} {key : Bytes}
    (h : root.delete key = .ok root') :
    ∃ s i, splitKey key = .ok (s, i) ∧ Invalidated (fun _ => True) s 0 root.pending root' := by
  obtain ⟨slot, hsplit, hnode⟩ := py_bind_eq_ok_iff.mp h
  cases hnode
  exact ⟨slot.1, slot.2, hsplit, invalidated_deleteNode root slot.1 slot.2 0⟩

/-- The nodes of an invalidated walk, and its end, are all that an update adds. -/
theorem Invalidated.pending_le {last : CachedNode → Prop} {s : Bytes} {depth before : ℕ}
    {c : CachedNode} (h : Invalidated last s depth before c) :
    c.pending ≤ before + (BitTrie.walkLength pathBit s c.erase depth + 1) := by
  have hwalk : c.pending ≤ c.aside s depth + (BitTrie.walkLength pathBit s c.erase depth + 1) := by
    obtain ⟨hopen, -⟩ := h
    induction c generalizing depth with
    | emptyNode => exact Nat.zero_le _
    | stemNode s' vs m =>
        show (if m.isNone then 1 else 0) ≤ 0 + (0 + 1)
        split_ifs
        · exact Nat.le_refl 1
        · exact Nat.zero_le 1
    | internalNode l r m ihl ihr =>
        obtain ⟨rfl, hchild⟩ := hopen
        rw [pending_internalNode_none, aside, erase_internalNode, BitTrie.walkLength]
        by_cases hbit : pathBitAt s depth = 0
        · rw [if_pos hbit] at hchild
          rw [if_pos hbit, if_neg (by simp [pathBit, hbit])]
          have hrec := ihl hchild
          omega
        · rw [if_neg hbit] at hchild
          rw [if_neg hbit, if_pos (by simp [pathBit, hbit])]
          have hrec := ihr hchild
          omega
  exact hwalk.trans (Nat.add_le_add_right h.aside_le _)

end CachedNode

/-! ## Sessions, recorded -/

/-- The calls that change the contents. -/
def ClientCall.isUpdate : ClientCall → Bool
  | update _ => true
  | _ => false

/-- Every stem prefix of the tree has at most `n` bytes. -/
def PrefixesWithin (n : ℕ) (t : Node) : Prop := ∀ p ∈ t.leaves, p.1.length ≤ n

/-- **Depth bound** for prefixes of at most `n` bytes. -/
theorem walkLength_le_of_prefixesWithin {n : ℕ} {t : Node} (ht : WellFormed t)
    (hlen : PrefixesWithin n t) (s : Bytes) : BitTrie.walkLength pathBit s t 0 ≤ 8 * n + 1 := by
  have hpart : ∀ p ∈ t.leaves, ∀ q ∈ t.leaves, p.1 ≠ q.1 →
      ∃ i < 8 * n + 1, pathBit p.1 i ≠ pathBit q.1 i := by
    intro p hp q hq hne
    obtain ⟨i, hi, hbit⟩ := exists_pathBit_ne hne
    have hpl := hlen p hp
    have hql := hlen q hq
    exact ⟨i, by omega, hbit⟩
  have hwalk := BitTrie.walkLength_le ht.placed ht.compact (BitTrie.under_zero s t) hpart
  omega

/-- The keys that the call inserts have at most `n + 1` bytes. -/
def ClientCall.InsertsWithin (n : ℕ) (call : ClientCall) : Prop :=
  ∀ key value, call = .update (.insert key value) → key.length ≤ n + 1

/-- A call on the contents keeps the bound on the prefixes. -/
theorem prefixesWithin_step {n : ℕ} {t : Node} (ht : WellFormed t) (hlen : PrefixesWithin n t)
    {call : ClientCall} (hcall : call.InsertsWithin n) : PrefixesWithin n (call.step t) := by
  unfold ClientCall.step
  cases happly : call.apply t with
  | error e => exact hlen
  | ok t' =>
      cases call with
      | newTree =>
          cases happly
          exact fun p hp => absurd hp List.not_mem_nil
      | rootHash =>
          cases happly
          exact hlen
      | getProof key =>
          obtain ⟨-, -, hsame⟩ := py_bind_eq_ok_iff.mp happly
          cases hsame
          exact hlen
      | update op =>
          intro p hp
          obtain ⟨s', vs⟩ := p
          obtain ⟨-, message, herr⟩ | ⟨s, i, v, t₁, hs, rfl, hok, hwf, hread⟩ |
            ⟨s, i, t₁, hs, rfl, hok, hwf, hread⟩ := apply_cases ht op
          · rw [ClientCall.apply, herr] at happly
            cases happly
          · -- an insert adds the stem of its key
            rw [ClientCall.apply, hok] at happly
            cases happly
            have hstored := hread s'
            rw [hwf.storedStem_eq_some_iff.mpr hp] at hstored
            split_ifs at hstored with heq
            · rw [heq]
              have hkey := hcall (joinKey s i) v.val rfl
              rw [length_joinKey] at hkey
              exact Nat.le_of_succ_le_succ hkey
            · exact hlen (s', vs) (ht.storedStem_eq_some_iff.mp hstored.symm)
          · -- a delete leaves no other stem
            rw [ClientCall.apply, hok] at happly
            cases happly
            have hstored := hread s'
            rw [hwf.storedStem_eq_some_iff.mpr hp] at hstored
            split_ifs at hstored with heq
            · obtain ⟨old, hold, -⟩ := Option.bind_eq_some_iff.mp hstored.symm
              rw [heq]
              exact hlen (s, old) (ht.storedStem_eq_some_iff.mp hold)
            · exact hlen (s', vs) (ht.storedStem_eq_some_iff.mp hstored.symm)

namespace Session

/-- One call of a session, recorded. -/
def applyRecorded (H : HashFunction) (session : Session) : ClientCall → Py (Logged Bytes Session)
  | .newTree => .ok (pure { session with root := .emptyNode })
  | .update (.insert key value) => do
      let root ← session.root.insert key value
      pure (pure { session with root := root })
  | .update (.delete key) => do
      let root ← session.root.delete key
      pure (pure { session with root := root })
  | .rootHash => .ok do
      let ((_, root), emptyHashCache) ←
        (CachedNode.nodeHashRecorded H session.root).run session.emptyHashCache
      pure ⟨root, emptyHashCache⟩
  | .getProof key => do
      let (stemPrefix, _) ← splitKey key
      pure do
        let (walk, emptyHashCache) ←
          (CachedNode.proofPathRecorded H stemPrefix session.root 0).run session.emptyHashCache
        pure ⟨walk.start, emptyHashCache⟩

/-- One call, by a caller that keeps its root when the call raises. -/
def stepRecorded (H : HashFunction) (session : Session) (call : ClientCall) :
    Logged Bytes Session :=
  match session.applyRecorded H call with
  | .ok recorded => recorded
  | .error _ => pure session

/-- A sequence of calls, in a new process. -/
def runRecorded (H : HashFunction) (calls : List ClientCall) : Logged Bytes Session :=
  calls.foldlM (stepRecorded H) start

/-! ### What each call is -/

theorem val_stepRecorded_rootHash (session : Session) :
    (stepRecorded H session .rootHash).val =
      ⟨((CachedNode.nodeHash H session.root).run session.emptyHashCache).1.2,
        ((CachedNode.nodeHash H session.root).run session.emptyHashCache).2⟩ := by
  rw [← CachedNode.mirrors_nodeHash session.root session.emptyHashCache]
  rfl

theorem queries_stepRecorded_rootHash (session : Session) :
    (stepRecorded H session .rootHash).queries =
      ((CachedNode.nodeHashRecorded H session.root).run session.emptyHashCache).queries :=
  List.append_nil _

theorem stepRecorded_getProof_of_error (session : Session) {key : Bytes} {e : PyError}
    (h : splitKey key = .error e) : stepRecorded H session (.getProof key) = pure session := by
  unfold stepRecorded applyRecorded
  dsimp only
  rw [h]
  rfl

theorem val_stepRecorded_getProof (session : Session) {key s : Bytes}
    {i : Fin stemSubtreeWidth} (h : splitKey key = .ok (s, i)) :
    (stepRecorded H session (.getProof key)).val =
      ⟨((CachedNode.proofPath H s session.root 0).run session.emptyHashCache).1.start,
        ((CachedNode.proofPath H s session.root 0).run session.emptyHashCache).2⟩ := by
  unfold stepRecorded applyRecorded
  dsimp only
  rw [h, ← CachedNode.mirrors_proofPath s session.root 0 session.emptyHashCache]
  rfl

theorem queries_stepRecorded_getProof (session : Session) {key s : Bytes}
    {i : Fin stemSubtreeWidth} (h : splitKey key = .ok (s, i)) :
    (stepRecorded H session (.getProof key)).queries =
      ((CachedNode.proofPathRecorded H s session.root 0).run session.emptyHashCache).queries := by
  unfold stepRecorded applyRecorded
  dsimp only
  rw [h]
  exact List.append_nil _

/-- An update calls `tree_hash` for nothing. -/
theorem stepRecorded_update (session : Session) (op : TreeOp) :
    stepRecorded H session (.update op) = pure (step H session (.update op)) := by
  unfold stepRecorded step applyRecorded Session.apply
  cases op with
  | insert key value =>
      dsimp only
      cases session.root.insert key value with
      | error e => rfl
      | ok root => rfl
  | delete key =>
      dsimp only
      cases session.root.delete key with
      | error e => rfl
      | ok root => rfl

/-- **A recorded call is the call.** -/
theorem val_stepRecorded (session : Session) (call : ClientCall) :
    (stepRecorded H session call).val = step H session call := by
  cases call with
  | newTree => rfl
  | rootHash => exact val_stepRecorded_rootHash session
  | update op => rw [stepRecorded_update, Logged.val_pure]
  | getProof key =>
      cases hsplit : splitKey key with
      | error e =>
          rw [stepRecorded_getProof_of_error session hsplit, Logged.val_pure]
          unfold step Session.apply CachedNode.getProof
          dsimp only
          rw [hsplit]
          rfl
      | ok slot =>
          rw [val_stepRecorded_getProof session hsplit]
          unfold step Session.apply CachedNode.getProof
          dsimp only
          rw [hsplit]
          rfl

/-- A recorded run is the run. -/
theorem val_foldlM_stepRecorded (session : Session) (calls : List ClientCall) :
    (calls.foldlM (stepRecorded H) session).val = calls.foldl (step H) session := by
  induction calls generalizing session with
  | nil => rfl
  | cons call calls ih =>
      rw [List.foldlM_cons, Logged.val_bind, ih, val_stepRecorded, List.foldl_cons]

/-! ### The accounts -/

/-- The strings that the session would still have to hash. -/
def potential (session : Session) : ℕ :=
  session.root.pending + CachedNode.cellPotential session.emptyHashCache

/-- What one call adds to the strings to hash: an update, a path. -/
def budget (n : ℕ) (call : ClientCall) : ℕ := if call.isUpdate then 8 * n + 2 else 0

/-- An update leaves the session, or a root on which the walk of one prefix is invalidated. -/
theorem step_update_cases (session : Session) (op : TreeOp) :
    step H session (.update op) = session ∨
    ∃ root last s, step H session (.update op) = { session with root := root } ∧
      CachedNode.Invalidated last s 0 session.root.pending root := by
  unfold step Session.apply
  cases op with
  | insert key value =>
      dsimp only
      cases hins : session.root.insert key value with
      | error e => exact Or.inl rfl
      | ok root =>
          obtain ⟨s, -, -, hroot⟩ := CachedNode.invalidated_insert hins
          exact Or.inr ⟨root, _, s, rfl, hroot⟩
  | delete key =>
      dsimp only
      cases hdel : session.root.delete key with
      | error e => exact Or.inl rfl
      | ok root =>
          obtain ⟨s, -, -, hroot⟩ := CachedNode.invalidated_delete hdel
          exact Or.inr ⟨root, _, s, rfl, hroot⟩

/-- An update adds at most a path to the strings to hash. -/
theorem potential_update_le {n : ℕ} {session : Session} {t : Node} {op : TreeOp}
    (h : Represents H session t) (ht : WellFormed t) (hlen : PrefixesWithin n t)
    (hop : (ClientCall.update op).InsertsWithin n) :
    (step H session (.update op)).potential ≤ session.potential + (8 * n + 2) := by
  obtain ⟨h', ht'⟩ := represents_step h ht (.update op)
  have hlen' := prefixesWithin_step ht hlen hop
  rcases step_update_cases (H := H) session op with hsame | ⟨root, last, s, hroot, hinv⟩
  · rw [hsame]
    exact Nat.le_add_right _ _
  · rw [hroot] at h' ⊢
    have hwalk := walkLength_le_of_prefixesWithin ht' hlen' s
    have hpending := hinv.pending_le
    rw [h'.root.erase] at hpending
    unfold potential
    dsimp only
    omega

/-- **The accounts of one call**: it hashes no more strings than its budget and the potential
it releases. -/
theorem stepRecorded_paid {n : ℕ} {session : Session} {t : Node} {call : ClientCall}
    (h : Represents H session t) (ht : WellFormed t) (hlen : PrefixesWithin n t)
    (hcall : call.InsertsWithin n) :
    (stepRecorded H session call).queries.length + (stepRecorded H session call).val.potential ≤
      session.potential + budget n call := by
  cases call with
  | newTree =>
      show 0 + (0 + CachedNode.cellPotential session.emptyHashCache) ≤
        session.root.pending + CachedNode.cellPotential session.emptyHashCache + 0
      omega
  | rootHash =>
      have hpaid := CachedNode.pays_nodeHash (H := H) session.root session.emptyHashCache
      rw [CachedNode.mirrors_nodeHash session.root session.emptyHashCache] at hpaid
      rw [queries_stepRecorded_rootHash, val_stepRecorded_rootHash]
      unfold potential
      dsimp only at hpaid ⊢
      omega
  | getProof key =>
      cases hsplit : splitKey key with
      | error e =>
          rw [stepRecorded_getProof_of_error session hsplit]
          exact (Nat.zero_add _).le
      | ok slot =>
          have hpaid := CachedNode.pays_proofPath (H := H) slot.1 session.root 0
            session.emptyHashCache
          rw [CachedNode.mirrors_proofPath slot.1 session.root 0 session.emptyHashCache] at hpaid
          rw [queries_stepRecorded_getProof session hsplit,
            val_stepRecorded_getProof session hsplit]
          unfold potential
          dsimp only at hpaid ⊢
          omega
  | update op =>
      rw [stepRecorded_update, Logged.val_pure]
      exact (Nat.zero_add _).le.trans (potential_update_le h ht hlen hcall)

/-- Only the updates of a run have a budget. -/
theorem sum_budget (n : ℕ) (calls : List ClientCall) :
    (calls.map (budget n)).sum = (8 * n + 2) * calls.countP ClientCall.isUpdate := by
  induction calls with
  | nil => rfl
  | cons call calls ih =>
      rw [List.map_cons, List.sum_cons, ih, List.countP_cons, budget]
      split_ifs
      · rw [Nat.mul_add, Nat.mul_one, Nat.add_comm]
      · rw [Nat.zero_add]
        rfl

/-- What every session has, with the bound on the prefixes it stores. -/
def Accountable (H : HashFunction) (n : ℕ) (session : Session) : Prop :=
  ∃ t, Represents H session t ∧ WellFormed t ∧ PrefixesWithin n t

theorem accountable_start (n : ℕ) : Accountable H n start :=
  ⟨.emptyNode, represents_start, wellFormed_emptyNode, fun _ hp => absurd hp List.not_mem_nil⟩

theorem accountable_stepRecorded {n : ℕ} {session : Session} {call : ClientCall}
    (h : Accountable H n session) (hcall : call.InsertsWithin n) :
    Accountable H n (stepRecorded H session call).val := by
  obtain ⟨t, hrep, ht, hlen⟩ := h
  obtain ⟨hrep', ht'⟩ := represents_step hrep ht call
  rw [val_stepRecorded]
  exact ⟨call.step t, hrep', ht', prefixesWithin_step ht hlen hcall⟩

end Session

/-- **A run hashes one path per update.**  Whatever the order of the calls, and however many
root hashes and proofs are asked for, a session whose inserted keys have at most `n + 1` bytes
calls `tree_hash` at most `8 * n + 2` times for each update, and once for the empty string. -/
theorem length_hashed_run_le (H : HashFunction) (n : ℕ) (calls : List ClientCall)
    (hcalls : ∀ call ∈ calls, call.InsertsWithin n) :
    (Session.runRecorded H calls).val = Session.run H calls ∧
    (Session.runRecorded H calls).queries.length ≤
      (8 * n + 2) * calls.countP ClientCall.isUpdate + 1 := by
  refine ⟨Session.val_foldlM_stepRecorded _ calls, ?_⟩
  have hrun := length_queries_foldlM_le (Session.stepRecorded H) Session.potential
    (Session.budget n)
    (fun session call hcall h => Session.accountable_stepRecorded h (hcalls call hcall))
    (fun session call hcall h => by
      obtain ⟨t, hrep, ht, hlen⟩ := h
      exact Session.stepRecorded_paid hrep ht hlen (hcalls call hcall))
    (Session.accountable_start n)
  have hstart : Session.start.potential = 1 := rfl
  rw [Session.sum_budget, hstart] at hrun
  unfold Session.runRecorded
  omega

/-- Two inserts of 32-byte keys, with a root hash after each and a proof. -/
theorem length_hashed_run_le_two :
    (Session.runRecorded (fun _ => emptyValue) [
        .update (.insert (List.replicate 32 0) onesDigest.val), .rootHash,
        .update (.insert (List.replicate 32 1) onesDigest.val), .rootHash,
        .getProof (List.replicate 32 0)]).queries.length ≤ (8 * 31 + 2) * 2 + 1 :=
  (length_hashed_run_le (fun _ => emptyValue) 31 _ (by
    intro call hcall key value heq
    simp only [List.mem_cons, List.not_mem_nil, or_false] at hcall
    rcases hcall with rfl | rfl | rfl | rfl | rfl
    · cases heq
      exact Nat.le_refl 32
    · cases heq
    · cases heq
      exact Nat.le_refl 32
    · cases heq
    · cases heq)).2

end Pbt
