/-
# The tree with its hash caches (`pbt/nodes.py`, `pbt/tree.py`)

The reference client mutates its nodes in place and keeps two kinds of memo:
the `_hash_cache` field of every `InternalNode` and `StemNode`, and the module
variable `_EMPTY_HASH_CACHE`.  A caller threads the root that each call returns,
so every node object has one owner, and a call is a function from the nodes
before it to the nodes after it.

* `CachedNode` : a node object with its `_hash_cache`;
* `Coherent` : every `_hash_cache` is unset or the hash of what its node holds;
* `refines_insertNode`, `erase_deleteNode`, `nodeHash_spec`, `proofPath_spec` :
  the calls do to the contents what the calls of `PartitionedBinaryTree.Tree`
  do, and keep the caches coherent.
-/
import PartitionedBinaryTree.Lib.Refinement
import PartitionedBinaryTree.TreeRuns

namespace Pbt

/-- A node object: `EmptyNode`, `InternalNode` or `StemNode`, the latter two with
their `_hash_cache`. -/
inductive CachedNode where
  | emptyNode
  | internalNode (left right : CachedNode) (hashCache : Option Digest)
  | stemNode (stemPrefix : Bytes) (values : StemValues) (hashCache : Option Digest)
  deriving DecidableEq, Repr

/-- Code that reads and fills `_EMPTY_HASH_CACHE`. -/
abbrev Hashing := StateM (Option Digest)

namespace CachedNode

/-! ## Node hashes -/

/-- `_empty_hash()`. -/
def emptyHash (H : HashFunction) : Hashing Digest := do
  match ← MonadState.get with
  | some hash => pure hash
  | none =>
      let hash := (treeHash H []).val
      set (some hash)
      pure hash

/-- `node_hash`: the hash, and the node with the caches that were filled. -/
def nodeHash (H : HashFunction) : CachedNode → Hashing (Digest × CachedNode)
  | emptyNode => do
      let hash ← emptyHash H
      pure (hash, emptyNode)
  | internalNode left right (some hash) => pure (hash, internalNode left right (some hash))
  | internalNode left right none => do
      let (leftHash, left') ← nodeHash H left
      let (rightHash, right') ← nodeHash H right
      let hash := (treeHash H (leftHash.val ++ rightHash.val)).val
      pure (hash, internalNode left' right' (some hash))
  | stemNode stemPrefix values (some hash) => pure (hash, stemNode stemPrefix values (some hash))
  | stemNode stemPrefix values none => do
      let hash := (treeHash H (stemPayload stemPrefix (stemBytes values))).val
      pure (hash, stemNode stemPrefix values (some hash))

/-! ## Insert -/

/-- `_split_stems`: the nodes it builds are new and have no cached hash, the
existing stem keeps its own. -/
def splitStems (existingPrefix : Bytes) (existingValues : StemValues)
    (existingCache : Option Digest) (newPrefix : Bytes) (subindex : Fin stemSubtreeWidth)
    (value : Value) : ℕ → ℕ → Py CachedNode
  | 0, _ => .error recursionError
  | fuel + 1, depth =>
      let bitExisting := pathBitAt existingPrefix depth
      let bitNew := pathBitAt newPrefix depth
      if bitExisting = bitNew then do
        let child ← splitStems existingPrefix existingValues existingCache newPrefix subindex value
          fuel (depth + 1)
        if bitExisting = 0 then pure (internalNode child emptyNode none)
        else pure (internalNode emptyNode child none)
      else
        let existing := stemNode existingPrefix existingValues existingCache
        let newStem := stemNode newPrefix (emptyStem.set subindex value subindex.isLt) none
        if bitNew = 0 then pure (internalNode newStem existing none)
        else pure (internalNode existing newStem none)

/-- `_insert`: a node that is written to is invalidated. -/
def insertNode : CachedNode → Bytes → Fin stemSubtreeWidth → Value → ℕ → Py CachedNode
  | emptyNode, stemPrefix, subindex, value, _ =>
      pure (stemNode stemPrefix (emptyStem.set subindex value subindex.isLt) none)
  | stemNode existingPrefix values hashCache, stemPrefix, subindex, value, depth =>
      if existingPrefix = stemPrefix then
        pure (stemNode existingPrefix (values.set subindex value subindex.isLt) none)
      else splitStems existingPrefix values hashCache stemPrefix subindex value
        (splitFuel existingPrefix stemPrefix depth) depth
  | internalNode left right _, stemPrefix, subindex, value, depth =>
      let bit := pathBitAt stemPrefix depth
      if bit = 0 then do
        let left' ← insertNode left stemPrefix subindex value (depth + 1)
        pure (internalNode left' right none)
      else do
        let right' ← insertNode right stemPrefix subindex value (depth + 1)
        pure (internalNode left right' none)

/-- `insert(root, key, value)`. -/
def insert (root : CachedNode) (key value : Bytes) : Py CachedNode :=
  if h : value.length = 32 then do
    let (stemPrefix, subindex) ← splitKey key
    insertNode root stemPrefix subindex ⟨value, h⟩ 0
  else raiseValueError "value must be exactly 32 bytes"

/-! ## Get -/

/-- `_get`. -/
def getNode : CachedNode → Bytes → Fin stemSubtreeWidth → ℕ → Value
  | emptyNode, _, _, _ => emptyValue
  | stemNode existingPrefix values _, stemPrefix, subindex, _ =>
      if existingPrefix = stemPrefix then getElem values subindex subindex.isLt else emptyValue
  | internalNode left right _, stemPrefix, subindex, depth =>
      let bit := pathBitAt stemPrefix depth
      if bit = 0 then getNode left stemPrefix subindex (depth + 1)
      else getNode right stemPrefix subindex (depth + 1)

/-- `get(root, key)`. -/
def get (root : CachedNode) (key : Bytes) : Py Value := do
  let (stemPrefix, subindex) ← splitKey key
  pure (getNode root stemPrefix subindex 0)

/-! ## Delete -/

/-- The canonical collapse at the end of `_delete`.  The node that stays was
invalidated; a stem that takes its place keeps its cached hash. -/
def collapseInternal : CachedNode → CachedNode → CachedNode
  | emptyNode, emptyNode => emptyNode
  | emptyNode, stemNode stemPrefix values hashCache => stemNode stemPrefix values hashCache
  | stemNode stemPrefix values hashCache, emptyNode => stemNode stemPrefix values hashCache
  | left, right => internalNode left right none

/-- `_delete`. -/
def deleteNode : CachedNode → Bytes → Fin stemSubtreeWidth → ℕ → CachedNode
  | emptyNode, _, _, _ => emptyNode
  | stemNode existingPrefix values hashCache, stemPrefix, subindex, _ =>
      if existingPrefix ≠ stemPrefix then stemNode existingPrefix values hashCache
      else
        let values' := values.set subindex emptyValue subindex.isLt
        if stemIsEmpty values' then emptyNode else stemNode existingPrefix values' none
  | internalNode left right _, stemPrefix, subindex, depth =>
      let bit := pathBitAt stemPrefix depth
      if bit = 0 then collapseInternal (deleteNode left stemPrefix subindex (depth + 1)) right
      else collapseInternal left (deleteNode right stemPrefix subindex (depth + 1))

/-- `delete(root, key)`. -/
def delete (root : CachedNode) (key : Bytes) : Py CachedNode := do
  let (stemPrefix, subindex) ← splitKey key
  pure (deleteNode root stemPrefix subindex 0)

/-! ## Root hash and proofs -/

/-- `root_hash(root)`. -/
def rootHash (H : HashFunction) (root : CachedNode) : Hashing (Digest × CachedNode) :=
  nodeHash H root

/-- What the `while` loop of `get_proof` leaves: the siblings, the bits, the node
where it ended, and the node it started from with the caches that were filled. -/
structure ProofWalk where
  siblings : List Bytes
  bits : List ℤ
  node : CachedNode
  start : CachedNode

/-- The `while` loop of `get_proof`. -/
def proofPath (H : HashFunction) (stemPrefix : Bytes) : CachedNode → ℕ → Hashing ProofWalk
  | internalNode left right hashCache, depth => do
      let bit := pathBitAt stemPrefix depth
      if bit = 0 then
        let (sibling, right') ← nodeHash H right
        let walk ← proofPath H stemPrefix left (depth + 1)
        pure ⟨sibling.val :: walk.siblings, (bit : ℤ) :: walk.bits, walk.node,
          internalNode walk.start right' hashCache⟩
      else
        let (sibling, left') ← nodeHash H left
        let walk ← proofPath H stemPrefix right (depth + 1)
        pure ⟨sibling.val :: walk.siblings, (bit : ℤ) :: walk.bits, walk.node,
          internalNode left' walk.start hashCache⟩
  | node, _ => pure ⟨[], [], node, node⟩

/-- The value and the stem values that `get_proof` reads where its walk ended. -/
def proofLeaf (stemPrefix : Bytes) (subindex : Fin stemSubtreeWidth) :
    CachedNode → Value × StemValues
  | stemNode existingPrefix values _ =>
      if existingPrefix = stemPrefix then (getElem values subindex subindex.isLt, values)
      else (emptyValue, emptyStem)
  | _ => (emptyValue, emptyStem)

/-- `get_proof(root, key)`: the proof, and the root with the caches that were filled. -/
def getProof (H : HashFunction) (root : CachedNode) (key : Bytes) :
    Py (Hashing (MerkleProof × CachedNode)) := do
  let (stemPrefix, subindex) ← splitKey key
  pure do
    let walk ← proofPath H stemPrefix root 0
    let (value, stemValues) := proofLeaf stemPrefix subindex walk.node
    pure ({
      key := key
      value := value.val
      stemValues := stemBytes stemValues
      pathSiblings := walk.siblings
      pathBits := walk.bits }, walk.start)

/-! ## Contents and coherence -/

/-- The contents of a node, without the caches. -/
def erase : CachedNode → Node
  | emptyNode => .emptyNode
  | internalNode left right _ => .internalNode left.erase right.erase
  | stemNode stemPrefix values _ => .stemNode stemPrefix values

@[simp] theorem erase_emptyNode : emptyNode.erase = .emptyNode := rfl

@[simp] theorem erase_internalNode (l r : CachedNode) (m : Option Digest) :
    (internalNode l r m).erase = .internalNode l.erase r.erase := rfl

@[simp] theorem erase_stemNode (s : Bytes) (vs : StemValues) (m : Option Digest) :
    (stemNode s vs m).erase = .stemNode s vs := rfl

/-- **Coherence.**  Every `_hash_cache` is unset or the hash, computed from
scratch, of what its node holds. -/
def Coherent (H : HashFunction) : CachedNode → Prop
  | emptyNode => True
  | internalNode left right hashCache =>
      left.Coherent H ∧ right.Coherent H ∧
        MemoOf hashCache (Pbt.nodeHash H (.internalNode left.erase right.erase)).val
  | stemNode stemPrefix values hashCache =>
      MemoOf hashCache (Pbt.nodeHash H (.stemNode stemPrefix values)).val

/-- A node object that holds `t` and has coherent caches. -/
structure Represents (H : HashFunction) (c : CachedNode) (t : Node) : Prop where
  erase : c.erase = t
  coherent : c.Coherent H

variable {H : HashFunction}

theorem represents_emptyNode : Represents H emptyNode .emptyNode := ⟨rfl, trivial⟩

/-- A node that was just written to. -/
theorem Represents.internalNode {l r : CachedNode} {tl tr : Node} (hl : Represents H l tl)
    (hr : Represents H r tr) : Represents H (internalNode l r none) (.internalNode tl tr) :=
  ⟨by rw [erase_internalNode, hl.erase, hr.erase], hl.coherent, hr.coherent, memoOf_none _⟩

theorem represents_stemNode (s : Bytes) (vs : StemValues) :
    Represents H (stemNode s vs none) (.stemNode s vs) := ⟨rfl, memoOf_none _⟩

/-! ## The updates keep the caches coherent -/

/-- `_split_stems` on a stem whose cached hash is right. -/
theorem refines_splitStems {a b : Bytes} {vs : StemValues} {m : Option Digest}
    {i : Fin stemSubtreeWidth} {v : Value} (hstem : (stemNode a vs m).Coherent H)
    (fuel depth : ℕ) :
    Refines (Represents H) (splitStems a vs m b i v fuel depth)
      (Pbt.splitStems a vs b i v fuel depth) := by
  induction fuel generalizing depth with
  | zero => exact Refines.error
  | succ fuel ih =>
      unfold splitStems Pbt.splitStems
      apply Refines.ite
      · intro _
        apply Refines.bind (ih (depth + 1))
        intro child t hchild
        apply Refines.ite
        · intro _
          exact Refines.ok (hchild.internalNode represents_emptyNode)
        · intro _
          exact Refines.ok (represents_emptyNode.internalNode hchild)
      · intro _
        -- the stem that was there is placed as it is, cached hash included
        have hexisting : Represents H (stemNode a vs m) (.stemNode a vs) := ⟨rfl, hstem⟩
        have hnew := represents_stemNode (H := H) b (emptyStem.set i v)
        apply Refines.ite
        · intro _
          exact Refines.ok (hnew.internalNode hexisting)
        · intro _
          exact Refines.ok (hexisting.internalNode hnew)

/-- **`_insert` does what the logical insert does**, and keeps the caches coherent. -/
theorem refines_insertNode {c : CachedNode} (hc : c.Coherent H) (s : Bytes)
    (i : Fin stemSubtreeWidth) (v : Value) (depth : ℕ) :
    Refines (Represents H) (insertNode c s i v depth) (Pbt.insertNode c.erase s i v depth) := by
  induction c generalizing depth with
  | emptyNode => exact Refines.ok (represents_stemNode s _)
  | stemNode s' vs m =>
      unfold insertNode
      rw [erase_stemNode]
      unfold Pbt.insertNode
      apply Refines.ite
      · intro _
        exact Refines.ok (represents_stemNode s' _)
      · intro _
        exact refines_splitStems hc _ depth
  | internalNode l r m ihl ihr =>
      -- the node's own cache is dropped, the child off the path keeps its caches
      obtain ⟨hl, hr, -⟩ := hc
      unfold insertNode
      rw [erase_internalNode]
      unfold Pbt.insertNode
      apply Refines.ite
      · intro _
        apply Refines.bind (ihl hl (depth + 1))
        intro l' tl hl'
        exact Refines.ok (hl'.internalNode ⟨rfl, hr⟩)
      · intro _
        apply Refines.bind (ihr hr (depth + 1))
        intro r' tr hr'
        exact Refines.ok (Represents.internalNode ⟨rfl, hl⟩ hr')

theorem erase_collapseInternal (l r : CachedNode) :
    (collapseInternal l r).erase = Pbt.collapseInternal l.erase r.erase := by
  cases l <;> cases r <;> rfl

theorem coherent_collapseInternal {l r : CachedNode} (hl : l.Coherent H) (hr : r.Coherent H) :
    (collapseInternal l r).Coherent H := by
  unfold collapseInternal
  split
  · trivial
  · -- the stem on the right takes the place of the node, with its cached hash
    exact hr
  · exact hl
  · exact ⟨hl, hr, memoOf_none _⟩

/-- **`_delete` does what the logical delete does.** -/
theorem erase_deleteNode (c : CachedNode) (s : Bytes) (i : Fin stemSubtreeWidth) (depth : ℕ) :
    (deleteNode c s i depth).erase = Pbt.deleteNode c.erase s i depth := by
  induction c generalizing depth with
  | emptyNode => rfl
  | stemNode s' vs m =>
      unfold deleteNode
      rw [erase_stemNode]
      unfold Pbt.deleteNode
      dsimp only
      split_ifs <;> rfl
  | internalNode l r m ihl ihr =>
      unfold deleteNode
      rw [erase_internalNode]
      unfold Pbt.deleteNode
      dsimp only
      split_ifs
      · rw [erase_collapseInternal, ihl]
      · rw [erase_collapseInternal, ihr]

/-- `_delete` keeps the caches coherent. -/
theorem coherent_deleteNode {c : CachedNode} (hc : c.Coherent H) (s : Bytes)
    (i : Fin stemSubtreeWidth) (depth : ℕ) : (deleteNode c s i depth).Coherent H := by
  induction c generalizing depth with
  | emptyNode => trivial
  | stemNode s' vs m =>
      unfold deleteNode
      dsimp only
      split_ifs
      · exact hc
      · trivial
      · exact memoOf_none _
  | internalNode l r m ihl ihr =>
      obtain ⟨hl, hr, -⟩ := hc
      unfold deleteNode
      dsimp only
      split_ifs
      · exact coherent_collapseInternal (ihl hl _) hr
      · exact coherent_collapseInternal hl (ihr hr _)

/-- `get` reads the contents. -/
theorem getNode_erase (c : CachedNode) (s : Bytes) (i : Fin stemSubtreeWidth) (depth : ℕ) :
    getNode c s i depth = Pbt.getNode c.erase s i depth := by
  induction c generalizing depth with
  | emptyNode => rfl
  | stemNode s' vs m => rfl
  | internalNode l r m ihl ihr =>
      unfold getNode
      rw [erase_internalNode]
      unfold Pbt.getNode
      dsimp only
      rw [ihl, ihr]

/-- **`insert`, `delete` and `get`** on a node with coherent caches. -/
theorem refines_insert {c : CachedNode} (hc : c.Coherent H) (key value : Bytes) :
    Refines (Represents H) (insert c key value) (Pbt.insert c.erase key value) := by
  unfold insert Pbt.insert
  by_cases hv : value.length = 32
  · rw [dif_pos hv, dif_pos hv]
    cases splitKey key with
    | error e => exact Refines.error
    | ok slot => exact refines_insertNode hc slot.1 slot.2 _ 0
  · rw [dif_neg hv, dif_neg hv]
    exact Refines.error

theorem refines_delete {c : CachedNode} (hc : c.Coherent H) (key : Bytes) :
    Refines (Represents H) (delete c key) (Pbt.delete c.erase key) := by
  unfold delete Pbt.delete
  cases splitKey key with
  | error e => exact Refines.error
  | ok slot =>
      exact Refines.ok ⟨erase_deleteNode c slot.1 slot.2 0, coherent_deleteNode hc slot.1 slot.2 0⟩

theorem get_erase (c : CachedNode) (key : Bytes) : get c key = Pbt.get c.erase key := by
  unfold get Pbt.get
  cases splitKey key with
  | error e => rfl
  | ok slot => exact congrArg Except.ok (getNode_erase c slot.1 slot.2 0)

/-! ## Hashing returns the uncached hashes and keeps the caches coherent -/

/-- `_empty_hash()` returns the hash of the empty string. -/
theorem emptyHash_spec : Memoised (H []) (emptyHash H) (· = H []) := by
  intro cell hcell
  cases cell with
  | none => exact ⟨rfl, memoOf_some.mpr rfl⟩
  | some d => exact ⟨memoOf_some.mp hcell, hcell⟩

/-- **Specification of `node_hash`.** -/
theorem nodeHash_spec {c : CachedNode} (hc : c.Coherent H) :
    Memoised (H []) (nodeHash H c) fun out =>
      out.1 = (Pbt.nodeHash H c.erase).val ∧ Represents H out.2 c.erase := by
  induction c with
  | emptyNode =>
      unfold nodeHash
      apply emptyHash_spec.bind
      rintro _ rfl
      exact Memoised.pure ⟨rfl, represents_emptyNode⟩
  | stemNode s vs m =>
      cases m with
      | none => exact Memoised.pure ⟨rfl, rfl, memoOf_some.mpr rfl⟩
      | some d => exact Memoised.pure ⟨memoOf_some.mp hc, rfl, hc⟩
  | internalNode l r m ihl ihr =>
      cases m with
      | some d => exact Memoised.pure ⟨memoOf_some.mp hc.2.2, rfl, hc⟩
      | none =>
          obtain ⟨hl, hr, -⟩ := hc
          unfold nodeHash
          apply (ihl hl).bind
          rintro ⟨dl, l'⟩ ⟨hdl : dl = _, hl'⟩
          apply (ihr hr).bind
          rintro ⟨dr, r'⟩ ⟨hdr : dr = _, hr'⟩
          have herase : (internalNode l' r' (some (H (dl.val ++ dr.val)))).erase =
              .internalNode l.erase r.erase := by
            rw [erase_internalNode, hl'.erase, hr'.erase]
          have hhash : H (dl.val ++ dr.val) =
              (Pbt.nodeHash H (.internalNode l.erase r.erase)).val := by
            rw [hdl, hdr]
            rfl
          -- filling caches changed no contents, so the new cell describes this node
          refine Memoised.pure ⟨hhash, herase, hl'.coherent, hr'.coherent, ?_⟩
          rw [hl'.erase, hr'.erase]
          exact memoOf_some.mpr hhash

/-- **Specification of the loop of `get_proof`.** -/
theorem proofPath_spec {c : CachedNode} (hc : c.Coherent H) (s : Bytes) (depth : ℕ) :
    Memoised (H []) (proofPath H s c depth) fun walk =>
      (Pbt.proofPath H s c.erase depth).val = (walk.siblings, walk.bits, walk.node.erase) ∧
        Represents H walk.start c.erase := by
  induction c generalizing depth with
  | emptyNode => exact Memoised.pure ⟨rfl, represents_emptyNode⟩
  | stemNode s' vs m => exact Memoised.pure ⟨rfl, rfl, hc⟩
  | internalNode l r m ihl ihr =>
      obtain ⟨hl, hr, hm⟩ := hc
      unfold proofPath
      rw [erase_internalNode]
      unfold Pbt.proofPath
      dsimp only
      by_cases hbit : pathBitAt s depth = 0
      · rw [if_pos hbit, if_pos hbit]
        apply (nodeHash_spec hr).bind
        rintro ⟨d, r'⟩ ⟨hd : d = _, hr'⟩
        apply (ihl hl (depth + 1)).bind
        rintro walk ⟨hwalk, hstart⟩
        -- both children may have new caches, but the node still holds the same
        refine Memoised.pure ⟨?_, ?_, hstart.coherent, hr'.coherent, ?_⟩
        · simp only [Logged.val_bind, hwalk, Logged.val_pure, hd]
        · rw [erase_internalNode, hstart.erase, hr'.erase]
        · rw [hstart.erase, hr'.erase]
          exact hm
      · rw [if_neg hbit, if_neg hbit]
        apply (nodeHash_spec hl).bind
        rintro ⟨d, l'⟩ ⟨hd : d = _, hl'⟩
        apply (ihr hr (depth + 1)).bind
        rintro walk ⟨hwalk, hstart⟩
        refine Memoised.pure ⟨?_, ?_, hl'.coherent, hstart.coherent, ?_⟩
        · simp only [Logged.val_bind, hwalk, Logged.val_pure, hd]
        · rw [erase_internalNode, hstart.erase, hl'.erase]
        · rw [hstart.erase, hl'.erase]
          exact hm

theorem proofLeaf_erase (s : Bytes) (i : Fin stemSubtreeWidth) (c : CachedNode) :
    proofLeaf s i c = Pbt.proofLeaf s i c.erase := by
  cases c <;> rfl

/-- **Specification of `get_proof`**: the proof of the contents, hash for hash. -/
theorem getProof_spec {c : CachedNode} (hc : c.Coherent H) (key : Bytes) :
    Refines
      (fun x y => Memoised (H []) x fun out => out.1 = y.val ∧ Represents H out.2 c.erase)
      (getProof H c key) (Pbt.getProof H c.erase key) := by
  unfold getProof Pbt.getProof
  cases splitKey key with
  | error e => exact Refines.error
  | ok slot =>
      apply Refines.ok
      apply (proofPath_spec hc slot.1 0).bind
      rintro walk ⟨hwalk, hstart⟩
      rw [proofLeaf_erase]
      cases hleaf : Pbt.proofLeaf slot.1 slot.2 walk.node.erase
      refine Memoised.pure ⟨?_, hstart⟩
      simp only [Logged.val_bind, hwalk, Logged.val_pure, hleaf]

end CachedNode

/-! ## Sessions -/

/-- A call of a session: a fresh tree, an update, or a call that may fill caches. -/
inductive ClientCall
  | newTree
  | update (op : TreeOp)
  | rootHash
  | getProof (key : Bytes)
  deriving DecidableEq, Repr

namespace ClientCall

/-- What the call does to the contents. -/
def apply (contents : Node) : ClientCall → Py Node
  | newTree => .ok .emptyNode
  | update op => op.apply contents
  | rootHash => .ok contents
  | getProof key => do
      let _ ← splitKey key
      pure contents

/-- The calls within the contract. -/
def Valid : ClientCall → Prop
  | newTree => True
  | update op => op.Valid
  | rootHash => True
  | getProof key => 2 ≤ key.length

/-- A call within the contract returns, and the tree stays well formed. -/
theorem apply_valid {t : Node} (ht : WellFormed t) {call : ClientCall} (hcall : call.Valid) :
    ∃ t', call.apply t = .ok t' ∧ WellFormed t' := by
  cases call with
  | newTree => exact ⟨_, rfl, wellFormed_emptyNode⟩
  | rootHash => exact ⟨t, rfl, ht⟩
  | getProof key =>
      obtain ⟨s, i, hsplit, -⟩ := exists_splitKey hcall
      refine ⟨t, ?_, ht⟩
      show (splitKey key >>= fun _ => pure t) = _
      rw [hsplit]
      rfl
  | update op =>
      obtain ⟨hinvalid, -⟩ | ⟨s, i, v, t', -, -, hok, hwf, -⟩ | ⟨s, i, t', -, -, hok, hwf, -⟩ :=
        apply_cases ht op
      · exact absurd hcall hinvalid
      · exact ⟨t', hok, hwf⟩
      · exact ⟨t', hok, hwf⟩

/-- **A run of calls within the contract returns.** -/
theorem foldlM_valid {calls : List ClientCall} (hcalls : ∀ call ∈ calls, call.Valid) {t : Node}
    (ht : WellFormed t) : ∃ t', calls.foldlM apply t = .ok t' ∧ WellFormed t' := by
  induction calls generalizing t with
  | nil => exact ⟨t, rfl, ht⟩
  | cons call calls ih =>
      obtain ⟨t₁, hfirst, ht₁⟩ := apply_valid ht (hcalls call List.mem_cons_self)
      obtain ⟨t₂, hrest, ht₂⟩ := ih (fun c hc => hcalls c (List.mem_cons_of_mem call hc)) ht₁
      refine ⟨t₂, ?_, ht₂⟩
      rw [List.foldlM_cons, hfirst]
      exact hrest

end ClientCall

/-- A process of the reference client: the root that its caller holds, and
`_EMPTY_HASH_CACHE`. -/
structure Session where
  root : CachedNode
  emptyHashCache : Option Digest
  deriving DecidableEq, Repr

namespace Session

/-- A new process, with `root = EmptyNode()`. -/
def start : Session := ⟨.emptyNode, none⟩

/-- One call; the hash function of the process is `H`. -/
def apply (H : HashFunction) (session : Session) : ClientCall → Py Session
  | .newTree => .ok { session with root := .emptyNode }
  | .update (.insert key value) => do
      let root ← session.root.insert key value
      pure { session with root := root }
  | .update (.delete key) => do
      let root ← session.root.delete key
      pure { session with root := root }
  | .rootHash =>
      let ((_, root), emptyHashCache) :=
        (CachedNode.rootHash H session.root).run session.emptyHashCache
      .ok ⟨root, emptyHashCache⟩
  | .getProof key => do
      let proof ← CachedNode.getProof H session.root key
      let ((_, root), emptyHashCache) := proof.run session.emptyHashCache
      pure ⟨root, emptyHashCache⟩

/-- What `root_hash(root)` returns. -/
def rootHash (H : HashFunction) (session : Session) : Digest :=
  ((CachedNode.rootHash H session.root).run session.emptyHashCache).1.1

/-- What `get(root, key)` returns. -/
def get (session : Session) (key : Bytes) : Py Value := session.root.get key

/-- What `get_proof(root, key)` returns. -/
def getProof (H : HashFunction) (session : Session) (key : Bytes) : Py MerkleProof := do
  let proof ← CachedNode.getProof H session.root key
  pure (proof.run session.emptyHashCache).1.1

/-- **The invariant of a session**: its root holds `t`, and every memo is unset
or right. -/
structure Represents (H : HashFunction) (session : Session) (t : Node) : Prop where
  root : CachedNode.Represents H session.root t
  emptyHashCache : MemoOf session.emptyHashCache (H [])

variable {H : HashFunction} {session : Session} {t : Node}

theorem represents_start : Represents H start .emptyNode :=
  ⟨CachedNode.represents_emptyNode, memoOf_none _⟩

/-- **One call keeps the invariant**, whatever caches it fills. -/
theorem refines_apply (h : Represents H session t) (call : ClientCall) :
    Refines (Represents H) (Session.apply H session call) (call.apply t) := by
  obtain ⟨⟨rfl, hroot⟩, hempty⟩ := h
  cases call with
  | newTree => exact Refines.ok ⟨CachedNode.represents_emptyNode, hempty⟩
  | update op =>
      cases op with
      | insert key value =>
          exact (CachedNode.refines_insert hroot key value).bind_pure
            fun root' t' hroot' => ⟨hroot', hempty⟩
      | delete key =>
          exact (CachedNode.refines_delete hroot key).bind_pure
            fun root' t' hroot' => ⟨hroot', hempty⟩
  | rootHash =>
      obtain ⟨⟨-, hroot'⟩, hempty'⟩ := CachedNode.nodeHash_spec hroot _ hempty
      exact Refines.ok ⟨hroot', hempty'⟩
  | getProof key =>
      -- the abstract call is `split_key` alone, which is also what decides `get_proof`
      have hproof := CachedNode.getProof_spec hroot key
      unfold Pbt.getProof at hproof
      show Refines _ (CachedNode.getProof H session.root key >>= _) (splitKey key >>= _)
      cases hsplit : splitKey key with
      | error e => exact Refines.error
      | ok slot =>
          rw [hsplit] at hproof
          obtain ⟨proof, hproof, hmemo⟩ := hproof _ rfl
          obtain ⟨⟨-, hroot'⟩, hempty'⟩ := hmemo _ hempty
          rw [hproof]
          exact Refines.ok ⟨hroot', hempty'⟩

/-- **Every run of a session** does to the contents what the logical run does. -/
theorem refines_foldlM (calls : List ClientCall) :
    Refines (Represents H) (calls.foldlM (Session.apply H) start)
      (calls.foldlM ClientCall.apply .emptyNode) :=
  Refines.foldlM (fun _ _ call h => refines_apply h call) calls represents_start

/-- The root hash of a session is the uncached one. -/
theorem rootHash_eq (h : Represents H session t) :
    session.rootHash H = (Pbt.rootHash H t).val := by
  obtain ⟨⟨rfl, hroot⟩, hempty⟩ := h
  exact (CachedNode.nodeHash_spec hroot _ hempty).1.1

theorem get_eq (h : Represents H session t) (key : Bytes) : session.get key = Pbt.get t key := by
  obtain ⟨⟨rfl, -⟩, -⟩ := h
  exact CachedNode.get_erase _ key

/-- The proof a session returns is the one made of uncached hashes. -/
theorem refines_getProof (h : Represents H session t) (key : Bytes) :
    Refines (fun proof call => proof = call.val) (session.getProof H key)
      (Pbt.getProof H t key) := by
  obtain ⟨⟨rfl, hroot⟩, hempty⟩ := h
  exact (CachedNode.getProof_spec hroot key).bind_pure fun _ _ hproof => (hproof _ hempty).1.1

end Session

end Pbt
