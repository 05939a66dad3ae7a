/-
# The Rust client's tree (`pbt-rs/src/tree.rs`)

The Rust tree owns its nodes and stores in every `Node::Internal` the hash that
`make_internal` computed when the node was built.  The hasher is the type
parameter of the source, with the provided `hash_pair` of the trait; the `blake3`
crate is the field of `Blake3Hasher`.

* `Node.Hashed` : every stored hash is the hash, computed from scratch, of the
  contents (`contentHash`);
* `refines_insertNode`, `represents_deleteNode`, `nodeHash_eq_contentHash` : the calls
  do to the contents what the calls of `PartitionedBinaryTree.Tree` do, and keep
  the stored hashes right, for every hasher.

The constants `STEM_SUBTREE_WIDTH` and `EMPTY_VALUE` are those of the reference
client.
-/
import PartitionedBinaryTree.Lib.Refinement
import PartitionedBinaryTree.TreeRuns

open Pbt (StemValues Value Digest HashFunction stemSubtreeWidth emptyValue emptyStem
  stemHashDomain splitFuel)

namespace PbtRs

/-! ## Hashers -/

/-- `trait TreeHasher`, with its provided method. -/
class TreeHasher (H : Type) where
  hash : H → Bytes → Digest
  hashPair : H → Digest → Digest → Digest :=
    fun hasher left right => hash hasher (left.val ++ right.val)

/-- `Blake3Hasher`, over the function of the `blake3` crate. -/
structure Blake3Hasher where
  blake3 : HashFunction

instance : TreeHasher Blake3Hasher where
  hash hasher input := hasher.blake3 input

/-! ## Nodes, proofs and trees -/

/-- `struct StemNode`. -/
structure StemNode where
  stemPrefix : Bytes
  values : StemValues
  deriving DecidableEq, Repr

/-- `StemNode::new(stem_prefix)`. -/
def StemNode.new (stemPrefix : Bytes) : StemNode := ⟨stemPrefix, emptyStem⟩

/-- `StemNode::is_empty`. -/
def StemNode.isEmpty (stem : StemNode) : Bool := stem.values.all (· == emptyValue)

/-- `stem.values[subindex] = value`. -/
def StemNode.set (stem : StemNode) (subindex : Fin stemSubtreeWidth) (value : Value) : StemNode :=
  { stem with values := stem.values.set subindex value subindex.isLt }

/-- `enum Node`, with the fields of the boxed `InternalNode`. -/
inductive Node where
  | empty
  | internal (left right : Node) (hash : Digest)
  | stem (stem : StemNode)
  deriving DecidableEq, Repr

/-- `struct MerkleProof`. -/
structure MerkleProof where
  key : Bytes
  value : Value
  stemValues : List Value
  pathSiblings : List Digest
  pathBits : List UInt8
  deriving DecidableEq, Repr

/-- `struct Tree<H>`. -/
structure Tree (H : Type) where
  root : Node
  hasher : H

/-- How a call ends without a value: in `Err(message)`, or in a recursion that
exhausts the stack. -/
inductive Failure
  | err (message : String)
  | stackOverflow
  deriving DecidableEq, Repr

/-- A call that may fail. -/
abbrev Rs := Except Failure

/-! ## Keys and bits -/

/-- `split_key(key)`. -/
def splitKey (key : Bytes) : Rs (Bytes × Fin stemSubtreeWidth) :=
  if h : key.length < 2 then .error (.err "key must be at least 2 bytes")
  else
    let last := key.getLast (List.ne_nil_of_length_pos (by omega))
    .ok (key.take (key.length - 1), ⟨last.toNat, last.toNat_lt⟩)

/-- `path_bit_at(data, position)`. -/
def pathBitAt (data : Bytes) (position : ℕ) : ℕ :=
  let byteIndex := position / 8
  let bitIndex := position % 8
  if h : byteIndex < data.length then
    ((data[byteIndex] >>> UInt8.ofNat (7 - bitIndex)) &&& 1).toNat
  else if byteIndex = data.length ∧ bitIndex = 0 then 1
  else 0

section Operations

variable {H : Type} [TreeHasher H] (hasher : H)

/-! ## Hashes -/

/-- `hash_stem(stem_prefix, values, hasher)`. -/
def hashStem (stemPrefix : Bytes) (values : List Value) : Digest :=
  TreeHasher.hash hasher (stemHashDomain ++ stemPrefix ++ (values.map Subtype.val).flatten)

/-- `node_hash(node, hasher)`: the stored hash of a `Node::Internal`. -/
def nodeHash : Node → Digest
  | .empty => TreeHasher.hash hasher []
  | .stem stem => hashStem hasher stem.stemPrefix stem.values.toList
  | .internal _ _ hash => hash

/-- `internal_hash(left, right, hasher)`. -/
def internalHash (left right : Node) : Digest :=
  TreeHasher.hashPair hasher (nodeHash hasher left) (nodeHash hasher right)

/-- `make_internal(left, right, hasher)`. -/
def makeInternal (left right : Node) : Node :=
  .internal left right (internalHash hasher left right)

/-! ## Insert, get and delete -/

/-- `split_stems`.  The fuel is the one of the reference client's `_split_stems`;
when it runs out the bits agree for ever.  The size of the thread's stack is not
modelled, here and elsewhere. -/
def splitStems (existing : StemNode) (newPrefix : Bytes) (subindex : Fin stemSubtreeWidth)
    (value : Value) : ℕ → ℕ → Rs Node
  | 0, _ => .error .stackOverflow
  | fuel + 1, depth =>
      let bitExisting := pathBitAt existing.stemPrefix depth
      let bitNew := pathBitAt newPrefix depth
      if bitExisting = bitNew then do
        let child ← splitStems existing newPrefix subindex value fuel (depth + 1)
        if bitExisting = 0 then pure (makeInternal hasher child .empty)
        else pure (makeInternal hasher .empty child)
      else
        let newStem := (StemNode.new newPrefix).set subindex value
        if bitNew = 0 then pure (makeInternal hasher (.stem newStem) (.stem existing))
        else pure (makeInternal hasher (.stem existing) (.stem newStem))

/-- `insert_node`. -/
def insertNode : Node → Bytes → Fin stemSubtreeWidth → Value → ℕ → Rs Node
  | .empty, stemPrefix, subindex, value, _ =>
      pure (.stem ((StemNode.new stemPrefix).set subindex value))
  | .stem stem, stemPrefix, subindex, value, depth =>
      if stem.stemPrefix = stemPrefix then pure (.stem (stem.set subindex value))
      else splitStems hasher stem stemPrefix subindex value
        (splitFuel stem.stemPrefix stemPrefix depth) depth
  | .internal left right _, stemPrefix, subindex, value, depth =>
      let bit := pathBitAt stemPrefix depth
      if bit = 0 then do
        let newLeft ← insertNode left stemPrefix subindex value (depth + 1)
        pure (makeInternal hasher newLeft right)
      else do
        let newRight ← insertNode right stemPrefix subindex value (depth + 1)
        pure (makeInternal hasher left newRight)

/-- `get_node`. -/
def getNode : Node → Bytes → Fin stemSubtreeWidth → ℕ → Value
  | .empty, _, _, _ => emptyValue
  | .stem stem, stemPrefix, subindex, _ =>
      if stem.stemPrefix = stemPrefix then getElem stem.values subindex subindex.isLt
      else emptyValue
  | .internal left right _, stemPrefix, subindex, depth =>
      let bit := pathBitAt stemPrefix depth
      if bit = 0 then getNode left stemPrefix subindex (depth + 1)
      else getNode right stemPrefix subindex (depth + 1)

/-- The `match` on the two children at the end of `delete_node`. -/
def collapseInternal : Node → Node → Node
  | .empty, .empty => .empty
  | .empty, .stem stem => .stem stem
  | .stem stem, .empty => .stem stem
  | nextLeft, nextRight => makeInternal hasher nextLeft nextRight

/-- `delete_node`. -/
def deleteNode : Node → Bytes → Fin stemSubtreeWidth → ℕ → Node
  | .empty, _, _, _ => .empty
  | .stem stem, stemPrefix, subindex, _ =>
      if stem.stemPrefix ≠ stemPrefix then .stem stem
      else
        let stem := stem.set subindex emptyValue
        if stem.isEmpty then .empty else .stem stem
  | .internal left right _, stemPrefix, subindex, depth =>
      let bit := pathBitAt stemPrefix depth
      if bit = 0 then
        collapseInternal hasher (deleteNode left stemPrefix subindex (depth + 1)) right
      else collapseInternal hasher left (deleteNode right stemPrefix subindex (depth + 1))

/-- The `while` loop of `get_proof`: siblings and bits from the node downward, and
the node where the walk ends. -/
def proofPath (stemPrefix : Bytes) : Node → ℕ → List Digest × List UInt8 × Node
  | .internal left right _, depth =>
      let bit := pathBitAt stemPrefix depth
      if bit = 0 then
        let (siblings, bits, node) := proofPath stemPrefix left (depth + 1)
        (nodeHash hasher right :: siblings, UInt8.ofNat bit :: bits, node)
      else
        let (siblings, bits, node) := proofPath stemPrefix right (depth + 1)
        (nodeHash hasher left :: siblings, UInt8.ofNat bit :: bits, node)
  | node, _ => ([], [], node)

/-- The value and the stem values that `get_proof` reads where its walk ended. -/
def proofLeaf (stemPrefix : Bytes) (subindex : Fin stemSubtreeWidth) : Node → Value × StemValues
  | .stem stem =>
      if stem.stemPrefix = stemPrefix then (getElem stem.values subindex subindex.isLt, stem.values)
      else (emptyValue, emptyStem)
  | _ => (emptyValue, emptyStem)

/-- The `for` loop of `verify_proof_with_hasher` over siblings and bits, deepest level
first.  It ends in `none` where the source returns `false` for a bit that is not `0` or `1`. -/
def climb : Digest → List (Digest × UInt8) → Option Digest
  | current, [] => some current
  | current, (sibling, bit) :: path =>
      if bit = 0 then climb (TreeHasher.hash hasher (current.val ++ sibling.val)) path
      else if bit = 1 then climb (TreeHasher.hash hasher (sibling.val ++ current.val)) path
      else none

/-- `verify_proof_with_hasher(root_hash, proof, hasher)`. -/
def verifyProofWithHasher (rootHash : Digest) (proof : MerkleProof) : Bool :=
  if proof.stemValues.length ≠ stemSubtreeWidth then false
  else
    match splitKey proof.key with
    | .error _ => false
    | .ok (stemPrefix, subindex) =>
        if proof.stemValues[subindex.val]? ≠ some proof.value then false
        else if proof.pathSiblings.length ≠ proof.pathBits.length then false
        else
          match climb hasher (hashStem hasher stemPrefix proof.stemValues)
            (proof.pathSiblings.reverse.zip proof.pathBits.reverse) with
          | none => false
          | some current => current == rootHash

end Operations

namespace Tree

variable {H : Type} [TreeHasher H]

/-- `Tree::new(hasher)`. -/
def new (hasher : H) : Tree H := ⟨.empty, hasher⟩

/-- `tree.root_hash()`. -/
def rootHash (tree : Tree H) : Digest := nodeHash tree.hasher tree.root

/-- `tree.insert(key, value)`: the tree after the call. -/
def insert (tree : Tree H) (key : Bytes) (value : Value) : Rs (Tree H) := do
  let (stemPrefix, subindex) ← splitKey key
  let root ← insertNode tree.hasher tree.root stemPrefix subindex value 0
  pure { tree with root := root }

/-- `tree.get(key)`. -/
def get (tree : Tree H) (key : Bytes) : Rs Value := do
  let (stemPrefix, subindex) ← splitKey key
  pure (getNode tree.root stemPrefix subindex 0)

/-- `tree.delete(key)`: the tree after the call. -/
def delete (tree : Tree H) (key : Bytes) : Rs (Tree H) := do
  let (stemPrefix, subindex) ← splitKey key
  pure { tree with root := deleteNode tree.hasher tree.root stemPrefix subindex 0 }

/-- `tree.get_proof(key)`. -/
def getProof (tree : Tree H) (key : Bytes) : Rs MerkleProof := do
  let (stemPrefix, subindex) ← splitKey key
  let (siblings, bits, node) := proofPath tree.hasher stemPrefix tree.root 0
  let (value, stemValues) := proofLeaf stemPrefix subindex node
  pure {
    key := key
    value := value
    stemValues := stemValues.toList
    pathSiblings := siblings
    pathBits := bits }

/-- `tree.verify_proof(root_hash, proof)`. -/
def verifyProof (tree : Tree H) (rootHash : Digest) (proof : MerkleProof) : Bool :=
  verifyProofWithHasher tree.hasher rootHash proof

end Tree

/-! ## Bits and keys are those of the reference client -/

theorem pathBitAt_eq (data : Bytes) (p : ℕ) : pathBitAt data p = Pbt.pathBitAt data p := by
  unfold pathBitAt Pbt.pathBitAt
  have hmod : p % 8 < 8 := Nat.mod_lt p (by decide)
  dsimp only
  split_ifs with h
  · have hshift : (UInt8.ofNat (7 - p % 8)).toNat = 7 - p % 8 :=
      UInt8.toNat_ofNat_of_lt' (show 7 - p % 8 < 256 by omega)
    rw [UInt8.toNat_and, UInt8.toNat_shiftRight, hshift, Nat.mod_eq_of_lt (by omega)]
    rfl
  · rfl
  · rfl

theorem splitKey_of_short {key : Bytes} (h : key.length < 2) :
    splitKey key = .error (.err "key must be at least 2 bytes") := dif_pos h

theorem splitKey_joinKey {s : Bytes} (hs : s ≠ []) (i : Fin stemSubtreeWidth) :
    splitKey (Pbt.joinKey s i) = .ok (s, i) := by
  have hlen : ¬ (Pbt.joinKey s i).length < 2 := not_lt.mpr (Pbt.two_le_length_joinKey_iff.mpr hs)
  unfold splitKey
  rw [dif_neg hlen]
  have htake : (Pbt.joinKey s i).take ((Pbt.joinKey s i).length - 1) = s := by
    rw [Pbt.length_joinKey, Nat.add_sub_cancel]
    exact List.take_left
  have hlast : (Pbt.joinKey s i).getLast (List.ne_nil_of_length_pos (by omega)) =
      UInt8.ofNat i.val := List.getLast_append_singleton _
  simp only [htake, hlast]
  congr
  exact UInt8.toNat_ofNat_of_lt' i.isLt

/-! ## Contents and stored hashes -/

/-- The contents of a node, without the stored hashes. -/
def Node.erase : Node → Pbt.Node
  | .empty => .emptyNode
  | .internal left right _ => .internalNode left.erase right.erase
  | .stem node => .stemNode node.stemPrefix node.values

@[simp] theorem erase_empty : Node.empty.erase = .emptyNode := rfl

@[simp] theorem erase_internal (l r : Node) (d : Digest) :
    (Node.internal l r d).erase = .internalNode l.erase r.erase := rfl

@[simp] theorem erase_stem (stem : StemNode) :
    (Node.stem stem).erase = .stemNode stem.stemPrefix stem.values := rfl

section Contents

variable {H : Type} [TreeHasher H] {hasher : H}

/-- The hash of a tree computed from scratch. -/
def contentHash (hasher : H) : Pbt.Node → Digest
  | .emptyNode => TreeHasher.hash hasher []
  | .internalNode left right =>
      TreeHasher.hashPair hasher (contentHash hasher left) (contentHash hasher right)
  | .stemNode stemPrefix values => hashStem hasher stemPrefix values.toList

/-- **Every stored hash is right.** -/
def Node.Hashed (hasher : H) : Node → Prop
  | .empty => True
  | .internal left right hash =>
      left.Hashed hasher ∧ right.Hashed hasher ∧
        hash = contentHash hasher (.internalNode left.erase right.erase)
  | .stem _ => True

/-- A node that holds `t` and stores the right hashes. -/
structure Represents (hasher : H) (n : Node) (t : Pbt.Node) : Prop where
  erase : n.erase = t
  hashed : n.Hashed hasher

/-- `node_hash` reads the hash of the contents. -/
theorem nodeHash_eq_contentHash {n : Node} (hn : n.Hashed hasher) :
    nodeHash hasher n = contentHash hasher n.erase := by
  cases n with
  | empty => rfl
  | stem stem => rfl
  | internal l r d => exact hn.2.2

/-- **The contents determine the node**, stored hashes included. -/
theorem Represents.unique {n n' : Node} {t : Pbt.Node} (h : Represents hasher n t)
    (h' : Represents hasher n' t) : n = n' := by
  induction n generalizing n' t with
  | empty =>
      have herase : n'.erase = .emptyNode := h'.erase.trans h.erase.symm
      cases n' with
      | empty => rfl
      | internal l' r' d' => cases herase
      | stem stem' => cases herase
  | stem stem =>
      have herase : n'.erase = .stemNode stem.stemPrefix stem.values := h'.erase.trans h.erase.symm
      cases n' with
      | empty => cases herase
      | internal l' r' d' => cases herase
      | stem stem' =>
          obtain ⟨s', vs'⟩ := stem'
          cases herase
          rfl
  | internal l r d ihl ihr =>
      have herase : n'.erase = .internalNode l.erase r.erase := h'.erase.trans h.erase.symm
      cases n' with
      | empty => cases herase
      | stem stem' => cases herase
      | internal l' r' d' =>
          obtain ⟨hl, hr, hd⟩ := h.hashed
          obtain ⟨hl', hr', hd'⟩ := h'.hashed
          obtain ⟨herasel, heraser⟩ := BitTrie.node.inj herase
          rw [ihl ⟨rfl, hl⟩ ⟨herasel, hl'⟩, ihr ⟨rfl, hr⟩ ⟨heraser, hr'⟩, hd, hd', herasel, heraser]

theorem represents_empty : Represents hasher .empty .emptyNode := ⟨rfl, trivial⟩

theorem represents_stem (stem : StemNode) :
    Represents hasher (.stem stem) (.stemNode stem.stemPrefix stem.values) := ⟨rfl, trivial⟩

/-- **`make_internal` stores the right hash.** -/
theorem represents_makeInternal {l r : Node} {tl tr : Pbt.Node} (hl : Represents hasher l tl)
    (hr : Represents hasher r tr) :
    Represents hasher (makeInternal hasher l r) (.internalNode tl tr) := by
  constructor
  · show Pbt.Node.internalNode l.erase r.erase = _
    rw [hl.erase, hr.erase]
  · -- the hashes of the children are read off them, and are right
    refine ⟨hl.hashed, hr.hashed, ?_⟩
    unfold internalHash
    rw [nodeHash_eq_contentHash hl.hashed, nodeHash_eq_contentHash hr.hashed]
    rfl

/-! ## The updates keep the stored hashes right -/

theorem refines_splitStems (existing : StemNode) (b : Bytes) (i : Fin stemSubtreeWidth) (v : Value)
    (fuel depth : ℕ) :
    Refines (Represents hasher) (splitStems hasher existing b i v fuel depth)
      (Pbt.splitStems existing.stemPrefix existing.values b i v fuel depth) := by
  induction fuel generalizing depth with
  | zero => exact Refines.error
  | succ fuel ih =>
      unfold splitStems Pbt.splitStems
      simp only [pathBitAt_eq]
      apply Refines.ite
      · intro _
        apply Refines.bind (ih (depth + 1))
        intro child t hchild
        apply Refines.ite
        · intro _
          exact Refines.ok (represents_makeInternal hchild represents_empty)
        · intro _
          exact Refines.ok (represents_makeInternal represents_empty hchild)
      · intro _
        have hexisting : Represents hasher (.stem existing) _ := represents_stem existing
        have hnew : Represents hasher (.stem ((StemNode.new b).set i v)) _ := represents_stem _
        apply Refines.ite
        · intro _
          exact Refines.ok (represents_makeInternal hnew hexisting)
        · intro _
          exact Refines.ok (represents_makeInternal hexisting hnew)

/-- **`insert_node` does what the logical insert does**, and stores the right hashes. -/
theorem refines_insertNode {n : Node} (hn : n.Hashed hasher) (s : Bytes)
    (i : Fin stemSubtreeWidth) (v : Value) (depth : ℕ) :
    Refines (Represents hasher) (insertNode hasher n s i v depth)
      (Pbt.insertNode n.erase s i v depth) := by
  induction n generalizing depth with
  | empty => exact Refines.ok (represents_stem _)
  | stem stem =>
      unfold insertNode
      rw [erase_stem]
      unfold Pbt.insertNode
      apply Refines.ite
      · intro _
        exact Refines.ok (represents_stem _)
      · intro _
        exact refines_splitStems stem s i v _ depth
  | internal l r d ihl ihr =>
      obtain ⟨hl, hr, -⟩ := hn
      unfold insertNode
      rw [erase_internal]
      unfold Pbt.insertNode
      simp only [pathBitAt_eq]
      apply Refines.ite
      · intro _
        apply Refines.bind (ihl hl (depth + 1))
        intro l' tl hl'
        exact Refines.ok (represents_makeInternal hl' ⟨rfl, hr⟩)
      · intro _
        apply Refines.bind (ihr hr (depth + 1))
        intro r' tr hr'
        exact Refines.ok (represents_makeInternal ⟨rfl, hl⟩ hr')

/-- **The collapse**: both children empty, one empty and one stem, or a node built anew. -/
theorem represents_collapseInternal {l r : Node} (hl : l.Hashed hasher) (hr : r.Hashed hasher) :
    Represents hasher (collapseInternal hasher l r)
      (Pbt.collapseInternal l.erase r.erase) := by
  cases l <;> cases r
  case empty.empty => exact represents_empty
  case empty.stem stem => exact represents_stem stem
  case stem.empty stem => exact represents_stem stem
  all_goals exact represents_makeInternal ⟨rfl, hl⟩ ⟨rfl, hr⟩

/-- **`delete_node` does what the logical delete does**, and stores the right hashes. -/
theorem represents_deleteNode {n : Node} (hn : n.Hashed hasher) (s : Bytes)
    (i : Fin stemSubtreeWidth) (depth : ℕ) :
    Represents hasher (deleteNode hasher n s i depth) (Pbt.deleteNode n.erase s i depth) := by
  induction n generalizing depth with
  | empty => exact represents_empty
  | stem stem =>
      unfold deleteNode
      rw [erase_stem]
      unfold Pbt.deleteNode
      by_cases hs : stem.stemPrefix ≠ s
      · rw [if_pos hs, if_pos hs]
        exact represents_stem stem
      · rw [if_neg hs, if_neg hs]
        by_cases hempty : (stem.set i emptyValue).isEmpty = true
        · rw [if_pos hempty]
          dsimp only
          rw [if_pos (show Pbt.stemIsEmpty (stem.values.set i emptyValue) = true from hempty)]
          exact represents_empty
        · rw [if_neg hempty]
          dsimp only
          rw [if_neg (show ¬ Pbt.stemIsEmpty (stem.values.set i emptyValue) = true from hempty)]
          exact represents_stem _
  | internal l r d ihl ihr =>
      obtain ⟨hl, hr, -⟩ := hn
      unfold deleteNode
      rw [erase_internal]
      unfold Pbt.deleteNode
      simp only [pathBitAt_eq]
      split_ifs
      · rw [← (ihl hl (depth + 1)).erase]
        exact represents_collapseInternal (ihl hl (depth + 1)).hashed hr
      · rw [← (ihr hr (depth + 1)).erase]
        exact represents_collapseInternal hl (ihr hr (depth + 1)).hashed

/-- `get_node` reads the contents. -/
theorem getNode_erase (n : Node) (s : Bytes) (i : Fin stemSubtreeWidth) (depth : ℕ) :
    getNode n s i depth = Pbt.getNode n.erase s i depth := by
  induction n generalizing depth with
  | empty => rfl
  | stem stem => rfl
  | internal l r d ihl ihr =>
      unfold getNode
      rw [erase_internal]
      unfold Pbt.getNode
      simp only [pathBitAt_eq, ihl, ihr]

theorem proofLeaf_erase (s : Bytes) (i : Fin stemSubtreeWidth) (n : Node) :
    proofLeaf s i n = Pbt.proofLeaf s i n.erase := by
  cases n <;> rfl

/-! ## The calls on a tree -/

/-- A key that splits in the reference client splits into the same slot. -/
theorem refines_splitKey (key : Bytes) :
    Refines Eq (splitKey key) (Pbt.splitKey key) := by
  rintro ⟨s, i⟩ hsplit
  obtain ⟨rfl, hlen⟩ := Pbt.splitKey_eq_ok_iff.mp hsplit
  exact ⟨(s, i), splitKey_joinKey (Pbt.two_le_length_joinKey_iff.mp hlen) i, rfl⟩

namespace Tree

/-- **The invariant of a tree** with the given hasher: it holds `t`, and every
stored hash is right. -/
structure Represents (hasher : H) (tree : Tree H) (t : Pbt.Node) : Prop where
  hasher_eq : tree.hasher = hasher
  root : PbtRs.Represents hasher tree.root t

variable {tree : Tree H} {t : Pbt.Node}

theorem represents_new : Represents hasher (new hasher) .emptyNode := ⟨rfl, represents_empty⟩

/-- Trees that hold the same contents are the same. -/
theorem Represents.unique {tree' : Tree H} (h : Represents hasher tree t)
    (h' : Represents hasher tree' t) : tree = tree' := by
  obtain ⟨root, hasher₁⟩ := tree
  obtain ⟨root', hasher₂⟩ := tree'
  cases h.hasher_eq
  cases h'.hasher_eq
  rw [show root = root' from PbtRs.Represents.unique h.root h'.root]

theorem refines_insert (h : Represents hasher tree t) (key : Bytes) (value : Value) :
    Refines (Represents hasher) (tree.insert key value) (Pbt.insert t key value.val) := by
  obtain ⟨rfl, rfl, hroot⟩ := h
  unfold insert Pbt.insert
  rw [dif_pos value.property]
  apply Refines.bind (refines_splitKey key)
  rintro slot _ rfl
  exact (refines_insertNode hroot slot.1 slot.2 value 0).bind_pure fun root t' h => ⟨rfl, h⟩

theorem refines_delete (h : Represents hasher tree t) (key : Bytes) :
    Refines (Represents hasher) (tree.delete key) (Pbt.delete t key) := by
  obtain ⟨rfl, rfl, hroot⟩ := h
  unfold delete Pbt.delete
  apply Refines.bind (refines_splitKey key)
  rintro slot _ rfl
  exact Refines.ok ⟨rfl, represents_deleteNode hroot slot.1 slot.2 0⟩

theorem refines_get (h : Represents hasher tree t) (key : Bytes) :
    Refines Eq (tree.get key) (Pbt.get t key) := by
  obtain ⟨rfl, rfl, -⟩ := h
  unfold get Pbt.get
  apply Refines.bind (refines_splitKey key)
  rintro slot _ rfl
  exact Refines.ok (getNode_erase tree.root slot.1 slot.2 0)

/-- `get` at the key of a slot reads that slot of the contents. -/
theorem get_joinKey (h : Represents hasher tree t) {s : Bytes} (hs : s ≠ [])
    (i : Fin stemSubtreeWidth) :
    tree.get (Pbt.joinKey s i) = .ok (getElem ((Pbt.storedStem t s).getD emptyStem) i i.isLt) := by
  obtain ⟨value, hget, rfl⟩ := refines_get h _ _ (Pbt.get_joinKey hs i)
  exact hget

/-- `root_hash` is the hash of the contents. -/
theorem rootHash_eq (h : Represents hasher tree t) : tree.rootHash = contentHash hasher t := by
  obtain ⟨rfl, rfl, hroot⟩ := h
  exact nodeHash_eq_contentHash hroot

end Tree

end Contents

end PbtRs
