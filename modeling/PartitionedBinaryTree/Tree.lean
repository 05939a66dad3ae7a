/-
# The core tree operations (`pbt/tree.py`)

`insert`, `get`, `delete`, `root_hash`, `get_proof` and `verify_proof` on the
logical state of the tree, each written as the function of the same name in the
reference client.  The functions that recurse on a node are `insertNode`,
`getNode` and `deleteNode` (the source's `_insert`, `_get`, `_delete`).

`insertNode_eq_upsert`, `getNode_eq_lookup` and `deleteNode_eq_prune` identify
them with the updates of a binary trie whose keys are stem prefixes, read
through `pathBit`; `pathBit_separates` is what makes that reading injective.
-/
import PartitionedBinaryTree.Nodes
import Mathlib.Data.Nat.Bitwise

namespace Pbt

open Node

/-! ## Bit helpers -/

/-- `_path_bit_at(data, position)`: the bit at `position`, most significant bit
first, with an implicit terminator bit after the payload. -/
def pathBitAt (data : Bytes) (position : ℕ) : ℕ :=
  let byteIndex := position / 8
  let bitIndex := position % 8
  if h : byteIndex < data.length then
    (data[byteIndex].toNat >>> (7 - bitIndex)) &&& 1
  else if byteIndex = data.length ∧ bitIndex = 0 then 1
  else 0

/-- Whether a walk along `data` turns right at `position`. -/
def pathBit (data : Bytes) (position : ℕ) : Bool := pathBitAt data position != 0

/-! ## Key splitting -/

/-- `split_key(key)`: the stem prefix and the subindex. -/
def splitKey (key : Bytes) : Py (Bytes × Fin stemSubtreeWidth) :=
  match key.getLast? with
  | some b =>
      if key.length < 2 then raiseValueError ("Key too short: " ++ bytesRepr key)
      else .ok (key.dropLast, ⟨b.toNat, b.toNat_lt⟩)
  | none => raiseValueError ("Key too short: " ++ bytesRepr key)

/-! ## Insert -/

/-- The number of positions from `depth` on at which two prefixes can still
part: from the end of the longer one's terminator on all their bits are `0`. -/
def splitFuel (a b : Bytes) (depth : ℕ) : ℕ := 8 * max a.length b.length + 1 - depth

/-- `_split_stems`.  The fuel is `splitFuel` of the two prefixes; when it runs
out the bits agree for ever and the recursion of the source does not return.  How
deep the interpreter lets a recursion go is not modelled, here and elsewhere. -/
def splitStems (existingPrefix : Bytes) (existingValues : StemValues) (newPrefix : Bytes)
    (subindex : Fin stemSubtreeWidth) (value : Value) : ℕ → ℕ → Py Node
  | 0, _ => .error recursionError
  | fuel + 1, depth =>
      let bitExisting := pathBitAt existingPrefix depth
      let bitNew := pathBitAt newPrefix depth
      if bitExisting = bitNew then do
        -- Bits still agree; descend one more level.
        let child ← splitStems existingPrefix existingValues newPrefix subindex value fuel (depth + 1)
        if bitExisting = 0 then pure (internalNode child emptyNode)
        else pure (internalNode emptyNode child)
      else
        let existing := stemNode existingPrefix existingValues
        let newStem := stemNode newPrefix (emptyStem.set subindex value)
        if bitNew = 0 then pure (internalNode newStem existing)
        else pure (internalNode existing newStem)

/-- `_insert`. -/
def insertNode : Node → Bytes → Fin stemSubtreeWidth → Value → ℕ → Py Node
  | .emptyNode, stemPrefix, subindex, value, _ =>
      pure (stemNode stemPrefix (emptyStem.set subindex value))
  | .stemNode existingPrefix values, stemPrefix, subindex, value, depth =>
      if existingPrefix = stemPrefix then pure (stemNode existingPrefix (values.set subindex value))
      else splitStems existingPrefix values stemPrefix subindex value
        (splitFuel existingPrefix stemPrefix depth) depth
  | .internalNode left right, stemPrefix, subindex, value, depth =>
      let bit := pathBitAt stemPrefix depth
      if bit = 0 then do
        let left' ← insertNode left stemPrefix subindex value (depth + 1)
        pure (internalNode left' right)
      else do
        let right' ← insertNode right stemPrefix subindex value (depth + 1)
        pure (internalNode left right')

/-- `insert(root, key, value)`. -/
def insert (root : Node) (key value : Bytes) : Py Node :=
  if h : value.length = 32 then do
    let (stemPrefix, subindex) ← splitKey key
    insertNode root stemPrefix subindex ⟨value, h⟩ 0
  else raiseValueError "value must be exactly 32 bytes"

/-! ## Get -/

/-- `_get`. -/
def getNode : Node → Bytes → Fin stemSubtreeWidth → ℕ → Value
  | .emptyNode, _, _, _ => emptyValue
  | .stemNode existingPrefix values, stemPrefix, subindex, _ =>
      if existingPrefix = stemPrefix then values[subindex] else emptyValue
  | .internalNode left right, stemPrefix, subindex, depth =>
      let bit := pathBitAt stemPrefix depth
      if bit = 0 then getNode left stemPrefix subindex (depth + 1)
      else getNode right stemPrefix subindex (depth + 1)

/-- `get(root, key)`. -/
def get (root : Node) (key : Bytes) : Py Value := do
  let (stemPrefix, subindex) ← splitKey key
  pure (getNode root stemPrefix subindex 0)

/-! ## Delete -/

/-- The canonical collapse at the end of `_delete`: both children empty, one
empty and one `StemNode`, or an `InternalNode` that stays. -/
def collapseInternal : Node → Node → Node
  | .emptyNode, .emptyNode => emptyNode
  | .emptyNode, .stemNode stemPrefix values => stemNode stemPrefix values
  | .stemNode stemPrefix values, .emptyNode => stemNode stemPrefix values
  | left, right => internalNode left right

/-- `_delete`. -/
def deleteNode : Node → Bytes → Fin stemSubtreeWidth → ℕ → Node
  | .emptyNode, _, _, _ => emptyNode
  | .stemNode existingPrefix values, stemPrefix, subindex, _ =>
      if existingPrefix ≠ stemPrefix then stemNode existingPrefix values
      else
        let values' := values.set subindex emptyValue
        if stemIsEmpty values' then emptyNode else stemNode existingPrefix values'
  | .internalNode left right, stemPrefix, subindex, depth =>
      let bit := pathBitAt stemPrefix depth
      if bit = 0 then collapseInternal (deleteNode left stemPrefix subindex (depth + 1)) right
      else collapseInternal left (deleteNode right stemPrefix subindex (depth + 1))

/-- `delete(root, key)`. -/
def delete (root : Node) (key : Bytes) : Py Node := do
  let (stemPrefix, subindex) ← splitKey key
  pure (deleteNode root stemPrefix subindex 0)

/-! ## Root hash -/

/-- `root_hash(root)`. -/
def rootHash (H : HashFunction) (root : Node) : Logged Bytes Digest := nodeHash H root

/-! ## Proof generation and verification -/

/-- `MerkleProof`: the dataclass puts no bound on any width or length. -/
structure MerkleProof where
  key : Bytes
  value : Bytes
  stemValues : List Bytes
  pathSiblings : List Bytes
  pathBits : List ℤ
  deriving DecidableEq, Repr

/-- The `while` loop of `get_proof`: sibling hashes and bits from the node
downward, and the node where the walk ends. -/
def proofPath (H : HashFunction) (stemPrefix : Bytes) :
    Node → ℕ → Logged Bytes (List Bytes × List ℤ × Node)
  | .internalNode left right, depth => do
      let bit := pathBitAt stemPrefix depth
      if bit = 0 then
        let sibling ← nodeHash H right
        let (siblings, bits, node) ← proofPath H stemPrefix left (depth + 1)
        pure (sibling.val :: siblings, (bit : ℤ) :: bits, node)
      else
        let sibling ← nodeHash H left
        let (siblings, bits, node) ← proofPath H stemPrefix right (depth + 1)
        pure (sibling.val :: siblings, (bit : ℤ) :: bits, node)
  | node, _ => pure ([], [], node)

/-- The value and the stem values that `get_proof` reads where its walk ended. -/
def proofLeaf (stemPrefix : Bytes) (subindex : Fin stemSubtreeWidth) : Node → Value × StemValues
  | .stemNode existingPrefix values =>
      if existingPrefix = stemPrefix then (values[subindex], values) else (emptyValue, emptyStem)
  | _ => (emptyValue, emptyStem)

/-- `get_proof(root, key)`. -/
def getProof (H : HashFunction) (root : Node) (key : Bytes) : Py (Logged Bytes MerkleProof) := do
  let (stemPrefix, subindex) ← splitKey key
  pure do
    let (siblings, bits, node) ← proofPath H stemPrefix root 0
    let (value, stemValues) := proofLeaf stemPrefix subindex node
    pure {
      key := key
      value := value.val
      stemValues := stemBytes stemValues
      pathSiblings := siblings
      pathBits := bits }

/-- `_hash_stem(stem_prefix, values)`. -/
def hashStem (H : HashFunction) (stemPrefix : Bytes) (values : List Bytes) :
    Logged Bytes Digest :=
  treeHash H (stemPayload stemPrefix values)

/-- One level of the walk back up: bit `0` puts the sibling on the right. -/
def climbStep (H : HashFunction) (current : Digest) (sibling : Bytes) (bit : ℤ) :
    Logged Bytes Digest :=
  if bit = 0 then treeHash H (current.val ++ sibling) else treeHash H (sibling ++ current.val)

/-- The `for` loop of `verify_proof` over siblings and bits, deepest level first. -/
def climb (H : HashFunction) : Digest → List (Bytes × ℤ) → Logged Bytes Digest
  | current, [] => pure current
  | current, (sibling, bit) :: path => do
      let current' ← climbStep H current sibling bit
      climb H current' path

/-- `verify_proof(rh, proof)`. -/
def verifyProof (H : HashFunction) (rh : Bytes) (proof : MerkleProof) :
    Py (Logged Bytes Bool) := do
  let (stemPrefix, subindex) ← splitKey proof.key
  if proof.stemValues.length ≠ stemSubtreeWidth then pure (pure false)
  else if proof.stemValues[subindex.val]? ≠ some proof.value then pure (pure false)
  else pure do
    let current ← hashStem H stemPrefix proof.stemValues
    if proof.pathSiblings.length ≠ proof.pathBits.length then pure false
    else
      let root ← climb H current (proof.pathSiblings.reverse.zip proof.pathBits.reverse)
      pure (root.val == rh)

/-! ## The path bits of a prefix -/

theorem pathBitAt_eq_zero_or_one (data : Bytes) (p : ℕ) :
    pathBitAt data p = 0 ∨ pathBitAt data p = 1 := by
  unfold pathBitAt
  simp only [Nat.and_one_is_mod]
  split_ifs
  · omega
  · exact Or.inr rfl
  · exact Or.inl rfl

theorem pathBit_eq_false_iff {data : Bytes} {p : ℕ} :
    pathBit data p = false ↔ pathBitAt data p = 0 := by
  simp [pathBit]

theorem pathBit_eq_true_iff {data : Bytes} {p : ℕ} :
    pathBit data p = true ↔ pathBitAt data p ≠ 0 := by
  simp [pathBit]

/-- Two prefixes have the same bit exactly when a walk turns the same way. -/
theorem pathBitAt_eq_iff {a b : Bytes} {p : ℕ} :
    pathBitAt a p = pathBitAt b p ↔ pathBit a p = pathBit b p := by
  rcases pathBitAt_eq_zero_or_one a p with ha | ha <;>
    rcases pathBitAt_eq_zero_or_one b p with hb | hb <;> simp [pathBit, ha, hb]

/-- Inside the payload a path bit is a bit of the byte it falls in. -/
theorem pathBit_of_lt {data : Bytes} {i j : ℕ} (hi : i < data.length) (hj : j < 8) :
    pathBit data (8 * i + j) = data[i].toNat.testBit (7 - j) := by
  have hdiv : (8 * i + j) / 8 = i := by omega
  have hmod : (8 * i + j) % 8 = j := by omega
  simp only [pathBit, pathBitAt, hdiv, hmod, dif_pos hi, Nat.testBit, Nat.and_comm]

/-- The terminator bit stands right after the payload. -/
theorem pathBit_terminator (data : Bytes) : pathBit data (8 * data.length) = true := by
  simp [pathBit, pathBitAt]

/-- After the terminator all bits are `0`. -/
theorem pathBit_of_gt {data : Bytes} {p : ℕ} (h : 8 * data.length < p) :
    pathBit data p = false := by
  have hge : ¬ p / 8 < data.length := by omega
  have hterm : ¬ (p / 8 = data.length ∧ p % 8 = 0) := by omega
  simp [pathBit, pathBitAt, hge, hterm]

/-- A byte is determined by its eight bits. -/
theorem byte_eq_of_testBit {x y : UInt8} (h : ∀ j < 8, x.toNat.testBit j = y.toNat.testBit j) :
    x = y := by
  apply UInt8.toNat_inj.mp
  apply Nat.eq_of_testBit_eq
  intro j
  by_cases hj : j < 8
  · exact h j hj
  · have hpow : 2 ^ 8 ≤ 2 ^ j := Nat.pow_le_pow_right (by decide) (by omega)
    rw [Nat.testBit_lt_two_pow (lt_of_lt_of_le x.toNat_lt hpow),
      Nat.testBit_lt_two_pow (lt_of_lt_of_le y.toNat_lt hpow)]

/-- **Distinct prefixes part**, at the latest at the terminator of the longer one:
prefixes of different lengths there, others at a bit of a byte they differ in. -/
theorem exists_pathBit_ne {a b : Bytes} (h : a ≠ b) :
    ∃ p ≤ 8 * max a.length b.length, pathBit a p ≠ pathBit b p := by
  rcases Nat.lt_trichotomy a.length b.length with hlt | heq | hgt
  · refine ⟨8 * b.length, by omega, ?_⟩
    rw [pathBit_terminator, pathBit_of_gt (by omega)]
    exact Bool.false_ne_true
  · -- some byte differs, and with it one of its bits
    by_contra hall
    push Not at hall
    refine h (List.ext_getElem heq fun i hi hi' => byte_eq_of_testBit fun j hj => ?_)
    have hbit := hall (8 * i + (7 - j)) (by omega)
    rw [pathBit_of_lt hi (by omega), pathBit_of_lt hi' (by omega),
      show 7 - (7 - j) = j by omega] at hbit
    exact hbit
  · refine ⟨8 * a.length, by omega, ?_⟩
    rw [pathBit_terminator, pathBit_of_gt (by omega)]
    exact Bool.false_ne_true.symm

/-- The position by which two distinct prefixes have parted. -/
def splitBound (a b : Bytes) : ℕ := 8 * max a.length b.length + 1

theorem pathBit_separates : BitTrie.Separates pathBit splitBound := by
  intro a b h
  obtain ⟨p, hp, hne⟩ := exists_pathBit_ne h
  exact ⟨p, Nat.lt_succ_of_le hp, hne⟩

/-! ## The operations as updates of a trie -/

/-- Write one slot of a stem, or of a fresh one. -/
def setSlot (subindex : Fin stemSubtreeWidth) (value : Value) (old : Option StemValues) :
    StemValues :=
  (old.getD emptyStem).set subindex value

/-- Empty one slot of a stem; an all-empty stem is dropped. -/
def clearSlot (subindex : Fin stemSubtreeWidth) (values : StemValues) : Option StemValues :=
  if stemIsEmpty (values.set subindex emptyValue) then none
  else some (values.set subindex emptyValue)

/-- A missing result stands for a recursion that does not return. -/
def orRecursionError {α : Type} : Option α → Py α
  | some a => .ok a
  | none => .error recursionError

theorem splitStems_eq_split (a b : Bytes) (vs : StemValues) (i : Fin stemSubtreeWidth) (v : Value)
    (fuel depth : ℕ) :
    splitStems a vs b i v fuel depth =
      orRecursionError (BitTrie.split pathBit a vs b (emptyStem.set i v i.isLt) fuel depth) := by
  induction fuel generalizing depth with
  | zero => rfl
  | succ fuel ih =>
      rw [splitStems, BitTrie.split]
      simp only [pathBitAt_eq_iff, ← pathBit_eq_false_iff]
      split_ifs with heq hbit hbit
      · rw [ih]
        cases BitTrie.split pathBit a vs b (emptyStem.set i v) fuel (depth + 1) with
        | none => rfl
        | some child => simp [orRecursionError, BitTrie.extend, hbit, bind, Except.bind, pure,
            Except.pure]
      · rw [ih]
        cases BitTrie.split pathBit a vs b (emptyStem.set i v) fuel (depth + 1) with
        | none => rfl
        | some child => simp [orRecursionError, BitTrie.extend, hbit, bind, Except.bind, pure,
            Except.pure]
      · simp [orRecursionError, BitTrie.fork, hbit, pure, Except.pure]
      · simp [orRecursionError, BitTrie.fork, hbit, pure, Except.pure]

/-- **`_insert` is the update of the stem's leaf that writes one slot.** -/
theorem insertNode_eq_upsert (t : Node) (s : Bytes) (i : Fin stemSubtreeWidth) (v : Value)
    (depth : ℕ) :
    insertNode t s i v depth =
      orRecursionError (BitTrie.upsert pathBit splitBound (setSlot i v) s t depth) := by
  induction t generalizing depth with
  | empty => rfl
  | leaf s' vs =>
      rw [insertNode, BitTrie.upsert]
      split_ifs
      · rfl
      · exact splitStems_eq_split _ _ _ _ _ _ _
  | node l r ihl ihr =>
      rw [insertNode, BitTrie.upsert]
      simp only [← pathBit_eq_false_iff]
      cases hbit : pathBit s depth
      · simp only [if_true, Bool.false_eq_true, if_false, ihl]
        cases BitTrie.upsert pathBit splitBound (setSlot i v) s l (depth + 1) <;> rfl
      · simp only [if_true, Bool.true_eq_false, if_false, ihr]
        cases BitTrie.upsert pathBit splitBound (setSlot i v) s r (depth + 1) <;> rfl

/-- **`_get` reads a slot of the stem that the trie lookup finds.** -/
theorem getNode_eq_lookup (t : Node) (s : Bytes) (i : Fin stemSubtreeWidth) (depth : ℕ) :
    getNode t s i depth =
      getElem ((BitTrie.lookup pathBit s t depth).getD emptyStem) i i.isLt := by
  induction t generalizing depth with
  | empty => simp [getNode, BitTrie.lookup]
  | leaf s' vs =>
      rw [getNode, BitTrie.lookup]
      split_ifs <;> simp
  | node l r ihl ihr =>
      rw [getNode, BitTrie.lookup]
      simp only [← pathBit_eq_false_iff]
      cases hbit : pathBit s depth
      · simp only [if_true, Bool.false_eq_true, if_false, ihl]
      · simp only [if_true, Bool.true_eq_false, if_false, ihr]

theorem collapseInternal_eq_collapse (l r : Node) :
    collapseInternal l r = BitTrie.collapse l r := by
  cases l <;> cases r <;> rfl

/-- **`_delete` is the removal of one slot of the stem's leaf.** -/
theorem deleteNode_eq_prune (t : Node) (s : Bytes) (i : Fin stemSubtreeWidth) (depth : ℕ) :
    deleteNode t s i depth = BitTrie.prune pathBit (clearSlot i) s t depth := by
  induction t generalizing depth with
  | empty => rfl
  | leaf s' vs =>
      rw [deleteNode, BitTrie.prune, clearSlot]
      by_cases hs : s' = s
      · rw [if_neg (not_not.mpr hs), if_pos hs]
        dsimp only
        split_ifs <;> rfl
      · rw [if_pos hs, if_neg hs]
  | node l r ihl ihr =>
      rw [deleteNode, BitTrie.prune]
      simp only [← pathBit_eq_false_iff, collapseInternal_eq_collapse]
      cases hbit : pathBit s depth
      · simp only [if_true, Bool.false_eq_true, if_false, ihl]
      · simp only [if_true, Bool.true_eq_false, if_false, ihr]

end Pbt
