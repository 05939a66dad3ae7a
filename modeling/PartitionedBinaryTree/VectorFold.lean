/-
# VectorFold proofs (`pbt-rs/src/proof_format.rs`)

A VectorFold proof carries the stem values of a key and one fold step per level,
with the digest that the level hashes to.  The builder hashes the stem and goes up
with the functions of `hash.rs`, where the tree went through `ModeHasher`; the two
agree level by level (`foldPath_spec`), so that the proof that is built for a stored stem
ends at the root hash and is accepted (`vectorFold_complete`).

`split_key` of this file is the one of `tree.rs`.
-/
import PartitionedBinaryTree.ModeCompleteness

namespace PbtRs

open Pbt (StemValues Value Digest stemSubtreeWidth emptyValue joinKey storedStem)

/-- `enum ProofMode`. -/
inductive ProofMode
  | blake3
  | poseidon2
  | geminiHash
  deriving DecidableEq, Repr

/-- `mode.as_hash_function()`. -/
def ProofMode.asHashFunction : ProofMode → HashFunction
  | .blake3 => .blake3
  | .poseidon2 => .poseidon2
  | .geminiHash => .gemini

/-- `struct FoldStep`. -/
structure FoldStep where
  foldFactor : UInt8
  commitment : Digest
  proofData : Bytes
  deriving DecidableEq, Repr

/-- `struct VectorFoldProof`. -/
structure VectorFoldProof where
  key : Bytes
  value : Value
  stemValues : StemValues
  pathFolds : List FoldStep
  finalRoot : Digest
  mode : ProofMode
  deriving DecidableEq, Repr

/-- `vec_to_fixed_256(values)`. -/
def vecToFixed256 (values : List Value) : Option StemValues :=
  if h : values.length = stemSubtreeWidth then some ⟨values.toArray, h⟩ else none

/-- `vec_to_fixed_256(values).ok_or_else(..)?` of the builder. -/
def stemWidthOr (values : List Value) : Rs StemValues :=
  match vecToFixed256 values with
  | some stemValues => pure stemValues
  | none => .error (.err "invalid stem width in proof")

section

variable (primitives : Primitives)

/-- The two orders of a level, by its bit. -/
def levelHash (mode : HashFunction) (current sibling : Digest) (bit : UInt8) :
    Logged Query Digest :=
  if bit = 0 then treeHash primitives current sibling mode
  else treeHash primitives sibling current mode

/-- The `for` loop of `build_vector_fold_proof` over siblings and bits, deepest level first:
the fold steps and the last `current`. -/
def foldPath (mode : HashFunction) : Digest → List (Digest × UInt8) → Rs (List FoldStep × Digest)
  | current, [] => pure ([], current)
  | current, (sibling, bit) :: path =>
      if bit ≠ 0 ∧ bit ≠ 1 then .error (.err "invalid path bit in proof")
      else do
        let commitment := (levelHash primitives mode current sibling bit).val
        let (pathFolds, root) ← foldPath mode commitment path
        pure (⟨2, commitment, bit :: sibling.val⟩ :: pathFolds, root)

/-- `build_vector_fold_proof(tree, key, mode)`. -/
def buildVectorFoldProof {H : Type} [TreeHasher H] (tree : Tree H) (key : Bytes)
    (mode : ProofMode) : Rs VectorFoldProof :=
  if mode ≠ .geminiHash ∧ mode ≠ .poseidon2 then
    .error (.err "VectorFold proof mode requires GeminiHash or Poseidon2")
  else do
    let proof ← tree.getProof key
    let hashMode := mode.asHashFunction
    let (stemPrefix, _) ← splitKey proof.key
    let stemValues ← stemWidthOr proof.stemValues
    let current := (hashStemMode primitives stemPrefix stemValues hashMode).val
    let (pathFolds, current) ← foldPath primitives hashMode current
      (proof.pathSiblings.reverse.zip proof.pathBits.reverse)
    if current ≠ tree.rootHash then
      .error (.err "vector fold mode does not match tree hashing mode")
    else do
      let stemValues ← stemWidthOr proof.stemValues
      pure {
        key := proof.key
        value := proof.value
        stemValues := stemValues
        pathFolds := pathFolds
        finalRoot := current
        mode := mode }

/-- The `for` loop of `verify_vector_fold_proof`.  It ends in `none` where the source
returns `false`. -/
def checkFolds (mode : HashFunction) : Digest → List FoldStep → Logged Query (Option Digest)
  | current, [] => pure (some current)
  | current, step :: pathFolds =>
      if step.foldFactor ≠ 2 then pure none
      else if step.proofData.length ≠ 33 then pure none
      else
        let bit := step.proofData.headD 0
        if bit ≠ 0 ∧ bit ≠ 1 then pure none
        else do
          let sibling : Digest := .copyFrom 32 (slice step.proofData 1 32)
          let expected ← levelHash primitives mode current sibling bit
          if expected ≠ step.commitment then pure none
          else checkFolds mode expected pathFolds

/-- `verify_vector_fold_proof(proof)`. -/
def verifyVectorFoldProof (proof : VectorFoldProof) : Logged Query Bool :=
  if proof.mode ≠ .geminiHash ∧ proof.mode ≠ .poseidon2 then pure false
  else
    let hashMode := proof.mode.asHashFunction
    match splitKey proof.key with
    | .error _ => pure false
    | .ok (stemPrefix, subindex) =>
        if getElem proof.stemValues subindex subindex.isLt ≠ proof.value then pure false
        else do
          let current ← hashStemMode primitives stemPrefix proof.stemValues hashMode
          let root ← checkFolds primitives hashMode current proof.pathFolds
          pure (root == some proof.finalRoot)

end

/-! ## The levels of a path -/

variable {primitives : Primitives}

/-- One level of the climb by pairs. -/
theorem val_levelHash (mode : HashFunction) (current sibling : Digest) (bit : UInt8) :
    (levelHash primitives mode current sibling bit).val =
      if bit = 0 then (treeHash primitives current sibling mode).val
      else (treeHash primitives sibling current mode).val := by
  rw [levelHash]
  split_ifs
  · rfl
  · rfl

/-- A level that the builder makes is one that the verifier passes. -/
theorem checkFolds_cons (mode : HashFunction) (current sibling : Digest) {bit : UInt8}
    (hbit : bit = 0 ∨ bit = 1) (pathFolds : List FoldStep) :
    (checkFolds primitives mode current
        (⟨2, (levelHash primitives mode current sibling bit).val, bit :: sibling.val⟩ ::
          pathFolds)).val =
      (checkFolds primitives mode (levelHash primitives mode current sibling bit).val
        pathFolds).val := by
  have hlen : (bit :: sibling.val).length = 33 := by rw [List.length_cons, sibling.property]
  have hslice : slice (bit :: sibling.val) 1 32 = sibling.val := by
    rw [slice, List.drop_one, List.tail_cons, List.take_of_length_le sibling.property.le]
  have hvalid : ¬ (bit ≠ 0 ∧ bit ≠ 1) := by tauto
  rw [checkFolds]
  dsimp only
  rw [if_neg (not_not.mpr rfl), if_neg (not_not.mpr hlen), List.headD_cons, if_neg hvalid, hslice,
    BytesN.copyFrom_val, Logged.val_bind, if_neg (not_not.mpr rfl)]

/-- **The two loops**: the builder goes up by pairs, and the verifier goes up after it. -/
theorem foldPath_spec (mode : HashFunction) (current : Digest) {path : List (Digest × UInt8)}
    (hbits : ∀ x ∈ path, x.2 = 0 ∨ x.2 = 1) :
    ∃ pathFolds,
      foldPath primitives mode current path = .ok (pathFolds,
        pairClimb (fun l r => (treeHash primitives l r mode).val) current path) ∧
      (checkFolds primitives mode current pathFolds).val =
        some (pairClimb (fun l r => (treeHash primitives l r mode).val) current path) := by
  induction path generalizing current with
  | nil => exact ⟨[], rfl, rfl⟩
  | cons x path ih =>
      obtain ⟨sibling, bit⟩ := x
      have hbit : bit = 0 ∨ bit = 1 := hbits (sibling, bit) List.mem_cons_self
      have hvalid : ¬ (bit ≠ 0 ∧ bit ≠ 1) := by tauto
      obtain ⟨pathFolds, hfold, hcheck⟩ :=
        ih (levelHash primitives mode current sibling bit).val fun x hx =>
          hbits x (List.mem_cons_of_mem _ hx)
      rw [val_levelHash] at hfold hcheck
      refine ⟨⟨2, (levelHash primitives mode current sibling bit).val, bit :: sibling.val⟩ ::
        pathFolds, ?_, ?_⟩
      · rw [foldPath, if_neg hvalid]
        dsimp only
        rw [val_levelHash, hfold]
        rfl
      · rw [checkFolds_cons mode current sibling hbit, val_levelHash, hcheck]
        rfl

/-! ## Completeness -/

/-- The modes of a VectorFold proof. -/
theorem ProofMode.supported {mode : ProofMode} (hmode : mode ≠ .blake3) :
    ¬ (mode ≠ .geminiHash ∧ mode ≠ .poseidon2) := by
  cases mode with
  | blake3 => exact absurd rfl hmode
  | poseidon2 => exact fun h => h.2 rfl
  | geminiHash => exact fun h => h.1 rfl

/-- The stem values of a generated proof have the full width. -/
theorem stemWidthOr_toList (values : StemValues) : stemWidthOr values.toList = .ok values := by
  rw [stemWidthOr, vecToFixed256, dif_pos Vector.length_toList]
  rfl

/-- **VectorFold completeness.**  In both modes, for every key whose stem is stored in a tree
that insert and delete reach, a proof is built; it is accepted, ends at the root hash, and
carries the key and the value that the tree holds there. -/
theorem vectorFold_complete (primitives : Primitives) {mode : ProofMode} (hmode : mode ≠ .blake3)
    (ops : List Pbt.TreeOp) {key : Bytes}
    (hstored : (Tree.run (ModeHasher.mk mode.asHashFunction primitives) ops).Stores key) :
    ∃ proof,
      buildVectorFoldProof primitives
        (Tree.run (ModeHasher.mk mode.asHashFunction primitives) ops) key mode = .ok proof ∧
      (verifyVectorFoldProof primitives proof).val = true ∧
      proof.finalRoot = (Tree.run (ModeHasher.mk mode.asHashFunction primitives) ops).rootHash ∧
      proof.key = key ∧
      (Tree.run (ModeHasher.mk mode.asHashFunction primitives) ops).get key = .ok proof.value := by
  have hrep := Tree.represents_run (ModeHasher.mk mode.asHashFunction primitives) ops
  generalize Tree.run (ModeHasher.mk mode.asHashFunction primitives) ops = tree at *
  obtain ⟨s, i, vs, rfl, hs, hstem⟩ := hstored.exists_storedStem hrep
  obtain ⟨siblings, bits, hproof, -, -, hbits, hroot⟩ := Tree.getProof_of_storedStem hrep hs i hstem
  rw [hashStem_eq] at hroot
  have hlevels : ∀ x ∈ siblings.reverse.zip bits.reverse, x.2 = 0 ∨ x.2 = 1 := fun x hx =>
    hbits x.2 (List.mem_reverse.mp (List.of_mem_zip hx).2)
  obtain ⟨pathFolds, hfold, hcheck⟩ := foldPath_spec mode.asHashFunction
    (hashStemMode primitives s vs mode.asHashFunction).val hlevels
  -- the pairs of the tree are those of the builder
  have hclimb : pairClimb (fun l r => (treeHash primitives l r mode.asHashFunction).val)
      (hashStemMode primitives s vs mode.asHashFunction).val
      (siblings.reverse.zip bits.reverse) = tree.rootHash := hroot
  rw [hclimb] at hfold hcheck
  refine ⟨⟨joinKey s i, vs[i], vs, pathFolds, tree.rootHash, mode⟩, ?_, ?_, rfl, rfl, ?_⟩
  · unfold buildVectorFoldProof
    rw [if_neg (ProofMode.supported hmode), hproof]
    simp only [bind, Except.bind, splitKey_joinKey hs, stemWidthOr_toList, hfold]
    rw [if_neg (not_not.mpr rfl)]
    rfl
  · unfold verifyVectorFoldProof
    rw [if_neg (ProofMode.supported hmode), splitKey_joinKey hs]
    dsimp only
    rw [if_neg (not_not.mpr rfl), Logged.val_bind, Logged.val_bind, hcheck]
    exact beq_self_eq_true _
  · rw [Tree.get_joinKey hrep hs, hstem]
    rfl

/-- The proof of one of two stems in the Gemini mode. -/
theorem vectorFold_complete_geminiPair :
    ∃ proof,
      buildVectorFoldProof (.source fun _ => emptyValue) geminiPair [0, 0] .geminiHash =
        .ok proof ∧
      (verifyVectorFoldProof (.source fun _ => emptyValue) proof).val = true ∧
      proof.finalRoot = geminiPair.rootHash ∧ proof.key = [0, 0] ∧
      geminiPair.get [0, 0] = .ok proof.value :=
  vectorFold_complete (.source fun _ => emptyValue) (by decide) _
    ⟨Nat.le_refl 2, Option.some_ne_none (headSlot Pbt.onesDigest)⟩

end PbtRs
