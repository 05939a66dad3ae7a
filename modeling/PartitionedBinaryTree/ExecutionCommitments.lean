/-
# Commitments of the execution layer (`pbt-rs/src/ethereum.rs`)

The execution layer commits to the root of a tree, and to the end of a vector fold, by the
Keccak hash of a tagged string.  The tag names the kind of commitment, the tag of the mode
follows it, and the rest has fixed widths, so that equal commitments are of one kind and have
equal fields, or collide (`commitments_bind_iff_eq`).

A commitment to the root of a BLAKE3 tree is then a commitment to the tree, with its mode
(`executionRoot_binds_tree`).

The `blake3` and `tiny_keccak` crates are parameters.
-/
import PartitionedBinaryTree.ClientAgreement
import PartitionedBinaryTree.Commitment
import PartitionedBinaryTree.Lib.PrefixFree
import PartitionedBinaryTree.RustEmbedding
import PartitionedBinaryTree.RustHash

open Pbt (Digest)

namespace PbtRs

/-! ## The functions of the source -/

/-- `keccak256`, with the function of the `tiny_keccak` crate. -/
def keccak256Of (keccak : Pbt.HashFunction) (data : Bytes) : Logged Bytes Digest :=
  Logged.query keccak data

/-- `mode_tag`. -/
def modeTag : HashFunction → Bytes
  | .blake3 => [98, 108, 97, 107, 101, 51]
  | .poseidon2 => [112, 111, 115, 101, 105, 100, 111, 110, 50]
  | .gemini => [103, 101, 109, 105, 110, 105]

/-- `b"PBT:EXEC:COMMITMENT:v1"`. -/
def executionDomain : Bytes :=
  [80, 66, 84, 58, 69, 88, 69, 67, 58, 67, 79, 77, 77, 73, 84, 77, 69, 78, 84, 58, 118, 49]

/-- `b"PBT:VECTORFOLD:COMMITMENT:v1"`. -/
def vectorFoldDomain : Bytes :=
  [80, 66, 84, 58, 86, 69, 67, 84, 79, 82, 70, 79, 76, 68, 58, 67, 79, 77, 77, 73, 84, 77, 69, 78,
    84, 58, 118, 49]

/-- `compute_execution_root_commitment`. -/
def computeExecutionRootCommitment (keccak : Pbt.HashFunction) (root : Digest)
    (mode : HashFunction) : Logged Bytes Digest :=
  keccak256Of keccak (executionDomain ++ modeTag mode ++ root.val)

/-- `compute_vector_fold_commitment`. -/
def computeVectorFoldCommitment (keccak : Pbt.HashFunction) (finalRoot : Digest)
    (mode : HashFunction) (stemCount : Usize) : Logged Bytes Digest :=
  keccak256Of keccak
    (vectorFoldDomain ++ modeTag mode ++ finalRoot.val ++ intToBytes32 stemCount)

/-! ## Commitments -/

/-- A commitment of one of the two kinds. -/
inductive ExecutionCommitment
  | executionRoot (root : Digest) (mode : HashFunction)
  | vectorFold (finalRoot : Digest) (mode : HashFunction) (stemCount : Usize)

/-- The two kinds. -/
inductive CommitmentKind
  | executionRoot
  | vectorFold
  deriving DecidableEq, Repr

/-- The tag of a kind. -/
def CommitmentKind.domain : CommitmentKind → Bytes
  | .executionRoot => executionDomain
  | .vectorFold => vectorFoldDomain

theorem kinds_prefixFree :
    PrefixFree [CommitmentKind.executionRoot, .vectorFold] CommitmentKind.domain := by decide

theorem modes_prefixFree :
    PrefixFree [HashFunction.blake3, .poseidon2, .gemini] modeTag := by decide

theorem mem_modes (mode : HashFunction) : mode ∈ [HashFunction.blake3, .poseidon2, .gemini] := by
  cases mode <;> decide

namespace ExecutionCommitment

/-- The call that computes a commitment. -/
def compute (keccak : Pbt.HashFunction) : ExecutionCommitment → Logged Bytes Digest
  | .executionRoot root mode => computeExecutionRootCommitment keccak root mode
  | .vectorFold finalRoot mode stemCount =>
      computeVectorFoldCommitment keccak finalRoot mode stemCount

/-- The kind of a commitment. -/
def kind : ExecutionCommitment → CommitmentKind
  | .executionRoot .. => .executionRoot
  | .vectorFold .. => .vectorFold

theorem mem_kinds (c : ExecutionCommitment) :
    c.kind ∈ [CommitmentKind.executionRoot, .vectorFold] := by
  cases c with
  | executionRoot root mode => exact List.mem_cons_self
  | vectorFold finalRoot mode stemCount => exact List.mem_cons_of_mem _ (List.mem_singleton_self _)

/-- What follows the tag in the string that is hashed. -/
def body : ExecutionCommitment → Bytes
  | .executionRoot root mode => modeTag mode ++ root.val
  | .vectorFold finalRoot mode stemCount =>
      modeTag mode ++ (finalRoot.val ++ intToBytes32 stemCount)

variable {keccak : Pbt.HashFunction} {c c' : ExecutionCommitment}

theorem compute_eq (c : ExecutionCommitment) :
    c.compute keccak = Logged.query keccak (c.kind.domain ++ c.body) := by
  cases c with
  | executionRoot root mode =>
      show Logged.query keccak (executionDomain ++ modeTag mode ++ root.val) = _
      rw [List.append_assoc]
      rfl
  | vectorFold finalRoot mode stemCount =>
      show Logged.query keccak
        (vectorFoldDomain ++ modeTag mode ++ finalRoot.val ++ intToBytes32 stemCount) = _
      rw [List.append_assoc, List.append_assoc]
      rfl

/-- A count is read off its 32 bytes. -/
theorem intToBytes32_injective : Function.Injective intToBytes32 := by
  intro m n h
  have htail := List.append_cancel_left h
  have hlt (k : Usize) : k.toNat < 256 ^ 8 := k.toNat_lt
  have hnat := natToBE_inj (hlt m) (hlt n) htail
  exact UInt64.toNat_inj.mp hnat

/-- The same body under the same tag is made of the same fields. -/
theorem eq_of_body_eq (hkind : c.kind = c'.kind) (hbody : c.body = c'.body) : c = c' := by
  cases c with
  | executionRoot root mode =>
      cases c' with
      | executionRoot root' mode' =>
          obtain ⟨rfl, hroot⟩ :=
            modes_prefixFree.eq_of_append_eq (mem_modes mode) (mem_modes mode') hbody
          rw [Subtype.ext hroot]
      | vectorFold => cases hkind
  | vectorFold finalRoot mode stemCount =>
      cases c' with
      | executionRoot => cases hkind
      | vectorFold finalRoot' mode' stemCount' =>
          obtain ⟨rfl, hrest⟩ :=
            modes_prefixFree.eq_of_append_eq (mem_modes mode) (mem_modes mode') hbody
          obtain ⟨hroot, hcount⟩ := List.append_inj hrest (by simp)
          rw [Subtype.ext hroot, intToBytes32_injective hcount]

/-- Equal commitments are made of the same kind and fields, or the strings they hash collide. -/
theorem eq_or_collision_of_compute_eq (keccak : Pbt.HashFunction) (c c' : ExecutionCommitment)
    (h : (c.compute keccak).val = (c'.compute keccak).val) :
    c = c' ∨ Collision keccak ((c.compute keccak).queries ++ (c'.compute keccak).queries) := by
  rw [compute_eq, compute_eq] at h ⊢
  rcases kinds_prefixFree.tag_eq_or_collision c.mem_kinds c'.mem_kinds
    (List.mem_append_left _ (List.mem_singleton_self _))
    (List.mem_append_right _ (List.mem_singleton_self _)) h with ⟨hkind, hbody⟩ | hcol
  · exact Or.inl (eq_of_body_eq hkind hbody)
  · exact Or.inr hcol

/-- **A commitment binds its kind and its fields**: two commitments are equal exactly when they
are made of the same kind and fields, up to a collision of the two strings they hash. -/
theorem commitments_bind_iff_eq (keccak : Pbt.HashFunction) (c c' : ExecutionCommitment) :
    (c.compute keccak).val = (c'.compute keccak).val ∨
        Collision keccak ((c.compute keccak).queries ++ (c'.compute keccak).queries) ↔
      c = c' ∨ Collision keccak ((c.compute keccak).queries ++ (c'.compute keccak).queries) :=
  (or_collision_congr (fun h => by rw [h]) (eq_or_collision_of_compute_eq keccak c c')).symm

end ExecutionCommitment

/-! ## The tree behind a commitment -/

section Trees

variable {blake3 : Pbt.HashFunction}

/-- The root of a BLAKE3 tree after a run is the root of the run in the reference client. -/
theorem rootHash_run (ops : List Pbt.TreeOp) :
    (Tree.run (Blake3Hasher.mk blake3) ops).rootHash = (Pbt.rootHash blake3 (Pbt.run ops)).val :=
  (Tree.rootHash_eq (Tree.represents_run _ ops)).trans (contentHash_blake3Hasher _)

/-- Runs end in one tree exactly when their logical trees are one. -/
theorem run_eq_iff {hasher : Blake3Hasher} {ops ops' : List Pbt.TreeOp} :
    Tree.run hasher ops = Tree.run hasher ops' ↔ Pbt.run ops = Pbt.run ops' := by
  have h := Tree.represents_run hasher ops
  have h' := Tree.represents_run hasher ops'
  constructor
  · intro heq
    rw [← h.root.erase, ← h'.root.erase, heq]
  · intro heq
    have hroot := h.root.unique (heq ▸ h'.root)
    have hhasher := h.hasher_eq.trans h'.hasher_eq.symm
    cases hrun : Tree.run hasher ops
    cases hrun' : Tree.run hasher ops'
    rw [hrun, hrun'] at hroot hhasher
    cases hroot
    cases hhasher
    rfl

/-- **A root commitment binds the tree.**  After any two runs of updates the commitments to the
two roots are equal exactly when the modes are the same and the runs end in one tree, up to a
collision of the two committed strings, or of what the nodes of the two trees hash. -/
theorem executionRoot_binds_tree (keccak blake3 : Pbt.HashFunction) (ops ops' : List Pbt.TreeOp)
    (mode mode' : HashFunction) :
    let tree := Tree.run (Blake3Hasher.mk blake3) ops
    let tree' := Tree.run (Blake3Hasher.mk blake3) ops'
    let commitment := computeExecutionRootCommitment keccak tree.rootHash mode
    let commitment' := computeExecutionRootCommitment keccak tree'.rootHash mode'
    let collides := Collision keccak (commitment.queries ++ commitment'.queries) ∨
      Collision blake3 ((Pbt.rootHash blake3 (Pbt.run ops)).queries ++
        (Pbt.rootHash blake3 (Pbt.run ops')).queries)
    commitment.val = commitment'.val ∨ collides ↔ (mode = mode' ∧ tree = tree') ∨ collides := by
  intro tree tree' commitment commitment' collides
  constructor
  · rintro (heq | hcol)
    · rcases ExecutionCommitment.eq_or_collision_of_compute_eq keccak
        (.executionRoot tree.rootHash mode) (.executionRoot tree'.rootHash mode') heq with hsame | hcol
      · obtain ⟨hroot, hmode⟩ := ExecutionCommitment.executionRoot.inj hsame
        rw [rootHash_run, rootHash_run] at hroot
        rcases Pbt.eq_or_collision_of_nodeHash_eq _ _ hroot with htree | hcol
        · exact Or.inl ⟨hmode, run_eq_iff.mpr htree⟩
        · exact Or.inr (Or.inr hcol)
      · exact Or.inr (Or.inl hcol)
    · exact Or.inr hcol
  · rintro (⟨hmode, htree⟩ | hcol)
    · left
      show (computeExecutionRootCommitment keccak tree.rootHash mode).val =
        (computeExecutionRootCommitment keccak tree'.rootHash mode').val
      rw [htree, hmode]
    · exact Or.inr hcol

end Trees

end PbtRs
