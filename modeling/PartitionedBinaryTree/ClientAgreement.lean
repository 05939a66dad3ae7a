/-
# The two clients agree

The reference client hashes lazily and remembers what it hashed in its nodes
(`PartitionedBinaryTree.HashCache`); the Rust client hashes eagerly and stores
the hashes in its nodes (`PartitionedBinaryTree.RustTree`).  Both refine the
calls on the contents of a tree (`ClientCall.apply`), and the hashes of both are
those of the contents, so that after every sequence of calls they hold the same
tree and give the same answers (`clients_agree`).

The calls are those of `scripts/run_cross_client_conformance.py` and of its
counterpart `pbt-rs/src/bin/conformance_case.rs`, which run one case after the
other in one process; a root hash or a proof may be asked for at any point.
-/
import PartitionedBinaryTree.HashCache
import PartitionedBinaryTree.RustTree

namespace PbtRs

open Pbt (Digest HashFunction ClientCall)

/-! ## A run of the Rust client -/

/-- One call; a value that is not 32 bytes wide is refused before the tree is called. -/
def Tree.apply {H : Type} [TreeHasher H] (tree : Tree H) : ClientCall → Rs (Tree H)
  | .newTree => .ok (new tree.hasher)
  | .update (.insert key value) =>
      if h : value.length = 32 then tree.insert key ⟨value, h⟩
      else .error (.err ("expected 32-byte value, got " ++ toString value.length ++ " bytes"))
  | .update (.delete key) => tree.delete key
  | .rootHash => .ok tree
  | .getProof key => do
      let _ ← tree.getProof key
      pure tree

section

variable {H : Type} [TreeHasher H] {hasher : H} {tree : Tree H} {t : Pbt.Node}

/-- **One call keeps the invariant** of the Rust tree. -/
theorem Tree.refines_apply (h : Represents hasher tree t) (call : ClientCall) :
    Refines (Represents hasher) (tree.apply call) (call.apply t) := by
  cases call with
  | newTree =>
      obtain ⟨rfl, -⟩ := h
      exact Refines.ok represents_new
  | rootHash => exact Refines.ok h
  | getProof key =>
      show Refines _ (tree.getProof key >>= _) (Pbt.splitKey key >>= _)
      unfold getProof
      rw [bind_assoc]
      apply Refines.bind (refines_splitKey key)
      intro slot _ _
      exact Refines.ok h
  | update op =>
      cases op with
      | delete key => exact refines_delete h key
      | insert key value =>
          by_cases hv : value.length = 32
          · show Refines _ (dite _ _ _) _
            rw [dif_pos hv]
            exact refines_insert h key ⟨value, hv⟩
          · -- the reference client refuses the value as well
            have herror : Pbt.insert t key value =
                Pbt.raiseValueError "value must be exactly 32 bytes" := dif_neg hv
            show Refines _ _ (Pbt.insert t key value)
            rw [herror]
            exact Refines.error

/-- **Every run of the Rust client** does to the contents what the logical run does. -/
theorem Tree.refines_foldlM (hasher : H) (calls : List ClientCall) :
    Refines (Represents hasher) (calls.foldlM Tree.apply (new hasher))
      (calls.foldlM ClientCall.apply .emptyNode) :=
  Refines.foldlM (fun _ _ call h => refines_apply h call) calls represents_new

end

/-! ## Updates by a caller that keeps its tree -/

/-- One update, by a caller that keeps its tree when the call returns an error. -/
def Tree.step {H : Type} [TreeHasher H] (tree : Tree H) (op : Pbt.TreeOp) : Tree H :=
  match tree.apply (.update op) with
  | .ok tree' => tree'
  | .error _ => tree

/-- A sequence of updates of a new tree. -/
def Tree.run {H : Type} [TreeHasher H] (hasher : H) (ops : List Pbt.TreeOp) : Tree H :=
  ops.foldl Tree.step (new hasher)

section

variable {H : Type} [TreeHasher H] {hasher : H} {tree : Tree H} {t : Pbt.Node}

/-- An update outside the contract returns an error. -/
theorem Tree.apply_of_not_valid {op : Pbt.TreeOp} (h : ¬ op.Valid) (tree : Tree H) :
    ∃ e, tree.apply (.update op) = .error e := by
  cases op with
  | delete key =>
      show ∃ e, tree.delete key = .error e
      unfold delete
      rw [splitKey_of_short (not_le.mp h)]
      exact ⟨_, rfl⟩
  | insert key value =>
      by_cases hv : value.length = 32
      · show ∃ e, dite _ _ _ = Except.error e
        rw [dif_pos hv]
        unfold insert
        rw [splitKey_of_short (not_le.mp fun hk => h ⟨hk, hv⟩)]
        exact ⟨_, rfl⟩
      · exact ⟨_, dif_neg hv⟩

/-- One update does to the contents what the logical update does. -/
theorem Tree.represents_step (h : Represents hasher tree t) (ht : Pbt.WellFormed t)
    (op : Pbt.TreeOp) : Represents hasher (tree.step op) (Pbt.step t op) := by
  unfold step Pbt.step
  by_cases hvalid : op.Valid
  · obtain ⟨t', hop, -⟩ := ClientCall.apply_valid ht (show (ClientCall.update op).Valid from hvalid)
    obtain ⟨tree', htree, h'⟩ := refines_apply h (.update op) t' hop
    have hop' : op.apply t = .ok t' := hop
    rw [htree, hop']
    exact h'
  · obtain ⟨e, he⟩ := apply_of_not_valid hvalid tree
    obtain ⟨e', he'⟩ := (Pbt.apply_isError_iff ht op).mpr hvalid
    rw [he, he']
    exact h

/-- **Every run of updates** does to the contents what the logical run does. -/
theorem Tree.represents_run (hasher : H) (ops : List Pbt.TreeOp) :
    Represents hasher (run hasher ops) (Pbt.run ops) := by
  induction ops using List.reverseRecOn with
  | nil => exact represents_new
  | append_singleton ops op ih =>
      rw [run, List.foldl_append, Pbt.run_concat]
      exact represents_step ih (Pbt.wellFormed_run ops) op

end

/-! ## Hashes and proofs under BLAKE3 -/

variable {blake3 : HashFunction}

/-- The content hash of the Rust client is `node_hash` of the reference client. -/
theorem contentHash_blake3Hasher (t : Pbt.Node) :
    contentHash (Blake3Hasher.mk blake3) t = (Pbt.nodeHash blake3 t).val := by
  induction t with
  | empty => rfl
  | leaf s vs => rfl
  | node l r ihl ihr =>
      show blake3 ((contentHash (Blake3Hasher.mk blake3) l).val ++
        (contentHash (Blake3Hasher.mk blake3) r).val) = _
      rw [ihl, ihr]
      rfl

/-- A path bit keeps its value as a `u8`. -/
theorem toNat_ofNat_pathBitAt (data : Bytes) (p : ℕ) :
    (UInt8.ofNat (Pbt.pathBitAt data p)).toNat = Pbt.pathBitAt data p := by
  rcases Pbt.pathBitAt_eq_zero_or_one data p with h | h
  · rw [h]
    rfl
  · rw [h]
    rfl

/-- The loop of `get_proof` finds the same siblings, bits and node. -/
theorem proofPath_eq {n : Node} (hn : n.Hashed (Blake3Hasher.mk blake3)) (s : Bytes) (depth : ℕ) :
    (Pbt.proofPath blake3 s n.erase depth).val =
      ((proofPath (Blake3Hasher.mk blake3) s n depth).1.map Subtype.val,
        (proofPath (Blake3Hasher.mk blake3) s n depth).2.1.map (fun bit => (bit.toNat : ℤ)),
        (proofPath (Blake3Hasher.mk blake3) s n depth).2.2.erase) := by
  induction n generalizing depth with
  | empty => rfl
  | stem stem => rfl
  | internal l r d ihl ihr =>
      obtain ⟨hl, hr, -⟩ := hn
      rw [erase_internal]
      unfold proofPath Pbt.proofPath
      simp only [pathBitAt_eq]
      by_cases hbit : Pbt.pathBitAt s depth = 0
      · rw [if_pos hbit, if_pos hbit]
        simp only [Logged.val_bind, ihl hl, Logged.val_pure, List.map_cons, toNat_ofNat_pathBitAt,
          nodeHash_eq_contentHash hr, contentHash_blake3Hasher]
      · rw [if_neg hbit, if_neg hbit]
        simp only [Logged.val_bind, ihr hr, Logged.val_pure, List.map_cons, toNat_ofNat_pathBitAt,
          nodeHash_eq_contentHash hl, contentHash_blake3Hasher]

/-- **The same proof**, field by field: bytes are bytes, and a `u8` bit is the
integer of the same value. -/
structure SameProof (proof : Pbt.MerkleProof) (proof' : MerkleProof) : Prop where
  key : proof.key = proof'.key
  value : proof.value = proof'.value.val
  stemValues : proof.stemValues = proof'.stemValues.map Subtype.val
  pathSiblings : proof.pathSiblings = proof'.pathSiblings.map Subtype.val
  pathBits : proof.pathBits = proof'.pathBits.map fun bit => (bit.toNat : ℤ)

/-- `get_proof` of the Rust client is `get_proof` on the contents. -/
theorem Tree.refines_getProof {tree : Tree Blake3Hasher} {t : Pbt.Node}
    (h : Represents (Blake3Hasher.mk blake3) tree t) (key : Bytes) :
    Refines (fun proof' call => SameProof call.val proof') (tree.getProof key)
      (Pbt.getProof blake3 t key) := by
  obtain ⟨hhasher, rfl, hroot⟩ := h
  unfold getProof Pbt.getProof
  apply Refines.bind (refines_splitKey key)
  rintro slot _ rfl
  rw [hhasher]
  have hpath := proofPath_eq hroot slot.1 0
  have hleaf := proofLeaf_erase slot.1 slot.2
    (proofPath (Blake3Hasher.mk blake3) slot.1 tree.root 0).2.2
  apply Refines.ok
  constructor
  case key => rfl
  case value =>
    simp only [Logged.val_bind, hpath, ← hleaf, Logged.val_pure]
    rfl
  case stemValues =>
    simp only [Logged.val_bind, hpath, ← hleaf, Logged.val_pure]
    rfl
  case pathSiblings => simp only [Logged.val_bind, hpath, Logged.val_pure]
  case pathBits => simp only [Logged.val_bind, hpath, Logged.val_pure]

end PbtRs

namespace Pbt

/-! ## Agreement -/

/-- **The same structure**: the same nodes, prefixes and values. -/
def SameStructure : CachedNode → PbtRs.Node → Prop
  | .emptyNode, .empty => True
  | .internalNode left right _, .internal left' right' _ =>
      SameStructure left left' ∧ SameStructure right right'
  | .stemNode stemPrefix values _, .stem stem =>
      stemPrefix = stem.stemPrefix ∧ values = stem.values
  | _, _ => False

/-- Two trees have the same structure when they have the same contents. -/
theorem sameStructure_of_erase_eq {c : CachedNode} {n : PbtRs.Node} (h : c.erase = n.erase) :
    SameStructure c n := by
  induction c generalizing n with
  | emptyNode =>
      cases n with
      | empty => trivial
      | internal l r d => cases h
      | stem stem => cases h
  | stemNode s vs m =>
      cases n with
      | empty => cases h
      | internal l r d => cases h
      | stem stem => exact ⟨(BitTrie.leaf.inj h).1, (BitTrie.leaf.inj h).2⟩
  | internalNode l r m ihl ihr =>
      cases n with
      | empty => cases h
      | internal l' r' d => exact ⟨ihl (BitTrie.node.inj h).1, ihr (BitTrie.node.inj h).2⟩
      | stem stem => cases h

/-- **What the two clients show** is the same: the structure of the tree, the
root hash, and the value and the proof of every key of at least two bytes. -/
structure Agree (blake3 : HashFunction) (session : Session)
    (tree : PbtRs.Tree PbtRs.Blake3Hasher) : Prop where
  structure_eq : SameStructure session.root tree.root
  rootHash_eq : session.rootHash blake3 = tree.rootHash
  get_eq : ∀ key, 2 ≤ key.length → ∃ value, session.get key = .ok value ∧ tree.get key = .ok value
  getProof_eq : ∀ key, 2 ≤ key.length → ∃ proof proof', session.getProof blake3 key = .ok proof ∧
    tree.getProof key = .ok proof' ∧ PbtRs.SameProof proof proof'

/-- Clients that hold the same contents agree. -/
theorem agree_of_represents {blake3 : HashFunction} {session : Session}
    {tree : PbtRs.Tree PbtRs.Blake3Hasher} {t : Node}
    (hsession : Session.Represents blake3 session t)
    (htree : PbtRs.Tree.Represents (PbtRs.Blake3Hasher.mk blake3) tree t) :
    Agree blake3 session tree := by
  refine ⟨?_, ?_, fun key hkey => ?_, fun key hkey => ?_⟩
  · apply sameStructure_of_erase_eq
    rw [hsession.root.erase, htree.root.erase]
  · -- lazy and eager hashes are both the hash of the contents
    rw [Session.rootHash_eq hsession, PbtRs.Tree.rootHash_eq htree,
      PbtRs.contentHash_blake3Hasher]
    rfl
  · obtain ⟨s, i, hsplit, rfl⟩ := exists_splitKey hkey
    have hget := get_joinKey (t := t) (two_le_length_joinKey_iff.mp hkey) i
    obtain ⟨value, htreeGet, rfl⟩ := PbtRs.Tree.refines_get htree _ _ hget
    refine ⟨_, ?_, htreeGet⟩
    rw [Session.get_eq hsession, hget]
  · obtain ⟨s, i, hsplit, rfl⟩ := exists_splitKey hkey
    obtain ⟨call, hcall⟩ : ∃ call, getProof blake3 t (joinKey s i) = .ok call := by
      unfold getProof
      rw [hsplit]
      exact ⟨_, rfl⟩
    -- both proofs are the one of the contents
    obtain ⟨proof, hproof, rfl⟩ := Session.refines_getProof hsession _ _ hcall
    obtain ⟨proof', hproof', hsame⟩ := PbtRs.Tree.refines_getProof htree _ _ hcall
    exact ⟨_, proof', hproof, hproof', hsame⟩

/-- **The two clients agree on every run.**  For every sequence of calls with keys
of at least two bytes and 32-byte values, both clients return from every call,
and then agree. -/
theorem clients_agree (blake3 : HashFunction) (calls : List ClientCall)
    (hcalls : ∀ call ∈ calls, call.Valid) :
    ∃ session tree,
      calls.foldlM (Session.apply blake3) Session.start = .ok session ∧
      calls.foldlM PbtRs.Tree.apply (PbtRs.Tree.new (PbtRs.Blake3Hasher.mk blake3)) = .ok tree ∧
      Agree blake3 session tree := by
  obtain ⟨t, ht, -⟩ := ClientCall.foldlM_valid hcalls wellFormed_emptyNode
  obtain ⟨session, hsession, hrep⟩ := Session.refines_foldlM (H := blake3) calls t ht
  obtain ⟨tree, htree, hrep'⟩ := PbtRs.Tree.refines_foldlM
    (PbtRs.Blake3Hasher.mk blake3) calls t ht
  exact ⟨session, tree, hsession, htree, agree_of_represents hrep hrep'⟩

/-- Two stems hashed together, and one of them deleted again: the other takes the
place of their nodes with the hash it has cached. -/
theorem clients_agree_collapse :
    ∃ session tree,
      [ClientCall.update (.insert [0, 0] (List.replicate 32 1)),
        .update (.insert [128, 0] (List.replicate 32 2)), .rootHash, .update (.delete [0, 0]),
        .getProof [128, 0]].foldlM (Session.apply fun _ => emptyValue) Session.start =
          .ok session ∧
      [ClientCall.update (.insert [0, 0] (List.replicate 32 1)),
        .update (.insert [128, 0] (List.replicate 32 2)), .rootHash, .update (.delete [0, 0]),
        .getProof [128, 0]].foldlM PbtRs.Tree.apply
          (PbtRs.Tree.new (PbtRs.Blake3Hasher.mk fun _ => emptyValue)) = .ok tree ∧
      Agree (fun _ => emptyValue) session tree := by
  apply clients_agree
  intro call hcall
  simp only [List.mem_cons, List.not_mem_nil, or_false] at hcall
  rcases hcall with rfl | rfl | rfl | rfl | rfl
  · exact ⟨by decide, List.length_replicate⟩
  · exact ⟨by decide, List.length_replicate⟩
  · trivial
  · exact Nat.le_refl 2
  · exact Nat.le_refl 2

end Pbt
