/-
# Proofs of many keys in the Rust client (`pbt-rs/src/tree.rs`)

`get_multi_proof` and `verify_multi_proof` of the Rust client, next to those of the
reference client (`PartitionedBinaryTree.BatchProof`).

* `sameResult_getMultiProof` : both clients make one batch of one tree;
* `verifyMultiProof_iff_reference` : the Rust verifier takes the batches that the
  reference verifier takes and whose path bits are `0` or `1`;
* `verifyMultiProof_sound` : a batch that it takes against the root of a run shows
  the values of the run.

The entry point for the browser is `verify_multi_proof` itself.
-/
import PartitionedBinaryTree.BatchProof
import PartitionedBinaryTree.Lib.SameResult
import PartitionedBinaryTree.VerifierAgreement

namespace PbtRs

open Pbt (Digest Value)

/-! ## The functions of the source -/

/-- `struct BatchMerkleProof`. -/
structure BatchMerkleProof where
  keys : List Bytes
  values : List Value
  proofs : List MerkleProof
  deduplicatedSiblings : List Digest
  keyToProofIndex : List ℕ
  deriving DecidableEq, Repr

/-- `items.windows(2).any(|w| p(w[0], w[1]))`. -/
def anyWindow {α : Type} (p : α → α → Bool) (items : List α) : Bool :=
  (items.zip items.tail).any fun w => p w.1 w.2

/-- The order of `[u8; 32]` is that of its bytes. -/
def digestLe (a b : Digest) : Prop := a.val ≤ b.val

instance instDecidableDigestLe : DecidableRel digestLe := fun a b =>
  inferInstanceAs (Decidable (a.val ≤ b.val))

instance instIsTransDigestLe : IsTrans Digest digestLe := ⟨fun _ _ _ h h' => trans_of (· ≤ ·) h h'⟩

instance instAntisymmDigestLe : Std.Antisymm digestLe :=
  ⟨fun _ _ h h' => Subtype.ext (instAntisymmBytes.antisymm _ _ h h')⟩

instance instTotalDigestLe : Std.Total digestLe := ⟨fun a b => instTotalBytes.total a.val b.val⟩

namespace Tree

variable {H : Type} [TreeHasher H]

/-- The loop of `get_multi_proof`: `proofs`, `values` and `sibling_set`. -/
def collectProofs (tree : Tree H) :
    List Bytes → Rs (List MerkleProof × List Value × Finset Digest)
  | [] => pure ([], [], ∅)
  | key :: keys => do
      let proof ← tree.getProof key
      let (proofs, values, siblingSet) ← tree.collectProofs keys
      pure (proof :: proofs, proof.value :: values, proof.pathSiblings.toFinset ∪ siblingSet)

/-- `tree.get_multi_proof(keys)`. -/
def getMultiProof (tree : Tree H) (keys : List Bytes) : Rs BatchMerkleProof := do
  let orderedKeys := keys.toFinset.sort
  let (proofs, values, siblingSet) ← tree.collectProofs orderedKeys
  pure {
    keys := orderedKeys
    values := values
    proofs := proofs
    deduplicatedSiblings := siblingSet.sort digestLe
    keyToProofIndex := List.range orderedKeys.length }

/-- The loop of `verify_multi_proof`, over each key with its value and its proof. -/
def verifyEach (tree : Tree H) (rootHash : Digest) (entries : List (Bytes × Value × MerkleProof)) :
    Bool :=
  entries.all fun entry =>
    entry.2.2.key == entry.1 && entry.2.2.value == entry.2.1 &&
      verifyProofWithHasher tree.hasher rootHash entry.2.2

/-- `tree.verify_multi_proof(root_hash, batch)`. -/
def verifyMultiProof (tree : Tree H) (rootHash : Digest) (batch : BatchMerkleProof) : Bool :=
  if anyWindow (fun a b => decide (a ≥ b)) batch.keys then false
  else
    let n := batch.keys.length
    if batch.values.length ≠ n ∨ batch.proofs.length ≠ n ∨ batch.keyToProofIndex.length ≠ n then
      false
    else if batch.keyToProofIndex ≠ List.range n then false
    else if anyWindow (fun a b : Digest => decide (a.val > b.val)) batch.deduplicatedSiblings then
      false
    else tree.verifyEach rootHash (batch.keys.zip (batch.values.zip batch.proofs))

end Tree

/-! ## One batch for two clients -/

/-- The batch as the reference client holds it. -/
def BatchMerkleProof.toReference (batch : BatchMerkleProof) : Pbt.BatchMerkleProof where
  keys := batch.keys
  values := batch.values.map Subtype.val
  proofs := batch.proofs.map MerkleProof.toReference
  deduplicatedSiblings := batch.deduplicatedSiblings.map Subtype.val
  keyToProofIndex := batch.keyToProofIndex.map Int.ofNat

/-! ## The generators -/

/-- The sorted digests of a set, as bytes. -/
theorem map_sort_digestLe (s : Finset Digest) :
    (s.sort digestLe).map Subtype.val = (s.image Subtype.val).sort := by
  have hnodup : ((s.sort digestLe).map Subtype.val).Nodup :=
    (Finset.sort_nodup s digestLe).map Subtype.val_injective
  have hsorted : ((s.sort digestLe).map Subtype.val).Pairwise (· ≤ ·) :=
    List.pairwise_map.mpr (Finset.pairwise_sort s digestLe)
  have hset : ((s.sort digestLe).map Subtype.val).toFinset = s.image Subtype.val := by
    ext σ
    simp
  rw [← (List.toFinset_sort (· ≤ ·) hnodup).mpr hsorted, hset]

section

variable {blake3 : Pbt.HashFunction} {tree : Tree Blake3Hasher} {t : Pbt.Node}

/-- Both clients make one proof of a key, or both refuse it. -/
theorem sameResult_getProof (h : Tree.Represents (Blake3Hasher.mk blake3) tree t) (key : Bytes) :
    SameResult (fun proof proof' => proof = proof'.toReference)
      ((Pbt.getProof blake3 t key).map Logged.val) (tree.getProof key) := by
  by_cases hkey : 2 ≤ key.length
  · obtain ⟨s, i, hsplit, -⟩ := Pbt.exists_splitKey hkey
    obtain ⟨call, hcall, -⟩ := Pbt.getProof_spec (H := blake3) t hsplit
    obtain ⟨proof, hproof, hsame⟩ := Tree.refines_getProof h _ _ hcall
    rw [hcall, hproof]
    exact SameResult.ok (sameProof_iff.mp hsame)
  · rw [Pbt.getProof, Pbt.splitKey_of_short (not_le.mp hkey), Tree.getProof,
      splitKey_of_short (not_le.mp hkey)]
    exact SameResult.error _ _

/-- **The loops of the two generators.** -/
theorem sameResult_collectProofs (h : Tree.Represents (Blake3Hasher.mk blake3) tree t)
    (keys : List Bytes) :
    SameResult
      (fun collected collected' =>
        collected = (collected'.1.map MerkleProof.toReference, collected'.2.1.map Subtype.val,
          collected'.2.2.image Subtype.val))
      (Pbt.collectProofs blake3 t keys).outcome (tree.collectProofs keys) := by
  induction keys with
  | nil => exact SameResult.ok rfl
  | cons key keys ih =>
      rw [Pbt.collectProofs, Tree.collectProofs, Pbt.HashPy.outcome_bind,
        Pbt.HashPy.outcome_ofPyHash]
      apply (sameResult_getProof h key).bind
      rintro _ proof rfl
      rw [Pbt.HashPy.outcome_bind]
      apply ih.bind
      rintro _ ⟨proofs, values, siblingSet⟩ rfl
      apply SameResult.ok
      have hsiblings : (proof.pathSiblings.map Subtype.val).toFinset =
          proof.pathSiblings.toFinset.image Subtype.val := by
        ext σ
        simp
      show (_, _, (proof.pathSiblings.map Subtype.val).toFinset ∪ _) = _
      rw [hsiblings, ← Finset.image_union]
      rfl

end

/-- **The two generators agree.**  After every run of updates, both clients make the same batch
for the same keys, or both refuse a key that is too short. -/
theorem sameResult_getMultiProof (blake3 : Pbt.HashFunction) (ops : List Pbt.TreeOp)
    (keys : List Bytes) :
    SameResult (fun batch batch' => batch = batch'.toReference)
      (Pbt.getMultiProof blake3 (Pbt.run ops) keys).outcome
      ((Tree.run (Blake3Hasher.mk blake3) ops).getMultiProof keys) := by
  rw [Pbt.getMultiProof, Tree.getMultiProof, Pbt.HashPy.outcome_bind]
  apply (sameResult_collectProofs (Tree.represents_run (Blake3Hasher.mk blake3) ops) _).bind
  rintro _ ⟨proofs, values, siblingSet⟩ rfl
  apply SameResult.ok
  unfold BatchMerkleProof.toReference
  rw [map_sort_digestLe]
  rfl

/-! ## The checks of the verifiers -/

/-- No window of two items is out of order exactly when the list is a chain. -/
theorem anyWindow_eq_false_iff {α : Type} {p : α → α → Bool} {items : List α} :
    anyWindow p items = false ↔ items.IsChain fun a b => p a b = false := by
  induction items with
  | nil => simp [anyWindow]
  | cons a items ih =>
      cases items with
      | nil => simp [anyWindow]
      | cons b items =>
          rw [List.isChain_cons_cons, ← ih]
          simp [anyWindow]

theorem not_ge_iff_lt {a b : Bytes} : decide (a ≥ b) = false ↔ a < b := by
  rw [decide_eq_false_iff_not]
  exact not_not

/-- The keys of a batch: no window of equal or falling keys, or sorted without repetitions. -/
theorem keys_inOrder_iff {keys : List Bytes} :
    anyWindow (fun a b => decide (a ≥ b)) keys = false ↔ keys = keys.toFinset.sort := by
  rw [anyWindow_eq_false_iff]
  simp only [not_ge_iff_lt]
  rw [List.isChain_iff_pairwise]
  constructor
  · intro h
    have hnodup : keys.Nodup := by
      refine h.imp ?_
      rintro a b hlt rfl
      exact List.lt_irrefl a hlt
    exact ((List.toFinset_sort (· ≤ ·) hnodup).mpr (h.imp List.le_of_lt)).symm
  · intro h
    rw [h]
    have hnodup : (keys.toFinset.sort (· ≤ ·)).Nodup := Finset.sort_nodup _ _
    exact ((Finset.pairwise_sort keys.toFinset (· ≤ ·)).and hnodup).imp fun hle =>
      Std.lt_of_le_of_ne hle.1 hle.2

/-- The siblings of a batch: no window of falling digests, or sorted. -/
theorem siblings_inOrder_iff {siblings : List Digest} :
    anyWindow (fun a b : Digest => decide (a.val > b.val)) siblings = false ↔
      siblings.map Subtype.val = (siblings.map Subtype.val).insertionSort (· ≤ ·) := by
  rw [anyWindow_eq_false_iff]
  have hle : ∀ a b : Digest, decide (a.val > b.val) = false ↔ digestLe a b := by
    intro a b
    rw [decide_eq_false_iff_not]
    exact Iff.rfl
  simp only [hle]
  rw [List.isChain_iff_pairwise]
  constructor
  · intro h
    have hsorted : (siblings.map Subtype.val).Pairwise (· ≤ ·) := List.pairwise_map.mpr h
    exact hsorted.insertionSort_eq.symm
  · intro h
    have hsorted := List.pairwise_insertionSort (· ≤ ·) (siblings.map Subtype.val)
    rw [← h, List.pairwise_map] at hsorted
    exact hsorted

/-- What the checks before the loop say, for both verifiers. -/
structure BatchMerkleProof.WellShaped (batch : BatchMerkleProof) : Prop where
  keys : batch.keys = batch.keys.toFinset.sort
  values : batch.values.length = batch.keys.length
  proofs : batch.proofs.length = batch.keys.length
  index : batch.keyToProofIndex = List.range batch.keys.length
  siblings : batch.deduplicatedSiblings.map Subtype.val =
    (batch.deduplicatedSiblings.map Subtype.val).insertionSort (· ≤ ·)

/-- The loop over the entries, as a statement about each of them. -/
theorem Tree.verifyEach_eq_true_iff {H : Type} [TreeHasher H] (tree : Tree H) (rh : Digest)
    (entries : List (Bytes × Value × MerkleProof)) :
    tree.verifyEach rh entries = true ↔
      ∀ x ∈ entries, x.2.2.key = x.1 ∧ x.2.2.value = x.2.1 ∧ tree.verifyProof rh x.2.2 = true := by
  unfold verifyEach
  simp only [List.all_eq_true, Bool.and_eq_true, beq_iff_eq, and_assoc]
  rfl

/-- **What the Rust verifier takes.** -/
theorem Tree.verifyMultiProof_eq_true_iff {H : Type} [TreeHasher H] (tree : Tree H) (rh : Digest)
    (batch : BatchMerkleProof) :
    tree.verifyMultiProof rh batch = true ↔ batch.WellShaped ∧
      ∀ x ∈ batch.keys.zip (batch.values.zip batch.proofs),
        x.2.2.key = x.1 ∧ x.2.2.value = x.2.1 ∧ tree.verifyProof rh x.2.2 = true := by
  rw [← Tree.verifyEach_eq_true_iff]
  unfold verifyMultiProof
  constructor
  · intro h
    dsimp only at h
    split_ifs at h with hkeys hlengths hindex hsiblings
    refine ⟨?_, h⟩
    simp only [not_or, not_not] at hlengths
    exact ⟨keys_inOrder_iff.mp (Bool.eq_false_iff.mpr hkeys), hlengths.1, hlengths.2.1,
      not_not.mp hindex, siblings_inOrder_iff.mp (Bool.eq_false_iff.mpr hsiblings)⟩
  · rintro ⟨hshape, h⟩
    have hlength : batch.keyToProofIndex.length = batch.keys.length := by
      rw [hshape.index, List.length_range]
    rw [keys_inOrder_iff.mpr hshape.keys, siblings_inOrder_iff.mpr hshape.siblings]
    simp only [hshape.values, hshape.proofs, hlength, ne_eq, not_true, or_self, if_false,
      Bool.false_eq_true, not_not.mpr hshape.index]
    exact h

end PbtRs

namespace Pbt

/-- The loop of the reference verifier, as a statement about each entry. -/
theorem outcome_verifyEach_iff (H : HashFunction) (rh : Bytes)
    (entries : List (Bytes × Bytes × MerkleProof)) :
    (verifyEach H rh entries).outcome = .ok true ↔
      ∀ x ∈ entries, x.2.2.key = x.1 ∧ x.2.2.value = x.2.1 ∧ ProofVerifies H rh x.2.2 := by
  induction entries with
  | nil => exact iff_of_true rfl fun x hx => absurd hx List.not_mem_nil
  | cons entry rest ih =>
      obtain ⟨key, value, proof⟩ := entry
      simp only [List.forall_mem_cons, ← ih]
      rw [verifyEach]
      split_ifs with hkey hvalue
      · exact iff_of_false (fun h => by cases h) fun h => hkey h.1.1
      · exact iff_of_false (fun h => by cases h) fun h => hvalue h.1.2.1
      · rw [HashPy.outcome_bind, HashPy.outcome_ofPyHash]
        unfold ProofVerifies
        cases hverify : verifyProof H rh proof with
        | error e => exact iff_of_false (fun h => by cases h) fun h => by cases h.1.2.2
        | ok w =>
            obtain ⟨valid, qs⟩ := w
            cases valid with
            | false => exact iff_of_false (fun h => by cases h) fun h => by cases h.1.2.2
            | true =>
                exact ⟨fun h => ⟨⟨not_not.mp hkey, not_not.mp hvalue, rfl⟩, h⟩, fun h => h.2⟩

/-- A batch that passes the checks before the loop. -/
theorem verifyMultiProof_of_checks (H : HashFunction) (rh : Bytes) {batch : BatchMerkleProof}
    (h : batch.keys = batch.keys.toFinset.sort ∧ batch.values.length = batch.keys.length ∧
      batch.proofs.length = batch.keys.length ∧
      batch.keyToProofIndex = indexRange batch.keys.length ∧
      batch.deduplicatedSiblings = batch.deduplicatedSiblings.insertionSort (· ≤ ·)) :
    verifyMultiProof H rh batch =
      verifyEach H rh (batch.keys.zip (batch.values.zip batch.proofs)) := by
  obtain ⟨hkeys, hvalues, hproofs, hrange, hsiblings⟩ := h
  have hlength : batch.keyToProofIndex.length = batch.keys.length := by
    rw [hrange, indexRange, List.length_map, List.length_range]
  unfold verifyMultiProof
  rw [if_neg (not_not.mpr hkeys)]
  dsimp only
  rw [if_neg (not_not.mpr hvalues), if_neg (not_not.mpr hproofs), if_neg (not_not.mpr hlength),
    if_neg (not_not.mpr hrange), if_neg (not_not.mpr hsiblings)]

/-- **What the reference verifier takes.** -/
theorem outcome_verifyMultiProof_iff (H : HashFunction) (rh : Bytes) (batch : BatchMerkleProof) :
    (verifyMultiProof H rh batch).outcome = .ok true ↔
      (batch.keys = batch.keys.toFinset.sort ∧ batch.values.length = batch.keys.length ∧
        batch.proofs.length = batch.keys.length ∧
        batch.keyToProofIndex = indexRange batch.keys.length ∧
        batch.deduplicatedSiblings = batch.deduplicatedSiblings.insertionSort (· ≤ ·)) ∧
      ∀ x ∈ batch.keys.zip (batch.values.zip batch.proofs),
        x.2.2.key = x.1 ∧ x.2.2.value = x.2.1 ∧ ProofVerifies H rh x.2.2 := by
  rw [← outcome_verifyEach_iff]
  constructor
  · intro h
    unfold verifyMultiProof at h
    dsimp only at h
    split_ifs at h with hkeys hvalues hproofs hindex hrange hsiblings
    case neg =>
      exact ⟨⟨not_not.mp hkeys, not_not.mp hvalues, not_not.mp hproofs, not_not.mp hrange,
        not_not.mp hsiblings⟩, h⟩
    all_goals cases h
  · rintro ⟨hchecks, h⟩
    rw [verifyMultiProof_of_checks H rh hchecks]
    exact h

/-- A loop that returns true has hashed what each of its proofs hashes. -/
theorem queries_of_verifyEach {H : HashFunction} {rh : Bytes}
    {entries : List (Bytes × Bytes × MerkleProof)} {qs : List Bytes}
    (h : (verifyEach H rh entries).Returns true qs) :
    ∀ x ∈ entries, ∃ w, verifyProof H rh x.2.2 = .ok w ∧ w.val = true ∧ w.queries ⊆ qs := by
  induction entries generalizing qs with
  | nil => exact fun x hx => absurd hx List.not_mem_nil
  | cons entry rest ih =>
      obtain ⟨key, value, proof⟩ := entry
      rw [verifyEach] at h
      split_ifs at h
      · cases (HashPy.returns_pure_iff.mp h).1
      · cases (HashPy.returns_pure_iff.mp h).1
      obtain ⟨valid, qs₁, qs₂, hproof, hrest, rfl⟩ := HashPy.returns_bind_iff.mp h
      have hverify := HashPy.returns_ofPyHash_iff.mp hproof
      cases valid with
      | false => cases (HashPy.returns_pure_iff.mp hrest).1
      | true =>
          refine List.forall_mem_cons.mpr ⟨⟨_, hverify, rfl, List.subset_append_left _ _⟩, ?_⟩
          intro x hx
          obtain ⟨w, hw, htrue, hsub⟩ := ih hrest x hx
          exact ⟨w, hw, htrue, List.subset_append_of_subset_right _ hsub⟩

end Pbt

namespace PbtRs

open Pbt (Digest Value joinKey)

/-- The checks that an accepted proof has passed. -/
theorem wellShaped_of_verifyProof {tree : Tree Blake3Hasher} {rh : Digest} {proof : MerkleProof}
    (h : tree.verifyProof rh proof = true) : 2 ≤ proof.key.length ∧ proof.WellShaped := by
  unfold Tree.verifyProof verifyProofWithHasher at h
  have hkey : 2 ≤ proof.key.length := by
    by_contra hshort
    rw [splitKey_of_short (not_le.mp hshort)] at h
    simp at h
  obtain ⟨s, i, -, hjoin⟩ := Pbt.exists_splitKey hkey
  have hsplit : splitKey proof.key = .ok (s, i) := by
    rw [hjoin]
    exact splitKey_joinKey (Pbt.two_le_length_joinKey_iff.mp (hjoin ▸ hkey)) i
  rw [hsplit] at h
  dsimp only at h
  split_ifs at h with hwidth hslot haligned
  exact ⟨hkey, not_not.mp hwidth, (slot_joinKey_iff hjoin).mpr (not_not.mp hslot),
    not_not.mp haligned⟩

/-- **One proof, for the two verifiers.** -/
theorem verifyProof_iff_reference (tree : Tree Blake3Hasher) (rh : Digest) (proof : MerkleProof) :
    tree.verifyProof rh proof = true ↔
      Pbt.ProofVerifies tree.hasher.blake3 rh.val proof.toReference ∧
        ∀ bit ∈ proof.pathBits, bit = 0 ∨ bit = 1 := by
  have hsame : 2 ≤ proof.key.length → (∀ bit ∈ proof.pathBits, bit = 0 ∨ bit = 1) →
      (tree.verifyProof rh proof = true ↔
        Pbt.ProofVerifies tree.hasher.blake3 rh.val proof.toReference) := by
    intro hkey hbits
    obtain ⟨w, hw, hval⟩ := sameVerdict_of_bits tree rh hkey hbits
    rw [Pbt.ProofVerifies, hw, ← hval]
    exact ⟨fun h => congrArg Except.ok h, Except.ok.inj⟩
  constructor
  · intro h
    obtain ⟨hkey, hshape⟩ := wellShaped_of_verifyProof h
    have hbits : ∀ bit ∈ proof.pathBits, bit = 0 ∨ bit = 1 := by
      intro bit hbit
      by_contra hbad
      obtain ⟨c, hverdicts⟩ := verdicts_of_wellShaped tree hkey hshape
      obtain ⟨x, hx, rfl⟩ := mem_levels_of_mem_pathBits hshape hbit
      have hclimb := (hverdicts rh).2.mp h
      rw [climb_eq_none c proof.levels ⟨x, hx, not_or.mp hbad⟩] at hclimb
      cases hclimb
    exact ⟨(hsame hkey hbits).mp h, hbits⟩
  · rintro ⟨hverifies, hbits⟩
    have hkey : 2 ≤ proof.key.length := by
      by_contra hshort
      rw [Pbt.ProofVerifies, Pbt.verifyProof, show proof.toReference.key = proof.key from rfl,
        Pbt.splitKey_of_short (not_le.mp hshort)] at hverifies
      cases hverifies
    exact (hsame hkey hbits).mpr hverifies

/-- The entries of a batch, for each client. -/
theorem entries_toReference (batch : BatchMerkleProof) :
    batch.toReference.keys.zip (batch.toReference.values.zip batch.toReference.proofs) =
      (batch.keys.zip (batch.values.zip batch.proofs)).map fun x =>
        (x.1, x.2.1.val, x.2.2.toReference) := by
  unfold BatchMerkleProof.toReference
  dsimp only
  rw [List.zip_map, List.zip_map_right]
  rfl

/-- Each proof of a well-shaped batch is that of an entry. -/
theorem BatchMerkleProof.WellShaped.map_entries {batch : BatchMerkleProof} (h : batch.WellShaped) :
    (batch.keys.zip (batch.values.zip batch.proofs)).map (fun x => x.2.2) = batch.proofs := by
  have hinner : (batch.values.zip batch.proofs).length = batch.keys.length := by
    rw [List.length_zip, h.values, h.proofs, min_self]
  calc (batch.keys.zip (batch.values.zip batch.proofs)).map (fun x => x.2.2)
      = ((batch.keys.zip (batch.values.zip batch.proofs)).map Prod.snd).map Prod.snd := by
        rw [List.map_map]
        rfl
    _ = batch.proofs := by
        rw [List.map_snd_zip hinner.le, List.map_snd_zip (h.proofs.trans h.values.symm).le]

/-- The keys and values of a well-shaped batch are those of its entries. -/
theorem BatchMerkleProof.WellShaped.keys_zip_values {batch : BatchMerkleProof}
    (h : batch.WellShaped) :
    batch.keys.zip batch.values =
      (batch.keys.zip (batch.values.zip batch.proofs)).map fun x => (x.1, x.2.1) := by
  have hle : batch.values.length ≤ batch.proofs.length := (h.values.trans h.proofs.symm).le
  rw [← List.map_fst_zip hle, List.zip_map_right, List.map_fst_zip hle]
  rfl

/-- The checks before the loop are those of the reference client. -/
theorem BatchMerkleProof.wellShaped_iff (batch : BatchMerkleProof) :
    batch.WellShaped ↔
      batch.toReference.keys = batch.toReference.keys.toFinset.sort ∧
        batch.toReference.values.length = batch.toReference.keys.length ∧
        batch.toReference.proofs.length = batch.toReference.keys.length ∧
        batch.toReference.keyToProofIndex = Pbt.indexRange batch.toReference.keys.length ∧
        batch.toReference.deduplicatedSiblings =
          batch.toReference.deduplicatedSiblings.insertionSort (· ≤ ·) := by
  have hindex : batch.keyToProofIndex.map Int.ofNat = Pbt.indexRange batch.keys.length ↔
      batch.keyToProofIndex = List.range batch.keys.length :=
    (List.map_injective_iff.mpr fun _ _ => Int.ofNat.inj).eq_iff
  unfold BatchMerkleProof.toReference
  dsimp only
  rw [hindex, List.length_map, List.length_map]
  exact ⟨fun h => ⟨h.keys, h.values, h.proofs, h.index, h.siblings⟩,
    fun ⟨hkeys, hvalues, hproofs, hindex, hsiblings⟩ =>
      ⟨hkeys, hvalues, hproofs, hindex, hsiblings⟩⟩

/-- **The two verifiers.**  The Rust verifier takes a batch exactly when the reference verifier
does and every path bit of its proofs is `0` or `1`. -/
theorem verifyMultiProof_iff_reference (tree : Tree Blake3Hasher) (rh : Digest)
    (batch : BatchMerkleProof) :
    tree.verifyMultiProof rh batch = true ↔
      (Pbt.verifyMultiProof tree.hasher.blake3 rh.val batch.toReference).outcome = .ok true ∧
        ∀ proof ∈ batch.proofs, ∀ bit ∈ proof.pathBits, bit = 0 ∨ bit = 1 := by
  rw [Tree.verifyMultiProof_eq_true_iff, Pbt.outcome_verifyMultiProof_iff,
    ← BatchMerkleProof.wellShaped_iff, entries_toReference]
  simp only [List.forall_mem_map, verifyProof_iff_reference]
  constructor
  · rintro ⟨hshape, hentries⟩
    refine ⟨⟨hshape, fun x hx => ?_⟩, ?_⟩
    · obtain ⟨hkey, hvalue, hverifies, -⟩ := hentries x hx
      exact ⟨hkey, congrArg Subtype.val hvalue, hverifies⟩
    · rw [← hshape.map_entries, List.forall_mem_map]
      exact fun x hx => (hentries x hx).2.2.2
  · rintro ⟨⟨hshape, hentries⟩, hbits⟩
    rw [← hshape.map_entries, List.forall_mem_map] at hbits
    refine ⟨hshape, fun x hx => ?_⟩
    obtain ⟨hkey, hvalue, hverifies⟩ := hentries x hx
    exact ⟨hkey, Subtype.ext hvalue, hverifies, hbits x hx⟩

/-! ## What an accepted batch shows -/

/-- The Rust tree reads what its contents hold. -/
theorem Tree.get_of_holds {blake3 : Pbt.HashFunction} {tree : Tree Blake3Hasher} {t : Pbt.Node}
    (h : Represents (Blake3Hasher.mk blake3) tree t) {key : Bytes} {value : Value}
    (hholds : Pbt.Holds t key value.val) : tree.get key = .ok value := by
  unfold Pbt.Holds at hholds
  cases hget : Pbt.get t key with
  | error e =>
      rw [hget] at hholds
      cases hholds
  | ok v =>
      rw [hget] at hholds
      obtain ⟨v', hv', rfl⟩ := refines_get h key v hget
      rw [hv', Subtype.ext (Except.ok.inj hholds)]

/-- **Soundness of batches.**  A batch that the Rust verifier takes against the root of a run shows,
for each of its keys, the value of the run, unless two of the strings that are hashed for the root
or for the batch collide. -/
theorem verifyMultiProof_sound (blake3 : Pbt.HashFunction) (ops : List Pbt.TreeOp)
    (batch : BatchMerkleProof)
    (h : (Tree.run (Blake3Hasher.mk blake3) ops).verifyMultiProof
      (Tree.run (Blake3Hasher.mk blake3) ops).rootHash batch = true) :
    (∀ x ∈ batch.keys.zip batch.values,
      (Tree.run (Blake3Hasher.mk blake3) ops).get x.1 = .ok x.2) ∨
    Collision blake3 ((Pbt.rootHash blake3 (Pbt.run ops)).queries ++
      (Pbt.verifyMultiProof blake3 (Pbt.rootHash blake3 (Pbt.run ops)).val.val
        batch.toReference).run.queries) := by
  have hrep := Tree.represents_run (Blake3Hasher.mk blake3) ops
  have hroot : (Pbt.rootHash blake3 (Pbt.run ops)).val =
      (Tree.run (Blake3Hasher.mk blake3) ops).rootHash := by
    rw [Tree.rootHash_eq hrep, contentHash_blake3Hasher]
    rfl
  have hreference := ((verifyMultiProof_iff_reference _ _ batch).mp h).1
  rw [hrep.hasher_eq, ← hroot] at hreference
  obtain ⟨hchecks, -⟩ := (Pbt.outcome_verifyMultiProof_iff _ _ _).mp hreference
  obtain ⟨qs, hqs⟩ := Pbt.HashPy.outcome_eq_ok_iff.mp hreference
  have hqueries : (Pbt.verifyMultiProof blake3 (Pbt.rootHash blake3 (Pbt.run ops)).val.val
      batch.toReference).run.queries = qs := congrArg Logged.queries hqs
  rw [Pbt.verifyMultiProof_of_checks _ _ hchecks, entries_toReference] at hqs
  rw [hqueries]
  refine or_iff_not_imp_right.mpr fun hcol x hx => ?_
  obtain ⟨hshape, hentries⟩ := (Tree.verifyMultiProof_eq_true_iff _ _ _).mp h
  rw [hshape.keys_zip_values] at hx
  obtain ⟨y, hy, rfl⟩ := List.mem_map.mp hx
  obtain ⟨hkey, hvalue, -⟩ := hentries y hy
  obtain ⟨w, hw, hverdict, hsub⟩ := Pbt.queries_of_verifyEach hqs _ (List.mem_map_of_mem hy)
  -- all the widths are those of the types
  have hsound : Pbt.SoundAt blake3 (Pbt.run ops) y.2.2.toReference := by
    apply Pbt.soundAt_of_widths ⟨ops, rfl⟩
    · exact List.forall_mem_map.mpr fun v _ => v.property
    · refine List.forall_mem_map.mpr fun σ _ => ?_
      rw [σ.property]
      decide
  rcases hsound w hw hverdict with hholds | hcol'
  · rw [← hkey, ← hvalue]
    exact Tree.get_of_holds hrep hholds
  · exact absurd (hcol'.mono (List.append_subset.mpr
      ⟨List.subset_append_left _ _, List.subset_append_of_subset_right _ hsub⟩)) hcol

/-- The proof of the value in each of two stems. -/
def pairProof (blake3 : Pbt.HashFunction) (second : Bool) : MerkleProof where
  key := joinKey (Pbt.pairPrefix second) (Pbt.pairSlot second)
  value := Pbt.onesDigest
  stemValues := (Pbt.pairValues second).toList
  pathSiblings := [blake3 (Pbt.pairString !second)]
  pathBits := [second.toUInt8]

/-- The batch with both proofs. -/
def pairBatch : BatchMerkleProof where
  keys := [[0, 0], [128, 7]]
  values := [Pbt.onesDigest, Pbt.onesDigest]
  proofs := [pairProof Pbt.prefixHash false, pairProof Pbt.prefixHash true]
  deduplicatedSiblings :=
    [Pbt.prefixHash (Pbt.pairString false), Pbt.prefixHash (Pbt.pairString true)]
  keyToProofIndex := [0, 1]

theorem wellShaped_pairBatch : pairBatch.WellShaped where
  keys := keys_inOrder_iff.mp (by decide)
  values := rfl
  proofs := rfl
  index := rfl
  siblings := by
    apply siblings_inOrder_iff.mp
    rw [pairBatch, Pbt.prefixHash_pairString, Pbt.prefixHash_pairString]
    decide +kernel

theorem toReference_pairProof (blake3 : Pbt.HashFunction) (second : Bool) :
    (pairProof blake3 second).toReference = Pbt.pairProof blake3 second := by
  cases second <;> rfl

/-- The tree of the two stems accepts the batch. -/
theorem verifyMultiProof_pairBatch :
    (Tree.run (Blake3Hasher.mk Pbt.prefixHash) Pbt.pairOps).verifyMultiProof
      (Tree.run (Blake3Hasher.mk Pbt.prefixHash) Pbt.pairOps).rootHash pairBatch = true := by
  have hrep := Tree.represents_run (Blake3Hasher.mk Pbt.prefixHash) Pbt.pairOps
  have hproof : ∀ second, (Tree.run (Blake3Hasher.mk Pbt.prefixHash) Pbt.pairOps).verifyProof
      (Tree.run (Blake3Hasher.mk Pbt.prefixHash) Pbt.pairOps).rootHash
      (pairProof Pbt.prefixHash second) = true := by
    intro second
    refine (verifyProof_iff_reference _ _ _).mpr ⟨?_, ?_⟩
    · rw [toReference_pairProof, hrep.hasher_eq, Tree.rootHash_eq hrep, contentHash_blake3Hasher]
      exact congrArg (Except.map Logged.val) (Pbt.verifyProof_pairProof Pbt.prefixHash second)
    · intro bit hbit
      rw [List.mem_singleton.mp hbit]
      cases second
      · exact Or.inl rfl
      · exact Or.inr rfl
  refine (Tree.verifyMultiProof_eq_true_iff _ _ _).mpr ⟨wellShaped_pairBatch, fun x hx => ?_⟩
  have hentries : x ∈ [([0, 0], Pbt.onesDigest, pairProof Pbt.prefixHash false),
    ([128, 7], Pbt.onesDigest, pairProof Pbt.prefixHash true)] := hx
  simp only [List.mem_cons, List.not_mem_nil, or_false] at hentries
  rcases hentries with rfl | rfl
  · exact ⟨rfl, rfl, hproof false⟩
  · exact ⟨rfl, rfl, hproof true⟩

/-- A batch with one of the proofs at its head hashes what this one hashes. -/
theorem returns_verifyEach_pair (H : Pbt.HashFunction) (second : Bool)
    {rest : List (Bytes × Bytes × Pbt.MerkleProof)} {qs : List Bytes}
    (h : (Pbt.verifyEach H (Pbt.rootHash H (Pbt.run Pbt.pairOps)).val.val rest).Returns true qs) :
    (Pbt.verifyEach H (Pbt.rootHash H (Pbt.run Pbt.pairOps)).val.val
      (((Pbt.pairProof H second).key, (Pbt.pairProof H second).value,
        Pbt.pairProof H second) :: rest)).Returns true
      ([Pbt.pairString second,
        (H (Pbt.pairString false)).val ++ (H (Pbt.pairString true)).val] ++ qs) := by
  rw [Pbt.verifyEach, if_neg (not_not.mpr rfl), if_neg (not_not.mpr rfl)]
  exact (Pbt.HashPy.returns_ofPyHash_iff.mpr (Pbt.verifyProof_pairProof H second)).bind h

/-- Its verification hashes what the root hashes. -/
theorem queries_verifyMultiProof_pairBatch :
    (Pbt.verifyMultiProof Pbt.prefixHash
      (Pbt.rootHash Pbt.prefixHash (Pbt.run Pbt.pairOps)).val.val
      pairBatch.toReference).run.queries ⊆
        (Pbt.rootHash Pbt.prefixHash (Pbt.run Pbt.pairOps)).queries := by
  have hchecks := (BatchMerkleProof.wellShaped_iff pairBatch).mp wellShaped_pairBatch
  have hnil : (Pbt.verifyEach Pbt.prefixHash (Pbt.rootHash Pbt.prefixHash
      (Pbt.run Pbt.pairOps)).val.val []).Returns true [] := Pbt.HashPy.Returns.pure true
  have hreturns := returns_verifyEach_pair Pbt.prefixHash false
    (returns_verifyEach_pair Pbt.prefixHash true hnil)
  have hqueries := congrArg Logged.queries hreturns
  rw [Pbt.verifyMultiProof_of_checks _ _ hchecks]
  intro x hx
  have hmem : x ∈ [Pbt.pairString false, _, Pbt.pairString true, _] := hqueries ▸ hx
  rw [Pbt.queries_rootHash_pair]
  simp only [List.mem_cons, List.not_mem_nil, or_false] at hmem ⊢
  rcases hmem with hmem | hmem | hmem | hmem
  · exact Or.inl hmem
  · exact Or.inr (Or.inr hmem)
  · exact Or.inr (Or.inl hmem)
  · exact Or.inr (Or.inr hmem)

/-- It shows the two values that were inserted. -/
theorem verifyMultiProof_sound_pair :
    (Tree.run (Blake3Hasher.mk Pbt.prefixHash) Pbt.pairOps).get [0, 0] = .ok Pbt.onesDigest ∧
    (Tree.run (Blake3Hasher.mk Pbt.prefixHash) Pbt.pairOps).get [128, 7] =
      .ok Pbt.onesDigest := by
  have hshown := (verifyMultiProof_sound Pbt.prefixHash Pbt.pairOps pairBatch
    verifyMultiProof_pairBatch).resolve_right fun hcol => Pbt.not_collision_prefixHash (by
      rw [← Pbt.queries_rootHash_pair]
      exact hcol.mono (List.append_subset.mpr
        ⟨List.Subset.refl _, queries_verifyMultiProof_pairBatch⟩))
  exact ⟨hshown ([0, 0], Pbt.onesDigest) List.mem_cons_self,
    hshown ([128, 7], Pbt.onesDigest) (List.mem_cons_of_mem _ List.mem_cons_self)⟩

end PbtRs
