/-
# Proofs of many keys (`pbt/tree.py`)

`get_multi_proof` makes one proof for each key of a set, in the order of the keys, next to
the list of all path siblings without repetitions.  `verify_multi_proof` checks the proofs
one by one, so that a batch says what its proofs say (`multiProof_equiv`).

Of the list of siblings it checks only that it is sorted, so the other fields of a batch
determine it exactly when no list is accepted with them (`siblings_determined_iff`).
-/
import PartitionedBinaryTree.ProofCompleteness
import Mathlib.Data.Finset.Sort

namespace Pbt

/-! ## The functions of the source -/

/-- `BatchMerkleProof`. -/
structure BatchMerkleProof where
  keys : List Bytes
  values : List Bytes
  proofs : List MerkleProof
  deduplicatedSiblings : List Bytes
  keyToProofIndex : List ℤ
  deriving DecidableEq, Repr

/-- `list(range(n))`. -/
def indexRange (n : ℕ) : List ℤ := (List.range n).map Int.ofNat

/-- The loop of `get_multi_proof`: `proofs`, `values` and `sibling_set`. -/
def collectProofs (H : HashFunction) (root : Node) :
    List Bytes → HashPy (List MerkleProof × List Bytes × Finset Bytes)
  | [] => pure ([], [], ∅)
  | key :: keys => do
      let proof ← HashPy.ofPyHash (getProof H root key)
      let (proofs, values, siblingSet) ← collectProofs H root keys
      pure (proof :: proofs, proof.value :: values, proof.pathSiblings.toFinset ∪ siblingSet)

/-- `get_multi_proof`. -/
def getMultiProof (H : HashFunction) (root : Node) (keys : List Bytes) :
    HashPy BatchMerkleProof := do
  let orderedKeys := keys.toFinset.sort
  let (proofs, values, siblingSet) ← collectProofs H root orderedKeys
  pure {
    keys := orderedKeys
    values := values
    proofs := proofs
    deduplicatedSiblings := siblingSet.sort
    keyToProofIndex := indexRange orderedKeys.length }

/-- The loop of `verify_multi_proof`, over each key with its value and its proof. -/
def verifyEach (H : HashFunction) (rh : Bytes) : List (Bytes × Bytes × MerkleProof) → HashPy Bool
  | [] => pure true
  | (key, value, proof) :: rest =>
      if proof.key ≠ key then pure false
      else if proof.value ≠ value then pure false
      else do
        let valid ← HashPy.ofPyHash (verifyProof H rh proof)
        if ¬ valid then pure false else verifyEach H rh rest

/-- `verify_multi_proof`. -/
def verifyMultiProof (H : HashFunction) (rh : Bytes) (batchProof : BatchMerkleProof) :
    HashPy Bool :=
  if batchProof.keys ≠ batchProof.keys.toFinset.sort then pure false
  else
    let n := batchProof.keys.length
    if batchProof.values.length ≠ n then pure false
    else if batchProof.proofs.length ≠ n then pure false
    else if batchProof.keyToProofIndex.length ≠ n then pure false
    else if batchProof.keyToProofIndex ≠ indexRange n then pure false
    else if batchProof.deduplicatedSiblings ≠
        batchProof.deduplicatedSiblings.insertionSort (· ≤ ·) then pure false
    else verifyEach H rh (batchProof.keys.zip (batchProof.values.zip batchProof.proofs))

/-! ## What the loops compute -/

/-- `verify_proof` returns true. -/
def ProofVerifies (H : HashFunction) (rh : Bytes) (proof : MerkleProof) : Prop :=
  (verifyProof H rh proof).map Logged.val = .ok true

/-- The siblings that `get_multi_proof` lists next to these proofs. -/
def canonicalSiblings (proofs : List MerkleProof) : List Bytes :=
  (proofs.flatMap MerkleProof.pathSiblings).toFinset.sort

variable {H : HashFunction} {t : Node} {rh : Bytes}

/-- A generated proof is one of its key, with the value of `get`. -/
theorem getProof_key {k : Bytes} {proof : MerkleProof}
    (h : (getProof H t k).map Logged.val = .ok proof) : proof.key = k ∧ Holds t k proof.value := by
  cases hproof : getProof H t k with
  | error e =>
      rw [hproof] at h
      cases h
  | ok p =>
      rw [hproof] at h
      cases h
      exact ⟨(getProof_widths hproof).1, holds_getProof hproof⟩

/-- **The loop of the generator** makes the proof of each key. -/
theorem outcome_collectProofs {keys : List Bytes} (hkeys : ∀ k ∈ keys, 2 ≤ k.length) :
    ∃ proofs, (collectProofs H t keys).outcome = .ok (proofs, proofs.map MerkleProof.value,
        (proofs.flatMap MerkleProof.pathSiblings).toFinset) ∧
      proofs.map MerkleProof.key = keys ∧
      ∀ proof ∈ proofs, (getProof H t proof.key).map Logged.val = .ok proof := by
  induction keys with
  | nil => exact ⟨[], rfl, rfl, fun proof hproof => absurd hproof List.not_mem_nil⟩
  | cons key keys ih =>
      obtain ⟨hkey, hrest⟩ := List.forall_mem_cons.mp hkeys
      obtain ⟨s, i, hsplit, -⟩ := exists_splitKey hkey
      obtain ⟨proof, hproof, -⟩ := getProof_spec (H := H) t hsplit
      obtain ⟨proofs, hproofs, hmap, hall⟩ := ih hrest
      have hgen : (getProof H t key).map Logged.val = .ok proof.val := by
        rw [hproof]
        rfl
      have hown := (getProof_key hgen).1
      refine ⟨proof.val :: proofs, ?_, by rw [List.map_cons, hown, hmap],
        List.forall_mem_cons.mpr ⟨by rw [hown, hgen], hall⟩⟩
      rw [collectProofs, HashPy.outcome_bind, HashPy.outcome_ofPyHash, hgen]
      show (HashPy.outcome (collectProofs H t keys >>= _)) = _
      rw [HashPy.outcome_bind, hproofs, List.flatMap_cons, List.toFinset_append]
      rfl

/-- **The loop of the verifier** returns on keys that can be split, and says whether each proof
has its key and value and is accepted. -/
theorem outcome_verifyEach (H : HashFunction) (rh : Bytes)
    {entries : List (Bytes × Bytes × MerkleProof)}
    (hlong : ∀ x ∈ entries, 2 ≤ x.2.2.key.length) :
    ∃ ok, (verifyEach H rh entries).outcome = .ok ok ∧
      (ok = true ↔
        ∀ x ∈ entries, x.2.2.key = x.1 ∧ x.2.2.value = x.2.1 ∧ ProofVerifies H rh x.2.2) := by
  induction entries with
  | nil => exact ⟨true, rfl, iff_of_true rfl fun x hx => absurd hx List.not_mem_nil⟩
  | cons entry rest ih =>
      obtain ⟨key, value, proof⟩ := entry
      obtain ⟨hproof, hrest⟩ := List.forall_mem_cons.mp hlong
      simp only [List.forall_mem_cons]
      rw [verifyEach]
      split_ifs with hkey hvalue
      · exact ⟨false, rfl, iff_of_false Bool.false_ne_true fun h => hkey h.1.1⟩
      · exact ⟨false, rfl, iff_of_false Bool.false_ne_true fun h => hvalue h.1.2.1⟩
      · rw [HashPy.outcome_bind, HashPy.outcome_ofPyHash]
        unfold ProofVerifies
        cases hverify : verifyProof H rh proof with
        | error e => exact absurd (verifyProof_fails_iff.mp ⟨e, hverify⟩) (not_lt.mpr hproof)
        | ok w =>
            obtain ⟨valid, qs⟩ := w
            cases valid with
            | false =>
                refine ⟨false, rfl, iff_of_false Bool.false_ne_true fun h => ?_⟩
                cases h.1.2.2
            | true =>
                obtain ⟨ok, hok, hiff⟩ := ih hrest
                refine ⟨ok, hok, hiff.trans ⟨fun h => ?_, fun h => h.2⟩⟩
                exact ⟨⟨not_not.mp hkey, not_not.mp hvalue, rfl⟩, h⟩

/-! ## Generated batches -/

/-- The batch that is made of proofs. -/
def batchOf (proofs : List MerkleProof) : BatchMerkleProof where
  keys := proofs.map MerkleProof.key
  values := proofs.map MerkleProof.value
  proofs := proofs
  deduplicatedSiblings := canonicalSiblings proofs
  keyToProofIndex := indexRange proofs.length

/-- **`get_multi_proof`** makes the batch of the proofs of its keys, in their order. -/
theorem outcome_getMultiProof {keys : List Bytes} (hkeys : ∀ k ∈ keys, 2 ≤ k.length) :
    ∃ proofs, (getMultiProof H t keys).outcome = .ok (batchOf proofs) ∧
      proofs.map MerkleProof.key = keys.toFinset.sort ∧
      ∀ proof ∈ proofs, (getProof H t proof.key).map Logged.val = .ok proof := by
  have hordered : ∀ k ∈ keys.toFinset.sort, 2 ≤ k.length := by
    intro k hk
    exact hkeys k (List.mem_toFinset.mp ((Finset.mem_sort _).mp hk))
  obtain ⟨proofs, hproofs, hmap, hall⟩ := outcome_collectProofs (H := H) (t := t) hordered
  refine ⟨proofs, ?_, hmap, hall⟩
  have hlength := congrArg List.length hmap
  rw [List.length_map] at hlength
  rw [getMultiProof, HashPy.outcome_bind, hproofs, batchOf, hmap, hlength]
  rfl

/-- The entries of a batch of proofs. -/
theorem zip_batchOf (proofs : List MerkleProof) :
    (batchOf proofs).keys.zip ((batchOf proofs).values.zip (batchOf proofs).proofs) =
      proofs.map fun proof => (proof.key, proof.value, proof) := by
  show (proofs.map MerkleProof.key).zip ((proofs.map MerkleProof.value).zip proofs) = _
  induction proofs with
  | nil => rfl
  | cons proof proofs ih =>
      rw [List.map_cons, List.map_cons, List.zip_cons_cons, List.zip_cons_cons, ih, List.map_cons]

/-- **A generated batch passes** every check but those of its proofs. -/
theorem outcome_verifyMultiProof_batchOf (H : HashFunction) (rh : Bytes)
    {proofs : List MerkleProof} {keys : Finset Bytes}
    (hkeys : proofs.map MerkleProof.key = keys.sort) (hlong : ∀ k ∈ keys, 2 ≤ k.length) :
    ∃ ok, (verifyMultiProof H rh (batchOf proofs)).outcome = .ok ok ∧
      (ok = true ↔ ∀ proof ∈ proofs, ProofVerifies H rh proof) := by
  have hentries : ∀ x ∈ proofs.map (fun proof => (proof.key, proof.value, proof)),
      2 ≤ x.2.2.key.length := by
    intro x hx
    obtain ⟨proof, hproof, rfl⟩ := List.mem_map.mp hx
    apply hlong
    rw [← Finset.mem_sort (r := (· ≤ ·)), ← hkeys]
    exact List.mem_map_of_mem hproof
  obtain ⟨ok, hok, hiff⟩ := outcome_verifyEach H rh hentries
  refine ⟨ok, ?_, hiff.trans ?_⟩
  · have hsort : (batchOf proofs).keys = (batchOf proofs).keys.toFinset.sort := by
      show proofs.map MerkleProof.key = (proofs.map MerkleProof.key).toFinset.sort
      rw [hkeys, Finset.sort_toFinset]
    have hsiblings : (batchOf proofs).deduplicatedSiblings =
        (batchOf proofs).deduplicatedSiblings.insertionSort (· ≤ ·) := by
      have hsorted : (canonicalSiblings proofs).Pairwise (· ≤ ·) := Finset.pairwise_sort _ _
      exact hsorted.insertionSort_eq.symm
    have hlength : (batchOf proofs).keys.length = proofs.length := List.length_map _
    rw [verifyMultiProof, if_neg (not_not.mpr hsort), hlength, if_neg, if_neg, if_neg, if_neg,
      if_neg (not_not.mpr hsiblings), zip_batchOf]
    · exact hok
    all_goals simp [batchOf, indexRange]
  · simp

/-- **Batch proving is single-key proving.**  A batch depends on the set of its keys alone,
holds the generated proof of each of them in increasing order, with the value of `get`, and
verifies exactly when each of these proofs does. -/
theorem multiProof_equiv (H : HashFunction) (t : Node) (keys : List Bytes)
    (hkeys : ∀ k ∈ keys, 2 ≤ k.length) :
    (∀ keys' : List Bytes, (∀ k, k ∈ keys' ↔ k ∈ keys) →
      getMultiProof H t keys' = getMultiProof H t keys) ∧
    ∃ batch, (getMultiProof H t keys).outcome = .ok batch ∧
      batch.keys.Pairwise (· < ·) ∧ (∀ k, k ∈ batch.keys ↔ k ∈ keys) ∧
      List.Forall₂ (fun k proof => (getProof H t k).map Logged.val = .ok proof ∧
        Holds t k proof.value) batch.keys batch.proofs ∧
      batch.values = batch.proofs.map MerkleProof.value ∧
      ∃ ok, (verifyMultiProof H (rootHash H t).val.val batch).outcome = .ok ok ∧
        (ok = true ↔ ∀ k ∈ keys, ∃ proof, (getProof H t k).map Logged.val = .ok proof ∧
          ProofVerifies H (rootHash H t).val.val proof) := by
  constructor
  · intro keys' hsame
    have hset : keys'.toFinset = keys.toFinset := by
      ext k
      rw [List.mem_toFinset, List.mem_toFinset, hsame]
    rw [getMultiProof, getMultiProof, hset]
  · obtain ⟨proofs, hbatch, hmap, hall⟩ := outcome_getMultiProof (H := H) (t := t) hkeys
    have hlong : ∀ k ∈ keys.toFinset, 2 ≤ k.length := by
      intro k hk
      exact hkeys k (List.mem_toFinset.mp hk)
    obtain ⟨ok, hok, hiff⟩ :=
      outcome_verifyMultiProof_batchOf H (rootHash H t).val.val hmap hlong
    have hmem : ∀ k, k ∈ (batchOf proofs).keys ↔ k ∈ keys := by
      intro k
      show k ∈ proofs.map MerkleProof.key ↔ _
      rw [hmap, Finset.mem_sort, List.mem_toFinset]
    refine ⟨batchOf proofs, hbatch, ?_, hmem, ?_, rfl, ok, hok, hiff.trans ?_⟩
    · show (proofs.map MerkleProof.key).Pairwise (· < ·)
      rw [hmap]
      exact ((Finset.pairwise_sort _ _).and (Finset.sort_nodup _ _)).imp fun h =>
        Std.lt_of_le_of_ne h.1 h.2
    · refine List.forall₂_map_left_iff.mpr (List.forall₂_same.mpr ?_)
      intro proof hproof
      exact ⟨hall proof hproof, (getProof_key (hall proof hproof)).2⟩
    · constructor
      · intro h k hk
        obtain ⟨proof, hproof, rfl⟩ := List.mem_map.mp ((hmem k).mpr hk)
        exact ⟨proof, hall proof hproof, h proof hproof⟩
      · intro h proof hproof
        obtain ⟨proof', hgen, hverifies⟩ :=
          h proof.key ((hmem proof.key).mp (List.mem_map_of_mem hproof))
        rw [hall proof hproof] at hgen
        cases hgen
        exact hverifies

/-- The proofs of a tree depend neither on the order of the keys nor on repetitions. -/
theorem multiProof_equiv_repeated :
    getMultiProof (fun _ => emptyValue) Node.emptyNode [[0, 2], [0, 1], [0, 2]] =
      getMultiProof (fun _ => emptyValue) Node.emptyNode [[0, 1], [0, 2]] :=
  (multiProof_equiv (fun _ => emptyValue) Node.emptyNode [[0, 1], [0, 2]] (by decide)).1 _ (by
    intro k
    simp only [List.mem_cons, List.not_mem_nil, or_false]
    tauto)

/-! ## The list of siblings -/

/-- **The loop of the verifier accepts** the entries whose proofs have their key and value and
verify.  A key that cannot be split is not accepted: the loop stops before it, or raises. -/
theorem outcome_verifyEach_eq_true_iff {entries : List (Bytes × Bytes × MerkleProof)} :
    (verifyEach H rh entries).outcome = .ok true ↔
      ∀ x ∈ entries, x.2.2.key = x.1 ∧ x.2.2.value = x.2.1 ∧ ProofVerifies H rh x.2.2 := by
  induction entries with
  | nil => exact iff_of_true rfl fun x hx => absurd hx List.not_mem_nil
  | cons entry rest ih =>
      obtain ⟨key, value, proof⟩ := entry
      rw [List.forall_mem_cons, verifyEach]
      by_cases hkey : proof.key = key
      · by_cases hvalue : proof.value = value
        · rw [if_neg (not_not.mpr hkey), if_neg (not_not.mpr hvalue), HashPy.outcome_bind,
            HashPy.outcome_ofPyHash, py_bind_eq_ok_iff]
          constructor
          · rintro ⟨valid, hvalid, hrest⟩
            cases valid with
            | false => cases hrest
            | true => exact ⟨⟨hkey, hvalue, hvalid⟩, ih.mp hrest⟩
          · rintro ⟨⟨-, -, hvalid⟩, hrest⟩
            exact ⟨true, hvalid, ih.mpr hrest⟩
        · rw [if_neg (not_not.mpr hkey), if_pos hvalue]
          refine iff_of_false (fun h => ?_) fun h => hvalue h.1.2.1
          cases h
      · rw [if_pos hkey]
        refine iff_of_false (fun h => ?_) fun h => hkey h.1.1
        cases h

/-- The fields of a batch other than `deduplicated_siblings` pass their checks. -/
structure FieldsPass (H : HashFunction) (rh : Bytes) (batch : BatchMerkleProof) : Prop where
  keys : batch.keys = batch.keys.toFinset.sort
  values : batch.values.length = batch.keys.length
  proofs : batch.proofs.length = batch.keys.length
  index : batch.keyToProofIndex = indexRange batch.keys.length
  verified : ∀ x ∈ batch.keys.zip (batch.values.zip batch.proofs),
    x.2.2.key = x.1 ∧ x.2.2.value = x.2.1 ∧ ProofVerifies H rh x.2.2

/-- **What `verify_multi_proof` accepts**: of the list of siblings it looks at the order only. -/
theorem verifyMultiProof_accepts_iff {batch : BatchMerkleProof} :
    (verifyMultiProof H rh batch).outcome = .ok true ↔
      FieldsPass H rh batch ∧ batch.deduplicatedSiblings.Pairwise (· ≤ ·) := by
  unfold verifyMultiProof
  dsimp only
  constructor
  · intro h
    split_ifs at h with hkeys hvalues hproofs hindex hrange hsiblings
    case neg =>
      refine ⟨⟨not_not.mp hkeys, not_not.mp hvalues, not_not.mp hproofs, not_not.mp hrange,
        outcome_verifyEach_eq_true_iff.mp h⟩, ?_⟩
      rw [not_not.mp hsiblings]
      exact List.pairwise_insertionSort _ _
    -- a check that fails returns false
    all_goals cases h
  · rintro ⟨⟨hkeys, hvalues, hproofs, hindex, hverified⟩, hsorted⟩
    have hlength : batch.keyToProofIndex.length = batch.keys.length := by
      rw [hindex, indexRange, List.length_map, List.length_range]
    rw [if_neg (not_not.mpr hkeys), if_neg (not_not.mpr hvalues), if_neg (not_not.mpr hproofs),
      if_neg (not_not.mpr hlength), if_neg (not_not.mpr hindex),
      if_neg (not_not.mpr hsorted.insertionSort_eq.symm)]
    exact outcome_verifyEach_eq_true_iff.mpr hverified

/-- **When the other fields determine the list of siblings**: exactly when they fail a check, so
that no list is accepted.  Fields that pass are accepted with every sorted list. -/
theorem siblings_determined_iff (H : HashFunction) (rh : Bytes) (batch : BatchMerkleProof) :
    ((∀ siblings, (verifyMultiProof H rh
        { batch with deduplicatedSiblings := siblings }).outcome = .ok true →
        siblings = canonicalSiblings batch.proofs) ↔ ¬ FieldsPass H rh batch) ∧
    ∀ siblings, (verifyMultiProof H rh
        { batch with deduplicatedSiblings := siblings }).outcome = .ok true ↔
      FieldsPass H rh batch ∧ siblings.Pairwise (· ≤ ·) := by
  have haccepts : ∀ siblings, (verifyMultiProof H rh
      { batch with deduplicatedSiblings := siblings }).outcome = .ok true ↔
        FieldsPass H rh batch ∧ siblings.Pairwise (· ≤ ·) := by
    intro siblings
    rw [verifyMultiProof_accepts_iff]
    exact and_congr_left' ⟨fun ⟨hk, hv, hp, hi, hall⟩ => ⟨hk, hv, hp, hi, hall⟩,
      fun ⟨hk, hv, hp, hi, hall⟩ => ⟨hk, hv, hp, hi, hall⟩⟩
  refine ⟨⟨fun hdetermined hpass => ?_, fun hfail siblings hacc => ?_⟩, haccepts⟩
  · -- two sorted lists are accepted, and only one of them can be the canonical one
    have hnil := hdetermined [] ((haccepts []).mpr ⟨hpass, List.Pairwise.nil⟩)
    have hone := hdetermined [[]] ((haccepts [[]]).mpr ⟨hpass, List.pairwise_singleton _ _⟩)
    rw [← hnil] at hone
    cases hone
  · exact absurd ((haccepts siblings).mp hacc).1 hfail

/-- The batch of the proof of a lone stem, which has no siblings. -/
def loneBatch : BatchMerkleProof := batchOf [loneProof [7] 0 onesDigest]

/-- It is accepted. -/
theorem verifyMultiProof_loneBatch : (verifyMultiProof (fun _ => emptyValue) emptyValue.val
    loneBatch).outcome = .ok true := by
  have hkeys : [loneProof [7] 0 onesDigest].map MerkleProof.key =
      ({[7, 0]} : Finset Bytes).sort := (Finset.sort_singleton _ _).symm
  have hlong : ∀ k ∈ ({[7, 0]} : Finset Bytes), 2 ≤ k.length := by
    intro k hk
    rw [Finset.mem_singleton.mp hk]
    decide
  obtain ⟨ok, hok, hiff⟩ := outcome_verifyMultiProof_batchOf (fun _ => emptyValue)
    emptyValue.val hkeys hlong
  have haccepted : ok = true := by
    rw [hiff]
    intro proof hproof
    have hverify : verifyProof (fun _ => emptyValue) emptyValue.val _ = _ :=
      verifyProof_loneProof (fun _ => emptyValue) (List.cons_ne_nil 7 []) 0 onesDigest
    rw [List.mem_singleton.mp hproof, ProofVerifies, hverify]
    rfl
  rw [← haccepted]
  exact hok

/-- Its proof has no siblings. -/
theorem canonicalSiblings_loneBatch : canonicalSiblings loneBatch.proofs = [] := by
  show (([] : List Bytes).toFinset).sort = []
  rw [List.toFinset_nil, Finset.sort_empty]

/-- **A sibling of no proof**: the verifier accepts the batch of a lone stem with a digest in its
list of siblings, although no proof of the batch has a sibling. -/
theorem siblings_not_canonical :
    (verifyMultiProof (fun _ => emptyValue) emptyValue.val
      { loneBatch with deduplicatedSiblings := [zeroBytes 32] }).outcome = .ok true ∧
    [zeroBytes 32] ≠ canonicalSiblings loneBatch.proofs := by
  constructor
  · obtain ⟨⟨hk, hv, hp, hi, hall⟩, -⟩ := verifyMultiProof_accepts_iff.mp verifyMultiProof_loneBatch
    exact verifyMultiProof_accepts_iff.mpr ⟨⟨hk, hv, hp, hi, hall⟩, List.pairwise_singleton _ _⟩
  · rw [canonicalSiblings_loneBatch]
    exact List.cons_ne_nil _ _

end Pbt
