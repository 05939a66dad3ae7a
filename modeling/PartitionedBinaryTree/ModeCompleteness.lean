/-
# Proofs in every hash mode

`make_internal` hashes the two children with `hash_pair`; the verifier hashes the
concatenation of two digests with `hash`.  The proof of a stored stem always leads
back to the root by `hash_pair` (`pairClimb_proofPath`).  It is accepted where `hash`
does the same to the concatenation, which is in the BLAKE3 and Poseidon2 modes
only: `verify_complete_iff` says that in the Gemini mode no proof below the root is
sure to be accepted.
-/
import PartitionedBinaryTree.ProofCompleteness
import PartitionedBinaryTree.RustHash

namespace PbtRs

open Pbt (StemValues Value Digest stemSubtreeWidth emptyValue joinKey storedStem walkEnd pathBit)
open BitTrie (walkLength)

/-! ## Back to the root by pairs -/

/-- The digests on the way up, each computed from the one below and its sibling. -/
def pairClimb (pair : Digest → Digest → Digest) : Digest → List (Digest × UInt8) → Digest
  | current, [] => current
  | current, (sibling, bit) :: path =>
      pairClimb pair (if bit = 0 then pair current sibling else pair sibling current) path

theorem pairClimb_concat (pair : Digest → Digest → Digest) (c : Digest)
    (path : List (Digest × UInt8)) (σ : Digest) (bit : UInt8) :
    pairClimb pair c (path ++ [(σ, bit)]) =
      if bit = 0 then pair (pairClimb pair c path) σ else pair σ (pairClimb pair c path) := by
  induction path generalizing c with
  | nil => rfl
  | cons x path ih => exact ih _

section

variable {H : Type} [TreeHasher H] {hasher : H}

/-- The loop of the verifier on bits that are `0` or `1`. -/
theorem climb_eq_pairClimb (c : Digest) (path : List (Digest × UInt8))
    (hbits : ∀ x ∈ path, x.2 = 0 ∨ x.2 = 1) :
    climb hasher c path =
      some (pairClimb (fun l r => TreeHasher.hash hasher (l.val ++ r.val)) c path) := by
  induction path generalizing c with
  | nil => rfl
  | cons x path ih =>
      obtain ⟨σ, bit⟩ := x
      have htail := fun c => ih c fun x hx => hbits x (List.mem_cons_of_mem _ hx)
      rcases hbits (σ, bit) List.mem_cons_self with hbit | hbit
      · obtain rfl : bit = 0 := hbit
        rw [climb, if_pos rfl, htail, pairClimb, if_pos rfl]
      · obtain rfl : bit = 1 := hbit
        rw [climb, if_neg (by decide), if_pos rfl, htail, pairClimb, if_neg (by decide)]

variable (hasher) in
/-- The walk of `get_proof`: one bit per sibling, as many as there are levels. -/
theorem proofPath_spec (n : Node) (s : Bytes) (depth : ℕ) :
    (proofPath hasher s n depth).1.length = walkLength pathBit s n.erase depth ∧
    (proofPath hasher s n depth).2.1.length = walkLength pathBit s n.erase depth ∧
    (∀ bit ∈ (proofPath hasher s n depth).2.1, bit = 0 ∨ bit = 1) ∧
    (proofPath hasher s n depth).2.2.erase = walkEnd s n.erase depth := by
  induction n generalizing depth with
  | empty => simp [proofPath, walkLength, walkEnd]
  | stem stem => simp [proofPath, walkLength, walkEnd]
  | internal l r d ihl ihr =>
      rw [erase_internal, walkLength, walkEnd, proofPath]
      simp only [pathBitAt_eq]
      rcases Pbt.pathBitAt_eq_zero_or_one s depth with hbit | hbit
      · obtain ⟨hσ, hb, hbits, hend⟩ := ihl (depth + 1)
        have hturn : ¬ pathBit s depth = true := by simp [pathBit, hbit]
        rw [hbit, if_pos rfl, if_pos rfl, if_neg hturn, Nat.add_comm 1]
        refine ⟨congrArg (· + 1) hσ, congrArg (· + 1) hb, ?_, hend⟩
        exact List.forall_mem_cons.mpr ⟨Or.inl rfl, hbits⟩
      · obtain ⟨hσ, hb, hbits, hend⟩ := ihr (depth + 1)
        have hturn : pathBit s depth = true := by simp [pathBit, hbit]
        rw [hbit, if_neg one_ne_zero, if_neg one_ne_zero, if_pos hturn, Nat.add_comm 1]
        refine ⟨congrArg (· + 1) hσ, congrArg (· + 1) hb, ?_, hend⟩
        exact List.forall_mem_cons.mpr ⟨Or.inr rfl, hbits⟩

/-- **The walk leads back**: from the hash of the node where the walk ended, `hash_pair`
over the siblings computes the hash of the node where it began. -/
theorem pairClimb_proofPath {n : Node} (hn : n.Hashed hasher) (s : Bytes) (depth : ℕ) :
    pairClimb (TreeHasher.hashPair hasher) (contentHash hasher (walkEnd s n.erase depth))
      ((proofPath hasher s n depth).1.reverse.zip (proofPath hasher s n depth).2.1.reverse) =
    contentHash hasher n.erase := by
  induction n generalizing depth with
  | empty => rfl
  | stem stem => rfl
  | internal l r d ihl ihr =>
      obtain ⟨hl, hr, -⟩ := hn
      rw [erase_internal, walkEnd, proofPath]
      simp only [pathBitAt_eq]
      rcases Pbt.pathBitAt_eq_zero_or_one s depth with hbit | hbit
      · obtain ⟨hσ, hb, -⟩ := proofPath_spec hasher l s (depth + 1)
        rw [hbit, if_pos rfl, if_pos rfl]
        dsimp only
        rw [Pbt.zip_reverse_cons (hσ.trans hb.symm), pairClimb_concat, ihl hl]
        rw [nodeHash_eq_contentHash hr]
        rfl
      · obtain ⟨hσ, hb, -⟩ := proofPath_spec hasher r s (depth + 1)
        rw [hbit, if_neg one_ne_zero, if_neg one_ne_zero]
        dsimp only
        rw [Pbt.zip_reverse_cons (hσ.trans hb.symm), pairClimb_concat, ihr hr]
        rw [nodeHash_eq_contentHash hl]
        rfl

end

/-! ## Generated proofs -/

namespace Tree

section

variable {H : Type} [TreeHasher H] {hasher : H} {tree : Tree H} {t : Pbt.Node}

/-- The proof of a stored stem carries its values, and leads back to the root by pairs. -/
theorem getProof_of_storedStem (h : Represents hasher tree t) {s : Bytes} (hs : s ≠ [])
    (i : Fin stemSubtreeWidth) {vs : StemValues} (hstem : storedStem t s = some vs) :
    ∃ siblings bits, tree.getProof (joinKey s i) =
        .ok ⟨joinKey s i, getElem vs i i.isLt, vs.toList, siblings, bits⟩ ∧
      siblings.length = walkLength pathBit s t 0 ∧ bits.length = walkLength pathBit s t 0 ∧
      (∀ bit ∈ bits, bit = 0 ∨ bit = 1) ∧
      pairClimb (TreeHasher.hashPair hasher) (hashStem hasher s vs.toList)
        (siblings.reverse.zip bits.reverse) = tree.rootHash := by
  obtain ⟨hhasher, rfl, hroot⟩ := h
  obtain ⟨hσ, hb, hbits, hend⟩ := proofPath_spec hasher tree.root s 0
  have hwalk := Pbt.walkEnd_of_storedStem hstem
  have hclimb := pairClimb_proofPath hroot s 0
  rw [hwalk] at hclimb hend
  refine ⟨_, _, ?_, hσ, hb, hbits, ?_⟩
  · unfold getProof
    rw [splitKey_joinKey hs, hhasher]
    have hleaf := proofLeaf_erase s i (proofPath hasher s tree.root 0).2.2
    rw [hend, Pbt.proofLeaf, if_pos rfl] at hleaf
    simp only [bind, Except.bind, hleaf]
    rfl
  · unfold rootHash
    rw [hhasher, nodeHash_eq_contentHash hroot, ← hclimb]
    rfl

/-- The verdict on such a proof: the verifier goes up by `hash` of concatenations. -/
theorem verifyProof_of_storedStem (h : Represents hasher tree t) {s : Bytes} (hs : s ≠ [])
    (i : Fin stemSubtreeWidth) {vs : StemValues} (hstem : storedStem t s = some vs) :
    ∃ proof, tree.getProof (joinKey s i) = .ok proof ∧
      proof.pathSiblings.length = walkLength pathBit s t 0 ∧
      proof.pathBits.length = walkLength pathBit s t 0 ∧
      tree.rootHash = pairClimb (TreeHasher.hashPair hasher) (hashStem hasher s vs.toList)
        (proof.pathSiblings.reverse.zip proof.pathBits.reverse) ∧
      ∀ rh, tree.verifyProof rh proof =
        (pairClimb (fun l r => TreeHasher.hash hasher (l.val ++ r.val))
          (hashStem hasher s vs.toList)
          (proof.pathSiblings.reverse.zip proof.pathBits.reverse) == rh) := by
  obtain ⟨siblings, bits, hproof, hσ, hb, hbits, hclimb⟩ := getProof_of_storedStem h hs i hstem
  refine ⟨_, hproof, hσ, hb, hclimb.symm, fun rh => ?_⟩
  obtain ⟨hhasher, -, -⟩ := h
  have hwidth : vs.toList.length = stemSubtreeWidth := Vector.length_toList
  have hslot : vs.toList[i.val]? = some vs[i] := by
    rw [List.getElem?_eq_getElem (hwidth.symm ▸ i.isLt), Vector.getElem_toList]
    rfl
  have hlevels : ∀ x ∈ siblings.reverse.zip bits.reverse, x.2 = 0 ∨ x.2 = 1 := fun x hx =>
    hbits x.2 (List.mem_reverse.mp (List.of_mem_zip hx).2)
  unfold verifyProof verifyProofWithHasher
  dsimp only
  rw [if_neg (not_not.mpr hwidth), splitKey_joinKey hs]
  dsimp only
  rw [if_neg (not_not.mpr hslot), if_neg (not_not.mpr (hσ.trans hb.symm)), hhasher,
    climb_eq_pairClimb _ _ hlevels]

end

/-- The key's stem is stored in the tree. -/
def Stores {H : Type} (tree : Tree H) (key : Bytes) : Prop :=
  2 ≤ key.length ∧ storedStem tree.root.erase key.dropLast ≠ none

/-- The key's stem is stored in the tree, below that many nodes. -/
def StoresAt {H : Type} (tree : Tree H) (key : Bytes) (depth : ℕ) : Prop :=
  tree.Stores key ∧ walkLength pathBit key.dropLast tree.root.erase 0 = depth

/-- A stored key is the key of a slot of a stem of the contents. -/
theorem Stores.exists_storedStem {H : Type} [TreeHasher H] {hasher : H} {tree : Tree H}
    {t : Pbt.Node} (h : Represents hasher tree t) {key : Bytes} (hstored : tree.Stores key) :
    ∃ s i vs, key = joinKey s i ∧ s ≠ [] ∧ storedStem t s = some vs := by
  obtain ⟨hlen, hstem⟩ := hstored
  obtain ⟨s, i, -, rfl⟩ := Pbt.exists_splitKey hlen
  rw [Pbt.dropLast_joinKey, h.root.erase] at hstem
  obtain ⟨vs, hvs⟩ := Option.ne_none_iff_exists'.mp hstem
  exact ⟨s, i, vs, rfl, Pbt.two_le_length_joinKey_iff.mp hlen, hvs⟩

/-- The proof that the tree generates for the key is accepted against its root. -/
def ProofAccepted {H : Type} [TreeHasher H] (tree : Tree H) (key : Bytes) : Prop :=
  ∃ proof, tree.getProof key = .ok proof ∧ tree.verifyProof tree.rootHash proof = true

end Tree

/-! ## The modes other than Gemini -/

/-- Outside the Gemini mode `hash_pair` is `hash` of the concatenation. -/
theorem hashPair_of_ne_gemini {hasher : ModeHasher} (hmode : hasher.mode ≠ .gemini)
    (l r : Digest) :
    TreeHasher.hash hasher (l.val ++ r.val) = TreeHasher.hashPair hasher l r := by
  show (hasher.hash (l.val ++ r.val)).val = (hasher.hashPair l r).val
  rw [hash_of_ne_gemini hmode, ModeHasher.hashPair]
  cases hm : hasher.mode with
  | blake3 => rfl
  | poseidon2 => simp [hashBytes, treeHash, poseidon2HashTwo, blake3Hash]
  | gemini => exact absurd hm hmode

/-- **Where the two hashes of a pair are the same, or no pair is hashed**, the proof of a
stored stem is accepted. -/
theorem proofAccepted_of_storesAt {hasher : ModeHasher} {tree : Tree ModeHasher} {t : Pbt.Node}
    (h : Tree.Represents hasher tree t) {key : Bytes} {depth : ℕ}
    (hcond : hasher.mode ≠ .gemini ∨ depth = 0) (hstored : tree.StoresAt key depth) :
    tree.ProofAccepted key := by
  obtain ⟨hstem, hdepth⟩ := hstored
  obtain ⟨s, i, vs, rfl, hs, hvs⟩ := hstem.exists_storedStem h
  rw [Pbt.dropLast_joinKey, h.root.erase] at hdepth
  obtain ⟨proof, hproof, hσ, -, hroot, hverify⟩ := Tree.verifyProof_of_storedStem h hs i hvs
  refine ⟨proof, hproof, ?_⟩
  rw [hverify, hroot, beq_iff_eq]
  rcases hcond with hmode | rfl
  · rw [funext fun l => funext fun r => hashPair_of_ne_gemini hmode l r]
  · -- a proof without siblings leads from the stem to the root at once
    rw [List.length_eq_zero_iff.mp (hσ.trans hdepth)]
    rfl

/-! ## The Gemini mode -/

/-- In the Gemini mode `hash` of a concatenation starts from a constant. -/
theorem hash_append_gemini {hasher : ModeHasher} (hmode : hasher.mode = .gemini) (l r : Digest) :
    TreeHasher.hash hasher (l.val ++ r.val) =
      hasher.primitives.geminiCompress
        (hasher.primitives.geminiCompress geminiStart l) r := by
  have hshort : (l.val ++ r.val).length < 8203 := by
    rw [List.length_append, l.property, r.property]
    decide
  show (hasher.hash (l.val ++ r.val)).val = _
  rw [hash_of_short hshort, hmode, hashBytes,
    chunks_append (by decide) l.property r.property]
  show hasher.primitives.geminiCompress (hasher.primitives.geminiCompress geminiStart
    (BytesN.copyFrom 32 l.val)) (BytesN.copyFrom 32 r.val) = _
  rw [BytesN.copyFrom_val, BytesN.copyFrom_val]

/-- A compressor that keeps the constant and nothing else. -/
def keepStart (left _right : Digest) : Digest :=
  if left = geminiStart then geminiStart else emptyValue

theorem emptyValue_ne_geminiStart : emptyValue ≠ geminiStart := by decide

/-- The Gemini mode over it. -/
def keepStartHasher : ModeHasher := ⟨.gemini, fun _ => emptyValue, keepStart⟩

/-- The verifier's hash of any pair is the constant. -/
theorem hash_append_keepStart (l r : Digest) :
    TreeHasher.hash keepStartHasher (l.val ++ r.val) = geminiStart := by
  rw [hash_append_gemini rfl]
  show keepStart (keepStart geminiStart l) r = geminiStart
  rw [keepStart, keepStart, if_pos rfl, if_pos rfl]

/-- So that it ends every climb along a path. -/
theorem pairClimb_const (k c : Digest) {path : List (Digest × UInt8)} (hpath : path ≠ []) :
    pairClimb (fun _ _ => k) c path = k := by
  obtain ⟨path, x, rfl⟩ := (List.eq_nil_or_concat' path).resolve_left hpath
  rw [pairClimb_concat, ite_self]

/-- The hash of a tree is not the constant when a walk that only turns left ends at a stem
whose block is not. -/
theorem contentHash_keepStart {s s' : Bytes} {vs : StemValues} (hblock : stemBlock s' ≠ geminiStart)
    {t : Pbt.Node} {depth : ℕ}
    (hleft : ∀ p, depth ≤ p → p < depth + walkLength pathBit s t depth → pathBit s p = false)
    (hend : walkEnd s t depth = .stemNode s' vs) :
    contentHash keepStartHasher t = emptyValue := by
  induction t generalizing depth with
  | empty => cases hend
  | leaf s'' vs'' =>
      cases hend
      show hashStem keepStartHasher s' vs.toList = _
      rw [hashStem_eq]
      exact if_neg hblock
  | node l r ihl _ =>
      have hbit : pathBit s depth = false := hleft depth (Nat.le_refl depth) (by
        rw [walkLength]
        omega)
      rw [walkLength, hbit, if_neg Bool.false_ne_true] at hleft
      rw [walkEnd, if_pos (Pbt.pathBit_eq_false_iff.mp hbit)] at hend
      have hchild := ihl (fun p hp hlt => hleft p (by omega) (by omega)) hend
      show keepStart (contentHash keepStartHasher l) (contentHash keepStartHasher r) = _
      rw [hchild, keepStart, if_neg emptyValue_ne_geminiStart]

/-! ## A stem at every depth -/

/-- Zero bytes at the front are zero bits. -/
theorem pathBit_zeroBytes_append {n p : ℕ} (x : Bytes) (h : p < 8 * n) :
    pathBit (zeroBytes n ++ x) p = false := by
  have hi : p / 8 < (zeroBytes n ++ x).length := by
    rw [List.length_append, length_zeroBytes]
    omega
  have hbyte : (zeroBytes n ++ x)[p / 8] = 0 := by
    rw [List.getElem_append_left (by rw [length_zeroBytes]; omega)]
    exact List.getElem_replicate _
  have hbit := Pbt.pathBit_of_lt hi (Nat.mod_lt p (by decide))
  rw [Nat.div_add_mod, hbyte] at hbit
  rw [hbit]
  exact Nat.zero_testBit _

/-- A prefix whose first bit that is set is the one at `d`. -/
def firstBitAt (d : ℕ) : Bytes := zeroBytes (d / 8) ++ [UInt8.ofNat (2 ^ (7 - d % 8))]

/-- Its bits up to that one. -/
theorem pathBit_firstBitAt {d p : ℕ} (h : p ≤ d) : pathBit (firstBitAt d) p = decide (p = d) := by
  by_cases hbyte : p < 8 * (d / 8)
  · rw [firstBitAt, pathBit_zeroBytes_append _ hbyte]
    exact (decide_eq_false (by omega)).symm
  · have hi : d / 8 < (firstBitAt d).length := by simp [firstBitAt]
    have hlast : (firstBitAt d)[d / 8] = UInt8.ofNat (2 ^ (7 - d % 8)) := by
      simp [firstBitAt, List.getElem_append_right]
    have hpow : 2 ^ (7 - d % 8) < 256 :=
      lt_of_le_of_lt (Nat.pow_le_pow_right (by decide) (show 7 - d % 8 ≤ 7 by omega)) (by decide)
    have hbit := Pbt.pathBit_of_lt hi (Nat.mod_lt p (by decide))
    rw [show 8 * (d / 8) + p % 8 = p by omega, hlast, UInt8.toNat_ofNat_of_lt' hpow,
      Nat.testBit_two_pow] at hbit
    rw [hbit, decide_eq_decide]
    omega

/-- **Two stems that part at the bit `d`**: the first of them is stored below `d + 1` nodes. -/
theorem walkLength_run_pair {s s' : Bytes} (hs : s ≠ []) (hs' : s' ≠ []) {d : ℕ}
    (hagree : ∀ p < d, pathBit s p = pathBit s' p) (hpart : pathBit s d ≠ pathBit s' d)
    (i : Fin stemSubtreeWidth) (v : Value) :
    ∃ vs t, Pbt.run [.insert (joinKey s i) v.val, .insert (joinKey s' i) v.val] = t ∧
      storedStem t s = some vs ∧ walkLength pathBit s t 0 = d + 1 := by
  have hne : s ≠ s' := fun h => hpart (by rw [h])
  have hwf := Pbt.wellFormed_run [.insert (joinKey s i) v.val]
  rw [Pbt.run_lone hs] at hwf
  obtain ⟨t, hinsert, -, hread⟩ := Pbt.insertNode_spec hwf s' i v
  rw [Pbt.insertNode, if_neg hne] at hinsert
  refine ⟨Pbt.emptyStem.set i v, t, Pbt.run_pair hs hs' hne i v hinsert, ?_, ?_⟩
  · rw [hread s, if_neg hne]
    exact if_pos rfl
  · rw [Pbt.splitStems_eq_split] at hinsert
    cases hsplit : BitTrie.split pathBit s (Pbt.emptyStem.set i v) s' (Pbt.emptyStem.set i v)
        (Pbt.splitFuel s s' 0) 0 with
    | none =>
        rw [hsplit] at hinsert
        cases hinsert
    | some t' =>
        rw [hsplit] at hinsert
        cases hinsert
        exact BitTrie.walkLength_split hsplit (Nat.zero_le d) (fun q _ hq => hagree q hq) hpart

/-- At every depth but the first there is a stem that is reached to the left, and whose block
is not the constant. -/
theorem exists_left_stem (d : ℕ) :
    ∃ ops s vs, s ≠ [] ∧ stemBlock s ≠ geminiStart ∧ storedStem (Pbt.run ops) s = some vs ∧
      walkLength pathBit s (Pbt.run ops) 0 = d + 1 ∧ ∀ p ≤ d, pathBit s p = false := by
  have hs : zeroBytes (d / 8 + 1) ≠ [] := by simp [zeroBytes]
  have hs' : firstBitAt d ≠ [] := by simp [firstBitAt]
  have hleft : ∀ p ≤ d, pathBit (zeroBytes (d / 8 + 1)) p = false := by
    intro p hp
    rw [← List.append_nil (zeroBytes _)]
    exact pathBit_zeroBytes_append [] (by omega)
  have hagree : ∀ p < d, pathBit (zeroBytes (d / 8 + 1)) p = pathBit (firstBitAt d) p := by
    intro p hp
    rw [hleft p hp.le, pathBit_firstBitAt hp.le, decide_eq_false hp.ne]
  have hpart : pathBit (zeroBytes (d / 8 + 1)) d ≠ pathBit (firstBitAt d) d := by
    rw [hleft d (Nat.le_refl d), pathBit_firstBitAt (Nat.le_refl d), decide_eq_true rfl]
    exact Bool.false_ne_true
  have hblock : stemBlock (zeroBytes (d / 8 + 1)) ≠ geminiStart := by
    intro h
    have hhead := congrArg (fun b : Digest => b.val.head?) h
    simp only [stemBlock, geminiStart, BytesN.copyFrom, zeroBytes] at hhead
    cases hhead
  obtain ⟨vs, t, rfl, hstem, hwalk⟩ := walkLength_run_pair hs hs' hagree hpart 0 emptyValue
  exact ⟨_, _, vs, hs, hblock, hstem, hwalk, hleft⟩

/-- The proof of such a stem is not accepted. -/
theorem not_proofAccepted_keepStart {tree : Tree ModeHasher} {t : Pbt.Node}
    (h : Tree.Represents keepStartHasher tree t) {s : Bytes} (hs : s ≠ [])
    (hblock : stemBlock s ≠ geminiStart) {vs : StemValues} (hstem : storedStem t s = some vs)
    {d : ℕ} (hwalk : walkLength pathBit s t 0 = d + 1) (hleft : ∀ p ≤ d, pathBit s p = false)
    (i : Fin stemSubtreeWidth) : ¬ tree.ProofAccepted (joinKey s i) := by
  rintro ⟨proof, hproof, hacc⟩
  obtain ⟨proof', hproof', hσ, hb, -, hverify⟩ := Tree.verifyProof_of_storedStem h hs i hstem
  obtain rfl : proof = proof' := Except.ok.inj (hproof.symm.trans hproof')
  have hpath : proof.pathSiblings.reverse.zip proof.pathBits.reverse ≠ [] := by
    intro hnil
    have hlen := congrArg List.length hnil
    rw [List.length_zip, List.length_reverse, List.length_reverse, hσ, hb, hwalk,
      Nat.min_self] at hlen
    cases hlen
  have hroot : tree.rootHash = emptyValue := by
    rw [Tree.rootHash_eq h]
    exact contentHash_keepStart hblock (fun p _ hp => hleft p (by omega))
      (Pbt.walkEnd_of_storedStem hstem)
  -- the verifier ends at the constant, which is not the root hash
  rw [hverify, beq_iff_eq, hroot, funext fun l => funext fun r => hash_append_keepStart l r,
    pairClimb_const _ _ hpath] at hacc
  exact emptyValue_ne_geminiStart hacc.symm

/-! ## Completeness -/

/-- **Completeness in every mode.**  The proofs of all keys whose stem is stored at a given
depth are accepted, in all trees over all primitives, exactly when the mode is not
Gemini or the depth is that of the only stem of a tree. -/
theorem verify_complete_iff (mode : HashFunction) (depth : ℕ) :
    (∀ (primitives : Primitives) (ops : List Pbt.TreeOp) (key : Bytes),
      (Tree.run (ModeHasher.mk mode primitives) ops).StoresAt key depth →
      (Tree.run (ModeHasher.mk mode primitives) ops).ProofAccepted key) ↔
    mode ≠ .gemini ∨ depth = 0 := by
  constructor
  · intro hall
    by_contra hcond
    push Not at hcond
    obtain ⟨rfl, hdepth⟩ := hcond
    obtain ⟨d, rfl⟩ := Nat.exists_eq_succ_of_ne_zero hdepth
    obtain ⟨ops, s, vs, hs, hblock, hstem, hwalk, hleft⟩ := exists_left_stem d
    have hrep := Tree.represents_run keepStartHasher ops
    refine not_proofAccepted_keepStart hrep hs hblock hstem hwalk hleft 0
      (hall keepStartHasher.primitives ops (joinKey s 0) ⟨⟨?_, ?_⟩, ?_⟩)
    · exact Pbt.two_le_length_joinKey_iff.mpr hs
    · rw [Pbt.dropLast_joinKey]
      show storedStem (Tree.run keepStartHasher ops).root.erase s ≠ none
      rw [hrep.root.erase, hstem]
      exact Option.some_ne_none vs
    · rw [Pbt.dropLast_joinKey]
      show walkLength pathBit s (Tree.run keepStartHasher ops).root.erase 0 = d + 1
      rw [hrep.root.erase, hwalk]
  · intro hcond primitives ops key hstored
    exact proofAccepted_of_storesAt (Tree.represents_run _ ops) hcond hstored

/-! ## Two stems under the compressor of the source -/

/-- The source's compressor in the Gemini mode. -/
def geminiHasher : ModeHasher := ⟨.gemini, .source fun _ => emptyValue⟩

/-- Two stems that part at the first bit. -/
def geminiPair : Tree ModeHasher :=
  Tree.run geminiHasher
    [.insert [0, 0] (List.replicate 32 1), .insert [128, 0] (List.replicate 32 1)]

/-- The root of the values. -/
def onesRoot : Digest :=
  .ofNat 32 88351765794872520978880990321190045525754867162457782300193043989103758419616

theorem foldValues_ones :
    (foldValues geminiHasher.primitives (headSlot Pbt.onesDigest)).val = onesRoot := by
  rw [(foldValues_headSlot _ _).1]
  decide +kernel

/-- The hash of a stem with these values. -/
theorem hashStem_ones (s : Bytes) :
    hashStem geminiHasher s (headSlot Pbt.onesDigest).toList =
      geminiCompress (stemBlock s) onesRoot := by
  rw [hashStem_eq, ← foldValues_ones]
  rfl

/-- The stem of the key is stored in the tree, and the proof of the key is refused. -/
theorem not_complete_geminiPair :
    geminiPair.StoresAt [0, 0] 1 ∧ ¬ geminiPair.ProofAccepted [0, 0] := by
  constructor
  · exact ⟨⟨Nat.le_refl 2, Option.some_ne_none (headSlot Pbt.onesDigest)⟩, rfl⟩
  · rintro ⟨proof, hproof, hacc⟩
    have hstem : storedStem (Pbt.run
        [.insert [0, 0] (List.replicate 32 1), .insert [128, 0] (List.replicate 32 1)]) [0] =
          some (headSlot Pbt.onesDigest) := rfl
    obtain ⟨proof', hproof', -, -, hroot, hverify⟩ := Tree.verifyProof_of_storedStem
      (Tree.represents_run geminiHasher _) (List.cons_ne_nil _ _) 0 hstem
    obtain rfl : proof = proof' := Except.ok.inj (hproof.symm.trans hproof')
    have hgen : geminiPair.getProof [0, 0] = .ok ⟨[0, 0], Pbt.onesDigest,
        (headSlot Pbt.onesDigest).toList,
        [hashStem geminiHasher [128] (headSlot Pbt.onesDigest).toList], [0]⟩ := rfl
    obtain rfl := Except.ok.inj (hproof.symm.trans hgen)
    -- one level: the pair of the two stem hashes, hashed in either way
    have hlevel : ∀ pair a b, pairClimb pair a ([b].reverse.zip [0].reverse) = pair a b :=
      fun _ _ _ => rfl
    rw [geminiPair, hverify, hroot, beq_iff_eq, hlevel, hlevel, hash_append_gemini rfl,
      hashStem_ones, hashStem_ones] at hacc
    have hdiffer : geminiCompress (geminiCompress geminiStart
          (geminiCompress (stemBlock [0]) onesRoot))
          (geminiCompress (stemBlock [128]) onesRoot) ≠
        geminiCompress (geminiCompress (stemBlock [0]) onesRoot)
          (geminiCompress (stemBlock [128]) onesRoot) := by decide +kernel
    exact hdiffer hacc

end PbtRs
