/-
# Completeness of `get_proof`

The walk of `get_proof` and the climb of `verify_proof` are inverse to each
other (`climb_proofPath`), so a proof generated for a stored stem is accepted
under every hash function.  When the walk ends elsewhere, the proof carries an
all-empty stem that the tree does not contain; `completeAt_iff_storedStem` says that
such a proof fails under some hash function, and `collision_of_absent_accepted` that it
passes under none without a collision.
-/
import PartitionedBinaryTree.ProofSoundness

namespace Pbt

open Node

variable {H : HashFunction}

/-! ## The walk down and the climb back -/

/-- Where the walk of `get_proof` ends. -/
def walkEnd (s : Bytes) : Node → ℕ → Node
  | .internalNode left right, depth =>
      if pathBitAt s depth = 0 then walkEnd s left (depth + 1) else walkEnd s right (depth + 1)
  | node, _ => node

/-- One level of the walk, for either child. -/
theorem proofPath_internalNode (s : Bytes) (l r : Node) (d : ℕ) :
    (proofPath H s (internalNode l r) d).val =
      if pathBitAt s d = 0 then
        ((nodeHash H r).val.val :: (proofPath H s l (d + 1)).val.1,
          0 :: (proofPath H s l (d + 1)).val.2.1, (proofPath H s l (d + 1)).val.2.2)
      else
        ((nodeHash H l).val.val :: (proofPath H s r (d + 1)).val.1,
          1 :: (proofPath H s r (d + 1)).val.2.1, (proofPath H s r (d + 1)).val.2.2) := by
  rcases pathBitAt_eq_zero_or_one s d with hbit | hbit
  · simp only [proofPath, hbit, if_true, Logged.val_bind, Logged.val_pure, Nat.cast_zero]
  · simp only [proofPath, hbit, one_ne_zero, if_false, Logged.val_bind, Logged.val_pure,
      Nat.cast_one]

/-- The walk records one bit per sibling, siblings are digests, and it ends at `walkEnd`. -/
theorem proofPath_spec (s : Bytes) (t : Node) (d : ℕ) :
    (proofPath H s t d).val.1.length = (proofPath H s t d).val.2.1.length ∧
    (∀ σ ∈ (proofPath H s t d).val.1, σ.length = 32) ∧
    (∀ b ∈ (proofPath H s t d).val.2.1, b = 0 ∨ b = 1) ∧
    (proofPath H s t d).val.2.2 = walkEnd s t d := by
  induction t generalizing d with
  | empty => simp [proofPath, walkEnd]
  | leaf s' vs => simp [proofPath, walkEnd]
  | node l r ihl ihr =>
      rw [proofPath_internalNode, walkEnd]
      split_ifs with hbit
      · obtain ⟨hlen, hσ, hb, hend⟩ := ihl (d + 1)
        simp only [List.length_cons, hlen, List.mem_cons, forall_eq_or_imp, BytesN.length_val,
          true_and, true_or, hend, and_true]
        exact ⟨hσ, hb⟩
      · obtain ⟨hlen, hσ, hb, hend⟩ := ihr (d + 1)
        simp only [List.length_cons, hlen, List.mem_cons, forall_eq_or_imp, BytesN.length_val,
          true_and, or_true, hend, and_true]
        exact ⟨hσ, hb⟩

/-- Zipping two reversed lists puts their heads last. -/
theorem zip_reverse_cons {α β : Type} {x : α} {y : β} {xs : List α} {ys : List β}
    (h : xs.length = ys.length) :
    (x :: xs).reverse.zip (y :: ys).reverse = xs.reverse.zip ys.reverse ++ [(x, y)] := by
  rw [List.reverse_cons, List.reverse_cons, List.zip_append (by simpa using h)]
  rfl

/-- **The climb undoes the walk**: from the hash of the node where the walk ended it
computes the hash of the node where the walk began. -/
theorem climb_proofPath (s : Bytes) (t : Node) (d : ℕ) :
    (climb H (nodeHash H (walkEnd s t d)).val
      ((proofPath H s t d).val.1.reverse.zip (proofPath H s t d).val.2.1.reverse)).val =
    (nodeHash H t).val := by
  induction t generalizing d with
  | empty => rfl
  | leaf s' vs => rfl
  | node l r ihl ihr =>
      rw [proofPath_internalNode, walkEnd]
      split_ifs with hbit
      · rw [zip_reverse_cons (proofPath_spec s l (d + 1)).1, (climb_concat _ _ _ _).1, ihl]
        rfl
      · rw [zip_reverse_cons (proofPath_spec s r (d + 1)).1, (climb_concat _ _ _ _).1, ihr]
        rfl

/-- The walk ends at the stem exactly when the tree stores it. -/
theorem lookup_eq_walkEnd (s : Bytes) (t : Node) (d : ℕ) :
    BitTrie.lookup pathBit s t d = BitTrie.lookup pathBit s (walkEnd s t d) 0 := by
  induction t generalizing d with
  | empty => rfl
  | leaf s' vs => rfl
  | node l r ihl ihr =>
      rw [BitTrie.lookup, walkEnd]
      split_ifs with hb hbit hbit
      · exact absurd hbit (pathBit_eq_true_iff.mp hb)
      · exact ihr (d + 1)
      · exact ihl (d + 1)
      · exact absurd (pathBit_eq_false_iff.mp (by simpa using hb)) hbit

theorem walkEnd_ne_internalNode (s : Bytes) (t : Node) (d : ℕ) (l r : Node) :
    walkEnd s t d ≠ internalNode l r := by
  induction t generalizing d with
  | empty => exact fun h => by cases h
  | leaf s' vs => exact fun h => by cases h
  | node l' r' ihl ihr =>
      rw [walkEnd]
      split_ifs
      · exact ihl (d + 1)
      · exact ihr (d + 1)

/-- The walk to a stored stem ends there. -/
theorem walkEnd_of_storedStem {t : Node} {s : Bytes} {vs : StemValues}
    (hstem : storedStem t s = some vs) : walkEnd s t 0 = stemNode s vs := by
  have hlookup : BitTrie.lookup pathBit s (walkEnd s t 0) 0 = some vs := by
    rw [← lookup_eq_walkEnd]
    exact hstem
  cases h : walkEnd s t 0 with
  | empty =>
      rw [h] at hlookup
      cases hlookup
  | node l r => exact absurd h (walkEnd_ne_internalNode s t 0 l r)
  | leaf s' vs' =>
      rw [h, BitTrie.lookup] at hlookup
      split_ifs at hlookup with hs
      cases hlookup
      rw [hs]

/-! ## Generated proofs -/

/-- What `get_proof` reads where its walk ended is the stored stem, or an empty one. -/
theorem proofLeaf_walkEnd (t : Node) (s : Bytes) (i : Fin stemSubtreeWidth) :
    proofLeaf s i (walkEnd s t 0) =
      (getElem ((storedStem t s).getD emptyStem) i i.isLt, (storedStem t s).getD emptyStem) := by
  rw [storedStem, lookup_eq_walkEnd]
  cases hend : walkEnd s t 0 with
  | empty => simp [proofLeaf, BitTrie.lookup]
  | leaf s' vs =>
      rw [proofLeaf, BitTrie.lookup]
      split_ifs <;> simp
  | node l r => exact absurd hend (walkEnd_ne_internalNode s t 0 l r)

/-- **Specification of `get_proof`.** -/
theorem getProof_spec (t : Node) {key s : Bytes} {i : Fin stemSubtreeWidth}
    (hkey : splitKey key = .ok (s, i)) :
    ∃ p, getProof H t key = .ok p ∧ p.val = {
      key := key
      value := (getElem ((storedStem t s).getD emptyStem) i i.isLt).val
      stemValues := stemBytes ((storedStem t s).getD emptyStem)
      pathSiblings := (proofPath H s t 0).val.1
      pathBits := (proofPath H s t 0).val.2.1 } := by
  rw [getProof, hkey]
  refine ⟨_, rfl, ?_⟩
  simp only [Logged.val_bind, Logged.val_pure, (proofPath_spec s t 0).2.2.2, proofLeaf_walkEnd]

/-- The proof `get_proof` generates: 256 values of 32 bytes, digests, and bits. -/
theorem getProof_widths {t : Node} {key : Bytes} {p : Logged Bytes MerkleProof}
    (h : getProof H t key = .ok p) :
    p.val.key = key ∧ p.val.stemValues.length = stemSubtreeWidth ∧
    (∀ v ∈ p.val.stemValues, v.length = 32) ∧ p.val.value.length = 32 ∧
    p.val.pathSiblings.length = p.val.pathBits.length ∧
    (∀ σ ∈ p.val.pathSiblings, σ.length = 32) ∧ ∀ b ∈ p.val.pathBits, b = 0 ∨ b = 1 := by
  cases hkey : splitKey key with
  | error e =>
      rw [getProof, hkey] at h
      cases h
  | ok si =>
      obtain ⟨s, i⟩ := si
      obtain ⟨p', hp', hval⟩ := getProof_spec (H := H) t hkey
      rw [hp'] at h
      cases h
      obtain ⟨hlen, hσ, hb, -⟩ := proofPath_spec (H := H) s t 0
      rw [hval]
      exact ⟨rfl, length_stemBytes _, length_of_mem_stemBytes, BytesN.length_val _, hlen, hσ, hb⟩

/-- `verify_proof` on a generated proof: it starts at the hash of the stem that the
proof carries, and climbs as the walk came down. -/
theorem verifyProof_getProof {t : Node} {key s : Bytes} {i : Fin stemSubtreeWidth}
    {p : Logged Bytes MerkleProof} (hkey : splitKey key = .ok (s, i))
    (hp : getProof H t key = .ok p) (rh : Bytes) :
    ∃ w, verifyProof H rh p.val = .ok w ∧
      w.val = ((climb H (H (stemPayload s (stemBytes ((storedStem t s).getD emptyStem))))
        ((proofPath H s t 0).val.1.reverse.zip (proofPath H s t 0).val.2.1.reverse)).val.val
          == rh) := by
  obtain ⟨p', hp', hval⟩ := getProof_spec (H := H) t hkey
  rw [hp] at hp'
  cases hp'
  rw [hval]
  exact ⟨_, verifyProof_eq H rh hkey (length_stemBytes _) (getElem?_stemBytes _ i)
    (proofPath_spec s t 0).1, rfl⟩

/-- What the docstring of `get_proof` promises for one key: the generated proof has the
value of `get` and is accepted against the root of the tree. -/
def CompleteAt (H : HashFunction) (t : Node) (key : Bytes) : Prop :=
  ∃ p, getProof H t key = .ok p ∧ Holds t key p.val.value ∧
    ∃ w, verifyProof H (rootHash H t).val.val p.val = .ok w ∧ w.val = true

/-- The generated proof always has the value of `get`. -/
theorem holds_getProof {t : Node} {key : Bytes} {p : Logged Bytes MerkleProof}
    (hp : getProof H t key = .ok p) : Holds t key p.val.value := by
  cases hkey : splitKey key with
  | error e =>
      rw [getProof, hkey] at hp
      cases hp
  | ok si =>
      obtain ⟨s, i⟩ := si
      obtain ⟨p', hp', hval⟩ := getProof_spec (H := H) t hkey
      rw [hp] at hp'
      cases hp'
      obtain ⟨rfl, hlen⟩ := splitKey_eq_ok_iff.mp hkey
      rw [Holds, get_joinKey (two_le_length_joinKey_iff.mp hlen), hval]
      rfl

/-- **Stored stems**: present keys and absent slots have accepted proofs. -/
theorem completeAt_of_storedStem {t : Node} {key s : Bytes} {i : Fin stemSubtreeWidth}
    (hkey : splitKey key = .ok (s, i)) {vs : StemValues} (hstem : storedStem t s = some vs) :
    CompleteAt H t key := by
  obtain ⟨p, hp, -⟩ := getProof_spec (H := H) t hkey
  obtain ⟨w, hw, hval⟩ := verifyProof_getProof hkey hp (rootHash H t).val.val
  refine ⟨p, hp, holds_getProof hp, w, hw, ?_⟩
  have hend := walkEnd_of_storedStem hstem
  have hleaf : H (stemPayload s (stemBytes ((storedStem t s).getD emptyStem))) =
      (nodeHash H (walkEnd s t 0)).val := by
    rw [hend, hstem]
    rfl
  rw [hval, hleaf, climb_proofPath, beq_iff_eq]
  rfl

/-! ## Stems that are not stored -/

/-- Without a collision no proof of a stem that is not stored is accepted. -/
theorem collision_of_absent_accepted {t : Node} (ht : Reachable t) {key : Bytes}
    (habsent : storedStem t key.dropLast = none) {p : Logged Bytes MerkleProof}
    (hp : getProof H t key = .ok p) {w : Logged Bytes Bool}
    (hw : verifyProof H (rootHash H t).val.val p.val = .ok w) (hacc : w.val = true) :
    Collision H ((rootHash H t).queries ++ w.queries) := by
  obtain ⟨hpkey, -, hvalues, -, -, hsiblings, -⟩ := getProof_widths hp
  obtain ⟨s, i, vs, hkey, hstem, -⟩ | hcol := verifyProof_sound ht hw hacc hvalues
    fun σ hσ => by rw [hsiblings σ hσ]; norm_num
  · obtain ⟨hjoin, -⟩ := splitKey_eq_ok_iff.mp hkey
    rw [← hpkey, hjoin, dropLast_joinKey, hstem] at habsent
    cases habsent
  · exact hcol

/-- A hash function that marks one string with the all-one digest, and passes the mark
from a child to its parent. -/
def markingHash (marked x : Bytes) : Digest :=
  if x = marked ∨ (x.length = 64 ∧ (x.take 32 = onesDigest.val ∨ x.drop 32 = onesDigest.val)) then
    onesDigest
  else emptyValue

/-- No node of a tree is marked when none of its stems is. -/
theorem nodeHash_markingHash {marked : Bytes} (hlen : 8203 ≤ marked.length) {t : Node}
    (h : ∀ p ∈ t.leaves, stemPayload p.1 (stemBytes p.2) ≠ marked) :
    (nodeHash (markingHash marked) t).val = emptyValue := by
  have hones : emptyValue.val ≠ onesDigest.val := by decide
  induction t with
  | empty =>
      refine if_neg ?_
      rintro (hnil | ⟨h64, -⟩)
      · rw [← hnil] at hlen
        simp at hlen
      · simp at h64
  | leaf s vs =>
      refine if_neg ?_
      rintro (hmark | ⟨h64, -⟩)
      · exact h (s, vs) List.mem_cons_self hmark
      · rw [length_stemPayload (length_stemBytes vs) length_of_mem_stemBytes] at h64
        omega
  | node l r ihl ihr =>
      have hl := ihl fun p hp => h p (List.mem_append_left _ hp)
      have hr := ihr fun p hp => h p (List.mem_append_right _ hp)
      -- neither child is marked, and a payload of 64 bytes is not the marked one
      rw [val_nodeHash, nodePayload, hl, hr]
      refine if_neg ?_
      rintro (hmark | ⟨-, htake | hdrop⟩)
      · rw [← hmark, List.length_append, BytesN.length_val] at hlen
        omega
      · exact hones htake
      · exact hones hdrop

/-- A climb that starts at the mark ends at the mark. -/
theorem climb_markingHash {marked : Bytes} (path : List (Bytes × ℤ))
    (hpath : ∀ x ∈ path, x.1.length = 32) :
    (climb (markingHash marked) onesDigest path).val = onesDigest := by
  induction path with
  | nil => rfl
  | cons x path ih =>
      obtain ⟨σ, b⟩ := x
      have hσ : σ.length = 32 := hpath (σ, b) List.mem_cons_self
      have hstep : (climbStep (markingHash marked) onesDigest σ b).val = onesDigest := by
        rw [climbStep]
        split_ifs
        · refine if_pos (Or.inr ⟨?_, Or.inl ?_⟩)
          · rw [List.length_append, hσ, BytesN.length_val]
          · exact List.take_left' rfl
        · refine if_pos (Or.inr ⟨?_, Or.inr ?_⟩)
          · rw [List.length_append, hσ, BytesN.length_val]
          · exact List.drop_left' hσ
      rw [climb, Logged.val_bind, hstep]
      exact ih fun x hx => hpath x (List.mem_cons_of_mem _ hx)

/-- **Which keys have accepted proofs.**  On a reachable tree the proof that `get_proof`
generates for a key is accepted under every hash function exactly when the tree
stores a stem with the key's prefix. -/
theorem completeAt_iff_storedStem (t : Node) (ht : Reachable t) (key : Bytes)
    (hkey : 2 ≤ key.length) :
    (∀ H, CompleteAt H t key) ↔ storedStem t key.dropLast ≠ none := by
  obtain ⟨s, i, hsplit, rfl⟩ := exists_splitKey hkey
  rw [dropLast_joinKey]
  constructor
  · -- mark the all-empty stem that the proof of an absent stem carries
    intro h hnone
    set marked := stemPayload s (stemBytes emptyStem) with hmarked
    obtain ⟨p, hp, -, w, hw, hacc⟩ := h (markingHash marked)
    obtain ⟨w', hw', hval⟩ :=
      verifyProof_getProof hsplit hp (rootHash (markingHash marked) t).val.val
    rw [hw] at hw'
    cases hw'
    have hstart : markingHash marked marked = onesDigest := if_pos (Or.inl rfl)
    -- the climb keeps the mark, the root of the tree does not have it
    have hroot : (rootHash (markingHash marked) t).val = emptyValue := by
      refine nodeHash_markingHash ?_ fun p hp heq => ?_
      · rw [hmarked, length_stemPayload (length_stemBytes _) length_of_mem_stemBytes]
        omega
      · obtain ⟨hs, -⟩ := stemPayload_inj (length_stemBytes _) (length_stemBytes _)
          length_of_mem_stemBytes length_of_mem_stemBytes heq
        have hsome := ht.wellFormed.storedStem_eq_some_iff.mpr hp
        rw [hs, hnone] at hsome
        cases hsome
    rw [hval, hnone, Option.getD_none, ← hmarked, hstart, climb_markingHash, beq_iff_eq, hroot]
      at hacc
    · exact absurd hacc (by decide)
    · rintro ⟨σ, b⟩ hx
      exact (proofPath_spec s t 0).2.1 σ (List.mem_reverse.mp (List.of_mem_zip hx).1)
  · intro hstem H
    obtain ⟨vs, hvs⟩ := Option.ne_none_iff_exists'.mp hstem
    exact completeAt_of_storedStem hsplit hvs

/-- An absent slot of a stored stem. -/
theorem completeAt_iff_storedStem_absent_slot :
    CompleteAt (fun x => if x = [] then emptyValue else onesDigest)
      (run [.insert [0, 0] onesDigest.val]) [0, 1] :=
  (completeAt_iff_storedStem _ ⟨_, rfl⟩ [0, 1] (by decide)).mpr (fun h => by cases h) _

/-- In the empty tree no stem is stored: the proof for `00 00` is rejected under a hash
function that tells the empty string from the others. -/
theorem not_completeAt_emptyNode :
    ¬ CompleteAt (fun x => if x = [] then emptyValue else onesDigest) emptyNode [0, 0] := by
  rintro ⟨p, hp, -, w, hw, hacc⟩
  obtain ⟨w', hw', hval⟩ := verifyProof_getProof (s := [0]) (i := 0) rfl hp emptyValue.val
  have hroot : (rootHash (fun x => if x = [] then emptyValue else onesDigest) emptyNode).val =
      emptyValue := rfl
  rw [hroot, hw'] at hw
  cases hw
  rw [hval, if_neg (by simp [stemPayload, stemHashDomain])] at hacc
  exact absurd (beq_iff_eq.mp hacc) (by decide)

/-! ## The proofs of two stems -/

/-- Two stems that part at the first bit. -/
def pairOps : List TreeOp := [.insert [0, 0] onesDigest.val, .insert [128, 7] onesDigest.val]

/-- The prefixes of the two, and the slots that are set. -/
def pairPrefix (second : Bool) : Bytes := if second then [128] else [0]

def pairSlot (second : Bool) : Fin stemSubtreeWidth := if second then 7 else 0

/-- The values of the two, and the string that each is hashed from. -/
def pairValues (second : Bool) : StemValues := emptyStem.set (pairSlot second) onesDigest

def pairString (second : Bool) : Bytes :=
  stemPayload (pairPrefix second) (stemBytes (pairValues second))

/-- The proof of the value in each of the two. -/
def pairProof (H : HashFunction) (second : Bool) : MerkleProof :=
  { loneProof (pairPrefix second) (pairSlot second) onesDigest with
    pathSiblings := [(H (pairString !second)).val]
    pathBits := [if second then 1 else 0] }

/-- What the root hashes. -/
theorem queries_rootHash_pair (H : HashFunction) :
    (rootHash H (run pairOps)).queries = [pairString false, pairString true,
      (H (pairString false)).val ++ (H (pairString true)).val] := rfl

/-- Both proofs are accepted, and hash one of the strings and the one of the root. -/
theorem verifyProof_pairProof (H : HashFunction) (second : Bool) :
    verifyProof H (rootHash H (run pairOps)).val.val (pairProof H second) =
      .ok ⟨true, [pairString second,
        (H (pairString false)).val ++ (H (pairString true)).val]⟩ := by
  have hprefix : pairPrefix second ≠ [] := by cases second <;> exact List.cons_ne_nil _ _
  have hslot : (pairProof H second).stemValues[(pairSlot second).val]? =
      some (pairProof H second).value := by
    show (stemBytes (emptyStem.set (pairSlot second) onesDigest))[(pairSlot second).val]? = _
    rw [getElem?_stemBytes, getElem_set_slot, if_pos rfl]
    rfl
  have haccepted : ((climb H (H (stemPayload (pairPrefix second) (pairProof H second).stemValues))
      (pairProof H second).levels).val.val == (rootHash H (run pairOps)).val.val) = true := by
    cases second <;> exact beq_iff_eq.mpr rfl
  rw [verifyProof_eq H _ (splitKey_joinKey hprefix (pairSlot second)) (length_stemBytes _) hslot
    rfl, haccepted]
  cases second <;> rfl

/-- A hash function that tells strings apart by their lengths and by the byte behind the
tag of a stem. -/
def prefixHash : HashFunction := fun x => .ofNat 32 (x.length + 65536 * (x.getD 11 0).toNat)

theorem prefixHash_pairString (second : Bool) :
    prefixHash (pairString second) = .ofNat 32 (8204 + if second then 65536 * 128 else 0) := by
  have hlen : (pairString second).length = 8204 := by
    rw [pairString, length_stemPayload (length_stemBytes _) length_of_mem_stemBytes]
    cases second <;> rfl
  rw [prefixHash, hlen]
  cases second <;> rfl

/-- The strings of the two stems and of the root have different digests. -/
theorem not_collision_prefixHash : ¬ Collision prefixHash [pairString false, pairString true,
    (prefixHash (pairString false)).val ++ (prefixHash (pairString true)).val] := by
  refine not_collision_of_nodup ?_ (List.Subset.refl _)
  rw [List.map_cons, List.map_cons, List.map_singleton, prefixHash_pairString,
    prefixHash_pairString]
  decide

end Pbt
