/-
# Soundness of `verify_proof`

`verify_proof` hashes whatever the proof carries: it checks that there are 256
stem values and that the claimed one is among them, but not how wide they are,
and it checks no sibling width.  With 32-byte values and siblings shorter than
8172 bytes an accepted proof tells the truth (`soundAt_of_widths`); without, a
stem payload can be cut at other places (`not_soundAt_shiftedProof`), or a
sibling can carry the head of a stem payload.
-/
import PartitionedBinaryTree.Commitment

namespace Pbt

open Node

variable {H : HashFunction}

/-! ## Accepted proofs -/

/-- The levels of the walk back up, deepest first. -/
def MerkleProof.levels (p : MerkleProof) : List (Bytes × ℤ) :=
  p.pathSiblings.reverse.zip p.pathBits.reverse

theorem length_sibling_of_mem_levels {p : MerkleProof} {B : ℕ → Prop}
    (h : ∀ σ ∈ p.pathSiblings, B σ.length) : ∀ x ∈ p.levels, B x.1.length := by
  rintro ⟨σ, b⟩ hx
  exact h σ (List.mem_reverse.mp (List.of_mem_zip hx).1)

/-- `verify_proof` on a proof that passes the checks before the walk. -/
theorem verifyProof_eq (H : HashFunction) (rh : Bytes) {p : MerkleProof} {s : Bytes}
    {i : Fin stemSubtreeWidth} (hkey : splitKey p.key = .ok (s, i))
    (hn : p.stemValues.length = stemSubtreeWidth)
    (hslot : p.stemValues[i.val]? = some p.value)
    (hlen : p.pathSiblings.length = p.pathBits.length) :
    verifyProof H rh p = .ok
      ⟨(climb H (H (stemPayload s p.stemValues)) p.levels).val.val == rh,
        stemPayload s p.stemValues ::
          (climb H (H (stemPayload s p.stemValues)) p.levels).queries⟩ := by
  rw [verifyProof, hkey]
  simp only [bind, Except.bind, pure, Except.pure]
  rw [if_neg (not_not.mpr hn), if_neg (not_not.mpr hslot)]
  simp only [hashStem, treeHash, Logged.query, MerkleProof.levels, if_neg (not_not.mpr hlen),
    List.append_nil, List.singleton_append]

/-- `verify_proof` raises exactly on a key that is too short to split. -/
theorem verifyProof_fails_iff {rh : Bytes} {p : MerkleProof} :
    (∃ e, verifyProof H rh p = .error e) ↔ p.key.length < 2 := by
  rw [verifyProof]
  constructor
  · rintro ⟨e, he⟩
    by_contra hlen
    obtain ⟨s, i, hkey, -⟩ := exists_splitKey (not_lt.mp hlen)
    rw [hkey] at he
    simp only [bind, Except.bind, pure, Except.pure] at he
    split_ifs at he
  · intro hlen
    rw [splitKey_of_short hlen]
    exact ⟨_, rfl⟩

/-- What an accepted proof has passed, and what was hashed for it. -/
theorem verifyProof_accepts {rh : Bytes} {p : MerkleProof} {w : Logged Bytes Bool}
    (h : verifyProof H rh p = .ok w) (hacc : w.val = true) :
    ∃ s i, splitKey p.key = .ok (s, i) ∧ p.stemValues.length = stemSubtreeWidth ∧
      p.stemValues[i.val]? = some p.value ∧ p.pathSiblings.length = p.pathBits.length ∧
      (climb H (H (stemPayload s p.stemValues)) p.levels).val.val = rh ∧
      w.queries = stemPayload s p.stemValues ::
        (climb H (H (stemPayload s p.stemValues)) p.levels).queries := by
  cases hkey : splitKey p.key with
  | error e =>
      rw [verifyProof, hkey] at h
      cases h
  | ok si =>
      obtain ⟨s, i⟩ := si
      have hsteps := h
      rw [verifyProof, hkey] at hsteps
      simp only [bind, Except.bind, pure, Except.pure] at hsteps
      -- a check that fails makes the call return `False`
      by_cases hn : p.stemValues.length = stemSubtreeWidth
      · by_cases hslot : p.stemValues[i.val]? = some p.value
        · by_cases hlen : p.pathSiblings.length = p.pathBits.length
          · rw [verifyProof_eq H rh hkey hn hslot hlen] at h
            cases h
            exact ⟨s, i, rfl, hn, hslot, hlen, beq_iff_eq.mp hacc, rfl⟩
          · rw [if_neg (not_not.mpr hn), if_neg (not_not.mpr hslot)] at hsteps
            simp only [if_pos hlen] at hsteps
            cases hsteps
            cases hacc
        · rw [if_neg (not_not.mpr hn), if_pos hslot] at hsteps
          cases hsteps
          cases hacc
      · rw [if_pos hn] at hsteps
        cases hsteps
        cases hacc

/-! ## Sufficient widths -/

/-- The tree holds `value` at `key`. -/
def Holds (t : Node) (key value : Bytes) : Prop := (get t key).map Subtype.val = .ok value

/-- An accepted proof with fixed widths shows the stem that the tree stores under
the key's prefix, unless two strings hashed for the root or the proof collide. -/
theorem verifyProof_sound {t : Node} (ht : Reachable t) {p : MerkleProof} {w : Logged Bytes Bool}
    (h : verifyProof H (rootHash H t).val.val p = .ok w) (hacc : w.val = true)
    (hvalues : ∀ v ∈ p.stemValues, v.length = 32)
    (hsiblings : ∀ σ ∈ p.pathSiblings, σ.length < 8172) :
    (∃ s i vs, splitKey p.key = .ok (s, i) ∧ storedStem t s = some vs ∧
      p.stemValues = stemBytes vs ∧ p.value = (getElem vs i i.isLt).val) ∨
    Collision H ((rootHash H t).queries ++ w.queries) := by
  obtain ⟨s, i, hkey, hn, hslot, -, hroot, hqueries⟩ := verifyProof_accepts h hacc
  rw [hqueries]
  obtain ⟨vs, hvs, hmem⟩ | hcol := climb_sound ht.prefix_ne_nil hn hvalues p.levels
    (length_sibling_of_mem_levels (B := (· < 8172)) hsiblings) (Subtype.ext hroot)
  · refine Or.inl ⟨s, i, vs, hkey, ht.wellFormed.storedStem_eq_some_iff.mpr hmem, hvs, ?_⟩
    rw [hvs, getElem?_stemBytes] at hslot
    exact (Option.some.inj hslot).symm
  · exact Or.inr hcol

/-- A stored stem answers `get` for each of its slots. -/
theorem holds_of_storedStem {t : Node} {key s : Bytes} {i : Fin stemSubtreeWidth}
    {vs : StemValues} (hkey : splitKey key = .ok (s, i)) (hstem : storedStem t s = some vs) :
    Holds t key (getElem vs i i.isLt).val := by
  obtain ⟨rfl, hlen⟩ := splitKey_eq_ok_iff.mp hkey
  rw [Holds, get_joinKey (two_le_length_joinKey_iff.mp hlen), hstem]
  rfl

/-- If the proof is accepted, the tree holds `value` at `key`, unless two strings hashed for the
root or the proof collide. -/
def Attests (H : HashFunction) (t : Node) (p : MerkleProof) (key value : Bytes) : Prop :=
  ∀ w, verifyProof H (rootHash H t).val.val p = .ok w → w.val = true →
    Holds t key value ∨ Collision H ((rootHash H t).queries ++ w.queries)

/-- What an accepted proof promises: the tree holds its value at its key, unless
two strings hashed for the root or the proof collide. -/
def SoundAt (H : HashFunction) (t : Node) (p : MerkleProof) : Prop :=
  ∀ w, verifyProof H (rootHash H t).val.val p = .ok w → w.val = true →
    Holds t p.key p.value ∨ Collision H ((rootHash H t).queries ++ w.queries)

/-- The widths that the proof formats enforce are enough. -/
theorem soundAt_of_widths {t : Node} (ht : Reachable t) {p : MerkleProof}
    (hvalues : ∀ v ∈ p.stemValues, v.length = 32)
    (hsiblings : ∀ σ ∈ p.pathSiblings, σ.length < 8172) : SoundAt H t p := by
  intro w h hacc
  obtain ⟨s, i, vs, hkey, hstem, -, hvalue⟩ | hcol :=
    verifyProof_sound ht h hacc hvalues hsiblings
  · rw [hvalue]
    exact Or.inl (holds_of_storedStem hkey hstem)
  · exact Or.inr hcol

/-! ## Proofs on given trees -/

/-- The proof of one slot of a lone stem. -/
def loneProof (s : Bytes) (i : Fin stemSubtreeWidth) (v : Value) : MerkleProof where
  key := joinKey s i
  value := v.val
  stemValues := stemBytes (emptyStem.set i v i.isLt)
  pathSiblings := []
  pathBits := []

/-- It is accepted, and hashes what the root of the tree hashes. -/
theorem verifyProof_loneProof (H : HashFunction) {s : Bytes} (hs : s ≠ [])
    (i : Fin stemSubtreeWidth) (v : Value) :
    verifyProof H (rootHash H (stemNode s (emptyStem.set i v i.isLt))).val.val (loneProof s i v) =
      .ok ⟨true, [stemPayload s (stemBytes (emptyStem.set i v i.isLt))]⟩ := by
  have hslot : (loneProof s i v).stemValues[i.val]? = some (loneProof s i v).value := by
    rw [loneProof, getElem?_stemBytes, getElem_set_slot, if_pos rfl]
  have haccepted : ((climb H (H (stemPayload s (loneProof s i v).stemValues))
      (loneProof s i v).levels).val.val ==
      (rootHash H (stemNode s (emptyStem.set i v))).val.val) = true := beq_iff_eq.mpr rfl
  rw [verifyProof_eq H _ (splitKey_joinKey hs i) (length_stemBytes _) hslot rfl, haccepted]
  rfl

/-- The tree that one insert makes of the empty tree. -/
theorem reachable_stemNode {s : Bytes} (hs : s ≠ []) (i : Fin stemSubtreeWidth) (v : Value) :
    Reachable (stemNode s (emptyStem.set i v i.isLt)) :=
  ⟨[.insert (joinKey s i) v.val], (run_lone hs i v).symm⟩

/-- The shape of the refutations: the proof passes every check, the tree does not
hold the value, and no two hashed strings collide. -/
theorem not_attests_of_accepted {t : Node} {p : MerkleProof} {s : Bytes}
    {i : Fin stemSubtreeWidth} (hkey : splitKey p.key = .ok (s, i))
    (hn : p.stemValues.length = stemSubtreeWidth) (hslot : p.stemValues[i.val]? = some p.value)
    (hlen : p.pathSiblings.length = p.pathBits.length)
    (hroot : (climb H (H (stemPayload s p.stemValues)) p.levels).val = (rootHash H t).val)
    {key value : Bytes} (hnot : ¬ Holds t key value)
    (hcol : ¬ Collision H ((rootHash H t).queries ++ stemPayload s p.stemValues ::
      (climb H (H (stemPayload s p.stemValues)) p.levels).queries)) :
    ¬ Attests H t p key value := by
  intro hattests
  have hverify := verifyProof_eq H (rootHash H t).val.val hkey hn hslot hlen
  rcases hattests _ hverify (beq_iff_eq.mpr (congrArg Subtype.val hroot)) with hholds | hcol'
  · exact hnot hholds
  · exact hcol hcol'

/-- The tree holds 32-byte values only. -/
theorem Holds.length_eq {t : Node} {key value : Bytes} (h : Holds t key value) :
    value.length = 32 := by
  rw [Holds] at h
  cases hget : get t key with
  | error e =>
      rw [hget] at h
      cases h
  | ok v =>
      rw [hget] at h
      cases h
      exact v.property

/-! ## A shifted proof -/

/-- The all-one digest. -/
def onesDigest : Digest := ⟨List.replicate 32 1, List.length_replicate⟩

/-- A proof for `00 00` whose slot values are shifted: slot 0 is the empty string and
slot 1 holds 64 bytes. -/
def shiftedProof : MerkleProof where
  key := [0, 0]
  value := []
  stemValues := [] :: (onesDigest.val ++ zeroBytes 32) :: List.replicate 254 (zeroBytes 32)
  pathSiblings := []
  pathBits := []

/-- The tree holds the all-one value at `00 00`; the shifted proof claims the empty
string there and is accepted under every hash function, without a collision. -/
theorem not_soundAt_shiftedProof :
    Reachable (run [.insert [0, 0] onesDigest.val]) ∧
    ∀ H, ¬ SoundAt H (run [.insert [0, 0] onesDigest.val]) shiftedProof := by
  refine ⟨⟨_, rfl⟩, fun H => ?_⟩
  have hvalues : stemBytes (emptyStem.set 0 onesDigest) =
      onesDigest.val :: List.replicate 255 (zeroBytes 32) := by
    rw [stemBytes, emptyStem, Vector.toList_set, Vector.toList_replicate,
      show stemSubtreeWidth = 255 + 1 from rfl, List.replicate_succ, List.set_cons_zero,
      List.map_cons, List.map_replicate]
    rfl
  have hpayload : stemPayload [0] shiftedProof.stemValues =
      stemPayload [0] (stemBytes (emptyStem.set 0 onesDigest)) := by
    have hrest : List.replicate 255 (zeroBytes 32) =
        zeroBytes 32 :: List.replicate 254 (zeroBytes 32) := List.replicate_succ
    rw [hvalues, hrest, shiftedProof, stemPayload, stemPayload, List.flatten_cons,
      List.flatten_cons, List.flatten_cons, List.flatten_cons, List.nil_append,
      List.append_assoc onesDigest.val]
  have hroot : rootHash H (run [.insert [0, 0] onesDigest.val]) =
      treeHash H (stemPayload [0] shiftedProof.stemValues) := by
    rw [hpayload]
    rfl
  refine not_attests_of_accepted (s := [0]) (i := 0) rfl ?_ rfl rfl ?_ ?_ ?_
  · rw [shiftedProof, List.length_cons, List.length_cons, List.length_replicate]
  · rw [hroot]
    rfl
  · intro hholds
    exact absurd hholds.length_eq (by decide)
  · rw [hroot]
    refine not_collision_of_forall_eq (a := stemPayload [0] shiftedProof.stemValues) fun x hx => ?_
    rcases List.mem_cons.mp hx with rfl | hx
    · rfl
    · exact List.mem_singleton.mp hx

end Pbt
