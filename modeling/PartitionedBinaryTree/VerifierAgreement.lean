/-
# The two verifiers

The reference client's `verify_proof` and the Rust client's
`verify_proof_with_hasher`, on one proof and under one BLAKE3.  They make the
same checks in another order, and differ in two: the reference client raises on
a key that does not split, and reads every bit that is not `0` as a turn to the
right, where the Rust client rejects both.  `verifiers_agree_iff` says that these
are all the differences.
-/
import PartitionedBinaryTree.ClientAgreement
import PartitionedBinaryTree.ProofSoundness

namespace PbtRs

open Pbt (Digest joinKey)

/-! ## One proof for two clients -/

/-- The proof as the reference client holds it: a `u8` bit is the integer of the same value. -/
def MerkleProof.toReference (proof : MerkleProof) : Pbt.MerkleProof where
  key := proof.key
  value := proof.value.val
  stemValues := proof.stemValues.map Subtype.val
  pathSiblings := proof.pathSiblings.map Subtype.val
  pathBits := proof.pathBits.map fun bit => (bit.toNat : ℤ)

/-- It is the only proof with the same fields. -/
theorem sameProof_iff {p : Pbt.MerkleProof} {proof : MerkleProof} :
    SameProof p proof ↔ p = proof.toReference := by
  constructor
  · rintro ⟨hkey, hvalue, hstem, hsiblings, hbits⟩
    obtain ⟨key, value, stemValues, pathSiblings, pathBits⟩ := p
    simp only [MerkleProof.toReference, Pbt.MerkleProof.mk.injEq]
    exact ⟨hkey, hvalue, hstem, hsiblings, hbits⟩
  · rintro rfl
    exact ⟨rfl, rfl, rfl, rfl, rfl⟩

/-- The levels of the walk back up, deepest first. -/
def MerkleProof.levels (proof : MerkleProof) : List (Digest × UInt8) :=
  proof.pathSiblings.reverse.zip proof.pathBits.reverse

/-- A level as the reference client reads it. -/
def levelToReference (level : Digest × UInt8) : Bytes × ℤ := (level.1.val, (level.2.toNat : ℤ))

theorem levels_toReference (proof : MerkleProof) :
    proof.toReference.levels = proof.levels.map levelToReference := by
  unfold Pbt.MerkleProof.levels MerkleProof.levels MerkleProof.toReference levelToReference
  rw [← List.map_reverse, ← List.map_reverse, List.zip_map]
  rfl

/-- **The checks before the walk**: 256 values, the claimed one in its slot, one bit per sibling. -/
structure MerkleProof.WellShaped (proof : MerkleProof) : Prop where
  width : proof.stemValues.length = Pbt.stemSubtreeWidth
  slot : ∃ b, proof.key.getLast? = some b ∧ proof.stemValues[b.toNat]? = some proof.value
  aligned : proof.pathSiblings.length = proof.pathBits.length

/-- The slot of a key that splits. -/
theorem slot_joinKey_iff {proof : MerkleProof} {s : Bytes} {i : Fin Pbt.stemSubtreeWidth}
    (hkey : proof.key = joinKey s i) :
    (∃ b, proof.key.getLast? = some b ∧ proof.stemValues[b.toNat]? = some proof.value) ↔
      proof.stemValues[i.val]? = some proof.value := by
  have hlast : proof.key.getLast? = some (UInt8.ofNat i.val) := by
    rw [hkey, joinKey]
    exact List.getLast?_concat
  have hnat : (UInt8.ofNat i.val).toNat = i.val := UInt8.toNat_ofNat_of_lt' i.isLt
  constructor
  · rintro ⟨b, hb, hslot⟩
    rw [hlast] at hb
    cases hb
    rwa [hnat] at hslot
  · intro hslot
    exact ⟨_, hlast, by rwa [hnat]⟩

/-! ## The walks back up -/

variable {blake3 : Pbt.HashFunction}

/-- On bits that are `0` or `1` the two walks compute one digest. -/
theorem climb_eq_some (c : Digest) (path : List (Digest × UInt8))
    (hbits : ∀ x ∈ path, x.2 = 0 ∨ x.2 = 1) :
    climb (Blake3Hasher.mk blake3) c path =
      some (Pbt.climb blake3 c (path.map levelToReference)).val := by
  induction path generalizing c with
  | nil => rfl
  | cons x path ih =>
      obtain ⟨σ, bit⟩ := x
      have htail := fun c => ih c fun x hx => hbits x (List.mem_cons_of_mem _ hx)
      rcases hbits (σ, bit) List.mem_cons_self with hbit | hbit
      · obtain rfl : bit = 0 := hbit
        rw [climb, if_pos rfl, htail]
        rfl
      · obtain rfl : bit = 1 := hbit
        rw [climb, if_neg (by decide), if_pos rfl, htail]
        rfl

/-- The Rust client gives up on any other bit. -/
theorem climb_eq_none {H : Type} [TreeHasher H] {hasher : H} (c : Digest)
    (path : List (Digest × UInt8)) (hbit : ∃ x ∈ path, x.2 ≠ 0 ∧ x.2 ≠ 1) :
    climb hasher c path = none := by
  induction path generalizing c with
  | nil =>
      obtain ⟨x, hx, -⟩ := hbit
      exact absurd hx List.not_mem_nil
  | cons y path ih =>
      obtain ⟨σ, bit⟩ := y
      rw [climb]
      obtain ⟨x, hx, h0, h1⟩ := hbit
      rcases List.mem_cons.mp hx with rfl | hx
      · rw [if_neg h0, if_neg h1]
      · split_ifs
        · exact ih _ ⟨x, hx, h0, h1⟩
        · exact ih _ ⟨x, hx, h0, h1⟩
        · rfl

/-! ## The verdicts -/

/-- Both clients give a verdict on the proof, and the same one. -/
def SameVerdict (tree : Tree Blake3Hasher) (rh : Digest) (proof : MerkleProof) : Prop :=
  ∃ w, Pbt.verifyProof tree.hasher.blake3 rh.val proof.toReference = .ok w ∧
    w.val = tree.verifyProof rh proof

variable {tree : Tree Blake3Hasher} {rh : Digest} {proof : MerkleProof}

/-- A key that does not split makes the reference client raise. -/
theorem not_sameVerdict_of_short (h : proof.key.length < 2) : ¬ SameVerdict tree rh proof := by
  rintro ⟨w, hw, -⟩
  rw [Pbt.verifyProof, show proof.toReference.key = proof.key from rfl,
    Pbt.splitKey_of_short h] at hw
  cases hw

/-- A proof of another shape is rejected by both. -/
theorem sameVerdict_of_not_wellShaped (hkey : 2 ≤ proof.key.length) (h : ¬ proof.WellShaped) :
    SameVerdict tree rh proof := by
  obtain ⟨s, i, hsplit, hjoin⟩ := Pbt.exists_splitKey hkey
  have hsplit' : splitKey proof.key = .ok (s, i) := by
    rw [hjoin]
    exact splitKey_joinKey (Pbt.two_le_length_joinKey_iff.mp (hjoin ▸ hkey)) i
  have hrefKey : Pbt.splitKey proof.toReference.key = .ok (s, i) := hsplit
  have hrefWidth : proof.toReference.stemValues.length = proof.stemValues.length :=
    List.length_map _
  unfold SameVerdict Tree.verifyProof verifyProofWithHasher Pbt.verifyProof
  simp only [hrefKey, hsplit', bind, Except.bind, hrefWidth]
  by_cases hwidth : proof.stemValues.length = Pbt.stemSubtreeWidth
  · by_cases hslot : proof.stemValues[i.val]? = some proof.value
    · -- only the lengths of the path are left to be wrong
      have haligned : proof.pathSiblings.length ≠ proof.pathBits.length :=
        fun haligned => h ⟨hwidth, (slot_joinKey_iff hjoin).mpr hslot, haligned⟩
      have hrefSlot : proof.toReference.stemValues[i.val]? = some proof.toReference.value := by
        unfold MerkleProof.toReference
        rw [List.getElem?_map, hslot]
        rfl
      have hrefAligned :
          proof.toReference.pathSiblings.length ≠ proof.toReference.pathBits.length := by
        unfold MerkleProof.toReference
        rwa [List.length_map, List.length_map]
      rw [if_neg (not_not.mpr hwidth), if_neg (not_not.mpr hrefSlot), if_neg (not_not.mpr hwidth),
        if_neg (not_not.mpr hslot), if_pos haligned]
      refine ⟨_, rfl, ?_⟩
      simp only [if_pos hrefAligned, Logged.val_pure]
    · have hrefSlot : proof.toReference.stemValues[i.val]? ≠ some proof.toReference.value := by
        unfold MerkleProof.toReference
        rw [List.getElem?_map]
        intro hsome
        obtain ⟨v, hv, heq⟩ := Option.map_eq_some_iff.mp hsome
        rw [hv, Subtype.ext heq] at hslot
        exact hslot rfl
      rw [if_neg (not_not.mpr hwidth), if_pos hrefSlot, if_neg (not_not.mpr hwidth), if_pos hslot]
      exact ⟨_, rfl, rfl⟩
  · rw [if_pos hwidth, if_pos hwidth]
    exact ⟨_, rfl, rfl⟩

/-- What the two clients compute for a proof that passes the checks before the walk. -/
theorem verdicts_of_wellShaped (tree : Tree Blake3Hasher) (hkey : 2 ≤ proof.key.length)
    (h : proof.WellShaped) :
    ∃ c, ∀ rh : Digest,
      (∃ w, Pbt.verifyProof tree.hasher.blake3 rh.val proof.toReference = .ok w ∧ (w.val = true ↔
        (Pbt.climb tree.hasher.blake3 c (proof.levels.map levelToReference)).val = rh)) ∧
      (tree.verifyProof rh proof = true ↔ climb tree.hasher c proof.levels = some rh) := by
  obtain ⟨s, i, hsplit, hjoin⟩ := Pbt.exists_splitKey hkey
  have hsplit' : splitKey proof.key = .ok (s, i) := by
    rw [hjoin]
    exact splitKey_joinKey (Pbt.two_le_length_joinKey_iff.mp (hjoin ▸ hkey)) i
  have hslot := (slot_joinKey_iff hjoin).mp h.slot
  have hrefSlot : proof.toReference.stemValues[i.val]? = some proof.toReference.value := by
    unfold MerkleProof.toReference
    rw [List.getElem?_map, hslot]
    rfl
  have hrefWidth : proof.toReference.stemValues.length = Pbt.stemSubtreeWidth :=
    (List.length_map _).trans h.width
  have hrefAligned :
      proof.toReference.pathSiblings.length = proof.toReference.pathBits.length := by
    unfold MerkleProof.toReference
    rw [List.length_map, List.length_map]
    exact h.aligned
  -- both walks start at the hash of the stem that the proof carries
  refine ⟨hashStem tree.hasher s proof.stemValues, fun rh => ⟨?_, ?_⟩⟩
  · refine ⟨_, Pbt.verifyProof_eq _ rh.val hsplit hrefWidth hrefSlot hrefAligned, ?_⟩
    rw [levels_toReference, beq_iff_eq]
    exact Subtype.ext_iff.symm
  · unfold Tree.verifyProof verifyProofWithHasher
    rw [if_neg (not_not.mpr h.width), hsplit']
    dsimp only
    rw [if_neg (not_not.mpr hslot), if_neg (not_not.mpr h.aligned), ← MerkleProof.levels]
    cases climb tree.hasher (hashStem tree.hasher s proof.stemValues) proof.levels with
    | none => simp
    | some current => rw [beq_iff_eq, Option.some.injEq]

theorem mem_levels_of_mem_pathBits (h : proof.WellShaped) {bit : UInt8}
    (hbit : bit ∈ proof.pathBits) : ∃ x ∈ proof.levels, x.2 = bit := by
  have hlen : proof.pathBits.reverse.length ≤ proof.pathSiblings.reverse.length := by
    rw [List.length_reverse, List.length_reverse, h.aligned]
  have hmem : bit ∈ proof.levels.map Prod.snd := by
    rw [MerkleProof.levels, List.map_snd_zip hlen]
    exact List.mem_reverse.mpr hbit
  exact List.mem_map.mp hmem

/-- **One verdict** on the proofs whose bits are `0` or `1`. -/
theorem sameVerdict_of_bits (tree : Tree Blake3Hasher) (rh : Digest)
    (hkey : 2 ≤ proof.key.length) (hbits : ∀ bit ∈ proof.pathBits, bit = 0 ∨ bit = 1) :
    SameVerdict tree rh proof := by
  by_cases hshape : proof.WellShaped
  · obtain ⟨c, hverdicts⟩ := verdicts_of_wellShaped tree hkey hshape
    obtain ⟨⟨w, hw, hacc⟩, hrust⟩ := hverdicts rh
    have hclimb : climb (Blake3Hasher.mk tree.hasher.blake3) c proof.levels =
        some (Pbt.climb tree.hasher.blake3 c (proof.levels.map levelToReference)).val :=
      climb_eq_some c proof.levels fun x hx =>
        hbits x.2 (List.mem_reverse.mp (List.of_mem_zip hx).2)
    refine ⟨w, hw, Bool.eq_iff_iff.mpr ?_⟩
    rw [hacc, hrust]
    show _ ↔ climb (Blake3Hasher.mk tree.hasher.blake3) c proof.levels = some rh
    rw [hclimb, Option.some.injEq]
  · exact sameVerdict_of_not_wellShaped hkey hshape

/-- **The exact condition for agreement.**  The two clients give the same verdict on a
proof, against every root, exactly when its key splits and, if it passes the checks before
the walk, its bits are `0` or `1`. -/
theorem verifiers_agree_iff (tree : Tree Blake3Hasher) (proof : MerkleProof) :
    (∀ rh, SameVerdict tree rh proof) ↔
      2 ≤ proof.key.length ∧
        (proof.WellShaped → ∀ bit ∈ proof.pathBits, bit = 0 ∨ bit = 1) := by
  constructor
  · intro hsame
    have hkey : 2 ≤ proof.key.length := by
      by_contra hshort
      exact not_sameVerdict_of_short (not_le.mp hshort) (hsame Pbt.emptyValue)
    refine ⟨hkey, fun hshape bit hbit => ?_⟩
    by_contra hbad
    obtain ⟨c, hverdicts⟩ := verdicts_of_wellShaped tree hkey hshape
    obtain ⟨x, hx, rfl⟩ := mem_levels_of_mem_pathBits hshape hbit
    -- the root that the reference client climbs to, turning right at every other bit
    obtain ⟨⟨w, hw, hacc⟩, hrust⟩ := hverdicts
      (Pbt.climb tree.hasher.blake3 c (proof.levels.map levelToReference)).val
    obtain ⟨w', hw', hval⟩ := hsame
      (Pbt.climb tree.hasher.blake3 c (proof.levels.map levelToReference)).val
    rw [hw] at hw'
    cases hw'
    have hsome := hrust.mp (hval ▸ hacc.mpr rfl)
    rw [climb_eq_none c proof.levels ⟨x, hx, not_or.mp hbad⟩] at hsome
    cases hsome
  · rintro ⟨hkey, hbits⟩ rh
    by_cases hshape : proof.WellShaped
    · obtain ⟨c, hverdicts⟩ := verdicts_of_wellShaped tree hkey hshape
      obtain ⟨⟨w, hw, hacc⟩, hrust⟩ := hverdicts rh
      have hclimb : climb tree.hasher c proof.levels =
          some (Pbt.climb tree.hasher.blake3 c (proof.levels.map levelToReference)).val :=
        climb_eq_some c proof.levels fun x hx =>
          hbits hshape x.2 (List.mem_reverse.mp (List.of_mem_zip hx).2)
      refine ⟨w, hw, Bool.eq_iff_iff.mpr ?_⟩
      rw [hacc, hrust, hclimb, Option.some.injEq]
    · exact sameVerdict_of_not_wellShaped hkey hshape

/-- A proof for a key of one byte. -/
def shortKeyProof : MerkleProof where
  key := [0]
  value := Pbt.emptyValue
  stemValues := Pbt.emptyStem.toList
  pathSiblings := []
  pathBits := []

/-- A proof whose only path bit is `2`. -/
def bitTwoProof : MerkleProof where
  key := [0, 0]
  value := Pbt.emptyValue
  stemValues := Pbt.emptyStem.toList
  pathSiblings := [Pbt.emptyValue]
  pathBits := [2]

/-- Under every BLAKE3 the first proof has no verdict from the reference client, and the
second is accepted by it, against the root that its bits give, and not by the Rust client. -/
theorem not_sameVerdict_malformed :
    (∀ tree rh, ¬ SameVerdict tree rh shortKeyProof) ∧
      ∀ tree, ∃ rh, ¬ SameVerdict tree rh bitTwoProof := by
  refine ⟨fun tree rh => not_sameVerdict_of_short (by decide), fun tree => ?_⟩
  have hshape : bitTwoProof.WellShaped :=
    ⟨Pbt.emptyStem.length_toList, ⟨0, rfl, rfl⟩, rfl⟩
  have hlevels : bitTwoProof.levels = [(Pbt.emptyValue, 2)] := rfl
  obtain ⟨c, hverdicts⟩ := verdicts_of_wellShaped tree (by decide) hshape
  rw [hlevels] at hverdicts
  refine ⟨tree.hasher.blake3 (Pbt.emptyValue.val ++ c.val), ?_⟩
  rintro ⟨w, hw, hval⟩
  obtain ⟨⟨w', hw', hacc⟩, hrust⟩ := hverdicts
    (tree.hasher.blake3 (Pbt.emptyValue.val ++ c.val))
  rw [hw] at hw'
  cases hw'
  have hsome := hrust.mp (hval ▸ hacc.mpr rfl)
  cases hsome

end PbtRs
