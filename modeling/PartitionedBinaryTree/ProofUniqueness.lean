/-
# Accepted proofs are unique

`verify_proof` does not compare a proof with anything but the root, so it is not
clear that it accepts only what `get_proof` generates: a sibling could be moved,
or a level added.  Matching the climb with the walk down level by level shows
that it cannot (`climb_unique`), up to the value of a nonzero bit, which
`verify_proof` does not look at.  On the wire the bits are `0` or `1`, so one
block root, key and position leave room for one accepted `STEM_PKT_V1` only
(`wire_unique`).
-/
import PartitionedBinaryTree.StemCache

namespace Pbt

open Node

variable {H : HashFunction}

/-! ## The climb matched with the walk -/

/-- What `verify_proof` reads of a bit, spelled as `get_proof` spells it. -/
def turn (bit : ℤ) : ℤ := if bit = 0 then 0 else 1

theorem turn_of_bit {bit : ℤ} (h : bit = 0 ∨ bit = 1) : turn bit = bit := by
  rcases h with rfl | rfl
  · rfl
  · rfl

theorem turn_eq_zero_iff {bit : ℤ} : turn bit = 0 ↔ bit = 0 := by
  unfold turn
  split_ifs with h
  · simp [h]
  · simp [h]

/-- The step up does not tell one nonzero bit from another. -/
theorem climb_turn (c : Digest) (path : List (Bytes × ℤ)) :
    climb H c (path.map (Prod.map id turn)) = climb H c path := by
  induction path generalizing c with
  | nil => rfl
  | cons x path ih =>
      obtain ⟨σ, b⟩ := x
      have hstep : climbStep H c σ (turn b) = climbStep H c σ b := by
        simp only [climbStep, turn_eq_zero_iff]
      simp only [List.map_cons, Prod.map_apply, id_eq, climb, hstep, ih]

/-- **A step up that hashes the payload of a node** comes from a child of it: the left one with
the right one's hash as the sibling, or the other way round. -/
theorem children_of_stepPayload_eq {t : Node} (hne : ∀ p ∈ t.leaves, p.1 ≠ []) {c : Digest}
    {σ : Bytes} {b : ℤ} (hσ : σ.length < 8172) (h : stepPayload c σ b = nodePayload H t) :
    ∃ l r, t = internalNode l r ∧
      ((b = 0 ∧ c = (nodeHash H l).val ∧ σ = (nodeHash H r).val.val) ∨
        (b ≠ 0 ∧ c = (nodeHash H r).val ∧ σ = (nodeHash H l).val.val)) := by
  have hlen := congrArg List.length h
  rw [length_stepPayload] at hlen
  cases t with
  | empty =>
      rw [length_nodePayload_emptyNode] at hlen
      omega
  | leaf s vs =>
      -- a stem payload has more than 8203 bytes, this one fewer than 8204
      have hs : 0 < s.length := List.length_pos_iff.mpr (hne (s, vs) List.mem_cons_self)
      rw [length_nodePayload_stemNode] at hlen
      omega
  | node l r =>
      rw [length_nodePayload_internalNode] at hlen
      have hdigest : σ.length = 32 := by omega
      obtain ⟨σ, rfl⟩ : ∃ digest : Digest, σ = digest.val := ⟨⟨σ, hdigest⟩, rfl⟩
      refine ⟨l, r, rfl, ?_⟩
      by_cases hb : b = 0
      · rw [stepPayload, if_pos hb] at h
        obtain ⟨hc, hsibling⟩ := digest_append_inj h
        exact Or.inl ⟨hb, hc, congrArg Subtype.val hsibling⟩
      · rw [stepPayload, if_neg hb] at h
        obtain ⟨hsibling, hc⟩ := digest_append_inj h
        exact Or.inr ⟨hb, hc, congrArg Subtype.val hsibling⟩

/-- The levels of the walk to a stem, deepest first. -/
def walkLevels (H : HashFunction) (s : Bytes) (t : Node) (d : ℕ) : List (Bytes × ℤ) :=
  (proofPath H s t d).val.1.reverse.zip (proofPath H s t d).val.2.1.reverse

/-- The walk into the left child. -/
theorem walkLevels_left {s : Bytes} {l r : Node} {d : ℕ} (h : pathBit s d = false) :
    walkLevels H s (internalNode l r) d =
      walkLevels H s l (d + 1) ++ [((nodeHash H r).val.val, 0)] := by
  rw [walkLevels, proofPath_internalNode, if_pos (pathBit_eq_false_iff.mp h),
    zip_reverse_cons (proofPath_spec s l (d + 1)).1]
  rfl

/-- The walk into the right child. -/
theorem walkLevels_right {s : Bytes} {l r : Node} {d : ℕ} (h : pathBit s d = true) :
    walkLevels H s (internalNode l r) d =
      walkLevels H s r (d + 1) ++ [((nodeHash H l).val.val, 1)] := by
  rw [walkLevels, proofPath_internalNode, if_neg (pathBit_eq_true_iff.mp h),
    zip_reverse_cons (proofPath_spec s r (d + 1)).1]
  rfl

/-- **A climb that reaches the hash of a placed tree retraces the walk to its stem**, level by
level, unless two hashed strings collide.  The induction is on the path from its top end: the
last step fixes the child the climb came from, and so the bit of the stem at this depth. -/
theorem climb_unique {t : Node} {d : ℕ} (ht : BitTrie.Placed pathBit d t)
    (hne : ∀ p ∈ t.leaves, p.1 ≠ []) {s : Bytes} {values : List Bytes}
    (hn : values.length = stemSubtreeWidth) (hw : ∀ v ∈ values, v.length = 32)
    (path : List (Bytes × ℤ)) (hpath : ∀ x ∈ path, x.1.length < 8172)
    (h : (climb H (H (stemPayload s values)) path).val = (nodeHash H t).val) :
    (∃ vs, values = stemBytes vs ∧ (s, vs) ∈ t.leaves ∧
      path.map (Prod.map id turn) = walkLevels H s t d) ∨
      Collision H ((nodeHash H t).queries ++
        (stemPayload s values :: (climb H (H (stemPayload s values)) path).queries)) := by
  induction path using List.reverseRecOn generalizing t d with
  | nil =>
      obtain ⟨vs, hvs, hmem⟩ | hcol := climb_sound hne hn hw [] hpath h
      · -- the climb is empty, so `t` hashes a stem payload: it is that stem
        rw [climb, Logged.val_pure, val_nodeHash] at h
        obtain heq | hcol := eq_or_collision
          (List.mem_append_right _ List.mem_cons_self)
          (List.mem_append_left _ (nodePayload_mem_queries t)) h
        · refine Or.inl ⟨vs, hvs, hmem, ?_⟩
          have hlen := congrArg List.length heq
          rw [length_stemPayload hn hw] at hlen
          cases t with
          | empty => rfl
          | leaf s' vs' => rfl
          | node l r =>
              rw [length_nodePayload_internalNode] at hlen
              omega
        · exact Or.inr hcol
      · exact Or.inr hcol
  | append_singleton path x ih =>
      obtain ⟨σ, b⟩ := x
      have hpath' : ∀ x ∈ path, x.1.length < 8172 :=
        fun x hx => hpath x (List.mem_append_left _ hx)
      have hσ : σ.length < 8172 := hpath (σ, b) (by simp)
      obtain ⟨hval, hqueries⟩ := climb_concat (H := H) (H (stemPayload s values)) path σ b
      rw [hval, climbStep_eq, val_treeHash, val_nodeHash] at h
      rw [hqueries, climbStep_eq, queries_treeHash]
      set c := (climb H (H (stemPayload s values)) path).val with hc
      have hlast : stepPayload c σ b ∈ (nodeHash H t).queries ++ (stemPayload s values ::
          ((climb H (H (stemPayload s values)) path).queries ++ [stepPayload c σ b])) :=
        List.mem_append_right _ (by simp)
      obtain heq | hcol := eq_or_collision hlast
        (List.mem_append_left _ (nodePayload_mem_queries t)) h
      · obtain ⟨l, r, rfl, hchild⟩ := children_of_stepPayload_eq hne hσ heq
        obtain ⟨hfalse, htrue, hl, hr⟩ := ht
        rw [List.map_append, List.map_singleton, Prod.map_apply, id_eq]
        rcases hchild with ⟨rfl, hleft, rfl⟩ | ⟨hb, hright, rfl⟩
        · obtain ⟨vs, hvs, hmem, hlevels⟩ | hcol :=
            ih hl (fun p hp => hne p (List.mem_append_left _ hp)) hpath' hleft
          · refine Or.inl ⟨vs, hvs, List.mem_append_left _ hmem, ?_⟩
            rw [hlevels, walkLevels_left (hfalse _ hmem)]
            rfl
          · refine Or.inr (hcol.mono_append (queries_left_subset l r) ?_)
            exact List.cons_subset_cons _ (List.subset_append_left _ _)
        · obtain ⟨vs, hvs, hmem, hlevels⟩ | hcol :=
            ih hr (fun p hp => hne p (List.mem_append_right _ hp)) hpath' hright
          · refine Or.inl ⟨vs, hvs, List.mem_append_right _ hmem, ?_⟩
            rw [hlevels, walkLevels_right (htrue _ hmem), turn, if_neg hb]
          · refine Or.inr (hcol.mono_append (queries_right_subset l r) ?_)
            exact List.cons_subset_cons _ (List.subset_append_left _ _)
      · exact Or.inr hcol

/-- Two zipped lists of one length are determined by their zip. -/
theorem eq_of_zip_reverse_eq {α β : Type} {xs xs' : List α} {ys ys' : List β}
    (hlen : xs.length = ys.length) (hlen' : xs'.length = ys'.length)
    (h : xs.reverse.zip ys.reverse = xs'.reverse.zip ys'.reverse) : xs = xs' ∧ ys = ys' := by
  have hfst := congrArg (List.map Prod.fst) h
  have hsnd := congrArg (List.map Prod.snd) h
  rw [List.map_fst_zip (by simp [hlen]), List.map_fst_zip (by simp [hlen'])] at hfst
  rw [List.map_snd_zip (by simp [hlen]), List.map_snd_zip (by simp [hlen'])] at hsnd
  exact ⟨List.reverse_injective hfst, List.reverse_injective hsnd⟩

/-! ## What `verify_proof` accepts -/

/-- The proof, with its bits spelled as `get_proof` spells them. -/
def MerkleProof.normalize (p : MerkleProof) : MerkleProof :=
  { p with pathBits := p.pathBits.map turn }

theorem levels_normalize (p : MerkleProof) :
    p.normalize.levels = p.levels.map (Prod.map id turn) := by
  simp only [MerkleProof.levels, MerkleProof.normalize, List.zip_map_right, ← List.map_reverse]

/-- A proof is the generated one, its bits up to their spelling, and the tree stores its stem. -/
def Generated (H : HashFunction) (t : Node) (p : MerkleProof) : Prop :=
  storedStem t p.key.dropLast ≠ none ∧ ∃ q, getProof H t p.key = .ok q ∧ p.normalize = q.val

/-- `verify_proof` decides alike on a proof and on its normal form. -/
theorem verifyProof_normalize (rh : Bytes) (p : MerkleProof) :
    verifyProof H rh p.normalize = verifyProof H rh p := by
  have hclimb : ∀ c : Digest,
      climb H c (p.pathSiblings.reverse.zip (p.pathBits.map turn).reverse) =
        climb H c (p.pathSiblings.reverse.zip p.pathBits.reverse) := by
    intro c
    have h := climb_turn (H := H) c p.levels
    rw [← levels_normalize] at h
    exact h
  simp only [verifyProof, MerkleProof.normalize, List.length_map, hclimb]

/-- A generated proof is accepted. -/
theorem Generated.accepted {t : Node} {p : MerkleProof} (h : Generated H t p) :
    ∃ w, verifyProof H (rootHash H t).val.val p = .ok w ∧ w.val = true := by
  obtain ⟨hstem, q, hq, hnorm⟩ := h
  obtain ⟨vs, hvs⟩ := Option.ne_none_iff_exists'.mp hstem
  cases hkey : splitKey p.key with
  | error e =>
      rw [getProof, hkey] at hq
      cases hq
  | ok si =>
      obtain ⟨s, i⟩ := si
      obtain ⟨hjoin, -⟩ := splitKey_eq_ok_iff.mp hkey
      rw [hjoin, dropLast_joinKey] at hvs
      obtain ⟨q', hq', -, w, hw, hacc⟩ := completeAt_of_storedStem (H := H) hkey hvs
      rw [hq] at hq'
      cases hq'
      rw [← hnorm, verifyProof_normalize] at hw
      exact ⟨w, hw, hacc⟩

/-- An accepted proof with the widths of the proof formats is generated, unless two strings
hashed for the root or the proof collide. -/
theorem generated_of_accepted {t : Node} (ht : Reachable t) {p : MerkleProof}
    {w : Logged Bytes Bool} (h : verifyProof H (rootHash H t).val.val p = .ok w)
    (hacc : w.val = true) (hvalues : ∀ v ∈ p.stemValues, v.length = 32)
    (hsiblings : ∀ σ ∈ p.pathSiblings, σ.length < 8172) :
    Generated H t p ∨ Collision H ((rootHash H t).queries ++ w.queries) := by
  obtain ⟨s, i, hkey, hn, hslot, hlen, hroot, hqueries⟩ := verifyProof_accepts h hacc
  rw [hqueries]
  obtain ⟨vs, hvs, hmem, hlevels⟩ | hcol := climb_unique ht.wellFormed.placed ht.prefix_ne_nil hn
    hvalues p.levels (length_sibling_of_mem_levels (B := (· < 8172)) hsiblings) (Subtype.ext hroot)
  · left
    have hstem := ht.wellFormed.storedStem_eq_some_iff.mpr hmem
    obtain ⟨q, hq, hval⟩ := getProof_spec (H := H) t hkey
    -- the levels give the siblings and the bits back
    rw [← levels_normalize] at hlevels
    obtain ⟨hsib, hbits⟩ := eq_of_zip_reverse_eq (by simpa [MerkleProof.normalize] using hlen)
      (proofPath_spec (H := H) s t 0).1 hlevels
    rw [hvs, getElem?_stemBytes] at hslot
    rw [hstem, Option.getD_some, ← hvs, Option.some.inj hslot, ← hsib, ← hbits] at hval
    refine ⟨?_, q, hq, hval.symm⟩
    obtain ⟨hjoin, -⟩ := splitKey_eq_ok_iff.mp hkey
    rw [hjoin, dropLast_joinKey, hstem]
    exact Option.some_ne_none vs
  · exact Or.inr hcol

/-- **`verify_proof` accepts the generated proofs and no others.**  Against the root of a
reachable tree, `verify_proof` returns `True` for a proof if the tree stores its stem and it is
the proof that `get_proof` generates for its key, nonzero bits being read as `1`; and of the
proofs with the widths of the proof formats it accepts only these, unless two strings hashed for
the root or the proof collide. -/
theorem verifyProof_accepts_generated (H : HashFunction) (t : Node) (ht : Reachable t)
    (p : MerkleProof) :
    (Generated H t p → ∃ w, verifyProof H (rootHash H t).val.val p = .ok w ∧ w.val = true) ∧
    ∀ w, verifyProof H (rootHash H t).val.val p = .ok w → w.val = true →
      (∀ v ∈ p.stemValues, v.length = 32) → (∀ σ ∈ p.pathSiblings, σ.length < 8172) →
      Generated H t p ∨ Collision H ((rootHash H t).queries ++ w.queries) :=
  ⟨fun hgen => hgen.accepted, fun _ h hacc hvalues hsiblings =>
    generated_of_accepted ht h hacc hvalues hsiblings⟩

/-- The proof of the second one of two stems, under a hash function without a collision among
the strings. -/
theorem verifyProof_accepts_generated_pair :
    Generated prefixHash (run pairOps) (pairProof prefixHash true) := by
  refine ((verifyProof_accepts_generated prefixHash (run pairOps) ⟨_, rfl⟩ _).2 _
    (verifyProof_pairProof prefixHash true) rfl length_of_mem_stemBytes fun σ hσ => ?_).resolve_right
      fun hcol => not_collision_prefixHash (hcol.mono ?_)
  · rw [List.mem_singleton.mp hσ, BytesN.length_val]
    decide
  · rw [queries_rootHash_pair]
    exact List.append_subset.mpr ⟨List.Subset.refl _, List.subset_cons_self _ _⟩

/-! ## On the wire -/

/-- The wire form is read as the packet, which is of the tree's root and verifies. -/
structure AcceptedWire (H : HashFunction) (t : Node) (blob : Bytes) (packet : StemWitnessPacket)
    (queries : List Bytes) : Prop where
  decodes : (decodeStemWitnessPacketV1 H blob).outcome = .ok packet
  verifies : (verifyWitnessPacket H packet).Returns true queries
  root : packet.blockRoot = (rootHash H t).val.val

/-- A packet that the reader returns has a proof of the format. -/
theorem AcceptedWire.proof_encodable {t : Node} {blob : Bytes} {packet : StemWitnessPacket}
    {qs : List Bytes} (h : AcceptedWire H t blob packet qs) : ProofEncodable packet.proof := by
  obtain ⟨_, hwritten⟩ := HashPy.outcome_eq_ok_iff.mp (encode_of_decode h.decodes)
  exact (encodeStemWitnessPacketV1_returns_iff.mp hwritten).1.proof_encodable

/-- A proof of the format spells its bits as `get_proof` does. -/
theorem ProofEncodable.normalize_eq {p : MerkleProof} (h : ProofEncodable p) : p.normalize = p := by
  have hbits : p.pathBits.map turn = p.pathBits :=
    (List.map_congr_left fun b hb => turn_of_bit (h.bits b hb)).trans (List.map_id' _)
  rw [MerkleProof.normalize, hbits]

/-- An accepted wire form carries the packet that a provider of the tree makes of the proof
generated for the key, unless two hashed strings collide. -/
theorem AcceptedWire.eq_honestPacket {t : Node} (ht : Reachable t) {blob : Bytes}
    {packet : StemWitnessPacket} {qs : List Bytes} (h : AcceptedWire H t blob packet qs) :
    (∃ q, getProof H t packet.key = .ok q ∧
      packet = honestPacket (rootHash H t).val.val q.val packet.epoch packet.blockNumber
        packet.bucketId) ∨
      Collision H ((rootHash H t).queries ++ qs) := by
  have henc := h.proof_encodable
  obtain ⟨⟨i, hsplit⟩, hkey, hvalue, hproof⟩ := verifyWitnessPacket_returns_true_iff.mp h.verifies
  rw [h.root] at hproof
  obtain ⟨-, q, hq, hnorm⟩ | hcol := generated_of_accepted ht hproof rfl henc.stemValues_width
    fun σ hσ => by rw [henc.siblings_width σ hσ]; norm_num
  · left
    rw [hkey] at hq
    rw [henc.normalize_eq] at hnorm
    refine ⟨q, hq, ?_⟩
    have hprefix : packet.key.dropLast = packet.stemPrefix := by
      rw [(splitKey_eq_ok_iff.mp hsplit).1, dropLast_joinKey]
    rw [← hnorm, honestPacket, ← h.root, hkey, hvalue, hprefix]
  · exact Or.inr hcol

/-- **Accepted wire forms are not malleable.**  Two byte strings that are read as packets of a
tree's root and verify, for one key, epoch, block number and bucket, are one string, unless
two strings hashed for the root or by the two verifications collide. -/
theorem wire_unique (H : HashFunction) (t : Node) (ht : Reachable t) (blob blob' : Bytes)
    (packet packet' : StemWitnessPacket) (qs qs' : List Bytes)
    (h : AcceptedWire H t blob packet qs) (h' : AcceptedWire H t blob' packet' qs')
    (hkey : packet.key = packet'.key) (hepoch : packet.epoch = packet'.epoch)
    (hnumber : packet.blockNumber = packet'.blockNumber)
    (hbucket : packet.bucketId = packet'.bucketId) :
    blob = blob' ∨ Collision H ((rootHash H t).queries ++ (qs ++ qs')) := by
  rcases h.eq_honestPacket ht with ⟨q, hq, hpacket⟩ | hcol
  · rcases h'.eq_honestPacket ht with ⟨q', hq', hpacket'⟩ | hcol
    · -- the two packets carry the one generated proof, and a packet has one wire form
      rw [hkey, hq'] at hq
      cases hq
      have heq : packet = packet' := by
        rw [hpacket, hpacket', hepoch, hnumber, hbucket]
      have hwritten := encode_of_decode h.decodes
      rw [heq, encode_of_decode h'.decodes] at hwritten
      exact Or.inl (Except.ok.inj hwritten).symm
    · exact Or.inr (hcol.mono_append (List.Subset.refl _) (List.subset_append_right _ _))
  · exact Or.inr (hcol.mono_append (List.Subset.refl _) (List.subset_append_left _ _))

/-- The packet of a lone stem has one accepted wire form. -/
theorem wire_unique_lone :
    ∃ blob qs, AcceptedWire (fun _ => emptyValue) (stemNode [7] (emptyStem.set 0 onesDigest)) blob
        (lonePacket (fun _ => emptyValue) [7]) qs ∧
      ∀ blob' qs', AcceptedWire (fun _ => emptyValue)
          (stemNode [7] (emptyStem.set 0 onesDigest)) blob'
          (lonePacket (fun _ => emptyValue) [7]) qs' →
        blob = blob' ∨ Collision (fun _ => emptyValue) ((rootHash (fun _ => emptyValue)
          (stemNode [7] (emptyStem.set 0 onesDigest))).queries ++ (qs ++ qs')) := by
  obtain ⟨blob, hdecodes⟩ := decoded_lonePacket (H := fun _ => emptyValue) (s := [7]) (by simp)
    (by simp)
  obtain ⟨qs, hverifies⟩ := HashPy.outcome_eq_ok_iff.mp
    (verify_lonePacket (H := fun _ => emptyValue) (s := [7]) (by simp))
  have h : AcceptedWire (fun _ => emptyValue) (stemNode [7] (emptyStem.set 0 onesDigest)) blob
      (lonePacket (fun _ => emptyValue) [7]) qs := ⟨hdecodes, hverifies, rfl⟩
  refine ⟨blob, qs, h, fun blob' qs' h' => ?_⟩
  exact wire_unique _ _ (reachable_stemNode (by simp) 0 onesDigest) _ _ _ _ _ _ h h' rfl rfl rfl rfl

end Pbt
