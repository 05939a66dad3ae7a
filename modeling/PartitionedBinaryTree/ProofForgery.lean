/-
# Forged proofs

A proof that does not confirm its value has a reading that contradicts it.  The tree of this
reading and the climb of the proof are given one root by a hash function that is made for them,
without a collision, so `verify_proof` accepts the proof and is wrong (`confirms_of_attests`).
This needs the strings of the proof to be apart from each other (`MerkleProof.Ordinary`).

`soundAt_iff_confirms` says for which proofs `verify_proof` is sound.
-/
import PartitionedBinaryTree.ForgedClimbs
import PartitionedBinaryTree.ForgedTrees

namespace Pbt

open Node BitTrie

/-! ## Forgeries -/

/-- **Proofs without accidents**: fewer siblings than a list can have, and if one of them is not a
digest wide, no digest above it that begins like the string of a stem, and none below it that
makes the string of the stem itself. -/
structure MerkleProof.Ordinary (p : MerkleProof) : Prop where
  short : p.pathSiblings.length < 2 ^ 63
  apart : (trunk p.route).length = p.route.length ∨
    (∀ x ∈ trunk p.route, ¬ stemHashDomain <+: x.1.val) ∧
      ∀ c, spelled p.stemString p.route c ≠ p.stemString

/-- A path goes on below its trunk. -/
theorem trunk_append {route : List (Bytes × ℤ)} (h : (trunk route).length = route.length)
    (route' : List (Bytes × ℤ)) : trunk (route ++ route') = trunk route ++ trunk route' := by
  induction route with
  | nil => rfl
  | cons x route ih =>
      obtain ⟨σ, b⟩ := x
      by_cases hσ : σ.length = 32
      · rw [trunk_cons_of_length hσ, List.length_cons, List.length_cons] at h
        rw [List.cons_append, trunk_cons_of_length hσ, trunk_cons_of_length hσ,
          ih (Nat.succ.inj h), List.cons_append]
      · rw [trunk_cons_of_ne hσ] at h
        cases h

/-- A level with a digest. -/
theorem trunk_digest (d : Digest) (b : ℤ) (route : List (Bytes × ℤ)) :
    trunk ((d.val, b) :: route) = (d, b != 0) :: trunk route :=
  trunk_cons_of_length d.property b route

theorem length_trunk_le (route : List (Bytes × ℤ)) : (trunk route).length ≤ route.length := by
  rcases route_cases route with ⟨hlen, -⟩ | ⟨upper, σ, b, lower, rfl, -, htrunk, hlen, -⟩
  · exact hlen.le
  · rw [htrunk, hlen, List.length_append]
    exact Nat.le_add_right _ _

theorem MerkleProof.Ordinary.length_route_lt {p : MerkleProof} (h : p.Ordinary) :
    p.route.length < 2 ^ 63 := by
  refine lt_of_le_of_lt ?_ h.short
  rw [MerkleProof.route, List.length_zip]
  exact Nat.min_le_left _ _

theorem MerkleProof.Ordinary.length_trunk_lt {p : MerkleProof} (h : p.Ordinary) :
    (trunk p.route).length < 2 ^ 63 :=
  lt_of_le_of_lt (length_trunk_le p.route) h.length_route_lt

theorem MerkleProof.stemString_ne_nil (p : MerkleProof) : p.stemString ≠ [] := by
  rw [MerkleProof.stemString, stemPayload, List.append_assoc]
  exact List.cons_ne_nil _ _

/-- The last slot of a stem. -/
def lastSlot : Fin stemSubtreeWidth := 255

/-- A stem payload, cut before its last value. -/
theorem stemPayload_set_lastSlot (s : Bytes) (vs : StemValues) :
    ∃ front : Bytes, ∀ c : Value,
      stemPayload s (stemBytes (vs.set lastSlot c lastSlot.isLt)) = front ++ c.val := by
  refine ⟨stemHashDomain ++ s ++ ((vs.toList.take 255).map Subtype.val).flatten, fun c => ?_⟩
  have hlen : vs.toList.length = 256 := Vector.length_toList
  have hset : (vs.set lastSlot c lastSlot.isLt).toList = vs.toList.take 255 ++ [c] := by
    rw [Vector.toList_set, List.set_eq_take_append_cons_drop, if_pos (by rw [hlen]; decide),
      List.drop_of_length_le (by rw [hlen]; decide)]
    rfl
  rw [stemPayload, stemBytes, hset, List.map_append, List.flatten_append, List.map_singleton,
    List.flatten_singleton, ← List.append_assoc]

/-- A reading that does not agree may be taken apart from the digests beside the trunk, and from
the string of the stem: a digest that is the last value of the stem is exchanged. -/
theorem exists_reading_apart {p : MerkleProof} (hord : p.Ordinary) {e : Option Digest} {s : Bytes}
    {vs : StemValues} (hreads : p.ReadsAsStem e s vs) {key value : Bytes}
    (hnot : ¬ StemAgrees (trunk p.route) e s vs key value) :
    ∃ vs c, ¬ StemAgrees (trunk p.route) e s vs key value ∧
      stemPayload s (stemBytes vs) = spelled p.stemString p.route c ∧
      ((trunk p.route).length = p.route.length ∨
        c ∉ (trunk p.route).map Prod.fst ∧ p.stemString ≠ stemPayload s (stemBytes vs)) := by
  obtain ⟨hplaces, c, hpayload⟩ := hreads
  rcases route_cases p.route with ⟨htrunk, -⟩ | ⟨upper, σ, b, lower, hroute, -, htrunk, hlen, hstep⟩
  · exact ⟨vs, c, hnot, hpayload, Or.inl htrunk⟩
  · have hshorter : (trunk p.route).length ≠ p.route.length := by
      rw [htrunk, hlen, hroute, List.length_append, List.length_cons]
      omega
    obtain ⟨htags, hstring⟩ := hord.apart.resolve_left hshorter
    by_cases hb : b = 0
    · -- the digest begins the payload, with the tag
      refine ⟨vs, c, hnot, hpayload, Or.inr ⟨fun hmem => ?_, fun heq => ?_⟩⟩
      · obtain ⟨x, hx, rfl⟩ := List.mem_map.mp hmem
        refine htags x hx ?_
        rw [hstep, stepPayload, if_pos hb, stemPayload, List.append_assoc] at hpayload
        have htag : stemHashDomain <+: x.1.val ++ σ := hpayload ▸ List.prefix_append _ _
        exact List.prefix_of_prefix_length_le htag (List.prefix_append _ _) (by simp)
      · exact hstring c (heq.trans hpayload).symm
    · -- the digest is the last value
      obtain ⟨front, hfront⟩ := stemPayload_set_lastSlot s vs
      have hself : vs.set lastSlot (getElem vs lastSlot lastSlot.isLt) lastSlot.isLt = vs :=
        Vector.set_getElem_self lastSlot.isLt
      have hcut := hfront (getElem vs lastSlot lastSlot.isLt)
      rw [hself, hpayload, hstep, stepPayload, if_neg hb] at hcut
      obtain ⟨rfl, -⟩ := List.append_inj' hcut (by simp)
      obtain ⟨c', hfresh, htaken⟩ := exists_fresh (n := 32) [value, p.stemString]
        ((trunk p.route).map Prod.fst) (by
          have hsize := hord.length_trunk_lt
          simp only [List.length_cons, List.length_nil, List.length_map]
          omega)
      have hpayload' : stemPayload s (stemBytes (vs.set lastSlot c' lastSlot.isLt)) =
          spelled p.stemString p.route c' := by
        rw [hfront, hstep, stepPayload, if_neg hb]
      refine ⟨_, c', ?_, hpayload', Or.inr ⟨htaken, fun heq => ?_⟩⟩
      · rintro ⟨s', i, hkey, hagrees⟩
        refine hnot ⟨s', i, hkey, ?_⟩
        split_ifs at hagrees ⊢ with hs'
        · have hslot := getElem_set_slot vs lastSlot i c'
          by_cases hi : i = lastSlot
          · rw [if_pos hi] at hslot
            refine absurd ?_ (hfresh value (by simp)).1
            rw [hagrees, show (vs.set lastSlot c' lastSlot.isLt)[i] = c' from hslot]
          · rw [if_neg hi] at hslot
            exact hagrees.trans (congrArg Subtype.val hslot)
        · exact hagrees
      · refine (hfresh p.stemString (by simp)).2 ?_
        rw [heq, hfront]
        exact List.suffix_append _ _

/-- **A reading as a stem that does not agree is a forgery**: some tree has the root that the proof
leads to under some hash function, without a collision, and does not hold the value. -/
theorem exists_not_attests_of_stem {p : MerkleProof} (hchecks : p.PassesChecks) (hord : p.Ordinary)
    {e : Option Digest} {s : Bytes} {vs : StemValues} (hreads : p.ReadsAsStem e s vs)
    {key value : Bytes} (hnot : ¬ StemAgrees (trunk p.route) e s vs key value) :
    ∃ H t, Reachable t ∧ ¬ Attests H t p key value := by
  obtain ⟨vs, c, hnot, hpayload, hcase⟩ := exists_reading_apart hord hreads hnot
  obtain ⟨⟨s₀, i, hkey, hslot⟩, hcount, hlengths⟩ := hchecks
  have hstring : stemPayload s₀ p.stemValues = p.stemString := by
    rw [MerkleProof.stemString, (splitKey_eq_ok_iff.mp hkey).1, dropLast_joinKey]
  have hroute := hord.length_route_lt
  obtain ⟨levels, sides, H₀, ht, hholds, hsidesLength, hcol₀, hsides, hdigests, htree⟩ :=
    exists_tree hreads.places hnot [p.stemString]
      (by simpa using p.stemString_ne_nil) (by simp)
  have hstart : p.stemString ∉ sides := fun h => (hsides _ h).1 (List.mem_singleton_self _)
  have hstem : stemPayload s (stemBytes vs) ∉ sides := fun h => (hsides _ h).2 rfl
  have hsidesSize := hord.length_trunk_lt
  rw [← hsidesLength] at hsidesSize
  -- what the root hashes, if it is reached by a climb from the stem
  have hrootSub : ∀ (H : HashFunction) (upper : List (Bytes × ℤ)), (∀ q ∈ sides, H q = H₀ q) →
      trunk p.route = trunk upper → (trunk upper).length = upper.length →
      (nodeHash H (spine (stemNode s vs) levels)).val =
        (climb H (H (stemPayload s (stemBytes vs))) upper.reverse).val ∧
      (nodeHash H (spine (stemNode s vs) levels)).queries ⊆
        (climb H (H (stemPayload s (stemBytes vs))) upper.reverse).queries ++
          stemPayload s (stemBytes vs) :: sides := by
    intro H upper hsame htrunk hlen
    obtain ⟨hdigest, hqueries⟩ := htree H hsame
    obtain ⟨hroot, hsub⟩ := hash_spine H (stemNode s vs) (hdigest.trans htrunk) hlen
    refine ⟨hroot, fun q hq => ?_⟩
    rcases List.mem_append.mp (hsub hq) with hq | hq
    · rw [List.mem_singleton.mp hq]
      exact List.mem_append_right _ List.mem_cons_self
    · rcases List.mem_append.mp hq with hq | hq
      · obtain ⟨l, hl, hq⟩ := List.mem_flatMap.mp hq
        exact List.mem_append_right _ (List.mem_cons_of_mem _ (hqueries l hl hq))
      · exact List.mem_append_left _ hq
  rcases route_cases p.route with ⟨htrunk, hleaf⟩ |
    ⟨upper, σ, b, lower, hsplit, -, htrunk, hlen, hstep⟩
  · -- the trunk is the whole path, and the stem of the tree hashes the string of the proof
    rw [hleaf] at hpayload
    rw [hpayload] at hrootSub
    obtain ⟨H, hsame, hcol⟩ := exists_climb_from p.route.reverse hcol₀ hstart (by
      rw [List.length_reverse]
      omega)
    obtain ⟨hroot, hsub⟩ := hrootSub H p.route hsame rfl htrunk
    refine ⟨H, _, ht, not_attests_of_accepted hkey hcount hslot hlengths ?_ hholds ?_⟩
    · rw [hstring, MerkleProof.levels_eq hlengths]
      exact hroot.symm
    · rw [hstring, MerkleProof.levels_eq hlengths]
      refine fun h => hcol (h.mono (List.append_subset.mpr ⟨hsub, ?_⟩))
      exact List.cons_subset.mpr ⟨List.mem_append_right _ List.mem_cons_self,
        List.subset_append_left _ _⟩
  · -- the string below the trunk is made the payload of the stem
    have hshorter : (trunk p.route).length ≠ p.route.length := by
      rw [htrunk, hlen, hsplit, List.length_append, List.length_cons]
      omega
    obtain ⟨hfree, hapart⟩ := hcase.resolve_left hshorter
    rw [hstep] at hpayload
    rw [hsplit, List.length_append, List.length_cons] at hroute
    obtain ⟨H₁, hsame₁, hdigest₁, hcol₁, hstem₁, hlength₁⟩ := exists_climb_to
      lower.reverse hcol₀ hstart hstem hapart (by rwa [hdigests]) (by
        rw [List.length_reverse]
        omega)
    obtain ⟨H, hsame, hcol⟩ := exists_climb_from upper.reverse hcol₁ hstem₁ (by
      simp only [List.length_append, List.length_cons, hlength₁, List.length_reverse]
      omega)
    obtain ⟨hroot, hsub⟩ := hrootSub H upper (fun q hq => by
      rw [hsame q (List.mem_append_right _ hq), hsame₁ q hq]) htrunk hlen
    have hlower : climb H (H p.stemString) lower.reverse =
        climb H₁ (H₁ p.stemString) lower.reverse := by
      rw [hsame p.stemString (List.mem_append_left _ List.mem_cons_self)]
      exact climb_congr fun q hq =>
        hsame q (List.mem_append_left _ (List.mem_cons_of_mem _ hq))
    have hclimb : climb H (H p.stemString) p.route.reverse =
        ⟨(climb H (H (stemPayload s (stemBytes vs))) upper.reverse).val,
          (climb H₁ (H₁ p.stemString) lower.reverse).queries ++ stemPayload s (stemBytes vs) ::
            (climb H (H (stemPayload s (stemBytes vs))) upper.reverse).queries⟩ := by
      rw [hsplit, List.reverse_append, List.reverse_cons, List.append_assoc, climb_append, hlower]
      show Logged.mk (climb H (climb H₁ (H₁ p.stemString) lower.reverse).val
        ([(σ, b)] ++ upper.reverse)).val (_ ++ (climb H (climb H₁ (H₁ p.stemString)
          lower.reverse).val ([(σ, b)] ++ upper.reverse)).queries) = _
      rw [hdigest₁, List.singleton_append, climb, climbStep_eq, ← hpayload]
      rfl
    refine ⟨H, _, ht, not_attests_of_accepted hkey hcount hslot hlengths ?_ hholds ?_⟩
    · rw [hstring, MerkleProof.levels_eq hlengths, hclimb]
      exact hroot.symm
    · rw [hstring, MerkleProof.levels_eq hlengths, hclimb]
      refine fun h => hcol (h.mono ?_)
      intro q hq
      simp only [List.mem_append, List.mem_cons] at hq ⊢
      rcases hq with hq | hq | hq | hq | hq
      · have hq' := hsub hq
        simp only [List.mem_append, List.mem_cons] at hq'
        tauto
      · tauto
      · tauto
      · tauto
      · tauto

/-- Prefixes follow any path. -/
theorem exists_follows (bits : List Bool) : ∃ s : Bytes, s ≠ [] ∧ Follows pathBit s bits 0 := by
  obtain ⟨s, hs, hbits⟩ := exists_pathBits (fun i => bits.getD i false) bits.length
  refine ⟨s, hs, follows_iff.mpr fun i hi => ?_⟩
  rw [Nat.zero_add, hbits i hi, List.getD_eq_getElem _ _ hi]

/-- A key that leaves a path, of which the last side is not empty, beside an empty subtree only
leaves it above. -/
theorem off_of_not_follows {path : List (Digest × Bool)} {e : Option Digest} {k : Bytes}
    {side last : Digest} (other : Digest) {bit : Bool} (hlast : some last ≠ e)
    (hnot : ¬ Follows pathBit k ((path ++ [(side, bit), (last, false)]).map Prod.snd) 0)
    (h : Off pathBit (some · = e) k (path ++ [(side, bit), (last, false)]) 0) :
    Off pathBit (some · = e) k (path ++ [(side, bit)]) 0 ∧
      Off pathBit (some · = e) k (path ++ [(other, !bit)]) 0 := by
  rw [List.append_cons, off_concat_iff] at h
  obtain ⟨hoff, hend⟩ := h
  refine ⟨hoff, off_concat_iff.mpr ⟨(off_concat_iff.mp hoff).1, fun hfollows => ?_⟩⟩
  by_contra hbit
  -- the key follows the path to the last side
  have hside : Follows pathBit k ((path ++ [(side, bit)]).map Prod.snd) 0 := by
    rw [List.map_append, List.map_singleton, follows_concat_iff, List.length_map]
    exact ⟨hfollows, Bool.not_eq_not.mp fun heq => hbit (Or.inl heq)⟩
  rcases hend hside with hbits | hempty
  · refine hnot ?_
    rw [List.append_cons, List.map_append, List.map_singleton, follows_concat_iff, List.length_map]
    exact ⟨hside, hbits⟩
  · exact hlast hempty

/-- **A reading as an internal node that does not agree is a forgery.** -/
theorem exists_not_attests_of_node {p : MerkleProof} {e : Option Digest} (side bottom : Digest)
    (bit : Bool) (hchecks : p.PassesChecks) (hord : p.Ordinary)
    (hstring : p.stemString = if bit then side.val ++ bottom.val else bottom.val ++ side.val)
    (htrunk : (trunk p.route).length = p.route.length)
    (hdistinct : DistinctSides e (trunk p.route ++ [(side, bit)]))
    (hbottom : bottom ∉ (trunk p.route).map Prod.fst) (hne : bottom ≠ side)
    {key value : Bytes}
    (hnot : ∀ k i, splitKey key = .ok (k, i) → value = emptyValue.val →
      Off pathBit (some · = e) k (trunk p.route ++ [(side, bit)]) 0 →
        ¬ Off pathBit (some · = e) k (trunk p.route ++ [(bottom, !bit)]) 0) :
    ∃ H t, Reachable t ∧ ¬ Attests H t p key value := by
  obtain ⟨⟨s₀, i, hkey, hslot⟩, hcount, hlengths⟩ := hchecks
  have hstem₀ : stemPayload s₀ p.stemValues = p.stemString := by
    rw [MerkleProof.stemString, (splitKey_eq_ok_iff.mp hkey).1, dropLast_joinKey]
  have hroute := hord.length_route_lt
  -- below the side stands one more side, so that the node beside it has two stems
  obtain ⟨y, hy, -⟩ := exists_fresh (n := 32) [value] [] (by simp)
  obtain ⟨last, -, hlast⟩ := exists_fresh (n := 32) []
    (side :: bottom :: ((trunk p.route).map Prod.fst ++ e.toList)) (by
      cases e <;> simp <;> omega)
  simp only [List.mem_cons, List.mem_append, not_or] at hlast
  obtain ⟨hlastSide, hlastBottom, hlastTrunk, hlastEmpty⟩ := hlast
  obtain ⟨s, hs, hfollows, hown⟩ : ∃ s : Bytes, s ≠ [] ∧
      Follows pathBit s ((trunk p.route ++ [(side, bit), (last, false)]).map Prod.snd) 0 ∧
      ∀ k i, splitKey key = .ok (k, i) →
        Follows pathBit k ((trunk p.route ++ [(side, bit), (last, false)]).map Prod.snd) 0 →
          k = s := by
    by_cases hk : ∃ k i, splitKey key = .ok (k, i) ∧
        Follows pathBit k ((trunk p.route ++ [(side, bit), (last, false)]).map Prod.snd) 0
    · obtain ⟨k, i, hsplit, hk⟩ := hk
      obtain ⟨rfl, hlen⟩ := splitKey_eq_ok_iff.mp hsplit
      refine ⟨k, two_le_length_joinKey_iff.mp hlen, hk, fun k' i' h _ => ?_⟩
      exact (Prod.mk.inj (Except.ok.inj (h.symm.trans hsplit))).1
    · obtain ⟨s, hs, hfollows⟩ := exists_follows
        ((trunk p.route ++ [(side, bit), (last, false)]).map Prod.snd)
      exact ⟨s, hs, hfollows, fun k i h hfollows => absurd ⟨k, i, h, hfollows⟩ hk⟩
  have hlast' : some last ≠ e := by
    rintro rfl
    exact hlastEmpty (by simp)
  have hplaces : Places (trunk p.route ++ [(side, bit), (last, false)]) e s := by
    refine ⟨hs, hfollows, ?_, ?_⟩
    · rw [List.append_cons, DistinctSides, List.map_append, List.filter_append]
      refine List.Nodup.append hdistinct ?_ ?_
      · exact (List.nodup_singleton last).filter _
      · intro d hd hd'
        have hd'' : d = last := List.mem_singleton.mp (List.mem_of_mem_filter hd')
        have hmem := List.mem_of_mem_filter hd
        rw [List.map_append, List.map_singleton, List.mem_append, List.mem_singleton, hd''] at hmem
        exact hmem.elim hlastTrunk hlastSide
    · intro x hx
      rw [List.append_cons, List.getLast?_concat] at hx
      cases hx
      exact hlast'
  have hagrees : ¬ StemAgrees (trunk p.route ++ [(side, bit), (last, false)]) e s (filledStem y)
      key value := by
    rintro ⟨k, j, hsplit, hvalue⟩
    split_ifs at hvalue with hk
    · rw [getElem_filledStem] at hvalue
      exact (hy value (by simp)).1 (hvalue ▸ List.prefix_rfl)
    · obtain ⟨hempty, hoff⟩ := hvalue
      obtain ⟨hoffSide, hoffBottom⟩ := off_of_not_follows bottom hlast'
        (fun hfollows => hk (hown k j hsplit hfollows)) hoff
      exact hnot k j hsplit hempty hoffSide hoffBottom
  have hlength : p.stemString.length = 64 := by
    rw [hstring]
    cases bit <;> simp
  obtain ⟨levels, sides, H₀, ht, hholds, hsidesLength, hcol₀, hsides, hdigests, htree⟩ :=
    exists_tree hplaces hagrees [p.stemString]
      (by simpa using p.stemString_ne_nil) (by simp)
  rw [List.length_append, htrunk] at hsidesLength
  have hlong : p.stemString ≠ stemPayload s (stemBytes (filledStem y)) := by
    intro heq
    rw [heq, length_stemPayload (length_stemBytes _) length_of_mem_stemBytes] at hlength
    omega
  have hstart : stemPayload s (stemBytes (filledStem y)) ∉ sides := fun h => (hsides _ h).2 rfl
  have hstring' : p.stemString ∉ sides := fun h => (hsides _ h).1 (List.mem_singleton_self _)
  -- the node at the end of the trunk is hashed from the string of the proof
  obtain ⟨H₁, hsame₁, hdigest₁, hcol₁, hstring₁, hlength₁⟩ := exists_climb_to (c := bottom)
    [(last.val, 0)] hcol₀ hstart hstring' hlong.symm (by
      rw [hdigests, List.map_append, List.mem_append]
      rintro (h | h)
      · exact hbottom h
      · rcases List.mem_cons.mp h with h | h
        · exact hne h
        · exact hlastBottom (List.mem_singleton.mp h).symm) (by
      simp only [hsidesLength, List.length_cons, List.length_nil]
      omega)
  obtain ⟨H, hsame, hcol⟩ := exists_climb_from p.route.reverse hcol₁ hstring₁ (by
      simp only [List.length_append, List.length_cons, hlength₁, hsidesLength, List.length_nil,
        List.length_reverse]
      omega)
  have hsides' : ∀ q ∈ sides, H q = H₀ q := fun q hq => by
    rw [hsame q (List.mem_append_right _ hq), hsame₁ q hq]
  obtain ⟨hdigest, hqueries⟩ := htree H hsides'
  have hupper : trunk (p.route ++ [(side.val, if bit then 1 else 0), (last.val, 0)]) =
      trunk p.route ++ [(side, bit), (last, false)] := by
    rw [trunk_append htrunk, trunk_digest, trunk_digest]
    cases bit <;> rfl
  obtain ⟨hroot, hsub⟩ := hash_spine H (stemNode s (filledStem y)) (hdigest.trans hupper.symm) (by
    rw [hupper, List.length_append, List.length_append, htrunk]
    rfl)
  have hbottom₁ : climb H (H (stemPayload s (stemBytes (filledStem y)))) [(last.val, 0)] =
      climb H₁ (H₁ (stemPayload s (stemBytes (filledStem y)))) [(last.val, 0)] := by
    rw [hsame _ (List.mem_append_left _ List.mem_cons_self)]
    exact climb_congr fun q hq => hsame q (List.mem_append_left _ (List.mem_cons_of_mem _ hq))
  have hstep : stepPayload bottom side.val (if bit then 1 else 0) = p.stemString := by
    rw [hstring, stepPayload]
    cases bit <;> rfl
  have hclimb : climb H (H (stemPayload s (stemBytes (filledStem y))))
      (p.route ++ [(side.val, if bit then 1 else 0), (last.val, 0)]).reverse =
      ⟨(climb H (H p.stemString) p.route.reverse).val,
        (climb H₁ (H₁ (stemPayload s (stemBytes (filledStem y)))) [(last.val, 0)]).queries ++
          p.stemString :: (climb H (H p.stemString) p.route.reverse).queries⟩ := by
    rw [List.append_cons, List.reverse_concat, List.reverse_concat, ← List.singleton_append,
      climb_append, hbottom₁]
    show Logged.mk (climb H (climb H₁ _ [(last.val, 0)]).val ((side.val, _) :: p.route.reverse)).val
      (_ ++ (climb H (climb H₁ _ [(last.val, 0)]).val
        ((side.val, _) :: p.route.reverse)).queries) = _
    rw [hdigest₁, climb, climbStep_eq, hstep]
    rfl
  have hbase : (nodeHash H (stemNode s (filledStem y))).val =
      H (stemPayload s (stemBytes (filledStem y))) := rfl
  rw [hbase, hclimb] at hroot hsub
  refine ⟨H, _, ht, not_attests_of_accepted hkey hcount hslot hlengths ?_ hholds ?_⟩
  · rw [hstem₀, MerkleProof.levels_eq hlengths]
    exact hroot.symm
  · rw [hstem₀, MerkleProof.levels_eq hlengths]
    refine fun h => hcol (h.mono ?_)
    intro q hq
    simp only [List.mem_append, List.mem_cons] at hq ⊢
    rcases hq with hq | hq | hq
    · rcases List.mem_append.mp (hsub hq) with hq | hq
      · rw [List.mem_singleton.mp hq]
        tauto
      · rcases List.mem_append.mp hq with hq | hq
        · obtain ⟨l, hl, hq⟩ := List.mem_flatMap.mp hq
          have hside := hqueries l hl hq
          tauto
        · simp only [List.mem_append, List.mem_cons] at hq
          tauto
    · tauto
    · tauto

/-- A digest other than that of empty subtrees stands beside no other level. -/
theorem DistinctSides.not_mem {path : List (Digest × Bool)} {e : Option Digest} {d : Digest}
    {b : Bool} (h : DistinctSides e (path ++ [(d, b)])) (hd : some d ≠ e) :
    d ∉ path.map Prod.fst := by
  intro hmem
  rw [DistinctSides, List.map_append, List.filter_append] at h
  have hfilter : d ∈ (path.map Prod.fst).filter (some · ≠ e) :=
    List.mem_filter.mpr ⟨hmem, decide_eq_true hd⟩
  refine List.disjoint_of_nodup_append h hfilter (List.mem_filter.mpr ⟨?_, decide_eq_true hd⟩)
  exact List.mem_singleton_self d

/-- **An ordinary proof that shows the truth in every tree confirms it.** -/
theorem confirms_of_attests {p : MerkleProof} (hord : p.Ordinary) {key value : Bytes}
    (h : ∀ H t, Reachable t → Attests H t p key value) : p.Confirms key value := by
  intro hchecks
  refine ⟨fun e s vs hreads => ?_, fun e a b hreads => ?_⟩
  · by_contra hnot
    obtain ⟨H, t, ht, hattests⟩ := exists_not_attests_of_stem hchecks hord hreads hnot
    exact hattests (h H t ht)
  · by_contra hnot
    obtain ⟨⟨c, hpayload⟩, hleft, hright, hne⟩ := hreads
    rcases route_cases p.route with ⟨htrunk, hleaf⟩ | ⟨upper, σ, b', lower, -, hσ, -, -, hstep⟩
    · rw [hleaf] at hpayload
      -- one of the children is not empty
      by_cases ha : some a = e
      · have hb : some b ≠ e := fun hb => hne (Option.some.inj (ha.trans hb.symm))
        obtain ⟨H, t, ht, hattests⟩ := exists_not_attests_of_node a b true
          hchecks hord hpayload.symm htrunk hleft (hright.not_mem hb) hne.symm
          fun k i hsplit hempty hoff hoff' => hnot ⟨k, i, hsplit, hempty, hoff, hoff'⟩
        exact hattests (h H t ht)
      · obtain ⟨H, t, ht, hattests⟩ := exists_not_attests_of_node b a false
          hchecks hord hpayload.symm htrunk hright (hleft.not_mem ha) hne
          fun k i hsplit hempty hoff hoff' => hnot ⟨k, i, hsplit, hempty, hoff', hoff⟩
        exact hattests (h H t ht)
    · -- two digests have no sibling of another width in them
      rw [hstep] at hpayload
      have hlen := congrArg List.length hpayload
      rw [length_stepPayload, List.length_append, BytesN.length_val, BytesN.length_val] at hlen
      omega

/-- **When `verify_proof` is sound at a proof.**  An accepted proof that confirms its value at its
key is right, over every hash function and reachable tree; and of ordinary proofs only these
are. -/
theorem soundAt_iff_confirms (p : MerkleProof) :
    (p.Confirms p.key p.value → ∀ H t, Reachable t → SoundAt H t p) ∧
    (p.Ordinary → ((∀ H t, Reachable t → SoundAt H t p) ↔ p.Confirms p.key p.value)) :=
  ⟨fun h _ _ ht => attests_of_confirms ht h,
    fun hord => ⟨confirms_of_attests hord, fun h _ _ ht => attests_of_confirms ht h⟩⟩

end Pbt
