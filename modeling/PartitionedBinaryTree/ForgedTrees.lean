/-
# Trees for forged proofs

A proof that can be read in a way that contradicts it is forged by building the tree of that
reading: a stem at the end of the trunk, and beside each level an empty subtree or a stem that
is filled with one new value (`exists_tree`).  Only the digests of these subtrees are given, so
a hash function has to be made to fit.
-/
import PartitionedBinaryTree.Canonical
import PartitionedBinaryTree.Lib.Programming
import PartitionedBinaryTree.ProofReadings

namespace Pbt

open Node BitTrie

/-! ## Prefixes with given bits -/

/-- The byte with the given bits, most significant first. -/
def byteOfBits (β : ℕ → Bool) : UInt8 := UInt8.ofNat (Nat.ofBits fun j : Fin 8 => β (7 - j))

theorem testBit_byteOfBits (β : ℕ → Bool) {j : ℕ} (hj : j < 8) :
    (byteOfBits β).toNat.testBit (7 - j) = β j := by
  have hlt : Nat.ofBits (fun j : Fin 8 => β (7 - j)) < 2 ^ 8 := Nat.ofBits_lt_two_pow _
  rw [byteOfBits, UInt8.toNat_ofNat_of_lt' hlt, Nat.testBit_ofBits_lt _ _ (by omega)]
  congr 1
  show 7 - (7 - j) = j
  omega

/-- The string of `m` bytes with the given bits. -/
def bytesOfBits (β : ℕ → Bool) (m : ℕ) : Bytes :=
  List.ofFn fun k : Fin m => byteOfBits fun j => β (8 * k + j)

/-- Strings that begin with it have these bits. -/
theorem pathBit_bytesOfBits (β : ℕ → Bool) {m i : ℕ} (hi : i < 8 * m) (tail : Bytes) :
    pathBit (bytesOfBits β m ++ tail) i = β i := by
  have hlen : i / 8 < (bytesOfBits β m).length := by
    rw [bytesOfBits, List.length_ofFn]
    omega
  have hlong : i / 8 < (bytesOfBits β m ++ tail).length := by
    rw [List.length_append]
    omega
  have hbit := pathBit_of_lt hlong (Nat.mod_lt i (show 0 < 8 by decide))
  rw [Nat.div_add_mod] at hbit
  rw [hbit, List.getElem_append_left hlen]
  simp only [bytesOfBits, List.getElem_ofFn]
  rw [testBit_byteOfBits _ (Nat.mod_lt i (by decide))]
  exact congrArg β (Nat.div_add_mod i 8)

/-- Prefixes begin with any bits. -/
theorem exists_pathBits (β : ℕ → Bool) (n : ℕ) :
    ∃ s : Bytes, s ≠ [] ∧ ∀ i < n, pathBit s i = β i := by
  refine ⟨bytesOfBits β (n + 1), fun h => ?_, fun i hi => ?_⟩
  · have hlen := congrArg List.length h
    rw [bytesOfBits, List.length_ofFn] at hlen
    cases hlen
  · have hbit := pathBit_bytesOfBits β (show i < 8 * (n + 1) by omega) []
    rwa [List.append_nil] at hbit

/-- So do strings of 32 bytes other than a given one, as long as a bit is left. -/
theorem exists_digest_pathBits (β : ℕ → Bool) {n : ℕ} (hn : n < 256) (other : Digest) :
    ∃ d : Digest, (∀ i < n, pathBit d.val i = β i) ∧ d ≠ other := by
  let γ : ℕ → Bool := fun i => if i < n then β i else !pathBit other.val i
  have hbits : ∀ i < 256, pathBit (bytesOfBits γ 32) i = γ i := by
    intro i hi
    have hbit := pathBit_bytesOfBits γ (m := 32) (show i < 8 * 32 by omega) []
    rwa [List.append_nil] at hbit
  refine ⟨⟨bytesOfBits γ 32, List.length_ofFn⟩, fun i hi => ?_, fun heq => ?_⟩
  · exact (hbits i (by omega)).trans (if_pos hi)
  · have hbit := (hbits n hn).trans (if_neg (lt_irrefl n))
    rw [show bytesOfBits γ 32 = other.val from congrArg Subtype.val heq] at hbit
    exact Bool.self_ne_not _ hbit

/-- A prefix has others beside it at every level. -/
theorem exists_fork (s : Bytes) (d : ℕ) :
    ∃ w : Bytes, w ≠ [] ∧ Agree pathBit d w s ∧ pathBit w d ≠ pathBit s d := by
  obtain ⟨w, hw, hbits⟩ := exists_pathBits
    (fun i => if i = d then !pathBit s i else pathBit s i) (d + 1)
  refine ⟨w, hw, fun i hi => ?_, ?_⟩
  · rw [hbits i (by omega), if_neg (by omega)]
  · rw [hbits d (by omega), if_pos rfl]
    exact Bool.not_ne_self _

/-! ## Subtrees beside a path -/

/-- The sides of a path, as a tree would have them: beside the digest that is to be its
hash stands a subtree. -/
abbrev Arm := (Digest × Node) × Bool

/-- The string that a side is hashed from: it has no children. -/
def sidePayload (side : Node) : Bytes := nodePayload (fun _ => emptyValue) side

/-- The stem with one value in all slots. -/
def filledStem (x : Value) : StemValues := Vector.replicate stemSubtreeWidth x

theorem getElem_filledStem (x : Value) (i : Fin stemSubtreeWidth) :
    getElem (filledStem x) i i.isLt = x := Vector.getElem_replicate i.isLt

/-- Its payload ends with the value. -/
theorem suffix_stemPayload_filledStem (w : Bytes) (x : Value) :
    x.val <:+ stemPayload w (stemBytes (filledStem x)) := by
  have hbytes : stemBytes (filledStem x) = List.replicate 255 x.val ++ [x.val] := by
    rw [stemBytes, filledStem, Vector.toList_replicate, List.map_replicate,
      show stemSubtreeWidth = 255 + 1 from rfl, List.replicate_succ']
  rw [hbytes, stemPayload, List.flatten_append, List.flatten_singleton, ← List.append_assoc]
  exact List.suffix_append _ _

/-- A side is empty or a filled stem. -/
def IsSide (e : Option Digest) (x : Value) (a : Arm) : Prop :=
  (some a.1.1 = e ∧ a.1.2 = emptyNode) ∨
    (some a.1.1 ≠ e ∧ ∃ w, w ≠ [] ∧ a.1.2 = stemNode w (filledStem x))

section

variable {e : Option Digest} {x : Value} {a : Arm}

/-- Hashing a side hashes its payload only. -/
theorem IsSide.hash (H : HashFunction) (h : IsSide e x a) :
    (nodeHash H a.1.2).val = H (sidePayload a.1.2) ∧
      (nodeHash H a.1.2).queries = [sidePayload a.1.2] := by
  rcases h with ⟨-, hside⟩ | ⟨-, w, -, hside⟩
  · rw [hside]
    exact ⟨rfl, rfl⟩
  · rw [hside]
    exact ⟨rfl, rfl⟩

/-- The leaves of a side. -/
theorem IsSide.leaf (h : IsSide e x a) : ∀ q ∈ a.1.2.leaves, q.1 ≠ [] ∧ q.2 = filledStem x := by
  rcases h with ⟨-, hside⟩ | ⟨-, w, hw, hside⟩
  · rw [hside]
    exact fun q hq => absurd hq List.not_mem_nil
  · rw [hside]
    intro q hq
    rw [List.mem_singleton.mp hq]
    exact ⟨hw, rfl⟩

theorem IsSide.compact (h : IsSide e x a) : a.1.2.Compact := by
  rcases h with ⟨-, hside⟩ | ⟨-, w, -, hside⟩
  · rw [hside]
    trivial
  · rw [hside]
    trivial

/-- A side that is not empty is hashed from a string that ends with the value. -/
theorem IsSide.payload (h : IsSide e x a) :
    sidePayload a.1.2 = [] ∨ x.val <:+ sidePayload a.1.2 := by
  rcases h with ⟨-, hside⟩ | ⟨-, w, -, hside⟩
  · rw [hside]
    exact Or.inl rfl
  · rw [hside]
    exact Or.inr (suffix_stemPayload_filledStem w x)

/-- Two sides without a common leaf have one payload exactly when they stand beside one digest,
if digests other than that of empty subtrees stand beside the path once. -/
theorem IsSide.payload_eq_iff {a' : Arm} (h : IsSide e x a) (h' : IsSide e x a')
    (hdisjoint : List.Disjoint a.1.2.leaves a'.1.2.leaves)
    (hdistinct : some a.1.1 ≠ e → some a'.1.1 ≠ e → a.1.1 ≠ a'.1.1) :
    sidePayload a.1.2 = sidePayload a'.1.2 ↔ a.1.1 = a'.1.1 := by
  rcases h with ⟨he, hside⟩ | ⟨he, w, -, hside⟩
  · rcases h' with ⟨he', hside'⟩ | ⟨he', w', -, hside'⟩
    · rw [hside, hside']
      exact iff_of_true rfl (Option.some.inj (he.trans he'.symm))
    · refine iff_of_false (fun heq => ?_) fun heq => he' (heq ▸ he)
      rw [hside, hside'] at heq
      have hlen := congrArg List.length heq
      rw [sidePayload, sidePayload, length_nodePayload_stemNode,
        length_nodePayload_emptyNode] at hlen
      omega
  · rcases h' with ⟨he', hside'⟩ | ⟨he', w', -, hside'⟩
    · refine iff_of_false (fun heq => ?_) fun heq => he (heq ▸ he')
      rw [hside, hside'] at heq
      have hlen := congrArg List.length heq
      rw [sidePayload, sidePayload, length_nodePayload_stemNode,
        length_nodePayload_emptyNode] at hlen
      omega
    · refine iff_of_false (fun heq => ?_) (hdistinct he he')
      rw [hside, hside'] at heq
      obtain ⟨rfl, -⟩ := stemPayload_inj (length_stemBytes _) (length_stemBytes _)
        length_of_mem_stemBytes length_of_mem_stemBytes heq
      rw [hside, hside'] at hdisjoint
      exact hdisjoint List.mem_cons_self List.mem_cons_self

end

/-- Subtrees for the digests beside the path of `s`: stems with prefixes of a kind that there are
at each level, and the one of `k` where it leaves the path. -/
theorem exists_arms {s k : Bytes} (hk : k ≠ []) (vs : StemValues) (x : Value) (e : Option Digest)
    {Q : Bytes → Prop} {path : List (Digest × Bool)} {d : ℕ}
    (h : Follows pathBit s (path.map Prod.snd) d)
    (hfork : ∀ j < d + path.length,
      ∃ w : Bytes, w ≠ [] ∧ Q w ∧ Agree pathBit j w s ∧ pathBit w j ≠ pathBit s j) :
    ∃ arms : List Arm, arms.map (fun a => (a.1.1, a.2)) = path ∧
      Beside pathBit s (arms.map fun a => (a.1.2, a.2)) d ∧
      (∀ a ∈ arms, IsSide e x a ∧ ∀ q ∈ a.1.2.leaves, q.1 = k ∨ Q q.1) ∧
      (Agree pathBit d k s → ¬ Off pathBit (some · = e) k path d →
        lookup pathBit k (spine (stemNode s vs) (arms.map fun a => (a.1.2, a.2))) d =
          some (filledStem x)) := by
  induction path generalizing d with
  | nil => exact ⟨[], rfl, trivial, by simp, fun _ hoff => absurd trivial hoff⟩
  | cons y path ih =>
      obtain ⟨τ, b⟩ := y
      obtain ⟨hbit, hrest⟩ := h
      obtain ⟨arms, hpath, hbeside, harms, hlookup⟩ := ih hrest fun j hj => hfork j (by
        rw [List.length_cons]
        omega)
      by_cases he : some τ = e
      · refine ⟨((τ, emptyNode), b) :: arms, by rw [List.map_cons, hpath], ?_, ?_, ?_⟩
        · exact ⟨hbit, trivial, fun p hp => absurd hp List.not_mem_nil, hbeside⟩
        · refine List.forall_mem_cons.mpr ⟨⟨Or.inl ⟨he, rfl⟩, fun q hq => ?_⟩, harms⟩
          exact absurd hq List.not_mem_nil
        · intro hagree hoff
          rw [Off] at hoff
          rw [List.map_cons, lookup_spine_cons]
          split_ifs at hoff ⊢ with hb
          · exact hlookup (hagree.succ (hb.trans hbit.symm)) hoff
          · exact absurd he hoff
      · -- the key's own stem, if the key leaves the path here
        obtain ⟨w, hw, hkind, hagree, hleaves, hown⟩ : ∃ w : Bytes, w ≠ [] ∧ (w = k ∨ Q w) ∧
            Agree pathBit d w s ∧ pathBit w d ≠ pathBit s d ∧
            (Agree pathBit d k s → pathBit k d ≠ pathBit s d → w = k) := by
          by_cases hown : Agree pathBit d k s ∧ pathBit k d ≠ pathBit s d
          · exact ⟨k, hk, Or.inl rfl, hown.1, hown.2, fun _ _ => rfl⟩
          · obtain ⟨w, hw, hQ, hagree, hleaves⟩ := hfork d (by
              rw [List.length_cons]
              omega)
            exact ⟨w, hw, Or.inr hQ, hagree, hleaves, fun h h' => absurd ⟨h, h'⟩ hown⟩
        refine ⟨((τ, stemNode w (filledStem x)), b) :: arms, by rw [List.map_cons, hpath],
          ?_, ?_, ?_⟩
        · refine ⟨hbit, trivial, fun p hp => ?_, hbeside⟩
          rw [List.mem_singleton.mp hp]
          rw [show pathBit s d = b from hbit] at hleaves
          exact ⟨hagree, Bool.eq_not_of_ne hleaves⟩
        · refine List.forall_mem_cons.mpr ⟨⟨Or.inr ⟨he, w, hw, rfl⟩, fun q hq => ?_⟩, harms⟩
          rw [List.mem_singleton.mp hq]
          exact hkind
        · intro hkagree hoff
          rw [Off] at hoff
          rw [List.map_cons, lookup_spine_cons]
          split_ifs at hoff ⊢ with hb
          · exact hlookup (hkagree.succ (hb.trans hbit.symm)) hoff
          · rw [hown hkagree (by rwa [hbit])]
            exact if_pos rfl

/-- **A tree around the stem of a reading that does not agree**: it does not hold the value.  Its
sides are hashed from strings outside `kept`, which may be given the digests beside the trunk. -/
theorem exists_tree {path : List (Digest × Bool)} {e : Option Digest} {s : Bytes}
    {vs : StemValues} (hplaces : Places path e s) {key value : Bytes}
    (hnot : ¬ StemAgrees path e s vs key value)
    (kept : List Bytes) (hkept : ∀ q ∈ kept, q ≠ []) (hsize : kept.length < 2 ^ 64) :
    ∃ (levels : List (Node × Bool)) (sides : List Bytes) (H : HashFunction),
      Reachable (spine (stemNode s vs) levels) ∧
      ¬ Holds (spine (stemNode s vs) levels) key value ∧
      sides.length = path.length ∧ ¬ Collision H sides ∧
      (∀ q ∈ sides, q ∉ kept ∧ q ≠ stemPayload s (stemBytes vs)) ∧
      sides.map H = path.map Prod.fst ∧
      ∀ H' : HashFunction, (∀ q ∈ sides, H' q = H q) → sideDigests H' levels = path ∧
        ∀ l ∈ levels, (nodeHash H' l.1).queries ⊆ sides := by
  obtain ⟨x, hfresh, hx⟩ := exists_fresh (n := 32) (value :: kept)
    [emptyValue, getElem vs 0 stemSubtreeWidth_pos] (by
      simp only [List.length_cons, List.length_nil]
      omega)
  -- the key's stem is put beside the trunk, where the key leaves it
  obtain ⟨k, hk, hkey⟩ : ∃ k : Bytes, k ≠ [] ∧ ∀ s' i, splitKey key = .ok (s', i) → s' = k := by
    by_cases hlen : 2 ≤ key.length
    · obtain ⟨s', i, hsplit, rfl⟩ := exists_splitKey hlen
      refine ⟨s', two_le_length_joinKey_iff.mp hlen, fun s'' i' h => ?_⟩
      exact (Prod.mk.inj (Except.ok.inj (h.symm.trans hsplit))).1
    · refine ⟨[0], List.cons_ne_nil _ _, fun s' i h => ?_⟩
      exact absurd (splitKey_eq_ok_iff.mp h).2 hlen
  obtain ⟨arms, hpath, hbeside, hall, hlookup⟩ := exists_arms (Q := fun _ => True) hk vs x e
    hplaces.follows fun j _ => by
      obtain ⟨w, hw, hfork⟩ := exists_fork s j
      exact ⟨w, hw, trivial, hfork⟩
  have harms : ∀ a ∈ arms, IsSide e x a := fun a ha => (hall a ha).1
  have hplaced := hbeside.placed (v := vs)
  have hdisjoint := hplaced.disjoint_sides
  have hdistinct := hplaces.distinct
  rw [List.pairwise_map] at hdisjoint
  rw [DistinctSides, ← hpath, List.map_map, List.Nodup, List.pairwise_filter,
    List.pairwise_map] at hdistinct
  have : Nonempty Digest := ⟨emptyValue⟩
  obtain ⟨H, hH, hprogram⟩ := exists_program
    (arms.map fun a => (sidePayload a.1.2, a.1.1)) (by
      rw [List.pairwise_map]
      refine (hdisjoint.and hdistinct).imp_of_mem fun {a a'} ha ha' h => ?_
      exact (harms a ha).payload_eq_iff (harms a' ha') h.1 fun he he' =>
        h.2 (decide_eq_true he) (decide_eq_true he'))
  simp only [List.forall_mem_map] at hH
  have hcol : ¬ Collision H (arms.map fun a => sidePayload a.1.2) := by
    rwa [List.map_map] at hprogram
  have hwf : WellFormed (spine (stemNode s vs) (arms.map fun a => (a.1.2, a.2))) := by
    refine ⟨hplaced, compact_spine (List.forall_mem_map.mpr fun a ha => (harms a ha).compact) ?_⟩
    rw [List.getLast?_map]
    intro l hl hempty
    obtain ⟨a, ha, rfl⟩ := Option.mem_map.mp hl
    have hlast := hplaces.last (a.1.1, a.2) (by
      rw [← hpath, List.getLast?_map]
      exact Option.mem_map_of_mem _ ha)
    rcases harms a (List.mem_of_getLast? ha) with ⟨he, -⟩ | ⟨-, w, -, hside⟩
    · exact hlast he
    · cases hside.symm.trans hempty
  -- the other leaves are filled stems
  have hleaves : ∀ q ∈ (spine (stemNode s vs) (arms.map fun a => (a.1.2, a.2))).leaves,
      q = (s, vs) ∨ (q.1 ≠ [] ∧ q.2 = filledStem x) := by
    intro q hq
    rcases mem_leaves_spine_iff.mp hq with hbase | ⟨l, hl, hq⟩
    · exact Or.inl (List.mem_singleton.mp hbase)
    · obtain ⟨a, ha, rfl⟩ := List.mem_map.mp hl
      exact Or.inr ((harms a ha).leaf q hq)
  refine ⟨arms.map fun a => (a.1.2, a.2), arms.map fun a => sidePayload a.1.2, H,
    hwf.reachable fun q hq => ?_, fun hholds => ?_, ?_, hcol, ?_, ?_, ?_⟩
  · rcases hleaves q hq with rfl | ⟨hne, -⟩
    · exact hplaces.nonempty
    · exact hne
  · by_cases hlen : 2 ≤ key.length
    · obtain ⟨s', i, hsplit, rfl⟩ := exists_splitKey hlen
      obtain rfl := hkey s' i hsplit
      rw [Holds, get_joinKey hk] at hholds
      have hvalue := Except.ok.inj hholds
      refine hnot ⟨s', i, hsplit, ?_⟩
      cases hstem : storedStem (spine (stemNode s vs) (arms.map fun a => (a.1.2, a.2))) s' with
      | none =>
          rw [hstem, Option.getD_none] at hvalue
          have hempty := congrArg Subtype.val (getElem_emptyStem i i.isLt)
          split_ifs with hs
          · have hstored := hwf.storedStem_eq_some_iff.mpr
              (leaves_base_subset _ _ (List.mem_singleton_self (s, vs)))
            rw [hs] at hstem
            cases hstem.symm.trans hstored
          · refine ⟨hvalue.symm.trans hempty, by_contra fun hoff => ?_⟩
            have hfound := hlookup (fun i hi => absurd hi (Nat.not_lt_zero i)) hoff
            cases hstem.symm.trans hfound
      | some vs' =>
          rw [hstem, Option.getD_some] at hvalue
          rcases hleaves _ (hwf.storedStem_eq_some_iff.mp hstem) with heq | ⟨-, hfilled⟩
          · obtain ⟨rfl, rfl⟩ := Prod.mk.inj heq
            rw [if_pos rfl]
            exact hvalue.symm
          · refine absurd ?_ (hfresh value List.mem_cons_self).1
            rw [← hvalue, show vs' = filledStem x from hfilled, getElem_filledStem]
    · rw [Holds, get_of_short (not_le.mp hlen)] at hholds
      cases hholds
  · rw [← hpath, List.length_map, List.length_map]
  · simp only [List.forall_mem_map]
    intro a ha
    refine ⟨fun hmem => ?_, fun heq => ?_⟩
    · rcases (harms a ha).payload with hnil | hsuffix
      · exact hkept _ hmem hnil
      · exact (hfresh _ (List.mem_cons_of_mem _ hmem)).2 hsuffix
    · rcases harms a ha with ⟨-, hside⟩ | ⟨-, w, -, hside⟩
      · have hlen := congrArg List.length heq
        rw [hside, sidePayload, length_nodePayload_emptyNode,
          length_stemPayload (length_stemBytes vs) length_of_mem_stemBytes] at hlen
        omega
      · rw [hside] at heq
        obtain ⟨-, hvs⟩ := stemPayload_inj (length_stemBytes _) (length_stemBytes _)
          length_of_mem_stemBytes length_of_mem_stemBytes heq
        rw [← stemBytes_injective hvs] at hx
        exact hx (List.mem_cons_of_mem _ (List.mem_singleton.mpr
          (getElem_filledStem x 0).symm))
  · rw [← hpath, List.map_map, List.map_map]
    exact List.map_congr_left fun a ha => hH a ha
  · intro H' hH'
    simp only [List.forall_mem_map] at hH' ⊢
    refine ⟨?_, fun a ha => ?_⟩
    · rw [sideDigests, List.map_map, ← hpath]
      refine List.map_congr_left fun a ha => Prod.ext ?_ rfl
      exact ((harms a ha).hash H').1.trans ((hH' a ha).trans (hH a ha))
    · rw [((harms a ha).hash H').2]
      exact List.cons_subset.mpr ⟨List.mem_map_of_mem ha, List.nil_subset _⟩

end Pbt
