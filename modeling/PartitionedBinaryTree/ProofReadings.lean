/-
# What an accepted proof can be read as

`verify_proof` checks no width.  The siblings of a digest's width make a trunk from the root
down; where it ends, one string is hashed (`spelled`), which an attacker may have cut in
another way than the tree that hashes it.  Every tree that hashes to the root has a node with
this string as its payload at the end of the trunk (`exists_spine_of_climb`): perhaps a stem with
another prefix and other values (`MerkleProof.ReadsAsStem`), or an internal node
(`MerkleProof.ReadsAsNode`).

A proof confirms a value at a key when every such reading does (`MerkleProof.Confirms`), and
then an accepted proof is right about it in every reachable tree (`attests_of_confirms`).  With
the widths that the formats enforce a proof has one reading (`confirms_of_widths`).
-/
import PartitionedBinaryTree.Lib.Spine
import PartitionedBinaryTree.ProofSoundness

namespace Pbt

open Node BitTrie

variable {H : HashFunction}

/-! ## The trunk of a path -/

/-- The levels of a proof from the root down. -/
def MerkleProof.route (p : MerkleProof) : List (Bytes × ℤ) := p.pathSiblings.zip p.pathBits

/-- The walk back up goes through the same levels. -/
theorem MerkleProof.levels_eq {p : MerkleProof} (h : p.pathSiblings.length = p.pathBits.length) :
    p.levels = p.route.reverse := by
  rw [MerkleProof.levels, MerkleProof.route, List.zip_eq_zipWith, List.zip_eq_zipWith,
    List.reverse_zipWith h]

/-- The levels above the first sibling that is not a digest wide, with the sides they take. -/
def trunk : List (Bytes × ℤ) → List (Digest × Bool)
  | [] => []
  | (σ, b) :: route => if h : σ.length = 32 then (⟨σ, h⟩, b != 0) :: trunk route else []

/-- The string that is hashed where the trunk ends: the string of the stem, or the
first sibling of another width next to the digest `c` of the level below. -/
def spelled (leaf : Bytes) : List (Bytes × ℤ) → Digest → Bytes
  | [], _ => leaf
  | (σ, b) :: route, c => if σ.length = 32 then spelled leaf route c else stepPayload c σ b

theorem trunk_cons_of_length {σ : Bytes} (h : σ.length = 32) (b : ℤ) (route : List (Bytes × ℤ)) :
    trunk ((σ, b) :: route) = (⟨σ, h⟩, b != 0) :: trunk route := by
  rw [trunk, dif_pos h]

theorem trunk_cons_of_ne {σ : Bytes} (h : σ.length ≠ 32) (b : ℤ) (route : List (Bytes × ℤ)) :
    trunk ((σ, b) :: route) = [] := by
  rw [trunk, dif_neg h]

/-- A path is its trunk, or goes on below a sibling that is not a digest wide. -/
theorem route_cases (route : List (Bytes × ℤ)) :
    ((trunk route).length = route.length ∧ ∀ leaf c, spelled leaf route c = leaf) ∨
    ∃ upper σ b lower, route = upper ++ (σ, b) :: lower ∧ σ.length ≠ 32 ∧
      trunk route = trunk upper ∧
      (trunk upper).length = upper.length ∧ ∀ leaf c, spelled leaf route c = stepPayload c σ b := by
  induction route with
  | nil => exact Or.inl ⟨rfl, fun _ _ => rfl⟩
  | cons x route ih =>
      obtain ⟨σ, b⟩ := x
      by_cases hσ : σ.length = 32
      · have hspelled : ∀ leaf c, spelled leaf ((σ, b) :: route) c = spelled leaf route c :=
          fun leaf c => by rw [spelled, if_pos hσ]
        rcases ih with ⟨hlen, hleaf⟩ | ⟨upper, σ', b', lower, rfl, hσ', htrunk, hlen, hstep⟩
        · refine Or.inl ⟨by rw [trunk_cons_of_length hσ, List.length_cons, List.length_cons, hlen],
            fun leaf c => ?_⟩
          rw [hspelled, hleaf]
        · refine Or.inr ⟨(σ, b) :: upper, σ', b', lower, rfl, hσ', ?_, ?_, fun leaf c => ?_⟩
          · rw [trunk_cons_of_length hσ, trunk_cons_of_length hσ, htrunk]
          · rw [trunk_cons_of_length hσ, List.length_cons, List.length_cons, hlen]
          · rw [hspelled, hstep]
      · refine Or.inr ⟨[], σ, b, route, rfl, hσ, trunk_cons_of_ne hσ b route, rfl, fun leaf c => ?_⟩
        rw [spelled, if_neg hσ]

/-! ## Trees along a path -/

/-- The digests beside a path. -/
def sideDigests (H : HashFunction) (levels : List (Node × Bool)) : List (Digest × Bool) :=
  levels.map fun x => ((nodeHash H x.1).val, x.2)

/-- Hashing a tree hashes what the end of a path hashes. -/
theorem queries_base_subset (base : Node) (levels : List (Node × Bool)) :
    (nodeHash H base).queries ⊆ (nodeHash H (spine base levels)).queries := by
  induction levels with
  | nil => exact List.Subset.refl _
  | cons x levels ih =>
      obtain ⟨side, b⟩ := x
      cases b
      · exact List.Subset.trans ih (queries_left_subset _ _)
      · exact List.Subset.trans ih (queries_right_subset _ _)

/-- Hashing a tree hashes what the sides of a path hash. -/
theorem queries_side_subset (base : Node) {levels : List (Node × Bool)} {x : Node × Bool}
    (hx : x ∈ levels) :
    (nodeHash H x.1).queries ⊆ (nodeHash H (spine base levels)).queries := by
  induction levels with
  | nil => cases hx
  | cons y levels ih =>
      obtain ⟨side, b⟩ := y
      rcases List.mem_cons.mp hx with rfl | hlevels
      · cases b
        · exact queries_right_subset _ _
        · exact queries_left_subset _ _
      · cases b
        · exact List.Subset.trans (ih hlevels) (queries_left_subset _ _)
        · exact List.Subset.trans (ih hlevels) (queries_right_subset _ _)

/-- A node with a payload of 64 bytes is internal. -/
theorem exists_internalNode {t : Node} {c d : Digest} (h : c.val ++ d.val = nodePayload H t) :
    ∃ l r, t = internalNode l r ∧ c = (nodeHash H l).val ∧ d = (nodeHash H r).val := by
  have hlen := congrArg List.length h
  rw [List.length_append, BytesN.length_val, BytesN.length_val] at hlen
  cases t with
  | empty => cases hlen
  | leaf s vs =>
      rw [length_nodePayload_stemNode] at hlen
      omega
  | node l r =>
      obtain ⟨hl, hr⟩ := digest_append_inj h
      exact ⟨l, r, rfl, hl, hr⟩

/-- **A climb that reaches the hash of a tree, read from the top.**  The trunk is a path of
the tree, beside which the subtrees hash to the siblings, and where it ends the payload is what
the proof spells there.  The induction is on the path from its top end. -/
theorem exists_spine_of_climb (leaf : Bytes) (route : List (Bytes × ℤ)) {t : Node}
    (h : (climb H (H leaf) route.reverse).val = (nodeHash H t).val) :
    (∃ base levels c, t = spine base levels ∧ sideDigests H levels = trunk route ∧
      nodePayload H base = spelled leaf route c) ∨
    Collision H ((nodeHash H t).queries ++ (leaf :: (climb H (H leaf) route.reverse).queries)) := by
  induction route generalizing t with
  | nil =>
      rw [List.reverse_nil, climb, Logged.val_pure, val_nodeHash] at h
      obtain heq | hcol := eq_or_collision (List.mem_append_right _ List.mem_cons_self)
        (List.mem_append_left _ (nodePayload_mem_queries t)) h
      · exact Or.inl ⟨t, [], emptyValue, rfl, rfl, heq.symm⟩
      · exact Or.inr hcol
  | cons x route ih =>
      obtain ⟨σ, b⟩ := x
      rw [List.reverse_cons] at h ⊢
      obtain ⟨hval, hqueries⟩ := climb_concat (H := H) (H leaf) route.reverse σ b
      rw [hval] at h
      rw [hqueries]
      set c := (climb H (H leaf) route.reverse).val with hc
      -- the last level hashes the payload of `t`
      rw [climbStep_eq] at h ⊢
      rw [val_treeHash, val_nodeHash] at h
      rw [queries_treeHash]
      obtain heq | hcol := eq_or_collision
        (List.mem_append_right _ (List.mem_cons_of_mem _ (List.mem_append_right _
          List.mem_cons_self)))
        (List.mem_append_left _ (nodePayload_mem_queries t)) h
      · by_cases hσ : σ.length = 32
        · -- the level is a node of the tree, and the climb below it ends at a child
          rw [stepPayload] at heq
          by_cases hb : b = 0
          · rw [if_pos hb] at heq
            obtain ⟨l, r, rfl, hl, hr⟩ := exists_internalNode (d := ⟨σ, hσ⟩) heq
            obtain ⟨base, levels, c', rfl, hsides, hbase⟩ | hcol := ih hl
            · refine Or.inl ⟨base, (r, false) :: levels, c', rfl, ?_, ?_⟩
              · rw [trunk_cons_of_length hσ, ← hsides, hr, hb]
                rfl
              · rw [spelled, if_pos hσ, hbase]
            · exact Or.inr (hcol.mono_append (queries_left_subset l r)
                (List.cons_subset_cons _ (List.subset_append_left _ _)))
          · rw [if_neg hb] at heq
            obtain ⟨l, r, rfl, hl, hr⟩ := exists_internalNode (c := ⟨σ, hσ⟩) heq
            obtain ⟨base, levels, c', rfl, hsides, hbase⟩ | hcol := ih hr
            · refine Or.inl ⟨base, (l, true) :: levels, c', rfl, ?_, ?_⟩
              · rw [trunk_cons_of_length hσ, ← hsides, hl, bne_iff_ne.mpr hb]
                rfl
              · rw [spelled, if_pos hσ, hbase]
            · exact Or.inr (hcol.mono_append (queries_right_subset l r)
                (List.cons_subset_cons _ (List.subset_append_left _ _)))
        · refine Or.inl ⟨t, [], c, rfl, ?_, ?_⟩
          · rw [trunk_cons_of_ne hσ]
            rfl
          · rw [spelled, if_neg hσ, heq]
      · exact Or.inr hcol

/-! ## Readings -/

/-- Beside the path a digest stands once only, unless it is `e`. -/
def DistinctSides (e : Option Digest) (path : List (Digest × Bool)) : Prop :=
  ((path.map Prod.fst).filter (some · ≠ e)).Nodup

/-- A tree whose empty subtrees hash to `e` (`none` if it has none) has room for a stem with
prefix `s` at the end of the path, and for subtrees with the digests beside it. -/
structure Places (path : List (Digest × Bool)) (e : Option Digest) (s : Bytes) : Prop where
  nonempty : s ≠ []
  follows : Follows pathBit s (path.map Prod.snd) 0
  distinct : DistinctSides e path
  last : ∀ x ∈ path.getLast?, some x.1 ≠ e

/-- A tree with this stem at the end of the path holds `value` at `key`, whatever it has beside
the path: the stem does, or there is no stem for the key, as the key leaves the path
beside an empty subtree if it leaves it at all. -/
def StemAgrees (path : List (Digest × Bool)) (e : Option Digest) (s : Bytes) (vs : StemValues)
    (key value : Bytes) : Prop :=
  ∃ s' i, splitKey key = .ok (s', i) ∧
    if s' = s then value = (getElem vs i i.isLt).val
    else value = emptyValue.val ∧ Off pathBit (some · = e) s' path 0

/-- A tree with an internal node at the end of the path, over subtrees with the digests `a` and
`b`, holds `value` at `key`, whatever these are: it has no stem for the key. -/
def NodeAgrees (path : List (Digest × Bool)) (e : Option Digest) (a b : Digest)
    (key value : Bytes) : Prop :=
  ∃ s i, splitKey key = .ok (s, i) ∧ value = emptyValue.val ∧
    Off pathBit (some · = e) s (path ++ [(a, true)]) 0 ∧
    Off pathBit (some · = e) s (path ++ [(b, false)]) 0

namespace MerkleProof

/-- The checks that `verify_proof` makes on the fields of a proof. -/
structure PassesChecks (p : MerkleProof) : Prop where
  slot : ∃ s i, splitKey p.key = .ok (s, i) ∧ p.stemValues[i.val]? = some p.value
  count : p.stemValues.length = stemSubtreeWidth
  lengths : p.pathSiblings.length = p.pathBits.length

/-- The string that `verify_proof` hashes first, for the stem. -/
def stemString (p : MerkleProof) : Bytes := stemPayload p.key.dropLast p.stemValues

/-- **The proof read as the proof of a stem**: what is spelled is the payload of the stem. -/
structure ReadsAsStem (p : MerkleProof) (e : Option Digest) (s : Bytes) (vs : StemValues) :
    Prop where
  places : Places (trunk p.route) e s
  payload : ∃ c, stemPayload s (stemBytes vs) = spelled p.stemString p.route c

/-- **The proof read as ending at an internal node**: what is spelled are two digests. -/
structure ReadsAsNode (p : MerkleProof) (e : Option Digest) (a b : Digest) : Prop where
  payload : ∃ c, a.val ++ b.val = spelled p.stemString p.route c
  left : DistinctSides e (trunk p.route ++ [(a, true)])
  right : DistinctSides e (trunk p.route ++ [(b, false)])
  ne : a ≠ b

/-- **The proof confirms `value` at `key`**, if it passes the checks: in each reading of it the
tree holds the value. -/
def Confirms (p : MerkleProof) (key value : Bytes) : Prop :=
  p.PassesChecks →
    (∀ e s vs, p.ReadsAsStem e s vs → StemAgrees (trunk p.route) e s vs key value) ∧
    ∀ e a b, p.ReadsAsNode e a b → NodeAgrees (trunk p.route) e a b key value

end MerkleProof

/-! ## The tree is a reading -/

/-- The digest of the empty subtrees of a tree, if it hashes any. -/
def emptyDigest (H : HashFunction) (t : Node) : Option Digest :=
  if (nodeHash H t).queries.any List.isEmpty then some (H []) else none

theorem any_isEmpty_iff {qs : List Bytes} : qs.any List.isEmpty = true ↔ [] ∈ qs := by
  rw [List.any_eq_true]
  constructor
  · rintro ⟨x, hx, hempty⟩
    rwa [List.isEmpty_iff.mp hempty] at hx
  · exact fun h => ⟨[], h, rfl⟩

/-- An empty side has this digest. -/
theorem emptyDigest_of_mem {t : Node} (h : [] ∈ (nodeHash H t).queries) :
    emptyDigest H t = some (H []) := if_pos (any_isEmpty_iff.mpr h)

/-- Only empty trees hash the empty string for themselves. -/
theorem eq_emptyNode_of_nodePayload {t : Node} (h : nodePayload H t = []) : t = emptyNode := by
  have hlen := congrArg List.length h
  cases t with
  | empty => rfl
  | leaf s vs =>
      rw [length_nodePayload_stemNode, List.length_nil] at hlen
      omega
  | node l r =>
      rw [length_nodePayload_internalNode] at hlen
      cases hlen

section

variable {base : Node} {levels : List (Node × Bool)}

/-- A side with the digest of empty subtrees is empty. -/
theorem side_eq_emptyNode (hcol : ¬ Collision H (nodeHash H (spine base levels)).queries)
    {x : Node × Bool} (hx : x ∈ levels)
    (h : some (nodeHash H x.1).val = emptyDigest H (spine base levels)) : x.1 = emptyNode := by
  unfold emptyDigest at h
  split_ifs at h with hmem
  · rw [val_nodeHash, Option.some.injEq] at h
    have hside := queries_side_subset base hx (nodePayload_mem_queries (H := H) x.1)
    exact eq_emptyNode_of_nodePayload
      ((eq_or_collision hside (any_isEmpty_iff.mp hmem) h).resolve_right hcol)

/-- A side that is empty has the digest of empty subtrees. -/
theorem emptyDigest_of_side {x : Node × Bool} (hx : x ∈ levels) (h : x.1 = emptyNode) :
    some (nodeHash H x.1).val = emptyDigest H (spine base levels) := by
  have hmem := queries_side_subset base hx (nodePayload_mem_queries (H := H) x.1)
  rw [h] at hmem ⊢
  exact (emptyDigest_of_mem hmem).symm

/-- Other digests stand beside a path once: two sides with one digest are one subtree, which has
no place on both. -/
theorem distinctSides_spine (hwf : WellFormed (spine base levels))
    (hcol : ¬ Collision H (nodeHash H (spine base levels)).queries) :
    DistinctSides (emptyDigest H (spine base levels)) (sideDigests H levels) := by
  rw [DistinctSides, List.Nodup, List.pairwise_filter, sideDigests, List.map_map,
    List.pairwise_map]
  refine (hwf.placed.disjoint_sides).imp_of_mem fun {x y} hx hy hdisjoint hne _ heq => ?_
  rcases eq_or_collision_of_nodeHash_eq x.1 y.1 heq with hsame | hcol'
  · -- a subtree that has no leaf in common with itself is empty
    rw [hsame] at hdisjoint
    have hleaves : y.1.leaves = [] := List.eq_nil_iff_forall_not_mem.mpr fun p hp => hdisjoint hp hp
    have hempty := (hwf.compact.side y hy).eq_empty hleaves
    exact of_decide_eq_true hne (emptyDigest_of_side hx (hsame.trans hempty))
  · exact hcol (hcol'.mono (List.append_subset.mpr
      ⟨queries_side_subset base hx, queries_side_subset base hy⟩))

/-- What stands beside the digest of empty subtrees is empty. -/
theorem off_emptyNode {k : Bytes} (hcol : ¬ Collision H (nodeHash H (spine base levels)).queries)
    (h : Off pathBit (some · = emptyDigest H (spine base levels)) k (sideDigests H levels) 0) :
    Off pathBit (· = emptyNode) k levels 0 :=
  Off.of_map (P := (· = emptyNode)) (f := fun side => (nodeHash H side).val) h
    fun _ hx => side_eq_emptyNode hcol hx

/-- A key without a stem has the empty value. -/
theorem holds_of_absent {t : Node} {key s : Bytes} {i : Fin stemSubtreeWidth}
    (hkey : splitKey key = .ok (s, i)) (hnone : storedStem t s = none) :
    Holds t key emptyValue.val := by
  obtain ⟨rfl, hlen⟩ := splitKey_eq_ok_iff.mp hkey
  rw [Holds, get_joinKey (two_le_length_joinKey_iff.mp hlen), hnone, Option.getD_none]
  exact congrArg (fun v => Except.ok v.val) (getElem_emptyStem i i.isLt)

/-- The prefix of a stem at the end of a path has its place there. -/
theorem places_spine {s : Bytes} {vs : StemValues}
    (ht : Reachable (spine (stemNode s vs) levels))
    (hcol : ¬ Collision H (nodeHash H (spine (stemNode s vs) levels)).queries) :
    Places (sideDigests H levels) (emptyDigest H (spine (stemNode s vs) levels)) s where
  nonempty := ht.prefix_ne_nil (s, vs) (leaves_base_subset _ _ List.mem_cons_self)
  follows := by
    rw [sideDigests, List.map_map]
    exact ht.wellFormed.placed.follows (s, vs) List.mem_cons_self
  distinct := distinctSides_spine ht.wellFormed hcol
  last := by
    rw [sideDigests, List.getLast?_map]
    intro x hx heq
    obtain ⟨y, hy, rfl⟩ := Option.mem_map.mp hx
    exact ht.wellFormed.compact.last_ne_empty y hy
      (side_eq_emptyNode hcol (List.mem_of_getLast? hy) heq)

/-- A tree whose stem at the end of a path agrees holds the value. -/
theorem holds_of_stemAgrees {s key value : Bytes} {vs : StemValues}
    (ht : Reachable (spine (stemNode s vs) levels))
    (hcol : ¬ Collision H (nodeHash H (spine (stemNode s vs) levels)).queries)
    (h : StemAgrees (sideDigests H levels) (emptyDigest H (spine (stemNode s vs) levels)) s vs
      key value) :
    Holds (spine (stemNode s vs) levels) key value := by
  obtain ⟨s', i, hkey, hagrees⟩ := h
  split_ifs at hagrees with hs
  · rw [hagrees]
    refine holds_of_storedStem hkey (ht.wellFormed.storedStem_eq_some_iff.mpr ?_)
    rw [hs]
    exact leaves_base_subset _ _ List.mem_cons_self
  · obtain ⟨rfl, hoff⟩ := hagrees
    exact holds_of_absent hkey
      (lookup_spine_of_off (off_emptyNode hcol hoff) fun _ => if_neg (Ne.symm hs))

end

section

variable {l r : Node} {levels : List (Node × Bool)}

/-- An internal node at the end of a path, as one more level: the path goes on to the left. -/
theorem spine_left (l r : Node) (levels : List (Node × Bool)) :
    spine l (levels ++ [(r, false)]) = spine (internalNode l r) levels :=
  spine_concat l r false levels

/-- The path goes on to the right. -/
theorem spine_right (l r : Node) (levels : List (Node × Bool)) :
    spine r (levels ++ [(l, true)]) = spine (internalNode l r) levels :=
  spine_concat r l true levels

/-- The children of an internal node have different digests. -/
theorem children_ne (hwf : WellFormed (spine (internalNode l r) levels))
    (hcol : ¬ Collision H (nodeHash H (spine (internalNode l r) levels)).queries) :
    (nodeHash H l).val ≠ (nodeHash H r).val := by
  intro heq
  rcases eq_or_collision_of_nodeHash_eq l r heq with rfl | hcol'
  · -- no leaf lies on both sides, so there is none
    obtain ⟨hleft, hright, -⟩ := hwf.placed.base
    have hleaves : l.leaves = [] := List.eq_nil_iff_forall_not_mem.mpr fun p hp =>
      Bool.false_ne_true ((hleft p hp).symm.trans (hright p hp))
    have htwo := hwf.compact.base.1
    rw [leaves_node, hleaves] at htwo
    cases htwo
  · refine hcol (hcol'.mono (List.append_subset.mpr ⟨?_, ?_⟩))
    · exact List.Subset.trans (queries_left_subset l r) (queries_base_subset _ levels)
    · exact List.Subset.trans (queries_right_subset l r) (queries_base_subset _ levels)

/-- Each of these stands beside the path to the other one. -/
theorem distinctSides_children (hwf : WellFormed (spine (internalNode l r) levels))
    (hcol : ¬ Collision H (nodeHash H (spine (internalNode l r) levels)).queries) :
    DistinctSides (emptyDigest H (spine (internalNode l r) levels))
        (sideDigests H levels ++ [((nodeHash H l).val, true)]) ∧
      DistinctSides (emptyDigest H (spine (internalNode l r) levels))
        (sideDigests H levels ++ [((nodeHash H r).val, false)]) := by
  constructor
  · rw [← spine_right] at hwf hcol ⊢
    have hdistinct := distinctSides_spine hwf hcol
    rwa [sideDigests, List.map_append] at hdistinct
  · rw [← spine_left] at hwf hcol ⊢
    have hdistinct := distinctSides_spine hwf hcol
    rwa [sideDigests, List.map_append] at hdistinct

/-- A tree whose internal node at the end of a path agrees holds the value. -/
theorem holds_of_nodeAgrees {key value : Bytes}
    (hcol : ¬ Collision H (nodeHash H (spine (internalNode l r) levels)).queries)
    (h : NodeAgrees (sideDigests H levels) (emptyDigest H (spine (internalNode l r) levels))
      (nodeHash H l).val (nodeHash H r).val key value) :
    Holds (spine (internalNode l r) levels) key value := by
  obtain ⟨s, i, hkey, rfl, hleft, hright⟩ := h
  have hcolLeft := hcol
  have hcolRight := hcol
  rw [← spine_right] at hcolLeft hleft
  rw [← spine_left] at hcolRight hright
  obtain ⟨hoff, hl⟩ := off_concat_iff.mp
    (off_emptyNode hcolLeft (by rwa [sideDigests, List.map_append]))
  obtain ⟨-, hr⟩ := off_concat_iff.mp
    (off_emptyNode hcolRight (by rwa [sideDigests, List.map_append]))
  refine holds_of_absent hkey (lookup_spine_of_off hoff fun hfollows => ?_)
  rw [lookup]
  split_ifs with hbit
  · rcases hr hfollows with hfalse | hempty
    · rw [hbit] at hfalse
      cases hfalse
    · rw [hempty]
      rfl
  · rcases hl hfollows with htrue | hempty
    · exact absurd htrue hbit
    · rw [hempty]
      rfl

end

/-! ## Soundness -/

/-- Nothing empty is spelled but an empty leaf. -/
theorem leaf_eq_nil_of_spelled (leaf : Bytes) (route : List (Bytes × ℤ)) (c : Digest) :
    spelled leaf route c = [] → leaf = [] := by
  induction route with
  | nil => exact id
  | cons x route ih =>
      obtain ⟨σ, b⟩ := x
      rw [spelled]
      split_ifs
      · exact ih
      · intro h
        have hlen := congrArg List.length h
        rw [length_stepPayload, List.length_nil] at hlen
        omega

/-- **A value that the proof confirms is held**: if a proof is accepted against the root of a
reachable tree, the tree holds at a key what the proof confirms there, unless two strings hashed
for the root or the proof collide. -/
theorem attests_of_confirms {t : Node} (ht : Reachable t) {p : MerkleProof} {key value : Bytes}
    (hconfirms : p.Confirms key value) : Attests H t p key value := by
  intro w h hacc
  obtain ⟨s, i, hkey, hn, hslot, hlen, hroot, hqueries⟩ := verifyProof_accepts h hacc
  obtain ⟨hstems, hnodes⟩ := hconfirms ⟨⟨s, i, hkey, hslot⟩, hn, hlen⟩
  have hstring : stemPayload s p.stemValues = p.stemString := by
    rw [MerkleProof.stemString, (splitKey_eq_ok_iff.mp hkey).1, dropLast_joinKey]
  by_cases hcol : Collision H ((rootHash H t).queries ++ w.queries)
  · exact Or.inr hcol
  left
  rw [hqueries] at hcol
  rw [hstring, MerkleProof.levels_eq hlen] at hroot hcol
  obtain ⟨base, levels, c, rfl, hsides, hbase⟩ :=
    (exists_spine_of_climb _ _ (Subtype.ext hroot)).resolve_right hcol
  have hcolTree : ¬ Collision H (nodeHash H (spine base levels)).queries :=
    fun hcol' => hcol (hcol'.mono (List.subset_append_left _ _))
  rw [← hsides] at hstems hnodes
  cases base with
  | empty =>
      -- the string of a stem is not empty
      have hnil := leaf_eq_nil_of_spelled _ _ _ hbase.symm
      cases hnil
  | node l r =>
      have hwf := ht.wellFormed
      obtain ⟨hleft, hright⟩ := distinctSides_children hwf hcolTree
      rw [hsides] at hleft hright
      exact holds_of_nodeAgrees hcolTree
        (hnodes _ _ _ ⟨⟨c, hbase⟩, hleft, hright, children_ne hwf hcolTree⟩)
  | leaf s' vs =>
      refine holds_of_stemAgrees ht hcolTree (hstems _ s' vs ⟨?_, c, hbase⟩)
      rw [← hsides]
      exact places_spine ht hcolTree

/-- **The widths of the formats leave one reading**: with values of 32 bytes and siblings below
8172 bytes a proof confirms its value. -/
theorem confirms_of_widths {p : MerkleProof} (hvalues : ∀ v ∈ p.stemValues, v.length = 32)
    (hsiblings : ∀ σ ∈ p.pathSiblings, σ.length < 8172) : p.Confirms p.key p.value := by
  rintro ⟨⟨s₀, i, hkey, hslot⟩, hcount, hlengths⟩
  have hprefix : p.key.dropLast = s₀ := by
    rw [(splitKey_eq_ok_iff.mp hkey).1, dropLast_joinKey]
  have hlong : p.stemString.length = 8203 + s₀.length := by
    rw [MerkleProof.stemString, length_stemPayload hcount hvalues, hprefix]
  refine ⟨fun e s vs hreads => ?_, fun e a b hreads => ?_⟩
  · obtain ⟨hplaces, c, hpayload⟩ := hreads
    rcases route_cases p.route with ⟨-, hleaf⟩ | ⟨upper, σ, b, lower, hroute, -, -, -, hstep⟩
    · rw [hleaf, MerkleProof.stemString, hprefix] at hpayload
      obtain ⟨rfl, hvs⟩ := stemPayload_inj (length_stemBytes vs) hcount length_of_mem_stemBytes
        hvalues hpayload
      refine ⟨s, i, hkey, ?_⟩
      rw [if_pos rfl]
      rw [← hvs, getElem?_stemBytes] at hslot
      exact (Option.some.inj hslot).symm
    · -- the sibling would have to be as long as a stem with a prefix
      have hmem : (σ, b) ∈ p.route := by
        rw [hroute]
        exact List.mem_append_right _ List.mem_cons_self
      have hσ := hsiblings σ (List.of_mem_zip hmem).1
      have hlen := congrArg List.length hpayload
      rw [hstep, length_stepPayload,
        length_stemPayload (length_stemBytes vs) length_of_mem_stemBytes] at hlen
      have hne := List.length_pos_iff.mpr hplaces.nonempty
      omega
  · obtain ⟨c, hpayload⟩ := hreads.payload
    have hlen := congrArg List.length hpayload
    rw [List.length_append, BytesN.length_val, BytesN.length_val] at hlen
    rcases route_cases p.route with ⟨-, hleaf⟩ | ⟨upper, σ, b', lower, -, hσ, -, -, hstep⟩
    · rw [hleaf, hlong] at hlen
      omega
    · rw [hstep, length_stepPayload] at hlen
      omega

end Pbt
