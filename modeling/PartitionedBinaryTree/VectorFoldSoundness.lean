/-
# Soundness of VectorFold proofs

A proof that is accepted against the root hash climbs from its stem to the root.
Read from the top, each level of the climb is a node of the tree (`climb_walkTo`),
down to the node where the path ends (`walkTo`), or to a leaf below which the path
goes on.

In the Poseidon2 mode the lengths of what is hashed tell the nodes apart, so that the
path ends at the stem of the proof (`stem_mem_of_climb_poseidon2`).  In the Gemini mode
the compressor is applied to two digests for every node: a stem is hashed from the
first 32 bytes of its prefix, and nothing tells the hash of a stem from that of other
nodes.  `stem_of_climb_gemini` therefore asks where the path ends, and
`vectorFoldSoundAt_of_end` asks it of the proofs that pass the checks that need no hash.
-/
import PartitionedBinaryTree.VectorFold

namespace PbtRs

open Pbt (StemValues Value Digest stemSubtreeWidth emptyValue joinKey storedStem)

/-! ## What a level hashes -/

/-- What the hash of a pair is applied to. -/
def pairQuery : HashFunction → Digest → Digest → Query
  | .blake3, left, right => .blake3 (left.val ++ right.val)
  | .poseidon2, left, right => .blake3 (poseidon2Domain ++ left.val ++ right.val)
  | .gemini, left, right => .compress left right

/-- A pair is read off it. -/
theorem pairQuery_inj {mode : HashFunction} {a b c d : Digest}
    (h : pairQuery mode a b = pairQuery mode c d) : a = c ∧ b = d := by
  cases mode with
  | blake3 => exact Pbt.digest_append_inj (Query.blake3.inj h)
  | poseidon2 =>
      have hpair := Query.blake3.inj h
      rw [List.append_assoc, List.append_assoc] at hpair
      exact Pbt.digest_append_inj (List.append_cancel_left hpair)
  | gemini => exact Query.compress.inj h

section

variable {primitives : Primitives}

theorem treeHash_eq (left right : Digest) (mode : HashFunction) :
    treeHash primitives left right mode =
      .query primitives.answer (pairQuery mode left right) := by
  cases mode <;> rfl

/-- What a level of a path is hashed from, by its bit. -/
def levelQuery (mode : HashFunction) (current sibling : Digest) (bit : UInt8) : Query :=
  if bit = 0 then pairQuery mode current sibling else pairQuery mode sibling current

theorem levelHash_eq (mode : HashFunction) (current sibling : Digest) (bit : UInt8) :
    levelHash primitives mode current sibling bit =
      .query primitives.answer (levelQuery mode current sibling bit) := by
  unfold levelHash levelQuery
  split_ifs
  · exact treeHash_eq _ _ mode
  · exact treeHash_eq _ _ mode

/-- The digests on the way up, with what they are hashed from. -/
def climbLog (primitives : Primitives) (mode : HashFunction) :
    Digest → List (Digest × UInt8) → Logged Query Digest
  | current, [] => pure current
  | current, (sibling, bit) :: path => do
      let current ← levelHash primitives mode current sibling bit
      climbLog primitives mode current path

variable (primitives) in
/-- The last level of a climb. -/
theorem climbLog_concat (mode : HashFunction) (c : Digest) (path : List (Digest × UInt8))
    (σ : Digest) (bit : UInt8) :
    (climbLog primitives mode c (path ++ [(σ, bit)])).val =
      primitives.answer (levelQuery mode (climbLog primitives mode c path).val σ bit) ∧
    (climbLog primitives mode c (path ++ [(σ, bit)])).queries =
      (climbLog primitives mode c path).queries ++
        [levelQuery mode (climbLog primitives mode c path).val σ bit] := by
  induction path generalizing c with
  | nil => simp [climbLog, levelHash_eq]
  | cons x path ih =>
      obtain ⟨σ', bit'⟩ := x
      simp only [List.cons_append, climbLog, Logged.val_bind, Logged.queries_bind]
      exact ⟨(ih _).1, by rw [(ih _).2, List.append_assoc]⟩

/-! ## An accepted proof -/

/-- The sibling and the bit in a fold step. -/
def FoldStep.level (step : FoldStep) : Digest × UInt8 :=
  (.copyFrom 32 (slice step.proofData 1 32), step.proofData.headD 0)

/-- The levels of a proof, deepest first. -/
def VectorFoldProof.path (proof : VectorFoldProof) : List (Digest × UInt8) :=
  proof.pathFolds.map FoldStep.level

/-- The bits of a proof, from the root downward. -/
def VectorFoldProof.bits (proof : VectorFoldProof) : List UInt8 :=
  (proof.path.map Prod.snd).reverse

/-- Fold steps that the verifier passes are a climb. -/
theorem checkFolds_eq_some {mode : HashFunction} {current root : Digest} {steps : List FoldStep}
    (h : (checkFolds primitives mode current steps).val = some root) :
    (climbLog primitives mode current (steps.map FoldStep.level)).val = root ∧
      (climbLog primitives mode current (steps.map FoldStep.level)).queries =
        (checkFolds primitives mode current steps).queries := by
  induction steps generalizing current with
  | nil => exact ⟨Option.some.inj h, rfl⟩
  | cons step steps ih =>
      rw [checkFolds] at h ⊢
      dsimp only at h ⊢
      split_ifs at h ⊢ with hfactor hlen hbit
      · rw [Logged.val_bind] at h
        split_ifs at h with hcommit
        obtain ⟨hval, hqueries⟩ := ih h
        refine ⟨hval, ?_⟩
        rw [Logged.queries_bind, if_neg hcommit, ← hqueries]
        rfl

/-- **An accepted proof**: its mode is one of the two, its key splits, the value is that of
the slot, and the climb from the stem's hash ends at the root of the proof. -/
theorem verifyVectorFoldProof_accepts {proof : VectorFoldProof}
    (h : (verifyVectorFoldProof primitives proof).val = true) :
    proof.mode ≠ .blake3 ∧ ∃ s i, proof.key = joinKey s i ∧ s ≠ [] ∧
      getElem proof.stemValues i i.isLt = proof.value ∧
      (climbLog primitives proof.mode.asHashFunction
        (hashStemMode primitives s proof.stemValues proof.mode.asHashFunction).val
        proof.path).val = proof.finalRoot ∧
      (verifyVectorFoldProof primitives proof).queries =
        (hashStemMode primitives s proof.stemValues proof.mode.asHashFunction).queries ++
        (climbLog primitives proof.mode.asHashFunction
          (hashStemMode primitives s proof.stemValues proof.mode.asHashFunction).val
          proof.path).queries := by
  unfold verifyVectorFoldProof at h ⊢
  by_cases hmode : proof.mode ≠ .geminiHash ∧ proof.mode ≠ .poseidon2
  · rw [if_pos hmode] at h
    cases h
  · rw [if_neg hmode] at h ⊢
    have hne : proof.mode ≠ .blake3 := by
      intro hblake3
      rw [hblake3] at hmode
      exact hmode ⟨by decide, by decide⟩
    by_cases hkey : 2 ≤ proof.key.length
    · obtain ⟨s, i, -, hsplit⟩ := Pbt.exists_splitKey hkey
      have hs : s ≠ [] := Pbt.two_le_length_joinKey_iff.mp (hsplit ▸ hkey)
      rw [hsplit, splitKey_joinKey hs] at h ⊢
      dsimp only at h ⊢
      split_ifs at h ⊢ with hvalue
      rw [Logged.val_bind, Logged.val_bind, Logged.val_pure, beq_iff_eq] at h
      obtain ⟨hval, hqueries⟩ := checkFolds_eq_some h
      refine ⟨hne, s, i, rfl, hs, not_not.mp hvalue, hval, ?_⟩
      rw [Logged.queries_bind, Logged.queries_bind, Logged.queries_pure, List.append_nil,
        ← hqueries]
      rfl
    · rw [splitKey_of_short (not_le.mp hkey)] at h
      cases h

/-! ## The walk of a path -/

/-- The node where a path from the root ends, if it does not go on below a leaf. -/
def walkTo : Pbt.Node → List UInt8 → Option Pbt.Node
  | t, [] => some t
  | .internalNode left right, bit :: bits =>
      if bit = 0 then walkTo left bits else walkTo right bits
  | .emptyNode, _ :: _ => none
  | .stemNode _ _, _ :: _ => none

/-- A part of a tree, by what it holds and what it hashes. -/
structure PartOf (hasher : ModeHasher) (n t : Pbt.Node) : Prop where
  leaves : n.leaves ⊆ t.leaves
  queries : (contentHashLog hasher n).queries ⊆ (contentHashLog hasher t).queries

variable {hasher : ModeHasher}

variable (hasher) in
/-- What an internal node hashes. -/
theorem contentHashLog_internalNode (l r : Pbt.Node) :
    (contentHashLog hasher (.internalNode l r)).val =
      hasher.primitives.answer (pairQuery hasher.mode (contentHashLog hasher l).val
        (contentHashLog hasher r).val) ∧
    (contentHashLog hasher (.internalNode l r)).queries =
      (contentHashLog hasher l).queries ++ ((contentHashLog hasher r).queries ++
        [pairQuery hasher.mode (contentHashLog hasher l).val (contentHashLog hasher r).val]) := by
  simp only [contentHashLog, ModeHasher.hashPair, Logged.val_bind, Logged.queries_bind,
    treeHash_eq, Logged.val_query, Logged.queries_query, and_self]

theorem PartOf.refl (t : Pbt.Node) : PartOf hasher t t := ⟨fun _ => id, fun _ => id⟩

theorem PartOf.trans {n m t : Pbt.Node} (h : PartOf hasher n m) (h' : PartOf hasher m t) :
    PartOf hasher n t :=
  ⟨List.Subset.trans h.leaves h'.leaves, List.Subset.trans h.queries h'.queries⟩

theorem PartOf.left (l r : Pbt.Node) : PartOf hasher l (.internalNode l r) := by
  refine ⟨List.subset_append_left _ _, ?_⟩
  rw [(contentHashLog_internalNode hasher l r).2]
  exact List.subset_append_left _ _

theorem PartOf.right (l r : Pbt.Node) : PartOf hasher r (.internalNode l r) := by
  refine ⟨List.subset_append_right _ _, ?_⟩
  rw [(contentHashLog_internalNode hasher l r).2]
  exact List.subset_append_of_subset_right _ (List.subset_append_left _ _)

/-- What a climb from `c` to the hash of a tree can be, by the bits of its path from the top
and by what it hashes. -/
inductive ClimbsTo (hasher : ModeHasher) (c : Digest) (t : Pbt.Node) (bits : List UInt8)
    (qs : List Query) : Prop
  /-- Two inputs collide. -/
  | collision (h : Collision hasher.primitives.answer ((contentHashLog hasher t).queries ++ qs))
  /-- It starts at the hash of the node where the path ends. -/
  | ends (n : Pbt.Node) (hwalk : walkTo t bits = some n) (hpart : PartOf hasher n t)
      (hhash : c = (contentHashLog hasher n).val)
  /-- The path goes on below a leaf whose hash is that of a pair. -/
  | beyond (hwalk : walkTo t bits = none) (n : Pbt.Node) (hpart : PartOf hasher n t)
      (hleaf : n = .emptyNode ∨ ∃ s vs, n = .stemNode s vs) (a b : Digest)
      (hhash : (contentHashLog hasher n).val = hasher.primitives.answer (pairQuery hasher.mode a b))
      (hmem : pairQuery hasher.mode a b ∈ qs)

/-- A climb to the hash of a child is one to the hash of its parent. -/
theorem ClimbsTo.of_child {c : Digest} {child t : Pbt.Node} {bit : UInt8} {bits : List UInt8}
    {qs qs' : List Query} (h : ClimbsTo hasher c child bits qs) (hchild : PartOf hasher child t)
    (hstep : walkTo t (bit :: bits) = walkTo child bits) (hsub : qs ⊆ qs') :
    ClimbsTo hasher c t (bit :: bits) qs' := by
  cases h with
  | collision h => exact .collision (h.mono_append hchild.queries hsub)
  | ends n hwalk hpart hhash => exact .ends n (hstep.trans hwalk) (hpart.trans hchild) hhash
  | beyond hwalk n hpart hleaf a b hhash hmem =>
      exact .beyond (hstep.trans hwalk) n (hpart.trans hchild) hleaf a b hhash (hsub hmem)

/-- A level is hashed from a pair. -/
theorem exists_pairQuery (mode : HashFunction) (current sibling : Digest) (bit : UInt8) :
    ∃ a b, levelQuery mode current sibling bit = pairQuery mode a b := by
  unfold levelQuery
  split_ifs
  · exact ⟨_, _, rfl⟩
  · exact ⟨_, _, rfl⟩

/-- **A climb to the hash of a tree, read from the top.**  The induction is on the path from
its top end, so that each level of the path is matched with a level of the tree. -/
theorem climb_walkTo (c : Digest) (path : List (Digest × UInt8)) (t : Pbt.Node)
    (h : (climbLog hasher.primitives hasher.mode c path).val = (contentHashLog hasher t).val) :
    ClimbsTo hasher c t (path.map Prod.snd).reverse
      (climbLog hasher.primitives hasher.mode c path).queries := by
  induction path using List.reverseRecOn generalizing t with
  | nil => exact .ends t (by cases t <;> rfl) (PartOf.refl t) h
  | append_singleton path x ih =>
      obtain ⟨σ, bit⟩ := x
      obtain ⟨hval, hqueries⟩ := climbLog_concat hasher.primitives hasher.mode c path σ bit
      rw [hval] at h
      rw [hqueries, List.map_append, List.map_singleton, List.reverse_append,
        List.reverse_singleton, List.singleton_append]
      obtain ⟨a, b, hlevel⟩ := exists_pairQuery hasher.mode
        (climbLog hasher.primitives hasher.mode c path).val σ bit
      have hlast : pairQuery hasher.mode a b ∈
          (climbLog hasher.primitives hasher.mode c path).queries ++ [levelQuery hasher.mode
            (climbLog hasher.primitives hasher.mode c path).val σ bit] := by
        rw [hlevel]
        exact List.mem_append_right _ List.mem_cons_self
      cases t with
      | empty =>
          exact .beyond rfl .emptyNode (PartOf.refl _) (Or.inl rfl) a b (by rw [← h, hlevel]) hlast
      | leaf s vs =>
          exact .beyond rfl (.stemNode s vs) (PartOf.refl _) (Or.inr ⟨s, vs, rfl⟩) a b
            (by rw [← h, hlevel]) hlast
      | node l r =>
          obtain ⟨hnode, hnodeQueries⟩ := contentHashLog_internalNode hasher l r
          rw [hnode] at h
          have hroot : pairQuery hasher.mode (contentHashLog hasher l).val
              (contentHashLog hasher r).val ∈
                (contentHashLog hasher (.internalNode l r)).queries := by
            simp [hnodeQueries]
          obtain heq | hcol := eq_or_collision
            (List.mem_append_right _ (List.mem_append_right _ List.mem_cons_self))
            (List.mem_append_left _ hroot) h
          · -- the level is this node, so the climb below it ends at a child
            unfold levelQuery at heq
            split_ifs at heq with hbit
            · exact (ih l (pairQuery_inj heq).1).of_child (PartOf.left l r) (if_pos hbit)
                (List.subset_append_left _ _)
            · exact (ih r (pairQuery_inj heq).2).of_child (PartOf.right l r) (if_neg hbit)
                (List.subset_append_left _ _)
          · exact .collision hcol

/-! ## The end of a path in the Poseidon2 mode -/

/-- The string that a node is hashed from. -/
def nodeInput (hasher : ModeHasher) : Pbt.Node → Bytes
  | .emptyNode => []
  | .internalNode left right =>
      (contentHashLog hasher left).val.val ++ (contentHashLog hasher right).val.val
  | .stemNode stemPrefix values => Pbt.stemPayload stemPrefix (Pbt.stemBytes values)

/-- In the Poseidon2 mode a node is hashed from its string, behind the domain. -/
theorem contentHashLog_poseidon2 (hmode : hasher.mode = .poseidon2) (n : Pbt.Node) :
    (contentHashLog hasher n).val =
      hasher.primitives.answer (.blake3 (poseidon2Domain ++ nodeInput hasher n)) ∧
    Query.blake3 (poseidon2Domain ++ nodeInput hasher n) ∈ (contentHashLog hasher n).queries := by
  cases n with
  | empty =>
      rw [contentHashLog, hash_of_ne_gemini (by rw [hmode]; decide), hmode]
      exact ⟨rfl, List.mem_cons_self⟩
  | leaf s vs =>
      rw [contentHashLog, hmode]
      exact ⟨rfl, List.mem_cons_self⟩
  | node l r =>
      obtain ⟨hval, hqueries⟩ := contentHashLog_internalNode hasher l r
      rw [hval, hqueries, hmode]
      have hpair :
          pairQuery .poseidon2 (contentHashLog hasher l).val (contentHashLog hasher r).val =
            .blake3 (poseidon2Domain ++ nodeInput hasher (.internalNode l r)) := by
        rw [pairQuery, nodeInput, List.append_assoc]
      rw [hpair]
      exact ⟨rfl, by simp⟩

/-- The lengths of these strings. -/
theorem length_nodeInput_stemNode (s : Bytes) (vs : StemValues) :
    (nodeInput hasher (.stemNode s vs)).length = 8203 + s.length :=
  Pbt.length_stemPayload (Pbt.length_stemBytes vs) Pbt.length_of_mem_stemBytes

theorem length_nodeInput_internalNode (l r : Pbt.Node) :
    (nodeInput hasher (.internalNode l r)).length = 64 := by
  rw [nodeInput, List.length_append, BytesN.length_val, BytesN.length_val]

/-- A node with the string of a stem is this stem. -/
theorem eq_stemNode_of_nodeInput_eq {s : Bytes} {vs : StemValues} {n : Pbt.Node}
    (h : nodeInput hasher (.stemNode s vs) = nodeInput hasher n) : n = .stemNode s vs := by
  have hlen := congrArg List.length h
  rw [length_nodeInput_stemNode] at hlen
  cases n with
  | empty =>
      rw [nodeInput, List.length_nil] at hlen
      omega
  | node l r =>
      rw [length_nodeInput_internalNode] at hlen
      omega
  | leaf s' vs' =>
      obtain ⟨rfl, hvs⟩ := Pbt.stemPayload_inj (Pbt.length_stemBytes vs) (Pbt.length_stemBytes vs')
        Pbt.length_of_mem_stemBytes Pbt.length_of_mem_stemBytes h
      rw [Pbt.stemBytes_injective hvs]

/-- **A climb from a stem in the Poseidon2 mode** starts at this stem of the tree. -/
theorem stem_mem_of_climb_poseidon2 (hmode : hasher.mode = .poseidon2) {s : Bytes}
    {vs : StemValues} {t : Pbt.Node} {bits : List UInt8} {qs : List Query}
    (h : ClimbsTo hasher (hashStemMode hasher.primitives s vs hasher.mode).val t bits qs) :
    (s, vs) ∈ t.leaves ∨ Collision hasher.primitives.answer ((contentHashLog hasher t).queries ++
      ((hashStemMode hasher.primitives s vs hasher.mode).queries ++ qs)) := by
  cases h with
  | collision h =>
      exact Or.inr (h.mono_append (List.Subset.refl _) (List.subset_append_right _ _))
  | ends n _ hpart hhash =>
      obtain ⟨hstem, hstemQuery⟩ := contentHashLog_poseidon2 hmode (.stemNode s vs)
      obtain ⟨hnode, hnodeQuery⟩ := contentHashLog_poseidon2 hmode n
      have hanswer := hstem.symm.trans (hhash.trans hnode)
      obtain heq | hcol := eq_or_collision
        (List.mem_append_right (contentHashLog hasher t).queries
          (List.mem_append_left qs hstemQuery))
        (List.mem_append_left _ (hpart.queries hnodeQuery)) hanswer
      · left
        have hn := eq_stemNode_of_nodeInput_eq (List.append_cancel_left (Query.blake3.inj heq))
        rw [hn] at hpart
        exact hpart.leaves List.mem_cons_self
      · exact Or.inr hcol
  | beyond _ n hpart hleaf a b hhash hmem =>
      obtain ⟨hnode, hnodeQuery⟩ := contentHashLog_poseidon2 hmode n
      obtain heq | hcol := eq_or_collision
        (List.mem_append_left _ (hpart.queries hnodeQuery))
        (List.mem_append_right _ (List.mem_append_right _ hmem)) (hnode.symm.trans hhash)
      · -- a pair has 64 bytes, an empty node none and a stem more than 8000
        rw [hmode, pairQuery, List.append_assoc] at heq
        have hlen := congrArg List.length (List.append_cancel_left (Query.blake3.inj heq))
        rw [List.length_append, BytesN.length_val, BytesN.length_val] at hlen
        rcases hleaf with rfl | ⟨s', vs', rfl⟩
        · cases hlen
        · rw [length_nodeInput_stemNode] at hlen
          omega
      · exact Or.inr hcol

/-! ## The end of a path in the Gemini mode -/

variable (primitives) in
/-- What the stem hash of the Gemini mode hashes: the values, and last the block of the
prefix with their root. -/
theorem hashStemMode_gemini (s : Bytes) (vs : StemValues) :
    (hashStemMode primitives s vs .gemini).val =
      primitives.answer (.compress (stemBlock s) (foldValues primitives vs).val) ∧
    (hashStemMode primitives s vs .gemini).queries =
      (foldValues primitives vs).queries ++
        [.compress (stemBlock s) (foldValues primitives vs).val] := by
  rw [hashStemMode, if_pos rfl]
  exact ⟨rfl, rfl⟩

/-- The fold of the values is injective, up to a collision. -/
theorem foldValues_inj {vs vs' : StemValues}
    (h : (foldValues primitives vs).val = (foldValues primitives vs').val) :
    vs = vs' ∨ Collision primitives.answer
      ((foldValues primitives vs).queries ++ (foldValues primitives vs').queries) := by
  have hlen : ∀ vs : StemValues, vs.toList.length = 2 ^ 8 := fun vs => Vector.length_toList
  have hfuel : ∀ vs : StemValues, 8 ≤ vs.toList.length := fun vs => by rw [hlen]; decide
  have hone : ∀ vs : StemValues, (PairFold.foldWhile primitives.answer .compress
      vs.toList.length vs.toList).val.length = 1 :=
    fun vs => PairFold.length_foldWhile (hfuel vs) (hlen vs)
  obtain ⟨x, hx⟩ := List.length_eq_one_iff.mp (hone vs)
  obtain ⟨y, hy⟩ := List.length_eq_one_iff.mp (hone vs')
  unfold foldValues at h ⊢
  simp only [Logged.val_bind, Logged.val_pure, Logged.queries_bind, Logged.queries_pure,
    List.append_nil, hx, hy, List.headD_cons] at h ⊢
  rw [hlen, hlen] at *
  obtain heq | hcol := PairFold.foldWhile_inj (fun _ _ _ _ => Query.compress.inj)
    (show 8 ≤ 2 ^ 8 by decide) (hlen vs) (hlen vs') (by rw [hx, hy, h])
  · exact Or.inl (Vector.toList_inj.mp heq)
  · exact Or.inr hcol

/-- **Stems with one hash** have one block and the same values, or two inputs collide. -/
theorem stem_eq_of_gemini {s s' : Bytes} {vs vs' : StemValues}
    (h : (hashStemMode primitives s vs .gemini).val =
      (hashStemMode primitives s' vs' .gemini).val) :
    (stemBlock s = stemBlock s' ∧ vs = vs') ∨ Collision primitives.answer
      ((hashStemMode primitives s' vs' .gemini).queries ++
        (hashStemMode primitives s vs .gemini).queries) := by
  obtain ⟨hval, hqueries⟩ := hashStemMode_gemini primitives s vs
  obtain ⟨hval', hqueries'⟩ := hashStemMode_gemini primitives s' vs'
  rw [hval, hval'] at h
  rw [hqueries, hqueries']
  obtain heq | hcol := eq_or_collision
    (List.mem_append_right _ (List.mem_append_right _ List.mem_cons_self))
    (List.mem_append_left _ (List.mem_append_right _ List.mem_cons_self)) h
  · obtain ⟨hblock, hroot⟩ := Query.compress.inj heq
    rcases foldValues_inj hroot.symm with rfl | hcol
    · exact Or.inl ⟨hblock, rfl⟩
    · exact Or.inr (hcol.mono_append (List.subset_append_left _ _) (List.subset_append_left _ _))
  · exact Or.inr hcol

/-- A climb in the Gemini mode whose path ends at a stem starts at the block of this stem, with
its values. -/
theorem stem_of_climb_gemini (hmode : hasher.mode = .gemini) {s s' : Bytes} {vs vs' : StemValues}
    {t : Pbt.Node} {bits : List UInt8} {qs : List Query}
    (hend : walkTo t bits = some (.stemNode s' vs'))
    (h : ClimbsTo hasher (hashStemMode hasher.primitives s vs hasher.mode).val t bits qs) :
    (stemBlock s = stemBlock s' ∧ (s', vs) ∈ t.leaves) ∨
      Collision hasher.primitives.answer ((contentHashLog hasher t).queries ++
        ((hashStemMode hasher.primitives s vs hasher.mode).queries ++ qs)) := by
  cases h with
  | collision h =>
      exact Or.inr (h.mono_append (List.Subset.refl _) (List.subset_append_right _ _))
  | ends n hwalk hpart hhash =>
      obtain rfl := Option.some.inj (hend.symm.trans hwalk)
      obtain ⟨hleaves, hqueries⟩ := hpart
      rw [contentHashLog, hmode] at hhash hqueries
      rw [hmode]
      rcases stem_eq_of_gemini hhash with ⟨hblock, rfl⟩ | hcol
      · exact Or.inl ⟨hblock, hleaves List.mem_cons_self⟩
      · exact Or.inr (hcol.mono_append hqueries (List.subset_append_left _ _))
  | beyond hwalk n hpart hleaf a b hhash hmem => cases hend.symm.trans hwalk

end

/-! ## Soundness at one proof -/

/-- The hasher of the trees that the proof is for. -/
def VectorFoldProof.hasher (proof : VectorFoldProof) (primitives : Primitives) : ModeHasher :=
  ⟨proof.mode.asHashFunction, primitives⟩

/-- **Soundness at one proof**, against the root hash of a tree in the mode of the proof: if it
is accepted, the tree holds its value at its key, or two inputs collide among those of the
root hash and of the verifier. -/
def VectorFoldSoundAt (primitives : Primitives) (ops : List Pbt.TreeOp)
    (proof : VectorFoldProof) : Prop :=
  (verifyVectorFoldProof primitives proof).val = true →
  proof.finalRoot = (Tree.run (proof.hasher primitives) ops).rootHash →
    (Tree.run (proof.hasher primitives) ops).get proof.key = .ok proof.value ∨
      Collision primitives.answer
        ((contentHashLog (proof.hasher primitives) (Pbt.run ops)).queries ++
          (verifyVectorFoldProof primitives proof).queries)

/-- **What an accepted proof is like, whatever the primitives are**: the slot of its key holds the
value, its fold steps have the right format, and the last one commits to the root. -/
structure VectorFoldProof.PassesChecks (proof : VectorFoldProof) : Prop where
  slot : ∃ s i, splitKey proof.key = .ok (s, i) ∧
    getElem proof.stemValues i i.isLt = proof.value
  steps : ∀ step ∈ proof.pathFolds, step.foldFactor = 2 ∧ step.proofData.length = 33 ∧
    (step.proofData.headD 0 = 0 ∨ step.proofData.headD 0 = 1)
  root : ∀ step ∈ proof.pathFolds.getLast?, step.commitment = proof.finalRoot

/-- Its key splits. -/
theorem VectorFoldProof.PassesChecks.exists_joinKey {proof : VectorFoldProof}
    (h : proof.PassesChecks) : ∃ s i, proof.key = joinKey s i ∧ s ≠ [] := by
  obtain ⟨s, i, hsplit, -⟩ := h.slot
  by_cases hkey : 2 ≤ proof.key.length
  · obtain ⟨s, i, -, hjoin⟩ := Pbt.exists_splitKey hkey
    exact ⟨s, i, hjoin, Pbt.two_le_length_joinKey_iff.mp (hjoin ▸ hkey)⟩
  · rw [splitKey_of_short (not_le.mp hkey)] at hsplit
    cases hsplit

/-- Fold steps that the verifier passes have the right format. -/
theorem passes_of_checkFolds {primitives : Primitives} {mode : HashFunction}
    {current root : Digest} {steps : List FoldStep}
    (h : (checkFolds primitives mode current steps).val = some root) :
    (∀ step ∈ steps, step.foldFactor = 2 ∧ step.proofData.length = 33 ∧
      (step.proofData.headD 0 = 0 ∨ step.proofData.headD 0 = 1)) ∧
    ∀ step ∈ steps.getLast?, step.commitment = root := by
  induction steps generalizing current with
  | nil => simp
  | cons step steps ih =>
      rw [checkFolds] at h
      dsimp only at h
      split_ifs at h with hfactor hlen hbit
      · rw [Logged.val_bind] at h
        split_ifs at h with hcommit
        obtain ⟨hsteps, hroot⟩ := ih h
        refine ⟨List.forall_mem_cons.mpr ⟨⟨not_not.mp hfactor, not_not.mp hlen, by tauto⟩, hsteps⟩,
          ?_⟩
        cases steps with
        | nil =>
            rintro last ⟨⟩
            exact (not_not.mp hcommit).symm.trans (Option.some.inj h)
        | cons next steps => rwa [List.getLast?_cons_cons]

/-- **A proof that fails a check is refused.** -/
theorem VectorFoldProof.passesChecks_of_accepted {primitives : Primitives} {proof : VectorFoldProof}
    (h : (verifyVectorFoldProof primitives proof).val = true) : proof.PassesChecks := by
  obtain ⟨-, s, i, hkey, hs, hvalue, -⟩ := verifyVectorFoldProof_accepts h
  unfold verifyVectorFoldProof at h
  rw [hkey, splitKey_joinKey hs] at h
  dsimp only at h
  split_ifs at h
  · rw [Logged.val_bind, Logged.val_bind, Logged.val_pure, beq_iff_eq] at h
    obtain ⟨hsteps, hroot⟩ := passes_of_checkFolds h
    exact ⟨⟨s, i, by rw [hkey, splitKey_joinKey hs], hvalue⟩, hsteps, hroot⟩

/-- The path of the proof ends at a stem of the tree: the one of the key, or one with another
block. -/
def VectorFoldProof.EndsAtOwnStem (proof : VectorFoldProof) (t : Pbt.Node) : Prop :=
  ∃ s vs, walkTo t proof.bits = some (.stemNode s vs) ∧
    (stemBlock proof.key.dropLast = stemBlock s → proof.key.dropLast = s)

/-- A stem that a tree holds answers for its keys. -/
theorem get_of_mem_leaves {hasher : ModeHasher} {tree : Tree ModeHasher} {t : Pbt.Node}
    (h : Tree.Represents hasher tree t) (ht : Pbt.WellFormed t) {s : Bytes} (hs : s ≠ [])
    {vs : StemValues} (hmem : (s, vs) ∈ t.leaves) (i : Fin stemSubtreeWidth) :
    tree.get (joinKey s i) = .ok (getElem vs i i.isLt) := by
  rw [Tree.get_joinKey h hs, ht.storedStem_eq_some_iff.mpr hmem]
  rfl

/-- **Soundness where the path ends at such a stem.**  In the Poseidon2 mode, and for proofs that
fail a check, nothing is asked of the path. -/
theorem vectorFoldSoundAt_of_end (primitives : Primitives) (ops : List Pbt.TreeOp)
    (proof : VectorFoldProof)
    (hend : proof.mode = .geminiHash → proof.PassesChecks →
      proof.EndsAtOwnStem (Pbt.run ops)) :
    VectorFoldSoundAt primitives ops proof := by
  intro hverify hroot
  have hchecks := VectorFoldProof.passesChecks_of_accepted hverify
  obtain ⟨hmode, s, i, hkey, hs, hvalue, hclimb, hqueries⟩ := verifyVectorFoldProof_accepts hverify
  have hrep := Tree.represents_run (proof.hasher primitives) ops
  have hwf := Pbt.wellFormed_run ops
  rw [hroot, Tree.rootHash_eq hrep, ← val_contentHashLog] at hclimb
  have hclimbs : ClimbsTo (proof.hasher primitives) _ _ _ _ := climb_walkTo _ _ _ hclimb
  rw [hqueries, hkey, ← hvalue]
  obtain hm | hm : proof.mode = .poseidon2 ∨ proof.mode = .geminiHash := by
    cases h : proof.mode with
    | blake3 => exact absurd h hmode
    | poseidon2 => exact Or.inl rfl
    | geminiHash => exact Or.inr rfl
  · obtain hmem | hcol := stem_mem_of_climb_poseidon2 (congrArg ProofMode.asHashFunction hm) hclimbs
    · exact Or.inl (get_of_mem_leaves hrep hwf hs hmem i)
    · exact Or.inr hcol
  · obtain ⟨s', vs', hwalk, howner⟩ := hend hm hchecks
    rw [hkey, Pbt.dropLast_joinKey] at howner
    obtain ⟨hblock, hmem⟩ | hcol := stem_of_climb_gemini (congrArg ProofMode.asHashFunction hm)
      hwalk hclimbs
    · obtain rfl := howner hblock
      exact Or.inl (get_of_mem_leaves hrep hwf hs hmem i)
    · exact Or.inr hcol

end PbtRs
