/-
# Forged VectorFold proofs

In the Gemini mode the hash of a stem is that of the first 32 bytes of its prefix with its values,
and nothing tells it from that of another node.  So proofs of values that the tree does not hold
are accepted, although no two inputs of the compressor collide: keys of `get_tree_key` that
differ in the last byte of their 33-byte prefixes have one proof
(`not_vectorFoldSoundAt_truncated`).

Every ordinary proof that passes the checks that need no hash can be forged like this.  If it has
no fold steps, its stem is taken for one with a longer prefix (`exists_forgery_lone`), else for the
empty subtree where its path ends (`exists_forgery_below`).  With them the condition of
`PartitionedBinaryTree.VectorFoldSoundness` is exact (`vectorFold_sound_iff`).
-/
import PartitionedBinaryTree.ForgedPaths

namespace PbtRs

open Pbt (StemValues Value Digest stemSubtreeWidth emptyValue joinKey storedStem pathBit Arm
  IsSide filledStem)
open BitTrie (spine Off)
open PairFold (spikeRoot spikeQueries)

/-! ## A stem with one value -/

/-- What the hash of such a stem hashes: two inputs a level, and the block with the root. -/
def headQueries (primitives : Primitives) (s : Bytes) (v : Value) : List Query :=
  spikeQueries primitives.answer .compress 8 v emptyValue ++
    [.compress (stemBlock s) (spikeRoot primitives.answer .compress 8 v emptyValue)]

theorem queries_hashStemMode_headSlot (primitives : Primitives) (s : Bytes) (v : Value) :
    (hashStemMode primitives s (headSlot v) .gemini).queries ⊆ headQueries primitives s v := by
  obtain ⟨hroot, hqueries⟩ := foldValues_headSlot primitives v
  rw [(hashStemMode_gemini primitives s (headSlot v)).2, hroot]
  exact List.append_subset.mpr ⟨List.subset_append_of_subset_left _ hqueries,
    List.subset_append_right _ _⟩

/-! ## A forged proof without a path -/

/-- The proof of one value under a prefix, against the hash of this stem. -/
def forgedProof (primitives : Primitives) (s : Bytes) (v : Value) : VectorFoldProof where
  key := joinKey s 0
  value := v
  stemValues := headSlot v
  pathFolds := []
  finalRoot := (hashStemMode primitives s (headSlot v) .gemini).val
  mode := .geminiHash

/-- It is accepted. -/
theorem verifyVectorFoldProof_forgedProof (primitives : Primitives) {s : Bytes} (hs : s ≠ [])
    (v : Value) :
    (verifyVectorFoldProof primitives (forgedProof primitives s v)).val = true ∧
    (verifyVectorFoldProof primitives (forgedProof primitives s v)).queries =
      (hashStemMode primitives s (headSlot v) .gemini).queries := by
  have hmode : ¬ (ProofMode.geminiHash ≠ .geminiHash ∧ ProofMode.geminiHash ≠ .poseidon2) :=
    fun h => h.1 rfl
  unfold verifyVectorFoldProof forgedProof
  dsimp only
  rw [if_neg hmode, splitKey_joinKey hs]
  dsimp only
  have hslot : (headSlot v)[(0 : Fin stemSubtreeWidth)] = v := rfl
  rw [if_neg (not_not.mpr hslot)]
  refine ⟨?_, ?_⟩
  · simp [checkFolds, ProofMode.asHashFunction]
  · simp [checkFolds, ProofMode.asHashFunction]

section

variable {primitives : Primitives}

/-- **When soundness fails**: the proof is accepted against the hash of a tree that does not hold
its value, and no two inputs collide. -/
theorem not_vectorFoldSoundAt {ops : List Pbt.TreeOp} {proof : VectorFoldProof} {s : Bytes}
    {i : Fin stemSubtreeWidth} (hkey : proof.key = joinKey s i) (hs : s ≠ [])
    (hverify : (verifyVectorFoldProof primitives proof).val = true)
    (hroot : (contentHashLog (proof.hasher primitives) (Pbt.run ops)).val = proof.finalRoot)
    (hvalue : getElem ((storedStem (Pbt.run ops) s).getD Pbt.emptyStem) i i.isLt ≠ proof.value)
    {qs : List Query} (hcol : ¬ Collision primitives.answer qs)
    (hqueries : (contentHashLog (proof.hasher primitives) (Pbt.run ops)).queries ++
      (verifyVectorFoldProof primitives proof).queries ⊆ qs) :
    ¬ VectorFoldSoundAt primitives ops proof := by
  intro hsound
  have hrep := Tree.represents_run (proof.hasher primitives) ops
  unfold VectorFoldSoundAt at hsound
  rw [Tree.rootHash_eq hrep, ← val_contentHashLog, hroot, hkey, Tree.get_joinKey hrep hs] at hsound
  rcases hsound hverify rfl with hget | h
  · exact hvalue (Except.ok.inj hget)
  · exact hcol (h.mono hqueries)

/-- **A forged proof**: its stem is not stored but hashes to the root, and all that is hashed
has different images. -/
theorem not_vectorFoldSoundAt_absent {ops : List Pbt.TreeOp} {s : Bytes} (hs : s ≠ []) {v : Value}
    (hv : v ≠ emptyValue) (habsent : storedStem (Pbt.run ops) s = none)
    (hroot : (hashStemMode primitives s (headSlot v) .gemini).val =
      (contentHashLog ⟨.gemini, primitives⟩ (Pbt.run ops)).val)
    (hqueries : (contentHashLog ⟨.gemini, primitives⟩ (Pbt.run ops)).queries ⊆
      headQueries primitives s v)
    (hnodup : ((headQueries primitives s v).map primitives.answer).Nodup) :
    ¬ VectorFoldSoundAt primitives ops (forgedProof primitives s v) := by
  obtain ⟨hverify, hverifyQueries⟩ := verifyVectorFoldProof_forgedProof primitives hs v
  refine not_vectorFoldSoundAt rfl hs hverify hroot.symm ?_
    (not_collision_of_nodup hnodup (List.Subset.refl _)) ?_
  · rw [habsent, Option.getD_none]
    exact fun heq => hv (heq.symm.trans (Pbt.getElem_emptyStem 0 Pbt.stemSubtreeWidth_pos))
  · rw [hverifyQueries]
    exact List.append_subset.mpr ⟨hqueries, queries_hashStemMode_headSlot primitives s v⟩

/-- **Two prefixes with one block.** -/
theorem not_vectorFoldSoundAt_block {s s' : Bytes} (hs : s ≠ []) (hs' : s' ≠ []) (hne : s ≠ s')
    (hblock : stemBlock s = stemBlock s') {v : Value} (hv : v ≠ emptyValue)
    (hnodup : ((headQueries primitives s v).map primitives.answer).Nodup) :
    ¬ VectorFoldSoundAt primitives [.insert (joinKey s' 0) v.val] (forgedProof primitives s v) := by
  have hrun : Pbt.run [.insert (joinKey s' 0) v.val] = .stemNode s' (headSlot v) :=
    Pbt.run_lone hs' 0 v
  refine not_vectorFoldSoundAt_absent hs hv ?_ ?_ ?_ hnodup
  · rw [hrun]
    exact if_neg hne.symm
  · rw [hrun]
    show _ = (hashStemMode primitives s' (headSlot v) .gemini).val
    rw [(hashStemMode_gemini primitives s _).1, (hashStemMode_gemini primitives s' _).1, hblock]
  · rw [hrun]
    have hsub := queries_hashStemMode_headSlot primitives s' v
    rwa [headQueries, ← hblock, ← headQueries] at hsub

end

/-! ## Forgeries of ordinary proofs -/

/-- What the fold steps commit to. -/
def VectorFoldProof.commitments (proof : VectorFoldProof) : List Digest :=
  proof.pathFolds.map FoldStep.commitment

/-- The siblings that are not the hash of the empty tree. -/
def VectorFoldProof.siblings (proof : VectorFoldProof) : List Digest :=
  (proof.path.map Prod.fst).filter (· ≠ geminiStart)

/-- **Proofs without accidents**: the path is shorter than the block of a prefix is long, and ends
beside a subtree that is not empty; no digest stands in it twice, or is a value of the stem; and
where the value is the empty one, the key leaves the path beside a subtree that is not empty. -/
structure VectorFoldProof.Ordinary (proof : VectorFoldProof) : Prop where
  short : proof.pathFolds.length < 255
  deepest : ∀ step ∈ proof.pathFolds.head?, step.level.1 ≠ geminiStart
  distinct : (geminiStart :: (proof.commitments ++ proof.siblings)).Nodup
  values : List.Disjoint proof.stemValues.toList (proof.commitments ++ proof.siblings)
  claim : proof.value = emptyValue →
    ¬ Off pathBit (· = geminiStart) proof.key.dropLast (directed proof.path).reverse 0

/-- **Acceptance by answers.** -/
theorem verifyVectorFoldProof_of_answers {f : Query → Digest} {proof : VectorFoldProof}
    (hmode : proof.mode = .geminiHash) (hchecks : proof.PassesChecks) {s : Bytes}
    {i : Fin stemSubtreeWidth} (hkey : proof.key = joinKey s i) (hs : s ≠ []) {c : Digest}
    (hstem : f (.compress (stemBlock s) (foldRoot f proof.stemValues)) = c)
    (hclimb : ∀ x ∈ climbProgram c proof.pathFolds, f x.1 = x.2)
    (hend : climbEnd c proof.pathFolds = proof.finalRoot) :
    (verifyVectorFoldProof (.ofAnswer f) proof).val = true ∧
      (verifyVectorFoldProof (.ofAnswer f) proof).queries = foldQueries f proof.stemValues ++
        [.compress (stemBlock s) (foldRoot f proof.stemValues)] ++
          (climbProgram c proof.pathFolds).map Prod.fst := by
  obtain ⟨hval, hqueries⟩ := hashStemMode_ofAnswer f s proof.stemValues
  rw [hstem] at hval
  have haccepted : (verifyVectorFoldProof (.ofAnswer f) proof).val = true := by
    obtain ⟨s', i', hsplit, hslot⟩ := hchecks.slot
    rw [hkey, splitKey_joinKey hs] at hsplit
    cases hsplit
    have hmodes : ¬ (proof.mode ≠ .geminiHash ∧ proof.mode ≠ .poseidon2) := fun h => h.1 hmode
    unfold verifyVectorFoldProof
    rw [if_neg hmodes, hkey, splitKey_joinKey hs]
    dsimp only
    rw [if_neg (not_not.mpr hslot), Logged.val_bind, Logged.val_bind, Logged.val_pure, hmode]
    show ((checkFolds _ .gemini (hashStemMode _ s proof.stemValues .gemini).val _).val == _) = true
    rw [hval, checkFolds_of_answers hchecks.steps hclimb, hend]
    exact beq_self_eq_true _
  refine ⟨haccepted, ?_⟩
  obtain ⟨-, s', i', hkey', -, -, -, hall⟩ := verifyVectorFoldProof_accepts haccepted
  obtain ⟨rfl, rfl⟩ := Pbt.joinKey_inj.mp (hkey.symm.trans hkey')
  rw [hall, hmode]
  show (hashStemMode _ s proof.stemValues .gemini).queries ++ (climbLog _ .gemini
    (hashStemMode _ s proof.stemValues .gemini).val proof.path).queries = _
  rw [hqueries, hval, VectorFoldProof.path, (climbLog_of_answers hclimb).2]

/-- **A forgery by answers**, against a tree that insert and delete reach. -/
theorem exists_not_vectorFoldSoundAt {f : Query → Digest} {proof : VectorFoldProof}
    (hmode : proof.mode = .geminiHash) {s : Bytes} {i : Fin stemSubtreeWidth}
    (hkey : proof.key = joinKey s i) (hs : s ≠ [])
    (hverify : (verifyVectorFoldProof (.ofAnswer f) proof).val = true)
    {t : Pbt.Node} (ht : Pbt.Reachable t)
    (hroot : (contentHashLog ⟨.gemini, .ofAnswer f⟩ t).val = proof.finalRoot)
    (hvalue : getElem ((storedStem t s).getD Pbt.emptyStem) i i.isLt ≠ proof.value)
    {qs : List Query} (hcol : ¬ Collision f qs)
    (hqueries : (contentHashLog ⟨.gemini, .ofAnswer f⟩ t).queries ++
      (verifyVectorFoldProof (.ofAnswer f) proof).queries ⊆ qs) :
    ∃ primitives ops, ¬ VectorFoldSoundAt primitives ops proof := by
  obtain ⟨ops, rfl⟩ := ht
  have hhasher : proof.hasher (.ofAnswer f) = ⟨.gemini, .ofAnswer f⟩ := by
    rw [VectorFoldProof.hasher, hmode]
    rfl
  have hcol' : ¬ Collision (Primitives.ofAnswer f).answer qs := by
    rwa [Primitives.answer_ofAnswer]
  refine ⟨.ofAnswer f, ops, not_vectorFoldSoundAt hkey hs hverify ?_ hvalue hcol' ?_⟩
  · rw [hhasher, hroot]
  · rwa [hhasher]

/-- A byte of zero does not change the block. -/
theorem stemBlock_concat_zero (s : Bytes) : stemBlock (s ++ [0]) = stemBlock s := by
  apply Subtype.ext
  show (s ++ [0]).take 32 ++ zeroBytes (32 - (s ++ [0]).length) =
    s.take 32 ++ zeroBytes (32 - s.length)
  rw [List.length_append, List.length_singleton]
  by_cases hs : s.length < 32
  · rw [List.take_of_length_le (by rw [List.length_append, List.length_singleton]; omega),
      List.take_of_length_le (by omega), List.append_assoc]
    congr 1
    rw [show 32 - s.length = (32 - (s.length + 1)) + 1 by omega]
    rfl
  · rw [List.take_append_of_le_length (by omega), show 32 - (s.length + 1) = 32 - s.length by omega]

/-- **Without fold steps**: the stem has the block of one with a longer prefix. -/
theorem exists_forgery_lone {proof : VectorFoldProof} (hmode : proof.mode = .geminiHash)
    (hchecks : proof.PassesChecks) (hord : proof.Ordinary) (hnil : proof.pathFolds = []) :
    ∃ primitives ops, ¬ VectorFoldSoundAt primitives ops proof := by
  obtain ⟨s, i, hkey, hs⟩ := hchecks.exists_joinKey
  obtain ⟨g, hg, hanswers, hroot, hlast⟩ := exists_fold proof.stemValues
    (proof.finalRoot :: proof.stemValues.toList)
    (not_collision_nil (f := fun _ => emptyValue)) (List.subset_cons_self _ _)
    (fun q hq => absurd hq List.not_mem_nil) (by
      rw [List.length_nil, List.length_cons, Vector.length_toList]
      decide)
  rw [List.append_nil] at hg
  have hnew : Query.compress (stemBlock s) (foldRoot g proof.stemValues) ∉
      foldQueries g proof.stemValues := fun hmem =>
    hlast _ hmem (List.mem_cons_of_mem _ (List.mem_singleton_self _))
  have hfree : proof.finalRoot ∉ (foldQueries g proof.stemValues).map g := by
    rintro hmem
    obtain ⟨q, hq, heq⟩ := List.mem_map.mp hmem
    exact hanswers q hq (heq ▸ List.mem_cons_self)
  have hcol := not_collision_update hg.apart hnew hfree
  obtain ⟨hsameRoot, hsame⟩ := fold_congr (update_of_mem (f := g) hnew proof.finalRoot)
  generalize hk : Function.update g _ _ = k at hcol hsameRoot hsame
  have hstem : k (.compress (stemBlock s) (foldRoot k proof.stemValues)) = proof.finalRoot := by
    rw [hsameRoot, ← hk, Function.update_self]
  obtain ⟨hverify, hverifyQueries⟩ := verifyVectorFoldProof_of_answers hmode hchecks hkey hs
    hstem (by simp [hnil, climbProgram]) (by rw [hnil, climbEnd])
  obtain ⟨hval, hqueries⟩ := hashStemMode_ofAnswer k (s ++ [0]) proof.stemValues
  rw [stemBlock_concat_zero, hstem] at hval
  rw [stemBlock_concat_zero] at hqueries
  have hleaf : Pbt.WellFormed (.stemNode (s ++ [0]) proof.stemValues) := ⟨trivial, trivial⟩
  refine exists_not_vectorFoldSoundAt hmode hkey hs hverify (hleaf.reachable ?_) hval ?_ hcol ?_
  · simp
  · have habsent : storedStem (.stemNode (s ++ [0]) proof.stemValues) s = none := if_neg (by simp)
    rw [habsent, Option.getD_none]
    refine fun heq => hord.claim (heq.symm.trans (Pbt.getElem_emptyStem i i.isLt)) ?_
    rw [VectorFoldProof.path, hnil]
    trivial
  · show (hashStemMode (.ofAnswer k) (s ++ [0]) proof.stemValues .gemini).queries ++ _ ⊆ _
    rw [hqueries, hverifyQueries, hnil, hsame, hsameRoot]
    intro q hq
    simp only [climbProgram, List.map_nil, List.append_nil, List.mem_append, List.mem_singleton]
      at hq
    rw [List.mem_cons]
    tauto

/-! ### Proofs with fold steps -/

/-- **The answers forge the proof**, against a tree that does not hold its value. -/
theorem exists_forgery_of_answers {proof : VectorFoldProof} (hmode : proof.mode = .geminiHash)
    (hchecks : proof.PassesChecks) {s : Bytes} {i : Fin stemSubtreeWidth}
    (hkey : proof.key = joinKey s i) (hs : s ≠ []) {step : FoldStep} {steps : List FoldStep}
    (hpath : proof.pathFolds = step :: steps) {g : Query → Digest} {x : Value} {h h' : Digest}
    {turn : Bool} {w : Bytes} {arms : List Arm}
    (hsides : ∀ a ∈ ((h, Pbt.Node.stemNode w (filledStem x)), false) :: arms,
      IsSide (some geminiStart) x a)
    (harms : arms.map (fun a => (a.1.1, a.2)) = (directed (forgedPath h' turn step steps)).reverse)
    (hanswers : ∀ y ∈ forgedProgram (stemBlock s) (foldRoot g proof.stemValues)
      (foldRoot g (filledStem x)) h h' (if turn then 1 else 0) step steps
      (((h, Pbt.Node.stemNode w (filledStem x)), false) :: arms), g y.1 = y.2)
    (hcol : ¬ Collision g ((forgedProgram (stemBlock s) (foldRoot g proof.stemValues)
      (foldRoot g (filledStem x)) h h' (if turn then 1 else 0) step steps
      (((h, Pbt.Node.stemNode w (filledStem x)), false) :: arms)).map Prod.fst ++
        (foldQueries g (filledStem x) ++ foldQueries g proof.stemValues)))
    (hreach : Pbt.Reachable (spine (Pbt.Node.stemNode w (filledStem x))
      (arms.map fun a => (a.1.2, a.2))))
    (hvalue : getElem ((storedStem (spine (Pbt.Node.stemNode w (filledStem x))
      (arms.map fun a => (a.1.2, a.2))) s).getD Pbt.emptyStem) i i.isLt ≠ proof.value) :
    ∃ primitives ops, ¬ VectorFoldSoundAt primitives ops proof := by
  simp only [forgedProgram, List.forall_mem_cons, List.forall_mem_append] at hanswers
  obtain ⟨hstem, hpair, hclimb, hside⟩ := hanswers
  have hend : climbEnd geminiStart proof.pathFolds = proof.finalRoot :=
    climbEnd_eq (by rw [hpath]; exact List.cons_ne_nil _ _) hchecks.root
  obtain ⟨hverify, hverifyQueries⟩ := verifyVectorFoldProof_of_answers hmode hchecks hkey hs
    hstem (by rwa [hpath]) hend
  have hhash := hash_side hsides hside
  obtain ⟨hbase, hbaseQueries⟩ := hhash _ List.mem_cons_self
  have hbeside : (arms.map fun a => (a.1.2, a.2)).map
      (fun l => ((contentHashLog ⟨.gemini, .ofAnswer g⟩ l.1).val, l.2)) =
        (directed (forgedPath h' turn step steps)).reverse := by
    rw [← harms, List.map_map]
    exact List.map_congr_left fun a ha => Prod.ext (hhash a (List.mem_cons_of_mem _ ha)).1 rfl
  obtain ⟨hval, hqueries⟩ := hash_levels ⟨.gemini, .ofAnswer g⟩ (.stemNode w (filledStem x)) hbeside
  obtain ⟨hclimbVal, hclimbQueries⟩ := climbLog_forgedPath hpair hclimb
  rw [hbase] at hval hqueries
  rw [hclimbQueries] at hqueries
  refine exists_not_vectorFoldSoundAt hmode hkey hs hverify hreach ?_ hvalue hcol ?_
  · rw [hval, hclimbVal, ← hpath, hend]
  · have hlevels : ((arms.map fun a => (a.1.2, a.2)).flatMap fun l =>
        (contentHashLog ⟨.gemini, .ofAnswer g⟩ l.1).queries) ⊆ foldQueries g (filledStem x) ++
          (sideProgram (foldRoot g (filledStem x))
            (((h, Pbt.Node.stemNode w (filledStem x)), false) :: arms)).map Prod.fst := by
      intro q hq
      obtain ⟨l, hl, hq⟩ := List.mem_flatMap.mp hq
      obtain ⟨a, ha, rfl⟩ := List.mem_map.mp hl
      exact (hhash a (List.mem_cons_of_mem _ ha)).2 hq
    have htree := List.Subset.trans hqueries (List.append_subset.mpr
      ⟨List.subset_append_of_subset_left _ hbaseQueries, List.append_subset.mpr
        ⟨List.subset_append_of_subset_left _ hlevels, List.subset_append_right _ _⟩⟩)
    rw [hverifyQueries, hpath]
    intro q hq
    rw [mem_inputs_forgedProgram]
    rcases List.mem_append.mp hq with hq | hq
    · rcases List.mem_append.mp (htree hq) with hq | hq
      · rcases List.mem_append.mp hq with hfold | hside
        · exact Or.inr (Or.inr (Or.inr (Or.inr (Or.inl hfold))))
        · exact Or.inr (Or.inr (Or.inr (Or.inl hside)))
      · rcases List.mem_cons.mp hq with hpair | hclimb
        · exact Or.inr (Or.inl hpair)
        · exact Or.inr (Or.inr (Or.inl hclimb))
    · rcases List.mem_append.mp hq with hq | hclimb
      · rcases List.mem_append.mp hq with hfold | hstem
        · exact Or.inr (Or.inr (Or.inr (Or.inr (Or.inr hfold))))
        · exact Or.inl (List.mem_singleton.mp hstem)
      · exact Or.inr (Or.inr (Or.inl hclimb))

/-- The digests of a proof with fold steps. -/
theorem VectorFoldProof.Ordinary.steps {proof : VectorFoldProof} (hord : proof.Ordinary)
    {step : FoldStep} {steps : List FoldStep} (hpath : proof.pathFolds = step :: steps) :
    (geminiStart :: ((step :: steps).map FoldStep.commitment ++ step.level.1 ::
      (steps.map fun st => st.level.1).filter (· ≠ geminiStart))).Nodup ∧
    (∀ st ∈ step :: steps, st.commitment ∉ proof.stemValues.toList) ∧
    step.level.1 ∉ proof.stemValues.toList := by
  have hstart : step.level.1 ≠ geminiStart := hord.deepest step (by rw [hpath]; rfl)
  have hsiblings : proof.siblings = step.level.1 ::
      (steps.map fun st => st.level.1).filter (· ≠ geminiStart) := by
    rw [VectorFoldProof.siblings, VectorFoldProof.path, hpath, List.map_map, List.map_cons]
    exact List.filter_cons_of_pos (decide_eq_true hstart)
  have hcommitments : proof.commitments = (step :: steps).map FoldStep.commitment := by
    rw [VectorFoldProof.commitments, hpath]
  have hdistinct := hord.distinct
  have hvalues := hord.values
  rw [hsiblings, hcommitments] at hdistinct hvalues
  refine ⟨hdistinct, fun st hst h => ?_, fun h => ?_⟩
  · exact hvalues h (List.mem_append_left _ (List.mem_map_of_mem hst))
  · exact hvalues h (List.mem_append_right _ List.mem_cons_self)

/-- A list of them. -/
theorem exists_data (proof : VectorFoldProof) {steps : List FoldStep}
    (hsize : steps.length < 255) :
    ∃ data : List Digest, geminiStart ∈ data ∧ proof.value ∈ data ∧
      (∀ st ∈ steps, st.commitment ∈ data ∧ st.level.1 ∈ data) ∧
      proof.stemValues.toList ⊆ data ∧ data.length < 2 ^ 12 := by
  refine ⟨geminiStart :: proof.value :: (steps.map FoldStep.commitment ++
    (steps.map (fun st => st.level.1) ++ proof.stemValues.toList)), by simp, by simp,
    fun st hst => ?_, fun d hd => ?_, ?_⟩
  · have hcommit := List.mem_map_of_mem (f := FoldStep.commitment) hst
    have hlevel := List.mem_map_of_mem (f := fun st => st.level.1) hst
    simp only [List.mem_cons, List.mem_append]
    tauto
  · simp only [List.mem_cons, List.mem_append]
    tauto
  · simp only [List.length_cons, List.length_append, List.length_map, Vector.length_toList]
    rw [show stemSubtreeWidth = 256 from rfl]
    omega

/-- The entries of the sides. -/
theorem mem_sideProgram_forgedPath {h h' : Digest} {turn : Bool} {step : FoldStep}
    {steps : List FoldStep} {w : Bytes} {x : Value} {arms : List Arm}
    (hsides : ∀ a ∈ ((h, Pbt.Node.stemNode w (filledStem x)), false) :: arms,
      IsSide (some geminiStart) x a)
    (harms : arms.map (fun a => (a.1.1, a.2)) = (directed (forgedPath h' turn step steps)).reverse)
    (root : Digest) :
    ∀ y ∈ sideProgram root (((h, Pbt.Node.stemNode w (filledStem x)), false) :: arms),
      (∃ w, y.1 = .compress w root) ∧ y.2 ≠ geminiStart ∧
        (y.2 ∈ [h, h'] ∨ ∃ st ∈ steps, y.2 = st.level.1) := by
  intro y hy
  obtain ⟨a, ha, w', -, hne, rfl⟩ := exists_side_of_mem hy hsides
  refine ⟨⟨_, rfl⟩, hne, ?_⟩
  rcases List.mem_cons.mp ha with rfl | ha
  · exact Or.inl List.mem_cons_self
  · have hmem : a.1.1 ∈ (directed (forgedPath h' turn step steps)).reverse.map Prod.fst := by
      rw [← harms, List.map_map]
      exact List.mem_map_of_mem (f := Prod.fst ∘ fun a : Arm => (a.1.1, a.2)) ha
    rcases mem_forgedPath hmem with heq | heq | hlevel
    · exact Or.inl (heq ▸ List.mem_cons_of_mem _ (List.mem_singleton_self _))
    · exact absurd heq hne
    · exact Or.inr hlevel

/-- **With fold steps**: the stem has the hash of the empty subtree where the path ends. -/
theorem exists_forgery_below {proof : VectorFoldProof} (hmode : proof.mode = .geminiHash)
    (hchecks : proof.PassesChecks) (hord : proof.Ordinary) (hne : proof.pathFolds ≠ []) :
    ∃ primitives ops, ¬ VectorFoldSoundAt primitives ops proof := by
  obtain ⟨s, i, hkey, hs⟩ := hchecks.exists_joinKey
  obtain ⟨step, steps, hpath⟩ := List.exists_cons_of_ne_nil hne
  obtain ⟨hdistinct, hcommit, hdeepest⟩ := hord.steps hpath
  have hshort := hord.short
  have hclaim := hord.claim
  rw [hpath] at hshort
  rw [VectorFoldProof.path, hkey, Pbt.dropLast_joinKey, hpath] at hclaim
  obtain ⟨hstartNew, hcommitNodup, ⟨-, hsiblingsNodup⟩, hcommitApart⟩ :
      geminiStart ∉ _ ∧ List.Nodup _ ∧ (_ ∉ _ ∧ List.Nodup _) ∧ List.Disjoint _ _ := by
    rwa [List.nodup_cons, List.nodup_append', List.nodup_cons] at hdistinct
  -- the folds, and the digests of the two stems beside the path's end
  obtain ⟨data, hstart, hvalue, hsteps, hvalues, hlen⟩ := exists_data proof hshort
  obtain ⟨f, x, hfolds⟩ := exists_folds hvalues hlen
  obtain ⟨h, h', hnew⟩ := exists_newPair f proof.stemValues x hlen
  -- the tree beside the path
  have hout : ∀ d ∈ [h, h'], d ≠ geminiStart ∧
      d ∉ (steps.map fun st => st.level.1).filter (· ≠ geminiStart) := by
    refine fun d hd => ⟨fun heq => hnew.fresh d hd (heq ▸ hstart), fun hmem => ?_⟩
    obtain ⟨st, hst, rfl⟩ := List.mem_map.mp (List.mem_of_mem_filter hmem)
    exact hnew.fresh _ hd (hsteps st (List.mem_cons_of_mem _ hst)).2
  obtain ⟨hh, hside⟩ := hout h List.mem_cons_self
  obtain ⟨hh', hside'⟩ := hout h' (List.mem_cons_of_mem _ (List.mem_singleton_self _))
  obtain ⟨turn, hturn⟩ : ∃ turn, turn = !pathBit s (steps.length + 1) := ⟨_, rfl⟩
  have hdepth : (directed (forgedPath h' turn step steps)).reverse.length < 256 := by
    simp only [directed, forgedPath, List.length_reverse, List.length_map, List.length_cons]
      at hshort ⊢
    omega
  have hlast : ∀ l ∈ (directed (forgedPath h' turn step steps)).reverse.getLast?,
      l.1 ≠ geminiStart := by
    rw [List.getLast?_reverse]
    rintro l ⟨⟩
    exact hh'
  have hbeside : (h :: ((directed (forgedPath h' turn step steps)).reverse.map Prod.fst).filter
      (· ≠ geminiStart)).Nodup := by
    rw [filter_forgedPath hh', List.nodup_cons, List.mem_reverse, List.nodup_reverse,
      List.nodup_cons, List.mem_cons, not_or]
    exact ⟨⟨hnew.ne, hside⟩, hside', hsiblingsNodup⟩
  obtain ⟨w, arms, harms, hall, hdisjoint, hapart, hreach, hget⟩ :=
    exists_sides hs x hdepth hlast hh hbeside
  have hsides := fun a ha => (hall a ha).1
  have hentry := mem_sideProgram_forgedPath hsides harms (foldRoot f (filledStem x))
  obtain ⟨hsideInputs, hsideDigests⟩ := nodup_sideProgram (foldRoot f (filledStem x)) hsides
    (fun a ha => (hall a ha).2) hdisjoint hapart
  -- the answers
  have hclimbInputs : ((climbProgram geminiStart (step :: steps)).map Prod.fst).Nodup := by
    refine nodup_climbProgram (List.nodup_cons.mpr
      ⟨fun h => hstartNew (List.mem_append_left _ h), hcommitNodup⟩) fun st hst hmem => ?_
    by_cases heq : st.level.1 = geminiStart
    · exact hstartNew (List.mem_append_left _ (heq ▸ hmem))
    · refine hcommitApart hmem ?_
      rcases List.mem_cons.mp hst with rfl | hst
      · exact List.mem_cons_self
      · exact List.mem_cons_of_mem _ (List.mem_filter.mpr
          ⟨List.mem_map_of_mem (f := fun st => st.level.1) hst, decide_eq_true heq⟩)
  have hdigest : ∀ y ∈ sideProgram (foldRoot f (filledStem x))
      (((h, Pbt.Node.stemNode w (filledStem x)), false) :: arms),
      (∃ w, y.1 = .compress w (foldRoot f (filledStem x))) ∧ (y.2 ∈ data ∨ y.2 ∈ [h, h']) := by
    intro y hy
    obtain ⟨hquery, -, hpair | ⟨st, hst, heq⟩⟩ := hentry y hy
    · exact ⟨hquery, Or.inr hpair⟩
    · exact ⟨hquery, Or.inl (heq ▸ (hsteps st (List.mem_cons_of_mem _ hst)).2)⟩
  obtain ⟨g, hg, hanswers⟩ := exists_forged_answers hfolds hstart hsteps hcommit hdeepest hnew
    hdigest
    (nodup_forgedProgram hfolds hstart hsteps hnew
      (fun y hy => (hentry y hy).1) hclimbInputs hsideInputs)
    (nodup_digests_forgedProgram hdistinct hsteps hnew.fresh
      (fun y hy => (hentry y hy).2) hsideDigests)
  -- the folds are the same under them
  have hfilled : foldRoot g (filledStem x) = _ ∧ foldQueries g (filledStem x) = _ :=
    fold_congr fun q hq => hg.agrees q (List.mem_append_left _ hq)
  have hstem : foldRoot g proof.stemValues = _ ∧ foldQueries g proof.stemValues = _ :=
    fold_congr fun q hq => hg.agrees q (List.mem_append_right _ hq)
  have hcol := hg.apart
  rw [← hfilled.1, ← hstem.1] at hanswers hcol
  rw [← hfilled.2, ← hstem.2] at hcol
  exact exists_forgery_of_answers hmode hchecks hkey hs hpath hsides harms hanswers hcol hreach
    (hget i proof.value (fun heq => hfolds.fresh (heq ▸ hvalue))
      fun hempty => not_off_forgedPath hh' hturn (hclaim hempty))

/-! ## Soundness -/

/-- **VectorFold soundness.**  A proof is sound against a tree if its mode is not Gemini, if it
fails a check that needs no hash, or if its path ends at a stem of the tree, the one of its key
or one with another block.  And an ordinary proof is sound against all trees, over all
primitives, exactly when its mode is not Gemini or it fails a check. -/
theorem vectorFold_sound_iff (proof : VectorFoldProof) :
    (∀ (primitives : Primitives) (ops : List Pbt.TreeOp),
      (proof.mode = .geminiHash → proof.PassesChecks → proof.EndsAtOwnStem (Pbt.run ops)) →
        VectorFoldSoundAt primitives ops proof) ∧
    (proof.Ordinary →
      ((∀ primitives ops, VectorFoldSoundAt primitives ops proof) ↔
        (proof.mode = .geminiHash → ¬ proof.PassesChecks))) := by
  refine ⟨fun primitives ops hend => vectorFoldSoundAt_of_end primitives ops proof hend,
    fun hord => ⟨fun hsound hmode hchecks => ?_, fun hfails primitives ops => ?_⟩⟩
  · obtain ⟨primitives, ops, hforged⟩ : ∃ primitives ops,
        ¬ VectorFoldSoundAt primitives ops proof := by
      by_cases hnil : proof.pathFolds = []
      · exact exists_forgery_lone hmode hchecks hord hnil
      · exact exists_forgery_below hmode hchecks hord hnil
    exact hforged (hsound primitives ops)
  · exact vectorFoldSoundAt_of_end primitives ops proof fun hmode hchecks =>
      absurd hchecks (hfails hmode)

/-- Two keys as `get_tree_key` makes them, whose positions differ in the last byte: a tree with a
value at one of them, under the compressor of the source, and a proof of it at the other. -/
theorem not_vectorFoldSoundAt_truncated :
    ¬ VectorFoldSoundAt (.source fun _ => emptyValue)
      [.insert (joinKey (zeroBytes 33) 0) Pbt.onesDigest.val]
      (forgedProof (.source fun _ => emptyValue) (zeroBytes 32 ++ [1]) Pbt.onesDigest) := by
  apply not_vectorFoldSoundAt_block (by decide) (by decide) (by decide) (by decide) (by decide)
  decide +kernel

end PbtRs
