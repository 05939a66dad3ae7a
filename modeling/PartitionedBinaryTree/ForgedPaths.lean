/-
# Forged paths in the Gemini mode

A stem that has the hash of the empty tree may be proved where a path ends at an empty subtree.
Beside the path there are stems filled with one value (`exists_sides`); beside its end there are two
of them, below the deepest sibling (`forgedPath`).

What the compressor has to answer for this is a list without clashes (`forgedProgram`), as
long as the digests of the proof are different and the other ones new (`exists_forged_answers`).
-/
import PartitionedBinaryTree.GeminiAnswers

namespace PbtRs

open Pbt (StemValues Value Digest stemSubtreeWidth emptyValue storedStem pathBit Arm IsSide
  filledStem)
open BitTrie (spine Off Follows)

/-! ## A tree of filled stems -/

/-- **A tree with given digests beside a path**, of stems that are filled with one value: one of
them is the stem of `k`, if `k` leaves the path beside a subtree that is not empty. -/
theorem exists_sides {k : Bytes} (hk : k ≠ []) (x : Value) {path : List (Digest × Bool)}
    (hshort : path.length < 256) (hlast : ∀ l ∈ path.getLast?, l.1 ≠ geminiStart) {h : Digest}
    (hstart : h ≠ geminiStart)
    (hdistinct : (h :: (path.map Prod.fst).filter (· ≠ geminiStart)).Nodup) :
    ∃ (w : Bytes) (arms : List Arm), arms.map (fun a => (a.1.1, a.2)) = path ∧
      (∀ a ∈ ((h, Pbt.Node.stemNode w (filledStem x)), false) :: arms,
        IsSide (some geminiStart) x a ∧
          ∀ q ∈ a.1.2.leaves, q.1 = k ∨ (q.1.length = 32 ∧ q.1 ≠ (stemBlock k).val)) ∧
      (((h, Pbt.Node.stemNode w (filledStem x)), false) :: arms).Pairwise
        (fun a a' => List.Disjoint a.1.2.leaves a'.1.2.leaves) ∧
      (((h, Pbt.Node.stemNode w (filledStem x)), false) :: arms).Pairwise
        (fun a a' => a.1.1 ≠ geminiStart → a.1.1 ≠ a'.1.1) ∧
      Pbt.Reachable (spine (Pbt.Node.stemNode w (filledStem x)) (arms.map fun a => (a.1.2, a.2))) ∧
      ∀ (i : Fin stemSubtreeWidth) (value : Value), x ≠ value →
        (value = emptyValue → ¬ Off pathBit (· = geminiStart) k path 0) →
        getElem ((storedStem (spine (Pbt.Node.stemNode w (filledStem x))
          (arms.map fun a => (a.1.2, a.2))) k).getD Pbt.emptyStem) i i.isLt ≠ value := by
  obtain ⟨w, hbits, hw⟩ := Pbt.exists_digest_pathBits
    (fun i => ((path.map Prod.snd)[i]?).getD false) hshort (stemBlock k)
  have hfollows : Follows pathBit w.val (path.map Prod.snd) 0 := by
    rw [BitTrie.follows_iff]
    intro i hi
    rw [Nat.zero_add, hbits i (by rwa [List.length_map] at hi), List.getElem?_eq_getElem hi]
    rfl
  have hwne : w.val ≠ [] := List.ne_nil_of_length_pos (by rw [w.property]; decide)
  obtain ⟨arms, hpath, hbeside, hall, hlookup⟩ := Pbt.exists_arms
    (Q := fun w => w.length = 32 ∧ w ≠ (stemBlock k).val) hk (filledStem x) x (some geminiStart)
    hfollows fun j hj => by
      obtain ⟨w', hbits', hw'⟩ := Pbt.exists_digest_pathBits
        (fun i => if i = j then !pathBit w.val i else pathBit w.val i)
        (show j + 1 < 256 by omega) (stemBlock k)
      refine ⟨w'.val, List.ne_nil_of_length_pos (by rw [w'.property]; decide),
        ⟨w'.property, fun heq => hw' (Subtype.ext heq)⟩, fun i hi => ?_, ?_⟩
      · rw [hbits' i (by omega), if_neg (by omega)]
      · rw [hbits' j (by omega), if_pos rfl]
        exact Bool.not_ne_self _
  have harms : ∀ a ∈ arms, IsSide (some geminiStart) x a := fun a ha => (hall a ha).1
  have hwf : Pbt.WellFormed (spine (Pbt.Node.stemNode w.val (filledStem x))
      (arms.map fun a => (a.1.2, a.2))) := by
    refine ⟨hbeside.placed, BitTrie.compact_spine
      (List.forall_mem_map.mpr fun a ha => (harms a ha).compact) ?_⟩
    rw [List.getLast?_map]
    intro l hl hempty
    obtain ⟨a, ha, rfl⟩ := Option.mem_map.mp hl
    have hstart := hlast (a.1.1, a.2) (by
      rw [← hpath, List.getLast?_map]
      exact Option.mem_map_of_mem _ ha)
    rcases harms a (List.mem_of_getLast? ha) with ⟨he, -⟩ | ⟨-, w', -, hside⟩
    · exact hstart (Option.some.inj he)
    · cases hside.symm.trans hempty
  -- all leaves are filled with the value
  have hleaves : ∀ q ∈ (spine (Pbt.Node.stemNode w.val (filledStem x))
      (arms.map fun a => (a.1.2, a.2))).leaves, q.1 ≠ [] ∧ q.2 = filledStem x := by
    intro q hq
    rcases BitTrie.mem_leaves_spine_iff.mp hq with hbase | ⟨l, hl, hq⟩
    · rw [List.mem_singleton.mp hbase]
      exact ⟨hwne, rfl⟩
    · obtain ⟨a, ha, rfl⟩ := List.mem_map.mp hl
      exact (harms a ha).leaf q hq
  refine ⟨w.val, arms, hpath, ?_, ?_, ?_, hwf.reachable fun q hq => (hleaves q hq).1, ?_⟩
  · refine List.forall_mem_cons.mpr
      ⟨⟨Or.inr ⟨fun heq => hstart (Option.some.inj heq), w.val, hwne, rfl⟩, fun q hq => ?_⟩, hall⟩
    rw [List.mem_singleton.mp hq]
    exact Or.inr ⟨w.property, fun heq => hw (Subtype.ext heq)⟩
  · have hdisjoint := (hbeside.placed (v := filledStem x)).disjoint_sides
    rw [List.pairwise_map] at hdisjoint
    refine List.Pairwise.cons (fun a ha q hq hq' => ?_) hdisjoint
    rw [List.mem_singleton.mp hq] at hq'
    exact hbeside.key_ne _ (List.mem_map_of_mem ha) _ hq' rfl
  · rw [← hpath, List.map_map, List.nodup_cons, List.Nodup, List.pairwise_filter,
      List.pairwise_map] at hdistinct
    refine List.Pairwise.cons (fun a ha _ heq => ?_) (hdistinct.2.imp fun {a a'} hne hne' heq => ?_)
    · refine hdistinct.1 (List.mem_filter.mpr ⟨List.mem_map.mpr ⟨a, ha, heq.symm⟩, ?_⟩)
      exact decide_eq_true hstart
    · exact hne (decide_eq_true hne') (decide_eq_true fun h => hne' (heq.trans h)) heq
  · intro i value hne hoff heq
    cases hstem : storedStem (spine (Pbt.Node.stemNode w.val (filledStem x))
        (arms.map fun a => (a.1.2, a.2))) k with
    | none =>
        rw [hstem, Option.getD_none] at heq
        have hleft := hoff (heq.symm.trans (Pbt.getElem_emptyStem i i.isLt))
        have hfound := hlookup (fun i hi => absurd hi (Nat.not_lt_zero i)) (by
          simpa only [Option.some.injEq] using hleft)
        cases hstem.symm.trans hfound
    | some vs =>
        rw [hstem, Option.getD_some] at heq
        have hfilled := (hleaves _ (hwf.storedStem_eq_some_iff.mp hstem)).2
        rw [show vs = filledStem x from hfilled, Pbt.getElem_filledStem] at heq
        exact hne heq

/-! ## New digests -/

/-- Two digests that are neither among given ones nor used in two folds. -/
structure NewPair (f : Query → Digest) (vs : StemValues) (x : Value) (data : List Digest)
    (h h' : Digest) : Prop where
  ne : h ≠ h'
  fresh : ∀ d ∈ [h, h'], d ∉ data
  roots : ∀ d ∈ [h, h'], d ≠ foldRoot f (filledStem x) ∧ d ≠ foldRoot f vs
  unused : ∀ d ∈ [h, h'], ∀ q ∈ foldQueries f (filledStem x) ++ foldQueries f vs,
    d ∉ q.parts ∧ f q ≠ d

theorem exists_newPair (f : Query → Digest) (vs : StemValues) (x : Value) {data : List Digest}
    (hsize : data.length < 2 ^ 12) : ∃ h h', NewPair f vs x data h h' := by
  let used := foldQueries f (filledStem x) ++ foldQueries f vs
  let taken := foldRoot f (filledStem x) :: foldRoot f vs :: (data ++ (used.flatMap Query.parts ++
    used.map f))
  have hlen : used.length ≤ 512 := by
    have hfilled := length_foldQueries f (filledStem x)
    have hvalues := length_foldQueries f vs
    rw [List.length_append]
    omega
  have htaken : taken.length + 1 < 256 ^ 32 := by
    have hparts := length_flatMap_parts used
    simp only [taken, List.length_cons, List.length_append, List.length_map]
    omega
  obtain ⟨h, hh⟩ := supply_digest taken (by omega)
  obtain ⟨h', hh'⟩ := supply_digest (h :: taken) htaken
  obtain ⟨hne, hh'⟩ := not_or.mp (mt List.mem_cons.mpr hh')
  have hfree : ∀ d ∈ [h, h'], d ∉ data ∧ (d ≠ foldRoot f (filledStem x) ∧ d ≠ foldRoot f vs) ∧
      ∀ q ∈ used, d ∉ q.parts ∧ f q ≠ d := by
    intro d hd
    have hout : d ∉ taken := by
      rcases List.mem_pair.mp hd with rfl | rfl
      · exact hh
      · exact hh'
    simp only [taken, List.mem_cons, List.mem_append, not_or, List.mem_flatMap, List.mem_map,
      not_exists, not_and] at hout
    exact ⟨hout.2.2.1, ⟨hout.1, hout.2.1⟩, fun q hq => ⟨hout.2.2.2.1 q hq, hout.2.2.2.2 q hq⟩⟩
  exact ⟨h, h', fun heq => hne heq.symm, fun d hd => (hfree d hd).1,
    fun d hd => (hfree d hd).2.1, fun d hd => (hfree d hd).2.2⟩

/-! ## The answers of a forgery -/

/-- What such a forgery asks for: the stem has the hash of the empty tree, the deepest sibling
is the hash of two stems, and the climb and the sides are as the proof says. -/
def forgedProgram (block root sideRoot h h' : Digest) (turn : UInt8) (step : FoldStep)
    (steps : List FoldStep) (sides : List Arm) : List (Query × Digest) :=
  (.compress block root, geminiStart) :: (levelQuery .gemini h h' turn, step.level.1) ::
    (climbProgram geminiStart (step :: steps) ++ sideProgram sideRoot sides)

section

variable {f : Query → Digest} {vs : StemValues} {x : Value} {data : List Digest}
  {block h h' : Digest} {turn : UInt8} {step : FoldStep} {steps : List FoldStep}
  {sides : List Arm}

/-- The climb is made of digests of the proof. -/
theorem parts_mem_of_mem_climbProgram (hstart : geminiStart ∈ data)
    (hsteps : ∀ st ∈ step :: steps, st.commitment ∈ data ∧ st.level.1 ∈ data) :
    ∀ y ∈ climbProgram geminiStart (step :: steps), ∀ d ∈ y.1.parts, d ∈ data := by
  intro y hy d hd
  rcases (parts_of_mem_climbProgram hy).2 d hd with rfl | hmem | ⟨st, hst, rfl⟩
  · exact hstart
  · obtain ⟨st, hst, rfl⟩ := List.mem_map.mp hmem
    exact (hsteps st hst).1
  · exact (hsteps st hst).2

theorem mem_inputs_forgedProgram {root sideRoot : Digest} {qs qs' : List Query} {q : Query} :
    q ∈ (forgedProgram block root sideRoot h h' turn step steps sides).map Prod.fst ++
        (qs ++ qs') ↔
      q = .compress block root ∨ q = levelQuery .gemini h h' turn ∨
        q ∈ (climbProgram geminiStart (step :: steps)).map Prod.fst ∨
        q ∈ (sideProgram sideRoot sides).map Prod.fst ∨ q ∈ qs ∨ q ∈ qs' := by
  simp only [forgedProgram, List.map_cons, List.map_append, List.cons_append, List.mem_cons,
    List.mem_append, or_assoc]

/-- Its inputs are different. -/
theorem nodup_forgedProgram (hfolds : Folds f vs x data) (hstart : geminiStart ∈ data)
    (hsteps : ∀ st ∈ step :: steps, st.commitment ∈ data ∧ st.level.1 ∈ data)
    (hnew : NewPair f vs x data h h')
    (hsides : ∀ y ∈ sideProgram (foldRoot f (filledStem x)) sides,
      ∃ w, y.1 = .compress w (foldRoot f (filledStem x)))
    (hclimbNodup : ((climbProgram geminiStart (step :: steps)).map Prod.fst).Nodup)
    (hsideNodup : ((sideProgram (foldRoot f (filledStem x)) sides).map Prod.fst).Nodup) :
    ((forgedProgram block (foldRoot f vs) (foldRoot f (filledStem x)) h h' turn step steps
      sides).map Prod.fst).Nodup := by
  obtain ⟨hsideRoot, hroot, hroots⟩ := hfolds.roots
  have hclimb : ∀ y ∈ climbProgram geminiStart (step :: steps), ∀ d ∈ y.1.parts, d ∈ data :=
    parts_mem_of_mem_climbProgram hstart hsteps
  have hpair : ∀ d ∈ (levelQuery .gemini h h' turn).parts, d ∈ [h, h'] := fun d hd =>
    List.mem_pair.mpr (mem_parts_levelQuery.mp hd)
  have hleft : h ∈ (levelQuery .gemini h h' turn).parts := mem_parts_levelQuery.mpr (Or.inl rfl)
  have hlast : ∀ a b : Digest, b ∈ (Query.compress a b).parts := fun a b =>
    List.mem_cons_of_mem a (List.mem_singleton_self b)
  simp only [forgedProgram, List.map_cons, List.map_append, List.nodup_cons, List.mem_cons,
    List.mem_append, not_or, List.nodup_append']
  refine ⟨⟨fun heq => ?_, fun hmem => ?_, fun hmem => ?_⟩, ⟨fun hmem => ?_, fun hmem => ?_⟩,
    hclimbNodup, hsideNodup, fun q hq hq' => ?_⟩
  · exact (hnew.roots _ (hpair _ (heq ▸ hlast _ _))).2 rfl
  · obtain ⟨y, hy, heq⟩ := List.mem_map.mp hmem
    exact hroot (hclimb y hy _ (heq ▸ hlast _ _))
  · obtain ⟨y, hy, heq⟩ := List.mem_map.mp hmem
    obtain ⟨w, hw⟩ := hsides y hy
    exact hroots (Query.compress.inj (hw.symm.trans heq)).2
  · obtain ⟨y, hy, heq⟩ := List.mem_map.mp hmem
    exact hnew.fresh h List.mem_cons_self (hclimb y hy _ (heq ▸ hleft))
  · obtain ⟨y, hy, heq⟩ := List.mem_map.mp hmem
    obtain ⟨w, hw⟩ := hsides y hy
    exact (hnew.roots _ (hpair _ (heq ▸ hw ▸ hlast _ _))).1 rfl
  · obtain ⟨y, hy, rfl⟩ := List.mem_map.mp hq
    obtain ⟨z, hz, heq⟩ := List.mem_map.mp hq'
    obtain ⟨w, hw⟩ := hsides z hz
    exact hsideRoot (hclimb y hy _ (heq ▸ hw ▸ hlast _ _))

/-- Its answers are different. -/
theorem nodup_digests_forgedProgram {root sideRoot : Digest}
    (hdistinct : (geminiStart :: ((step :: steps).map FoldStep.commitment ++ step.level.1 ::
      (steps.map fun st => st.level.1).filter (· ≠ geminiStart))).Nodup)
    (hsteps : ∀ st ∈ step :: steps, st.commitment ∈ data ∧ st.level.1 ∈ data)
    (hnew : ∀ d ∈ [h, h'], d ∉ data)
    (hsides : ∀ y ∈ sideProgram sideRoot sides,
      y.2 ≠ geminiStart ∧ (y.2 ∈ [h, h'] ∨ ∃ st ∈ steps, y.2 = st.level.1))
    (hsideNodup : ((sideProgram sideRoot sides).map Prod.snd).Nodup) :
    ((forgedProgram block root sideRoot h h' turn step steps sides).map Prod.snd).Nodup := by
  rw [List.nodup_cons, List.nodup_append', List.nodup_cons, List.mem_append, List.mem_cons,
    not_or, not_or] at hdistinct
  obtain ⟨⟨hstart, hstartDeepest, -⟩, hcommitNodup, ⟨hdeepest, -⟩, hapart⟩ := hdistinct
  -- a side has a new digest or that of a sibling above the deepest one
  have hside : ∀ d ∈ (sideProgram sideRoot sides).map Prod.snd, d ≠ geminiStart ∧
      (d ∉ data ∨ d ∈ (steps.map fun st => st.level.1).filter (· ≠ geminiStart)) := by
    intro d hd
    obtain ⟨y, hy, rfl⟩ := List.mem_map.mp hd
    obtain ⟨hne, hpair | ⟨st, hst, heq⟩⟩ := hsides y hy
    · exact ⟨hne, Or.inl (hnew _ hpair)⟩
    · refine ⟨hne, Or.inr (List.mem_filter.mpr ⟨?_, decide_eq_true hne⟩)⟩
      rw [heq]
      exact List.mem_map_of_mem (f := fun st => st.level.1) hst
  simp only [forgedProgram, List.map_cons, List.map_append, map_snd_climbProgram, List.nodup_cons,
    List.mem_cons, List.mem_append, not_or, List.nodup_append']
  rw [List.map_cons, List.mem_cons, not_or] at hstart
  refine ⟨⟨hstartDeepest, hstart, fun hd => (hside _ hd).1 rfl⟩, ⟨?_, fun hd => ?_⟩,
    List.nodup_cons.mp hcommitNodup, hsideNodup, fun d hd hd' => ?_⟩
  · have hnot : step.level.1 ∉ (step :: steps).map FoldStep.commitment := fun hmem =>
      hapart hmem List.mem_cons_self
    rwa [List.map_cons, List.mem_cons, not_or] at hnot
  · rcases (hside _ hd).2 with hfree | hsibling
    · exact hfree (hsteps step List.mem_cons_self).2
    · exact hdeepest hsibling
  · rcases (hside d hd').2 with hfree | hsibling
    · obtain ⟨st, hst, rfl⟩ := List.mem_map.mp
        (show d ∈ (step :: steps).map FoldStep.commitment from hd)
      exact hfree (hsteps st hst).1
    · exact hapart hd (List.mem_cons_of_mem _ hsibling)

/-- **There are such answers.** -/
theorem exists_forged_answers (hfolds : Folds f vs x data) (hstart : geminiStart ∈ data)
    (hsteps : ∀ st ∈ step :: steps, st.commitment ∈ data ∧ st.level.1 ∈ data)
    (hvalues : ∀ st ∈ step :: steps, st.commitment ∉ vs.toList)
    (hdeepest : step.level.1 ∉ vs.toList)
    (hnew : NewPair f vs x data h h')
    (hsides : ∀ y ∈ sideProgram (foldRoot f (filledStem x)) sides,
      (∃ w, y.1 = .compress w (foldRoot f (filledStem x))) ∧ (y.2 ∈ data ∨ y.2 ∈ [h, h']))
    (hinputs : ((forgedProgram block (foldRoot f vs) (foldRoot f (filledStem x)) h h' turn step
      steps sides).map Prod.fst).Nodup)
    (hdigests : ((forgedProgram block (foldRoot f vs) (foldRoot f (filledStem x)) h h' turn step
      steps sides).map Prod.snd).Nodup) :
    ∃ g, Extends f (foldQueries f (filledStem x) ++ foldQueries f vs) g
        ((forgedProgram block (foldRoot f vs) (foldRoot f (filledStem x)) h h' turn step steps
          sides).map Prod.fst ++ (foldQueries f (filledStem x) ++ foldQueries f vs)) ∧
      ∀ y ∈ forgedProgram block (foldRoot f vs) (foldRoot f (filledStem x)) h h' turn step steps
        sides, g y.1 = y.2 := by
  have hfree : ∀ d, d ∈ data ∨ d ∈ [h, h'] →
      d ∉ (foldQueries f (filledStem x) ++ foldQueries f vs).map f := by
    intro d hd hmem
    obtain ⟨q, hq, rfl⟩ := List.mem_map.mp hmem
    rcases hd with hd | hd
    · exact hfolds.answers q hq hd
    · exact (hnew.unused _ hd q hq).2 rfl
  refine exists_answers _ hfolds.apart hinputs hdigests fun y hy => ?_
  simp only [forgedProgram, List.mem_cons, List.mem_append] at hy
  rcases hy with rfl | rfl | hy | hy
  · refine ⟨fun hmem => (hfolds.last _ hmem).2 ?_, hfree _ (Or.inl hstart)⟩
    exact List.mem_cons_of_mem _ (List.mem_singleton_self _)
  · refine ⟨fun hmem => (hnew.unused h List.mem_cons_self _ hmem).1 ?_,
      hfree _ (Or.inl (hsteps step List.mem_cons_self).2)⟩
    exact mem_parts_levelQuery.mpr (Or.inl rfl)
  · -- a level has a commitment or the deepest sibling in it, which are no values of the stem
    refine ⟨fun hmem => ?_, hfree _ (Or.inl ?_)⟩
    · have hvalue : ∀ d ∈ y.1.parts, d ∈ vs.toList := fun d hd =>
        hfolds.parts _ hmem d hd (parts_mem_of_mem_climbProgram hstart hsteps y hy d hd)
      rcases List.mem_cons.mp hy with rfl | hy
      · exact hdeepest (hvalue _ (mem_parts_levelQuery.mpr (Or.inr rfl)))
      · obtain ⟨⟨d, hd, hpart⟩, -⟩ := parts_of_mem_climbProgram hy
        obtain ⟨st, hst, rfl⟩ : ∃ st ∈ step :: steps, st.commitment = d := by
          rcases List.mem_cons.mp hd with rfl | hd
          · exact ⟨step, List.mem_cons_self, rfl⟩
          · obtain ⟨st, hst, rfl⟩ := List.mem_map.mp hd
            exact ⟨st, List.mem_cons_of_mem _ hst, rfl⟩
        exact hvalues st hst (hvalue _ hpart)
    · have hcommit := List.mem_map_of_mem (f := Prod.snd) hy
      rw [map_snd_climbProgram] at hcommit
      obtain ⟨st, hst, heq⟩ := List.mem_map.mp hcommit
      rw [← heq]
      exact (hsteps st hst).1
  · obtain ⟨⟨w, hw⟩, hdigest⟩ := hsides y hy
    refine ⟨fun hmem => (hfolds.last _ hmem).1 ?_, hfree _ hdigest⟩
    rw [hw]
    exact List.mem_cons_of_mem _ (List.mem_singleton_self _)

end

/-- The other way round. -/
theorem levelQuery_flip (a b : Digest) (bit : UInt8) :
    levelQuery .gemini a b (if bit = 0 then 1 else 0) = levelQuery .gemini b a bit := by
  unfold levelQuery
  by_cases hbit : bit = 0
  · rw [if_pos hbit, if_pos hbit, if_neg (by decide)]
  · rw [if_neg hbit, if_neg hbit, if_pos rfl]

/-- **The path below the end of a forged proof**: the two stems, the empty subtree beside them,
and the steps above it. -/
def forgedPath (h' : Digest) (turn : Bool) (step : FoldStep) (steps : List FoldStep) :
    List (Digest × UInt8) :=
  (h', if turn then 1 else 0) :: (geminiStart, if step.level.2 = 0 then 1 else 0) ::
    steps.map FoldStep.level

theorem reverse_directed_forgedPath (h' : Digest) (turn : Bool) (step : FoldStep)
    (steps : List FoldStep) :
    (directed (forgedPath h' turn step steps)).reverse =
      (directed (steps.map FoldStep.level)).reverse ++
        [(geminiStart, !(step.level.2 != 0))] ++ [(h', turn)] := by
  have hturn : ((if turn then 1 else 0 : UInt8) != 0) = turn := by cases turn <;> rfl
  have hflip : ((if step.level.2 = 0 then 1 else 0 : UInt8) != 0) = !(step.level.2 != 0) := by
    by_cases hbit : step.level.2 = 0
    · rw [if_pos hbit, hbit]
      rfl
    · rw [if_neg hbit, bne_iff_ne.mpr hbit]
      rfl
  rw [forgedPath, directed, List.map_cons, List.map_cons, List.reverse_cons, List.reverse_cons,
    hturn, hflip]
  rfl

/-- **Its climb** goes through the deepest sibling to the climb of the proof. -/
theorem climbLog_forgedPath {g : Query → Digest} {h h' : Digest} {turn : Bool} {step : FoldStep}
    {steps : List FoldStep}
    (hpair : g (levelQuery .gemini h h' (if turn then 1 else 0)) = step.level.1)
    (hclimb : ∀ y ∈ climbProgram geminiStart (step :: steps), g y.1 = y.2) :
    (climbLog (.ofAnswer g) .gemini h (forgedPath h' turn step steps)).val =
        climbEnd geminiStart (step :: steps) ∧
      (climbLog (.ofAnswer g) .gemini h (forgedPath h' turn step steps)).queries =
        levelQuery .gemini h h' (if turn then 1 else 0) ::
          (climbProgram geminiStart (step :: steps)).map Prod.fst := by
  obtain ⟨hstep, hrest⟩ := List.forall_mem_cons.mp hclimb
  obtain ⟨hval, hqueries⟩ := climbLog_of_answers hrest
  have hlevel : g (levelQuery .gemini geminiStart step.level.1 step.level.2) = step.commitment :=
    hstep
  simp only [forgedPath, climbLog, levelHash_eq, Primitives.answer_ofAnswer, Logged.val_bind,
    Logged.queries_bind, Logged.val_query, Logged.queries_query, hpair, levelQuery_flip, hlevel,
    hval, hqueries]
  exact ⟨rfl, rfl⟩

/-- A key that leaves the proof's path beside a subtree that is not empty leaves this one so. -/
theorem not_off_forgedPath {s : Bytes} {h' : Digest} (hstart : h' ≠ geminiStart) {step : FoldStep}
    {steps : List FoldStep} {turn : Bool} (hturn : turn = !pathBit s (steps.length + 1))
    (hoff : ¬ Off pathBit (· = geminiStart) s
      (directed ((step :: steps).map FoldStep.level)).reverse 0) :
    ¬ Off pathBit (· = geminiStart) s
      (directed (forgedPath h' turn step steps)).reverse 0 := by
  rw [reverse_directed_forgedPath, BitTrie.off_concat_iff, BitTrie.off_concat_iff]
  rintro ⟨⟨hupper, -⟩, hlast⟩
  refine hoff ?_
  rw [List.map_cons, directed, List.map_cons, List.reverse_cons, BitTrie.off_concat_iff]
  refine ⟨hupper, fun hfollows => Or.inl ?_⟩
  by_contra hbit
  have hend := hlast (by
    rw [List.map_append, List.map_singleton, BitTrie.follows_concat_iff]
    refine ⟨hfollows, ?_⟩
    rw [List.length_map]
    exact Bool.eq_not_of_ne hbit)
  rcases hend with hend | hend
  · simp only [directed, List.length_append, List.length_reverse, List.length_map,
      List.length_singleton, Nat.zero_add] at hend
    exact Bool.self_ne_not _ (hend.trans hturn)
  · exact hstart hend

/-- The digests beside it. -/
theorem mem_forgedPath {h' τ : Digest} {turn : Bool} {step : FoldStep} {steps : List FoldStep}
    (hτ : τ ∈ (directed (forgedPath h' turn step steps)).reverse.map Prod.fst) :
    τ = h' ∨ τ = geminiStart ∨ ∃ st ∈ steps, τ = st.level.1 := by
  simp only [directed, forgedPath, List.map_reverse, List.map_cons, List.map_map, List.mem_reverse,
    List.mem_cons, List.mem_map, Function.comp_apply] at hτ
  rcases hτ with rfl | rfl | ⟨st, hst, rfl⟩
  · exact Or.inl rfl
  · exact Or.inr (Or.inl rfl)
  · exact Or.inr (Or.inr ⟨st, hst, rfl⟩)

theorem filter_forgedPath {h' : Digest} (hstart : h' ≠ geminiStart) {turn : Bool} {step : FoldStep}
    {steps : List FoldStep} :
    ((directed (forgedPath h' turn step steps)).reverse.map Prod.fst).filter (· ≠ geminiStart) =
      (h' :: (steps.map fun st => st.level.1).filter (· ≠ geminiStart)).reverse := by
  have hmap : (directed (forgedPath h' turn step steps)).map Prod.fst =
      h' :: geminiStart :: steps.map fun st => st.level.1 := by
    simp [directed, forgedPath]
  rw [List.map_reverse, hmap, List.filter_reverse]
  simp [hstart]

end PbtRs
