/-
# Answers of the compressor

In the Gemini mode all that is hashed are pairs of digests.  The compressor may be given its
answers at will: fresh ones in the folds of stem values (`exists_folds`), and those that a proof
asks for on its way up (`climbProgram`) and beside it (`sideProgram`).

A tree that is seen along one path is hashed by a climb along this path
(`hash_levels`).
-/
import PartitionedBinaryTree.ForgedTrees
import PartitionedBinaryTree.Lib.FreshFold
import PartitionedBinaryTree.VectorFoldSoundness

namespace PbtRs

open Pbt (StemValues Value Digest stemSubtreeWidth emptyValue Arm IsSide filledStem)
open BitTrie (spine)

/-! ## Primitives with given answers -/

/-- The primitives with the answers of a function. -/
def Primitives.ofAnswer (f : Query → Digest) : Primitives :=
  ⟨fun input => f (.blake3 input), fun left right => f (.compress left right)⟩

@[simp] theorem Primitives.answer_ofAnswer (f : Query → Digest) :
    (Primitives.ofAnswer f).answer = f := by
  funext q
  cases q <;> rfl

/-- The digests that an input is made of. -/
def Query.parts : Query → List Digest
  | .blake3 _ => []
  | .compress left right => [left, right]

theorem length_flatMap_parts (qs : List Query) :
    (qs.flatMap Query.parts).length ≤ 2 * qs.length := by
  induction qs with
  | nil => exact Nat.zero_le _
  | cons q qs ih =>
      have hparts : q.parts.length ≤ 2 := by
        cases q with
        | blake3 input => exact Nat.zero_le _
        | compress left right => exact Nat.le_refl 2
      rw [List.flatMap_cons, List.length_append, List.length_cons]
      omega

/-- There are digests outside every list that is not too long. -/
theorem supply_digest : Supply Digest (256 ^ 32) := by
  intro taken hsize
  obtain ⟨d, hd⟩ := exists_bytesN_not_mem (n := 32) (taken.map Subtype.val) (by
    rwa [List.length_map])
  exact ⟨d, fun hmem => hd (List.mem_map_of_mem hmem)⟩

/-! ## The fold of the values of a stem -/

variable {f g : Query → Digest}

/-- Eight levels. -/
theorem foldValues_eq_foldLevels (primitives : Primitives) (vs : StemValues) :
    (PairFold.foldLevels primitives.answer .compress 8 vs.toList).val =
        [(foldValues primitives vs).val] ∧
      (PairFold.foldLevels primitives.answer .compress 8 vs.toList).queries =
        (foldValues primitives vs).queries := by
  have hlen : vs.toList.length = 2 ^ 8 := Vector.length_toList
  have hfuel : 8 ≤ vs.toList.length := by
    rw [hlen]
    decide
  have hlevels : PairFold.foldWhile primitives.answer .compress vs.toList.length vs.toList =
      PairFold.foldLevels primitives.answer .compress 8 vs.toList :=
    PairFold.foldWhile_eq_foldLevels hfuel hlen
  have hone : (PairFold.foldWhile primitives.answer .compress vs.toList.length
      vs.toList).val.length = 1 := PairFold.length_foldWhile hfuel hlen
  obtain ⟨root, hroot⟩ := List.length_eq_one_iff.mp hone
  unfold foldValues
  simp only [Logged.val_bind, Logged.val_pure, Logged.queries_bind, Logged.queries_pure,
    List.append_nil, ← hlevels, hroot, List.headD_cons, and_self]

/-- The root and the inputs of a fold, for the primitives with these answers. -/
abbrev foldRoot (f : Query → Digest) (vs : StemValues) : Digest :=
  (foldValues (.ofAnswer f) vs).val

abbrev foldQueries (f : Query → Digest) (vs : StemValues) : List Query :=
  (foldValues (.ofAnswer f) vs).queries

theorem foldLevels_ofAnswer (f : Query → Digest) (vs : StemValues) :
    (PairFold.foldLevels f .compress 8 vs.toList).val = [foldRoot f vs] ∧
      (PairFold.foldLevels f .compress 8 vs.toList).queries = foldQueries f vs := by
  have h := foldValues_eq_foldLevels (.ofAnswer f) vs
  rwa [Primitives.answer_ofAnswer] at h

/-- The hash of a stem. -/
theorem hashStemMode_ofAnswer (f : Query → Digest) (s : Bytes) (vs : StemValues) :
    (hashStemMode (.ofAnswer f) s vs .gemini).val = f (.compress (stemBlock s) (foldRoot f vs)) ∧
      (hashStemMode (.ofAnswer f) s vs .gemini).queries =
        foldQueries f vs ++ [.compress (stemBlock s) (foldRoot f vs)] := by
  have h := hashStemMode_gemini (.ofAnswer f) s vs
  rwa [Primitives.answer_ofAnswer] at h

theorem length_foldQueries (f : Query → Digest) (vs : StemValues) :
    (foldQueries f vs).length ≤ 256 := by
  have hlen : (PairFold.foldLevels f .compress 8 vs.toList).queries.length ≤ vs.toList.length :=
    PairFold.length_queries_foldLevels 8 vs.toList
  rwa [(foldLevels_ofAnswer f vs).2, Vector.length_toList] at hlen

/-- Other answers elsewhere do not change it. -/
theorem fold_congr {vs : StemValues} (h : ∀ q ∈ foldQueries f vs, g q = f q) :
    foldRoot g vs = foldRoot f vs ∧ foldQueries g vs = foldQueries f vs := by
  obtain ⟨hval, hqueries⟩ := foldLevels_ofAnswer f vs
  have hsame : PairFold.foldLevels g .compress 8 vs.toList =
      PairFold.foldLevels f .compress 8 vs.toList :=
    PairFold.foldLevels_congr fun q hq => h q (hqueries ▸ hq)
  obtain ⟨hval', hqueries'⟩ := foldLevels_ofAnswer g vs
  rw [hsame] at hval' hqueries'
  exact ⟨(List.cons.inj (hval'.symm.trans hval)).1, hqueries'.symm.trans hqueries⟩

/-- The inputs of a fold are made of its values and of its answers. -/
theorem parts_of_mem_foldQueries {vs : StemValues} {q : Query} (h : q ∈ foldQueries f vs) :
    ∀ d ∈ q.parts, d ∈ vs.toList ∨ ∃ q' ∈ foldQueries f vs, f q' = d := by
  rw [← (foldLevels_ofAnswer f vs).2] at h ⊢
  obtain ⟨a, b, rfl, hparts⟩ := PairFold.mem_queries_foldLevels h
  exact hparts

/-- **A fold with fresh answers**: they are not among those to avoid, and its root is in none of
its inputs. -/
theorem exists_fold (vs : StemValues) (avoid : List Digest) {f : Query → Digest}
    {used : List Query} (hf : ¬ Collision f used) (hvs : vs.toList ⊆ avoid)
    (hused : ∀ q ∈ used, ∀ d ∈ q.parts, d ∈ avoid ∧ d ∉ vs.toList)
    (hsize : used.length + avoid.length < 2 ^ 16) :
    ∃ g, Extends f used g (foldQueries g vs ++ used) ∧
      (∀ q ∈ foldQueries g vs, g q ∉ avoid) ∧ foldRoot g vs ∉ avoid ∧
      ∀ q ∈ foldQueries g vs, foldRoot g vs ∉ q.parts := by
  obtain ⟨g, hg, hanswers, hroot⟩ := PairFold.exists_foldLevels
    (fun _ _ _ _ => Query.compress.inj) supply_digest 8 avoid vs.toList hf hvs
    (fun a b h => (hused _ h a List.mem_cons_self).1)
    (fun a ha b h => (hused _ h a List.mem_cons_self).2 ha) (by
      rw [Vector.length_toList, show stemSubtreeWidth = 256 from rfl]
      omega)
  obtain ⟨hval, hqueries⟩ := foldLevels_ofAnswer g vs
  rw [hval, hqueries] at hroot
  rw [hqueries] at hg hanswers
  obtain ⟨havoid, hapart⟩ := hroot (by decide) _ (List.mem_singleton_self _)
  refine ⟨g, hg, hanswers, havoid, fun q hq hmem => ?_⟩
  cases q with
  | blake3 input => cases hmem
  | compress left right =>
      obtain ⟨hleft, hright⟩ := hapart left right hq
      rcases List.mem_pair.mp hmem with heq | heq
      · exact hleft heq
      · exact hright heq

theorem eq_of_mem_filledStem {x : Value} {d : Digest} (h : d ∈ (filledStem x).toList) : d = x := by
  rw [filledStem, Vector.toList_replicate] at h
  exact List.eq_of_mem_replicate h

/-- Two folds, of the values of a stem and of a stem filled with a new value, whose answers are
not among given digests. -/
structure Folds (f : Query → Digest) (vs : StemValues) (x : Value) (data : List Digest) : Prop where
  fresh : x ∉ data
  apart : ¬ Collision f (foldQueries f (filledStem x) ++ foldQueries f vs)
  answers : ∀ q ∈ foldQueries f (filledStem x) ++ foldQueries f vs, f q ∉ data
  parts : ∀ q ∈ foldQueries f (filledStem x) ++ foldQueries f vs, ∀ d ∈ q.parts,
    d ∈ data → d ∈ vs.toList
  roots : foldRoot f (filledStem x) ∉ data ∧ foldRoot f vs ∉ data ∧
    foldRoot f (filledStem x) ≠ foldRoot f vs
  last : ∀ q ∈ foldQueries f (filledStem x) ++ foldQueries f vs,
    foldRoot f (filledStem x) ∉ q.parts ∧ foldRoot f vs ∉ q.parts

/-- **Two such folds.** -/
theorem exists_folds {vs : StemValues} {data : List Digest} (hvs : vs.toList ⊆ data)
    (hsize : data.length < 2 ^ 12) : ∃ f x, Folds f vs x data := by
  obtain ⟨g, hg, hanswers, hroot, hlast⟩ := exists_fold vs data
    (not_collision_nil (f := fun _ => emptyValue)) hvs
    (fun q hq => absurd hq List.not_mem_nil) (by
      rw [List.length_nil]
      omega)
  rw [List.append_nil] at hg
  have hlen := length_foldQueries g vs
  have hparts := length_flatMap_parts (foldQueries g vs)
  obtain ⟨x, hx⟩ := supply_digest
    (foldRoot g vs :: data ++ (foldQueries g vs).flatMap Query.parts) (by
      simp only [List.cons_append, List.length_cons, List.length_append]
      omega)
  -- the second fold avoids what the first one is made of
  obtain ⟨k, hk, hanswers', hroot', hlast'⟩ := exists_fold (filledStem x)
    (x :: (foldRoot g vs :: data ++ (foldQueries g vs).flatMap Query.parts)) hg.apart
    (fun d hd => List.mem_cons.mpr (Or.inl (eq_of_mem_filledStem hd)))
    (fun q hq d hd => by
      have hmem : d ∈ foldRoot g vs :: data ++ (foldQueries g vs).flatMap Query.parts :=
        List.mem_append_right _ (List.mem_flatMap.mpr ⟨q, hq, hd⟩)
      refine ⟨List.mem_cons_of_mem _ hmem, fun hfilled => hx ?_⟩
      rwa [← eq_of_mem_filledStem hfilled]) (by
      simp only [List.cons_append, List.length_cons, List.length_append]
      omega)
  obtain ⟨hsameRoot, hsame⟩ := fold_congr hk.agrees
  simp only [List.cons_append, List.mem_cons, List.mem_append, not_or, List.mem_flatMap,
    not_exists, not_and] at hx hanswers' hroot'
  refine ⟨k, x, hx.2.1, ?_, ?_, ?_, ?_, ?_⟩
  · rw [hsame]
    exact hk.apart
  · rw [hsame]
    intro q hq
    rcases List.mem_append.mp hq with hq | hq
    · exact (hanswers' q hq).2.2.1
    · rw [hk.agrees q hq]
      exact hanswers q hq
  · rw [hsame]
    intro q hq d hd hdata
    rcases List.mem_append.mp hq with hq | hq
    · rcases parts_of_mem_foldQueries hq d hd with hfilled | ⟨q', hq', rfl⟩
      · exact absurd (eq_of_mem_filledStem hfilled ▸ hdata) hx.2.1
      · exact absurd hdata (hanswers' q' hq').2.2.1
    · rcases parts_of_mem_foldQueries hq d hd with hvalue | ⟨q', hq', rfl⟩
      · exact hvalue
      · exact absurd hdata (hanswers q' hq')
  · rw [hsameRoot]
    exact ⟨hroot'.2.2.1, hroot, hroot'.2.1⟩
  · rw [hsame, hsameRoot]
    intro q hq
    rcases List.mem_append.mp hq with hq | hq
    · refine ⟨hlast' q hq, fun hmem => ?_⟩
      rcases parts_of_mem_foldQueries hq _ hmem with hfilled | ⟨q', hq', heq⟩
      · exact hx.1 (eq_of_mem_filledStem hfilled).symm
      · exact (hanswers' q' hq').2.1 heq
    · exact ⟨fun hmem => hroot'.2.2.2 q hq hmem, hlast q hq⟩

/-! ## The climb of a proof -/

theorem mem_parts_levelQuery {current sibling d : Digest} {bit : UInt8} :
    d ∈ (levelQuery .gemini current sibling bit).parts ↔ d = current ∨ d = sibling := by
  unfold levelQuery
  split_ifs
  · exact List.mem_pair
  · rw [or_comm]
    exact List.mem_pair

/-- What the fold steps of a proof ask for, from a digest on: each level has its commitment. -/
def climbProgram : Digest → List FoldStep → List (Query × Digest)
  | _, [] => []
  | current, step :: steps =>
      (levelQuery .gemini current step.level.1 step.level.2, step.commitment) ::
        climbProgram step.commitment steps

/-- Where they lead. -/
def climbEnd : Digest → List FoldStep → Digest
  | current, [] => current
  | _, step :: steps => climbEnd step.commitment steps

theorem climbEnd_eq {c : Digest} {steps : List FoldStep} {root : Digest} (hne : steps ≠ [])
    (h : ∀ step ∈ steps.getLast?, step.commitment = root) : climbEnd c steps = root := by
  induction steps generalizing c with
  | nil => exact absurd rfl hne
  | cons step steps ih =>
      cases steps with
      | nil => exact h step rfl
      | cons next steps =>
          rw [List.getLast?_cons_cons] at h
          exact ih (c := step.commitment) (List.cons_ne_nil _ _) h

theorem map_snd_climbProgram (c : Digest) (steps : List FoldStep) :
    (climbProgram c steps).map Prod.snd = steps.map FoldStep.commitment := by
  induction steps generalizing c with
  | nil => rfl
  | cons step steps ih => rw [climbProgram, List.map_cons, List.map_cons, ih]

/-- **The climb with these answers.** -/
theorem climbLog_of_answers {c : Digest} {steps : List FoldStep}
    (h : ∀ x ∈ climbProgram c steps, f x.1 = x.2) :
    (climbLog (.ofAnswer f) .gemini c (steps.map FoldStep.level)).val = climbEnd c steps ∧
      (climbLog (.ofAnswer f) .gemini c (steps.map FoldStep.level)).queries =
        (climbProgram c steps).map Prod.fst := by
  induction steps generalizing c with
  | nil => exact ⟨rfl, rfl⟩
  | cons step steps ih =>
      obtain ⟨hstep, hrest⟩ := List.forall_mem_cons.mp h
      obtain ⟨hval, hqueries⟩ := ih hrest
      rw [List.map_cons, climbLog, levelHash_eq, Primitives.answer_ofAnswer, Logged.val_bind,
        Logged.queries_bind, Logged.val_query, Logged.queries_query,
        show f (levelQuery .gemini c step.level.1 step.level.2) = step.commitment from hstep,
        hval, hqueries]
      exact ⟨rfl, rfl⟩

/-- The verifier passes fold steps of the right format with these answers. -/
theorem checkFolds_of_answers {c : Digest} {steps : List FoldStep}
    (hsteps : ∀ step ∈ steps, step.foldFactor = 2 ∧ step.proofData.length = 33 ∧
      (step.proofData.headD 0 = 0 ∨ step.proofData.headD 0 = 1))
    (h : ∀ x ∈ climbProgram c steps, f x.1 = x.2) :
    (checkFolds (.ofAnswer f) .gemini c steps).val = some (climbEnd c steps) := by
  induction steps generalizing c with
  | nil => rfl
  | cons step steps ih =>
      obtain ⟨hstep, hrest⟩ := List.forall_mem_cons.mp h
      obtain ⟨⟨hfactor, hlen, hbit⟩, hformats⟩ := List.forall_mem_cons.mp hsteps
      have hvalid : ¬ (step.proofData.headD 0 ≠ 0 ∧ step.proofData.headD 0 ≠ 1) := by tauto
      have hexpected : (levelHash (.ofAnswer f) .gemini c
          (.copyFrom 32 (slice step.proofData 1 32)) (step.proofData.headD 0)).val =
            step.commitment := by
        rw [levelHash_eq, Primitives.answer_ofAnswer]
        exact hstep
      rw [checkFolds, if_neg (not_not.mpr hfactor), if_neg (not_not.mpr hlen)]
      dsimp only
      rw [if_neg hvalid, Logged.val_bind, hexpected, if_neg (not_not.mpr rfl)]
      exact ih hformats hrest

/-- Each input has the digest of the level below in it, and is made of digests of the proof. -/
theorem parts_of_mem_climbProgram {c : Digest} {steps : List FoldStep} {x : Query × Digest}
    (h : x ∈ climbProgram c steps) :
    (∃ d ∈ c :: steps.map FoldStep.commitment, d ∈ x.1.parts) ∧
      ∀ d ∈ x.1.parts, d = c ∨ d ∈ steps.map FoldStep.commitment ∨
        ∃ step ∈ steps, d = step.level.1 := by
  induction steps generalizing c with
  | nil => cases h
  | cons step steps ih =>
      rcases List.mem_cons.mp h with rfl | h
      · refine ⟨⟨c, List.mem_cons_self, mem_parts_levelQuery.mpr (Or.inl rfl)⟩, fun d hd => ?_⟩
        rcases mem_parts_levelQuery.mp hd with heq | heq
        · exact Or.inl heq
        · exact Or.inr (Or.inr ⟨step, List.mem_cons_self, heq⟩)
      · obtain ⟨⟨d, hd, hpart⟩, hall⟩ := ih h
        refine ⟨⟨d, List.mem_cons_of_mem _ hd, hpart⟩, fun d hd => Or.inr ?_⟩
        rw [List.map_cons, List.mem_cons]
        rcases hall d hd with heq | hmem | ⟨step', hstep', heq⟩
        · exact Or.inl (Or.inl heq)
        · exact Or.inl (Or.inr hmem)
        · exact Or.inr ⟨step', List.mem_cons_of_mem _ hstep', heq⟩

/-- **The inputs are different**, if the commitments are and are no siblings. -/
theorem nodup_climbProgram {c : Digest} {steps : List FoldStep}
    (hnodup : (c :: steps.map FoldStep.commitment).Nodup)
    (hsiblings : ∀ step ∈ steps, step.level.1 ∉ steps.map FoldStep.commitment) :
    ((climbProgram c steps).map Prod.fst).Nodup := by
  induction steps generalizing c with
  | nil => exact List.nodup_nil
  | cons step steps ih =>
      obtain ⟨hc, hrest⟩ := List.nodup_cons.mp hnodup
      obtain ⟨hstep, hsteps⟩ := List.forall_mem_cons.mp hsiblings
      rw [climbProgram, List.map_cons, List.nodup_cons]
      refine ⟨fun hmem => ?_, ih hrest fun step' h hmem => hsteps step' h
        (List.mem_cons_of_mem _ hmem)⟩
      obtain ⟨x, hx, heq⟩ := List.mem_map.mp hmem
      -- a later input has a commitment in it, this one has none
      obtain ⟨⟨d, hd, hpart⟩, -⟩ := parts_of_mem_climbProgram hx
      rw [heq] at hpart
      rcases mem_parts_levelQuery.mp hpart with rfl | rfl
      · exact hc hd
      · exact hstep hd

/-! ## The sides of a path -/

/-- What filled stems beside a path ask for: their blocks with the root of their values. -/
def sideProgram (root : Digest) (sides : List Arm) : List (Query × Digest) :=
  sides.filterMap fun a =>
    match a.1.2 with
    | .stemNode w _ => some (.compress (stemBlock w) root, a.1.1)
    | _ => none

section

variable {x : Value} {sides : List Arm}

/-- The entry of a side, if it is a stem. -/
theorem exists_side_of_mem {root : Digest} {y : Query × Digest} (h : y ∈ sideProgram root sides)
    (hsides : ∀ a ∈ sides, IsSide (some geminiStart) x a) :
    ∃ a ∈ sides, ∃ w, a.1.2 = .stemNode w (filledStem x) ∧ a.1.1 ≠ geminiStart ∧
      y = (.compress (stemBlock w) root, a.1.1) := by
  obtain ⟨a, ha, hy⟩ := List.mem_filterMap.mp h
  rcases hsides a ha with ⟨-, hside⟩ | ⟨hne, w, -, hside⟩
  · rw [hside] at hy
    cases hy
  · rw [hside] at hy
    exact ⟨a, ha, w, hside, fun heq => hne (congrArg some heq), (Option.some.inj hy).symm⟩

/-- **A side with these answers** has the digest that stands beside the path. -/
theorem hash_side (hsides : ∀ a ∈ sides, IsSide (some geminiStart) x a)
    (h : ∀ y ∈ sideProgram (foldRoot f (filledStem x)) sides, f y.1 = y.2) :
    ∀ a ∈ sides, (contentHashLog ⟨.gemini, .ofAnswer f⟩ a.1.2).val = a.1.1 ∧
      (contentHashLog ⟨.gemini, .ofAnswer f⟩ a.1.2).queries ⊆ foldQueries f (filledStem x) ++
        (sideProgram (foldRoot f (filledStem x)) sides).map Prod.fst := by
  intro a ha
  rcases hsides a ha with ⟨heq, hside⟩ | ⟨-, w, -, hside⟩
  · rw [hside]
    exact ⟨(Option.some.inj heq).symm, List.nil_subset _⟩
  · have hmem : (Query.compress (stemBlock w) (foldRoot f (filledStem x)), a.1.1) ∈
        sideProgram (foldRoot f (filledStem x)) sides :=
      List.mem_filterMap.mpr ⟨a, ha, by rw [hside]⟩
    obtain ⟨hval, hqueries⟩ := hashStemMode_ofAnswer f w (filledStem x)
    rw [hside]
    refine ⟨hval.trans (h _ hmem), ?_⟩
    show (hashStemMode (.ofAnswer f) w (filledStem x) .gemini).queries ⊆ _
    rw [hqueries]
    refine List.append_subset.mpr ⟨List.subset_append_left _ _, ?_⟩
    exact List.cons_subset.mpr ⟨List.mem_append_right _ (List.mem_map_of_mem hmem),
      List.nil_subset _⟩

/-- Prefixes of 32 bytes are their own blocks. -/
theorem stemBlock_eq_iff {w : Bytes} (hw : w.length = 32) {d : Digest} :
    stemBlock w = d ↔ w = d.val := by
  rw [show stemBlock w = ⟨w, hw⟩ from BytesN.copyFrom_val ⟨w, hw⟩, Subtype.ext_iff]

/-- **The inputs of the sides are different**, and so are their answers: no two sides have a stem
in common, and of the stems at most one has a prefix that is not its own block. -/
theorem nodup_sideProgram (root : Digest) {k : Bytes}
    (hsides : ∀ a ∈ sides, IsSide (some geminiStart) x a)
    (hkind : ∀ a ∈ sides, ∀ q ∈ a.1.2.leaves, q.1 = k ∨
      (q.1.length = 32 ∧ q.1 ≠ (stemBlock k).val))
    (hdisjoint : sides.Pairwise fun a a' => List.Disjoint a.1.2.leaves a'.1.2.leaves)
    (hdistinct : sides.Pairwise fun a a' => a.1.1 ≠ geminiStart → a.1.1 ≠ a'.1.1) :
    ((sideProgram root sides).map Prod.fst).Nodup ∧
      ((sideProgram root sides).map Prod.snd).Nodup := by
  have hblocks : ∀ w w', (w = k ∨ (w.length = 32 ∧ w ≠ (stemBlock k).val)) →
      (w' = k ∨ (w'.length = 32 ∧ w' ≠ (stemBlock k).val)) → stemBlock w = stemBlock w' →
        w = w' := by
    rintro w w' (rfl | ⟨hlen, hne⟩) (rfl | ⟨hlen', hne'⟩) heq
    · rfl
    · exact absurd ((stemBlock_eq_iff hlen').mp heq.symm) hne'
    · exact absurd ((stemBlock_eq_iff hlen).mp heq) hne
    · rw [(stemBlock_eq_iff hlen).mp heq, ← (stemBlock_eq_iff hlen').mp rfl]
  constructor
  · rw [sideProgram, List.Nodup, List.pairwise_map, List.pairwise_filterMap]
    refine hdisjoint.imp_of_mem fun {a a'} ha ha' hleaves => ?_
    rcases hsides a ha with ⟨-, hside⟩ | ⟨-, w, -, hside⟩
    · rw [hside]
      rintro _ ⟨⟩
    · rcases hsides a' ha' with ⟨-, hside'⟩ | ⟨-, w', -, hside'⟩
      · rw [hside']
        rintro _ _ _ ⟨⟩
      · have hw := hkind a ha (w, filledStem x) (by
          rw [hside]
          exact List.mem_cons_self)
        have hw' := hkind a' ha' (w', filledStem x) (by
          rw [hside']
          exact List.mem_cons_self)
        rw [hside, hside'] at hleaves ⊢
        rintro _ ⟨⟩ _ ⟨⟩ heq
        obtain rfl := hblocks w w' hw hw' (Query.compress.inj heq).1
        exact hleaves List.mem_cons_self List.mem_cons_self
  · rw [sideProgram, List.Nodup, List.pairwise_map, List.pairwise_filterMap]
    refine hdistinct.imp_of_mem fun {a a'} ha ha' hne => ?_
    rcases hsides a ha with ⟨-, hside⟩ | ⟨hstart, w, -, hside⟩
    · rw [hside]
      rintro _ ⟨⟩
    · rcases hsides a' ha' with ⟨-, hside'⟩ | ⟨-, w', -, hside'⟩
      · rw [hside']
        rintro _ _ _ ⟨⟩
      · rw [hside, hside']
        rintro _ ⟨⟩ _ ⟨⟩
        exact hne fun heq => hstart (congrArg some heq)

end

/-! ## Trees along a path -/

/-- The directions of a path. -/
def directed (path : List (Digest × UInt8)) : List (Digest × Bool) :=
  path.map fun x => (x.1, x.2 != 0)

/-- **A tree is hashed by the climb along a path**, from the node at its end. -/
theorem hash_levels (hasher : ModeHasher) (base : Pbt.Node) {levels : List (Pbt.Node × Bool)}
    {path : List (Digest × UInt8)}
    (h : levels.map (fun l => ((contentHashLog hasher l.1).val, l.2)) = (directed path).reverse) :
    (contentHashLog hasher (spine base levels)).val = (climbLog hasher.primitives hasher.mode
        (contentHashLog hasher base).val path).val ∧
      (contentHashLog hasher (spine base levels)).queries ⊆
        (contentHashLog hasher base).queries ++
          (levels.flatMap (fun l => (contentHashLog hasher l.1).queries) ++
            (climbLog hasher.primitives hasher.mode (contentHashLog hasher base).val
              path).queries) := by
  induction levels generalizing path with
  | nil =>
      obtain rfl : path = [] := by
        rw [List.map_nil, eq_comm, List.reverse_eq_nil_iff] at h
        exact List.map_eq_nil_iff.mp h
      exact ⟨rfl, List.subset_append_left _ _⟩
  | cons l levels ih =>
      obtain ⟨side, b⟩ := l
      rcases List.eq_nil_or_concat' path with rfl | ⟨path, ⟨σ, bit⟩, rfl⟩
      · cases h
      rw [directed, List.map_append, List.map_singleton, List.reverse_append,
        List.reverse_singleton, List.singleton_append, List.map_cons, List.cons.injEq,
        Prod.mk.injEq] at h
      obtain ⟨⟨hside, hbit⟩, hrest⟩ := h
      obtain ⟨hval, hqueries⟩ := ih hrest
      obtain ⟨hlast, hlastQueries⟩ := climbLog_concat hasher.primitives hasher.mode
        (contentHashLog hasher base).val path σ bit
      rw [hlast, hlastQueries, ← hval]
      subst hside
      by_cases hzero : bit = 0
      · subst hzero
        obtain rfl : b = false := hbit
        obtain ⟨hnode, hnodeQueries⟩ := contentHashLog_internalNode hasher (spine base levels) side
        refine ⟨hnode, ?_⟩
        show (contentHashLog hasher (.internalNode (spine base levels) side)).queries ⊆ _
        rw [hnodeQueries]
        intro q hq
        have hparts := @hqueries q
        simp only [List.flatMap_cons, List.mem_append, List.mem_singleton] at hq hparts ⊢
        rw [levelQuery, if_pos rfl]
        tauto
      · obtain rfl : b = true := hbit.trans (bne_iff_ne.mpr hzero)
        obtain ⟨hnode, hnodeQueries⟩ := contentHashLog_internalNode hasher side (spine base levels)
        rw [levelQuery, if_neg hzero]
        refine ⟨hnode, ?_⟩
        show (contentHashLog hasher (.internalNode side (spine base levels))).queries ⊆ _
        rw [hnodeQueries]
        intro q hq
        have hparts := @hqueries q
        simp only [List.flatMap_cons, List.mem_append, List.mem_singleton] at hq hparts ⊢
        tauto

end PbtRs
