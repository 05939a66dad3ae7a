/-
# Folds with new values

A fold by pairs whose inputs are not in use may be given new values, level by level
(`exists_foldLevels`).  Its last level is then in none of its inputs.
-/
import PartitionedBinaryTree.Lib.PairFold
import PartitionedBinaryTree.Lib.Programming

namespace PairFold

variable {ι δ : Type} [DecidableEq ι] {pair : δ → δ → ι} {size : ℕ}

/-- **One level with new values.** -/
theorem exists_foldPairs (hsupply : Supply δ size) {f : ι → δ} {used : List ι}
    (hf : ¬ Collision f used) (avoid : List δ) {level : List δ}
    (hnew : ∀ a ∈ level, ∀ b, pair a b ∉ used)
    (hsize : used.length + avoid.length + level.length < size) :
    ∃ g, Extends f used g ((foldPairs g pair level).queries ++ used) ∧
      ∀ q ∈ (foldPairs g pair level).queries, g q ∉ avoid := by
  induction level using foldPairs.induct with
  | case1 => exact ⟨f, ⟨fun _ _ => rfl, List.Subset.refl _, hf⟩, by simp [foldPairs]⟩
  | case2 x => exact ⟨f, ⟨fun _ _ => rfl, List.Subset.refl _, hf⟩, by simp [foldPairs]⟩
  | case3 a b rest ih =>
      rw [List.length_cons, List.length_cons] at hsize
      obtain ⟨g, hg, hvalues⟩ := ih
        (fun x hx => hnew x (List.mem_cons_of_mem _ (List.mem_cons_of_mem _ hx))) (by omega)
      by_cases hasked : pair a b ∈ (foldPairs g pair rest).queries
      · -- the pair has a value already
        refine ⟨g, ⟨hg.agrees, List.subset_append_right _ _, fun h => hg.apart (h.mono ?_)⟩, ?_⟩
        · rw [queries_foldPairs_cons]
          exact List.cons_subset.mpr ⟨List.mem_append_left _ hasked, List.Subset.refl _⟩
        · rw [queries_foldPairs_cons]
          exact List.forall_mem_cons.mpr ⟨hvalues _ hasked, hvalues⟩
      · have hfresh : pair a b ∉ (foldPairs g pair rest).queries ++ used := fun h =>
          (List.mem_append.mp h).elim hasked (hnew a List.mem_cons_self b)
        obtain ⟨d, htaken⟩ := hsupply
          (avoid ++ ((foldPairs g pair rest).queries ++ used).map g) (by
            rw [List.length_append, List.length_map, List.length_append,
              length_queries_foldPairs]
            omega)
        obtain ⟨havoid, hvalue⟩ := not_or.mp (mt List.mem_append.mpr htaken)
        have hmore := hg.trans (.update hg.apart hfresh hvalue)
        have hold := update_of_mem (f := g) hfresh d
        have hrest : foldPairs (Function.update g (pair a b) d) pair rest =
            foldPairs g pair rest :=
          foldPairs_congr fun q hq => hold q (List.mem_append_left _ hq)
        refine ⟨Function.update g (pair a b) d, ?_, ?_⟩
        · rw [queries_foldPairs_cons, hrest]
          exact hmore
        · rw [queries_foldPairs_cons, hrest]
          refine List.forall_mem_cons.mpr ⟨?_, fun q hq => ?_⟩
          · rwa [Function.update_self]
          · rw [hold q (List.mem_append_left _ hq)]
            exact hvalues q hq

/-- **Levels with new values**: none of them is an element in use, and those of the last level
are in no input. -/
theorem exists_foldLevels (hpair : ∀ a b c d, pair a b = pair c d → a = c ∧ b = d)
    (hsupply : Supply δ size) (n : ℕ) (avoid level : List δ) {f : ι → δ} {used : List ι}
    (hf : ¬ Collision f used) (hlevel : level ⊆ avoid) (hused : ∀ a b, pair a b ∈ used → a ∈ avoid)
    (hnew : ∀ a ∈ level, ∀ b, pair a b ∉ used)
    (hsize : used.length + avoid.length + 2 * level.length < size) :
    ∃ g, Extends f used g ((foldLevels g pair n level).queries ++ used) ∧
      (∀ q ∈ (foldLevels g pair n level).queries, g q ∉ avoid) ∧
      (0 < n → ∀ d ∈ (foldLevels g pair n level).val, d ∉ avoid ∧
        ∀ a b, pair a b ∈ (foldLevels g pair n level).queries → d ≠ a ∧ d ≠ b) := by
  induction n generalizing f used avoid level with
  | zero =>
      refine ⟨f, ⟨fun _ _ => rfl, List.Subset.refl _, hf⟩, by simp [foldLevels], fun hn => ?_⟩
      omega
  | succ n ih =>
      obtain ⟨g, hg, hvalues⟩ := exists_foldPairs hsupply hf avoid hnew (by omega)
      have hnext : ∀ d ∈ (foldPairs g pair level).val, d ∉ avoid := by
        intro d hd
        obtain ⟨q, hq, rfl⟩ := exists_query_of_mem_val_foldPairs hd
        exact hvalues q hq
      -- the elements in use are those of this level and of the levels before
      have hinputs : ∀ a b, pair a b ∈ (foldPairs g pair level).queries →
          a ∈ avoid ∧ b ∈ avoid := by
        intro a b h
        obtain ⟨x, hx, y, hy, heq⟩ := mem_queries_foldPairs h
        obtain ⟨rfl, rfl⟩ := hpair _ _ _ _ heq
        exact ⟨hlevel hx, hlevel hy⟩
      have hused' : ∀ a b, pair a b ∈ (foldPairs g pair level).queries ++ used → a ∈ avoid := by
        intro a b h
        rcases List.mem_append.mp h with h | h
        · exact (hinputs a b h).1
        · exact hused a b h
      obtain ⟨k, hk, hrest, hlast⟩ := ih ((foldPairs g pair level).val ++ avoid)
        (foldPairs g pair level).val hg.apart
        (List.subset_append_left _ _) (fun a b h => List.mem_append_right _ (hused' a b h))
        (fun a ha b h => hnext a ha (hused' a b h)) (by
          simp only [List.length_append, length_queries_foldPairs, length_foldPairs]
          omega)
      have hagrees : ∀ q ∈ (foldPairs g pair level).queries, k q = g q :=
        fun q hq => hk.agrees q (List.mem_append_left _ hq)
      have hsame : foldPairs k pair level = foldPairs g pair level := foldPairs_congr hagrees
      have hall := hg.trans hk
      refine ⟨k, ⟨hall.agrees, List.subset_append_right _ _, fun h => hk.apart (h.mono ?_)⟩, ?_, ?_⟩
      · rw [queries_foldLevels_succ, hsame]
        intro q hq
        simp only [List.mem_append] at hq ⊢
        tauto
      · rw [queries_foldLevels_succ, hsame]
        intro q hq
        rcases List.mem_append.mp hq with hq | hq
        · rw [hagrees q hq]
          exact hvalues q hq
        · exact fun h => hrest q hq (List.mem_append_right _ h)
      · rw [queries_foldLevels_succ, val_foldLevels_succ, hsame]
        intro _ d hd
        rcases Nat.eq_zero_or_pos n with rfl | hn
        · refine ⟨hnext d hd, fun a b h => ?_⟩
          rw [foldLevels, Logged.queries_pure, List.append_nil] at h
          obtain ⟨ha, hb⟩ := hinputs a b h
          exact ⟨fun heq => hnext d hd (heq ▸ ha), fun heq => hnext d hd (heq ▸ hb)⟩
        · obtain ⟨havoid, hapart⟩ := hlast hn d hd
          obtain ⟨-, hold⟩ := not_or.mp (mt List.mem_append.mpr havoid)
          refine ⟨hold, fun a b h => ?_⟩
          rcases List.mem_append.mp h with h | h
          · obtain ⟨ha, hb⟩ := hinputs a b h
            exact ⟨fun heq => hold (heq ▸ ha), fun heq => hold (heq ▸ hb)⟩
          · exact hapart a b h

end PairFold
