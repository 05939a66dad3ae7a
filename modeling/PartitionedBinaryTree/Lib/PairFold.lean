/-
# Folding a list by pairs

A list is folded level by level: two neighbours are compressed into one until a
single element is left (`foldWhile`).  The compressor is a function on inputs
that are made of two elements, so that a fold records what it compresses.

Each level is injective up to a collision among its inputs (`foldPairs_inj`), and
so is the fold of a list whose length is a power of two (`foldWhile_inj`).
-/
import Mathlib.Tactic.Ring
import PartitionedBinaryTree.Lib.QueryLog

namespace PairFold

variable {ι δ : Type} {answer : ι → δ} {pair : δ → δ → ι}

/-- One level: two neighbours become one, and an odd last element is dropped. -/
def foldPairs (answer : ι → δ) (pair : δ → δ → ι) : List δ → Logged ι (List δ)
  | [] => pure []
  | [_] => pure []
  | left :: right :: rest => do
      let parent ← Logged.query answer (pair left right)
      let parents ← foldPairs answer pair rest
      pure (parent :: parents)

/-- Levels are folded while there is more than one element, `fuel` times at most. -/
def foldWhile (answer : ι → δ) (pair : δ → δ → ι) : ℕ → List δ → Logged ι (List δ)
  | 0, level => pure level
  | fuel + 1, level =>
      if level.length > 1 then do
        let next ← foldPairs answer pair level
        foldWhile answer pair fuel next
      else pure level

theorem val_foldPairs_cons (left right : δ) (rest : List δ) :
    (foldPairs answer pair (left :: right :: rest)).val =
      answer (pair left right) :: (foldPairs answer pair rest).val := rfl

theorem queries_foldPairs_cons (left right : δ) (rest : List δ) :
    (foldPairs answer pair (left :: right :: rest)).queries =
      pair left right :: (foldPairs answer pair rest).queries := by
  simp [foldPairs]

/-- A level has half as many elements as the one below it. -/
theorem length_foldPairs (level : List δ) :
    (foldPairs answer pair level).val.length = level.length / 2 := by
  induction level using foldPairs.induct with
  | case1 => simp [foldPairs]
  | case2 x => simp [foldPairs]
  | case3 left right rest ih =>
      rw [val_foldPairs_cons, List.length_cons, ih, List.length_cons, List.length_cons]
      omega

/-- **One level**: equal levels come from equal levels below, or two inputs collide. -/
theorem foldPairs_inj (hpair : ∀ a b c d, pair a b = pair c d → a = c ∧ b = d) {xs ys : List δ}
    (hlen : xs.length = ys.length) (heven : 2 ∣ xs.length)
    (h : (foldPairs answer pair xs).val = (foldPairs answer pair ys).val) :
    xs = ys ∨ Collision answer
      ((foldPairs answer pair xs).queries ++ (foldPairs answer pair ys).queries) := by
  induction xs using foldPairs.induct generalizing ys with
  | case1 => exact Or.inl (List.length_eq_zero_iff.mp hlen.symm).symm
  | case2 x => simp at heven
  | case3 a b xs ih =>
      match ys, hlen with
      | c :: d :: ys, hlen =>
          rw [val_foldPairs_cons, val_foldPairs_cons] at h
          rw [queries_foldPairs_cons, queries_foldPairs_cons]
          obtain ⟨hhead, htail⟩ := List.cons.inj h
          -- the two first inputs, then the rest of the level
          obtain heq | hcol := eq_or_collision (List.mem_append_left _ List.mem_cons_self)
            (List.mem_append_right _ List.mem_cons_self) hhead
          · obtain ⟨rfl, rfl⟩ := hpair _ _ _ _ heq
            have hlen' : xs.length = ys.length := by simpa using hlen
            have heven' : 2 ∣ xs.length := by
              rw [List.length_cons, List.length_cons] at heven
              omega
            rcases ih hlen' heven' htail with rfl | hcol
            · exact Or.inl rfl
            · exact Or.inr (hcol.mono_append (List.subset_cons_self _ _)
                (List.subset_cons_self _ _))
          · exact Or.inr hcol

/-- A list of one element is folded. -/
theorem foldWhile_of_length_eq_one (fuel : ℕ) {level : List δ} (h : level.length = 1) :
    foldWhile answer pair fuel level = pure level := by
  cases fuel with
  | zero => rfl
  | succ fuel => rw [foldWhile, if_neg (by omega)]

/-- A longer list is folded by one level first. -/
theorem foldWhile_succ (fuel : ℕ) {level : List δ} (h : 1 < level.length) :
    foldWhile answer pair (fuel + 1) level = (foldPairs answer pair level >>= fun next =>
      foldWhile answer pair fuel next) := if_pos h

/-- One level of a list whose length is a power of two. -/
theorem length_foldPairs_pow {k : ℕ} {level : List δ} (h : level.length = 2 ^ (k + 1)) :
    1 < level.length ∧ (foldPairs answer pair level).val.length = 2 ^ k := by
  have hpos : 0 < 2 ^ k := Nat.two_pow_pos k
  rw [length_foldPairs, h, pow_succ]
  omega

/-- The fold of a list whose length is a power of two is one element. -/
theorem length_foldWhile {k fuel : ℕ} (hfuel : k ≤ fuel) {level : List δ}
    (h : level.length = 2 ^ k) : (foldWhile answer pair fuel level).val.length = 1 := by
  induction k generalizing fuel level with
  | zero =>
      rw [foldWhile_of_length_eq_one fuel h]
      exact h
  | succ k ih =>
      obtain ⟨fuel, rfl⟩ : ∃ n, fuel = n + 1 := ⟨fuel - 1, by omega⟩
      obtain ⟨hlong, hhalf⟩ := length_foldPairs_pow h
      rw [foldWhile_succ fuel hlong]
      exact ih (by omega) hhalf

/-- **The whole fold**: lists of one length, a power of two, with one root are equal, or two
inputs collide.  The induction is on the number of levels. -/
theorem foldWhile_inj (hpair : ∀ a b c d, pair a b = pair c d → a = c ∧ b = d) {k fuel : ℕ}
    (hfuel : k ≤ fuel) {xs ys : List δ} (hx : xs.length = 2 ^ k) (hy : ys.length = 2 ^ k)
    (h : (foldWhile answer pair fuel xs).val = (foldWhile answer pair fuel ys).val) :
    xs = ys ∨ Collision answer
      ((foldWhile answer pair fuel xs).queries ++ (foldWhile answer pair fuel ys).queries) := by
  induction k generalizing fuel xs ys with
  | zero =>
      rw [foldWhile_of_length_eq_one fuel hx, foldWhile_of_length_eq_one fuel hy] at h
      exact Or.inl h
  | succ k ih =>
      obtain ⟨fuel, rfl⟩ : ∃ n, fuel = n + 1 := ⟨fuel - 1, by omega⟩
      obtain ⟨hlongx, hhalfx⟩ := length_foldPairs_pow hx
      obtain ⟨hlongy, hhalfy⟩ := length_foldPairs_pow hy
      rw [foldWhile_succ fuel hlongx, foldWhile_succ fuel hlongy] at h ⊢
      rw [Logged.queries_bind, Logged.queries_bind]
      have heven : 2 ∣ xs.length := by
        rw [hx, pow_succ]
        exact Nat.dvd_mul_left 2 _
      -- equal roots of the next levels, so equal next levels, so equal levels
      rcases ih (by omega) hhalfx hhalfy h with hnext | hcol
      · exact (foldPairs_inj hpair (hx.trans hy.symm) heven hnext).imp_right fun hcol =>
          hcol.mono_append (List.subset_append_left _ _) (List.subset_append_left _ _)
      · exact Or.inr (hcol.mono_append (List.subset_append_right _ _)
          (List.subset_append_right _ _))

/-! ## Level by level -/

/-- The first `n` levels. -/
def foldLevels (answer : ι → δ) (pair : δ → δ → ι) : ℕ → List δ → Logged ι (List δ)
  | 0, level => pure level
  | n + 1, level => do
      let next ← foldPairs answer pair level
      foldLevels answer pair n next

/-- A list whose length is a power of two is folded by as many levels. -/
theorem foldWhile_eq_foldLevels {k fuel : ℕ} (hfuel : k ≤ fuel) {level : List δ}
    (h : level.length = 2 ^ k) :
    foldWhile answer pair fuel level = foldLevels answer pair k level := by
  induction k generalizing fuel level with
  | zero => exact foldWhile_of_length_eq_one fuel h
  | succ k ih =>
      obtain ⟨fuel, rfl⟩ : ∃ n, fuel = n + 1 := ⟨fuel - 1, by omega⟩
      obtain ⟨hlong, hhalf⟩ : 1 < level.length ∧
          (foldPairs answer pair level).val.length = 2 ^ k := length_foldPairs_pow h
      have hrest := ih (show k ≤ fuel by omega) hhalf
      rw [foldWhile_succ fuel hlong, foldLevels]
      exact congrArg (fun rest => Logged.mk rest.val
        ((foldPairs answer pair level).queries ++ rest.queries)) hrest

theorem val_foldLevels_succ (n : ℕ) (level : List δ) :
    (foldLevels answer pair (n + 1) level).val =
      (foldLevels answer pair n (foldPairs answer pair level).val).val := rfl

theorem queries_foldLevels_succ (n : ℕ) (level : List δ) :
    (foldLevels answer pair (n + 1) level).queries = (foldPairs answer pair level).queries ++
      (foldLevels answer pair n (foldPairs answer pair level).val).queries := rfl

/-- The inputs of a level are pairs of its elements. -/
theorem mem_queries_foldPairs {level : List δ} {q : ι}
    (h : q ∈ (foldPairs answer pair level).queries) :
    ∃ a ∈ level, ∃ b ∈ level, q = pair a b := by
  induction level using foldPairs.induct with
  | case1 => cases h
  | case2 x => cases h
  | case3 a b rest ih =>
      rw [queries_foldPairs_cons] at h
      rcases List.mem_cons.mp h with rfl | h
      · exact ⟨a, List.mem_cons_self, b, List.mem_cons_of_mem _ List.mem_cons_self, rfl⟩
      · obtain ⟨x, hx, y, hy, rfl⟩ := ih h
        exact ⟨x, List.mem_cons_of_mem _ (List.mem_cons_of_mem _ hx), y,
          List.mem_cons_of_mem _ (List.mem_cons_of_mem _ hy), rfl⟩

/-- The elements of the next level are the values of its inputs. -/
theorem exists_query_of_mem_val_foldPairs {level : List δ} {d : δ}
    (h : d ∈ (foldPairs answer pair level).val) :
    ∃ q ∈ (foldPairs answer pair level).queries, answer q = d := by
  induction level using foldPairs.induct with
  | case1 => cases h
  | case2 x => cases h
  | case3 a b rest ih =>
      rw [val_foldPairs_cons] at h
      rw [queries_foldPairs_cons, List.exists_mem_cons_iff]
      rcases List.mem_cons.mp h with rfl | h
      · exact Or.inl rfl
      · exact Or.inr (ih h)

/-- The inputs of the levels are pairs of given elements and of values. -/
theorem mem_queries_foldLevels {n : ℕ} {level : List δ} {q : ι}
    (h : q ∈ (foldLevels answer pair n level).queries) :
    ∃ a b, q = pair a b ∧
      (∀ d ∈ [a, b], d ∈ level ∨ ∃ x ∈ (foldLevels answer pair n level).queries, answer x = d) := by
  induction n generalizing level with
  | zero => cases h
  | succ n ih =>
      rw [queries_foldLevels_succ] at h ⊢
      rcases List.mem_append.mp h with h | h
      · obtain ⟨a, ha, b, hb, rfl⟩ := mem_queries_foldPairs h
        refine ⟨a, b, rfl, fun d hd => Or.inl ?_⟩
        rcases List.mem_pair.mp hd with rfl | rfl
        · exact ha
        · exact hb
      · obtain ⟨a, b, rfl, hparts⟩ := ih h
        refine ⟨a, b, rfl, fun d hd => Or.inr ?_⟩
        rcases hparts d hd with hlevel | ⟨x, hx, hval⟩
        · obtain ⟨x, hx, hval⟩ := exists_query_of_mem_val_foldPairs hlevel
          exact ⟨x, List.mem_append_left _ hx, hval⟩
        · exact ⟨x, List.mem_append_right _ hx, hval⟩

theorem length_queries_foldPairs (level : List δ) :
    (foldPairs answer pair level).queries.length = level.length / 2 := by
  induction level using foldPairs.induct with
  | case1 => simp [foldPairs]
  | case2 x => simp [foldPairs]
  | case3 left right rest ih =>
      rw [queries_foldPairs_cons, List.length_cons, ih, List.length_cons, List.length_cons]
      omega

theorem length_queries_foldLevels (n : ℕ) (level : List δ) :
    (foldLevels answer pair n level).queries.length ≤ level.length := by
  induction n generalizing level with
  | zero => exact Nat.zero_le _
  | succ n ih =>
      have hrest := ih (foldPairs answer pair level).val
      rw [length_foldPairs] at hrest
      rw [queries_foldLevels_succ, List.length_append, length_queries_foldPairs]
      omega

/-- A level depends on what its inputs are answered with. -/
theorem foldPairs_congr {answer' : ι → δ} {level : List δ}
    (h : ∀ q ∈ (foldPairs answer pair level).queries, answer' q = answer q) :
    foldPairs answer' pair level = foldPairs answer pair level := by
  induction level using foldPairs.induct with
  | case1 => rfl
  | case2 x => rfl
  | case3 left right rest ih =>
      rw [queries_foldPairs_cons] at h
      obtain ⟨hhead, hrest⟩ := List.forall_mem_cons.mp h
      rw [foldPairs, foldPairs, ih hrest, Logged.query, Logged.query, hhead]

theorem foldLevels_congr {answer' : ι → δ} {n : ℕ} {level : List δ}
    (h : ∀ q ∈ (foldLevels answer pair n level).queries, answer' q = answer q) :
    foldLevels answer' pair n level = foldLevels answer pair n level := by
  induction n generalizing level with
  | zero => rfl
  | succ n ih =>
      rw [queries_foldLevels_succ] at h
      have hlevel : foldPairs answer' pair level = foldPairs answer pair level :=
        foldPairs_congr fun q hq => h q (List.mem_append_left _ hq)
      have hrest := ih fun q hq => h q (List.mem_append_right _ hq)
      rw [foldLevels, foldLevels, hlevel]
      exact congrArg (fun rest => Logged.mk rest.val
        ((foldPairs answer pair level).queries ++ rest.queries)) hrest

/-! ## A list that is constant but for its head -/

/-- `2 ^ k` elements, all but the first one equal. -/
def spike (k : ℕ) (w z : δ) : List δ := w :: List.replicate (2 ^ k - 1) z

theorem length_spike (k : ℕ) (w z : δ) : (spike k w z).length = 2 ^ k := by
  have hpos : 0 < 2 ^ k := Nat.two_pow_pos k
  rw [spike, List.length_cons, List.length_replicate]
  omega

/-- The root of its fold: two elements a level. -/
def spikeRoot (answer : ι → δ) (pair : δ → δ → ι) : ℕ → δ → δ → δ
  | 0, w, _ => w
  | k + 1, w, z => spikeRoot answer pair k (answer (pair w z)) (answer (pair z z))

/-- The inputs of its fold: two a level. -/
def spikeQueries (answer : ι → δ) (pair : δ → δ → ι) : ℕ → δ → δ → List ι
  | 0, _, _ => []
  | k + 1, w, z =>
      pair w z :: pair z z :: spikeQueries answer pair k (answer (pair w z)) (answer (pair z z))

/-- One level of a constant list. -/
theorem foldPairs_replicate (answer : ι → δ) (pair : δ → δ → ι) (m : ℕ) (z : δ) :
    (foldPairs answer pair (List.replicate (2 * m) z)).val =
      List.replicate m (answer (pair z z)) ∧
    (foldPairs answer pair (List.replicate (2 * m) z)).queries = List.replicate m (pair z z) := by
  induction m with
  | zero => exact ⟨rfl, rfl⟩
  | succ m ih =>
      have hcons : List.replicate (2 * (m + 1)) z = z :: z :: List.replicate (2 * m) z := rfl
      rw [hcons, val_foldPairs_cons, queries_foldPairs_cons, ih.1, ih.2]
      exact ⟨rfl, rfl⟩

/-- One level of the list. -/
theorem foldPairs_spike (answer : ι → δ) (pair : δ → δ → ι) (k : ℕ) (w z : δ) :
    (foldPairs answer pair (spike (k + 1) w z)).val =
      spike k (answer (pair w z)) (answer (pair z z)) ∧
    (foldPairs answer pair (spike (k + 1) w z)).queries ⊆ [pair w z, pair z z] := by
  have hcons : spike (k + 1) w z = w :: z :: List.replicate (2 * (2 ^ k - 1)) z := by
    have hpos : 0 < 2 ^ k := Nat.two_pow_pos k
    rw [spike, pow_succ, show 2 ^ k * 2 - 1 = 2 * (2 ^ k - 1) + 1 by omega, List.replicate_succ]
  obtain ⟨hval, hqueries⟩ := foldPairs_replicate answer pair (2 ^ k - 1) z
  rw [hcons, val_foldPairs_cons, queries_foldPairs_cons, hval, hqueries]
  refine ⟨rfl, List.cons_subset_cons _ fun q hq => ?_⟩
  exact List.mem_singleton.mpr (List.eq_of_mem_replicate hq)

/-- **The fold of the list.** -/
theorem foldWhile_spike (answer : ι → δ) (pair : δ → δ → ι) {k fuel : ℕ} (hfuel : k ≤ fuel)
    (w z : δ) :
    (foldWhile answer pair fuel (spike k w z)).val = [spikeRoot answer pair k w z] ∧
      (foldWhile answer pair fuel (spike k w z)).queries ⊆ spikeQueries answer pair k w z := by
  induction k generalizing fuel w z with
  | zero =>
      rw [foldWhile_of_length_eq_one fuel rfl]
      exact ⟨rfl, List.nil_subset _⟩
  | succ k ih =>
      obtain ⟨fuel, rfl⟩ : ∃ n, fuel = n + 1 := ⟨fuel - 1, by omega⟩
      obtain ⟨hval, hqueries⟩ := foldPairs_spike answer pair k w z
      obtain ⟨hroot, hrest⟩ := ih (show k ≤ fuel by omega) (answer (pair w z)) (answer (pair z z))
      have hlong : 1 < (spike (k + 1) w z).length := by
        have hpos : 0 < 2 ^ k := Nat.two_pow_pos k
        rw [length_spike, pow_succ]
        omega
      rw [foldWhile_succ fuel hlong, Logged.val_bind, Logged.queries_bind, hval]
      refine ⟨hroot, List.append_subset.mpr ⟨?_, ?_⟩⟩
      · exact List.Subset.trans hqueries (List.subset_append_left _ _)
      · exact List.Subset.trans hrest (List.subset_append_right [_, _] _)

end PairFold
