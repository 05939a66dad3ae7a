/-
# Climbs for forged proofs

The walk of `verify_proof` back up to the root hashes one string for each level.  Below a digest
that occurs in no string so far, every string of the walk is new, and a hash function may be
given any digest there: a fresh one at each level (`exists_climb`), and at the last level one
that is prescribed (`exists_climb_to`).
-/
import PartitionedBinaryTree.Lib.Programming
import PartitionedBinaryTree.ProofReadings

namespace Pbt

open Node BitTrie

/-! ## Climbs through new strings -/

variable {H : HashFunction}

/-- A fresh digest makes a level a new string. -/
theorem stepPayload_not_mem {c : Digest} {qs : List Bytes} (h : Fresh c.val qs) (σ : Bytes)
    (b : ℤ) : stepPayload c σ b ∉ qs := by
  unfold stepPayload
  split_ifs
  · exact h.append_not_mem σ
  · exact h.prepend_not_mem σ

/-- **A climb through new strings.**  From a fresh digest on, a hash function may be changed
outside the strings of a list, so that the climb hashes new strings only, none of them in `kept`
or to a digest in `taken`, ends at a fresh digest, and no two strings collide. -/
theorem exists_climb (kept : List Bytes) (taken : List Digest) (path : List (Bytes × ℤ))
    {H : HashFunction} {used : List Bytes} {c : Digest} (hcol : ¬ Collision H used)
    (hfresh : Fresh c.val (used ++ kept))
    (hsize : 3 * (used.length + kept.length + taken.length + path.length) < 256 ^ 32) :
    ∃ H' : HashFunction, (∀ x ∈ used, H' x = H x) ∧
      ¬ Collision H' ((climb H' c path).queries ++ used) ∧
      Fresh (climb H' c path).val.val ((climb H' c path).queries ++ used ++ kept) ∧
      (∀ x ∈ (climb H' c path).queries, x ∉ kept ∧ H' x ∉ taken) ∧
      (climb H' c path).queries.length = path.length := by
  induction path generalizing H used c with
  | nil => exact ⟨H, fun _ _ => rfl, hcol, hfresh, by simp [climb], rfl⟩
  | cons y path ih =>
      obtain ⟨σ, b⟩ := y
      have hnew := stepPayload_not_mem hfresh σ b
      generalize hm : stepPayload c σ b = m at hnew
      obtain ⟨hused, hkept⟩ := not_or.mp (mt List.mem_append.mpr hnew)
      rw [List.length_cons] at hsize
      have hroom : 2 * (m :: used ++ kept).length + (used.map H ++ taken).length < 256 ^ 32 := by
        simp only [List.length_append, List.length_cons, List.length_map]
        omega
      obtain ⟨c', hc', htaken⟩ := exists_fresh _ _ hroom
      simp only [List.mem_append, not_or] at htaken
      have hcolNew := not_collision_update hcol hused htaken.1
      obtain ⟨H', hsame, hcol', hfresh', hclimb, hlength⟩ := ih hcolNew hc' (by
        rw [List.length_cons]
        omega)
      have hval : H' m = c' := by
        rw [hsame m List.mem_cons_self, Function.update_self]
      have hsteps : climb H' c ((σ, b) :: path) =
          ⟨(climb H' c' path).val, m :: (climb H' c' path).queries⟩ := by
        rw [climb, climbStep_eq, hm, ← hval]
        rfl
      refine ⟨H', fun x hx => ?_, ?_, ?_, ?_, ?_⟩
      · rw [hsame x (List.mem_cons_of_mem m hx), update_of_mem hused c' x hx]
      · rw [hsteps]
        exact fun h => hcol' (h.mono (by simp))
      · rw [hsteps]
        exact hfresh'.mono (by simp)
      · rw [hsteps]
        rintro x hx
        rcases List.mem_cons.mp hx with rfl | hx
        · exact ⟨hkept, hval ▸ htaken.2⟩
        · exact hclimb x hx
      · rw [hsteps, List.length_cons, List.length_cons, hlength]

/-! ## Climbs in parts -/

theorem climb_append (H : HashFunction) (c : Digest) (path path' : List (Bytes × ℤ)) :
    climb H c (path ++ path') = climb H c path >>= fun c' => climb H c' path' := by
  induction path generalizing c with
  | nil => rfl
  | cons x path ih =>
      obtain ⟨σ, b⟩ := x
      simp only [List.cons_append, climb, ih, bind_assoc]

/-- A climb depends on the digests of the strings that it hashes. -/
theorem climb_congr {H H' : HashFunction} {c : Digest} {path : List (Bytes × ℤ)}
    (h : ∀ x ∈ (climb H c path).queries, H' x = H x) : climb H' c path = climb H c path := by
  induction path generalizing c with
  | nil => rfl
  | cons x path ih =>
      obtain ⟨σ, b⟩ := x
      simp only [climb, climbStep_eq, Logged.queries_bind, queries_treeHash, val_treeHash,
        List.singleton_append, List.forall_mem_cons] at h
      have hstep : treeHash H' (stepPayload c σ b) = treeHash H (stepPayload c σ b) := by
        rw [treeHash, treeHash, Logged.query, Logged.query, h.1]
      simp only [climb, climbStep_eq, hstep]
      show Logged.mk (climb H' (H (stepPayload c σ b)) path).val
        (_ ++ (climb H' (H (stepPayload c σ b)) path).queries) = _
      rw [ih h.2]
      rfl

/-- What a level of a tree hashes. -/
theorem mem_queries_spine_cons (H : HashFunction) (base side : Node) (b : Bool)
    (levels : List (Node × Bool)) (q : Bytes) :
    q ∈ (nodeHash H (spine base ((side, b) :: levels))).queries ↔
      q ∈ (nodeHash H (spine base levels)).queries ∨ q ∈ (nodeHash H side).queries ∨
        q = nodePayload H (spine base ((side, b) :: levels)) := by
  cases b
  · simp [spine, nodeHash, nodePayload]
  · simp [spine, nodeHash, nodePayload, or_left_comm]

/-- The root of a tree is reached by the climb along a path, from the node at its end. -/
theorem hash_spine (H : HashFunction) (base : Node) {levels : List (Node × Bool)}
    {upper : List (Bytes × ℤ)} (hsides : sideDigests H levels = trunk upper)
    (hlen : (trunk upper).length = upper.length) :
    (nodeHash H (spine base levels)).val = (climb H (nodeHash H base).val upper.reverse).val ∧
    (nodeHash H (spine base levels)).queries ⊆ (nodeHash H base).queries ++
      (levels.flatMap (fun x => (nodeHash H x.1).queries) ++
        (climb H (nodeHash H base).val upper.reverse).queries) := by
  induction upper generalizing levels with
  | nil =>
      obtain rfl : levels = [] := List.map_eq_nil_iff.mp hsides
      exact ⟨rfl, List.subset_append_left _ _⟩
  | cons x upper ih =>
      obtain ⟨σ, b⟩ := x
      have hσ : σ.length = 32 := by
        by_contra hσ
        rw [trunk_cons_of_ne hσ] at hlen
        cases hlen
      rw [trunk_cons_of_length hσ] at hsides hlen
      obtain ⟨⟨side, b'⟩, levels, rfl, hside, hrest⟩ := List.map_eq_cons_iff.mp hsides
      obtain ⟨hdigest, hb'⟩ := Prod.mk.inj hside
      obtain ⟨hval, hqueries⟩ := ih hrest (Nat.succ.inj hlen)
      obtain ⟨hclimb, hclimbQueries⟩ :=
        climb_concat (H := H) (nodeHash H base).val upper.reverse σ b
      rw [List.reverse_cons, hclimb, hclimbQueries, climbStep_eq, val_treeHash, queries_treeHash,
        ← hval]
      have hstep : nodePayload H (spine base ((side, b') :: levels)) =
          stepPayload (nodeHash H (spine base levels)).val σ b := by
        have hσ' : (nodeHash H side).val.val = σ := congrArg Subtype.val hdigest
        rw [show b' = (b != 0) from hb', ← hσ', stepPayload]
        by_cases hb : b = 0
        · rw [if_pos hb, hb]
          rfl
        · rw [if_neg hb, bne_iff_ne.mpr hb]
          rfl
      rw [val_nodeHash, hstep]
      refine ⟨rfl, fun q hq => ?_⟩
      rw [mem_queries_spine_cons, hstep] at hq
      simp only [List.flatMap_cons, List.mem_append, List.mem_singleton]
      rcases hq with hq | hq | hq
      · have hparts := hqueries hq
        simp only [List.mem_append] at hparts
        tauto
      · tauto
      · tauto

/-- A climb from a new string. -/
theorem exists_climb_from {H : HashFunction} {used : List Bytes} {start : Bytes}
    (path : List (Bytes × ℤ)) (hcol : ¬ Collision H used) (hstart : start ∉ used)
    (hsize : 3 * (used.length + path.length + 1) < 256 ^ 32) :
    ∃ H' : HashFunction, (∀ x ∈ used, H' x = H x) ∧
      ¬ Collision H' ((climb H' (H' start) path).queries ++ start :: used) := by
  have hroom : 2 * (start :: used).length + (used.map H).length < 256 ^ 32 := by
    simp only [List.length_cons, List.length_map]
    omega
  obtain ⟨c, hfresh, htaken⟩ := exists_fresh _ _ hroom
  obtain ⟨H', hsame, hcol', -⟩ := exists_climb [] [] path
    (not_collision_update hcol hstart htaken) (by rwa [List.append_nil]) (by
      simp only [List.length_cons, List.length_nil]
      omega)
  have hval : H' start = c := by
    rw [hsame start List.mem_cons_self, Function.update_self]
  refine ⟨H', fun x hx => ?_, ?_⟩
  · rw [hsame x (List.mem_cons_of_mem _ hx), update_of_mem hstart c x hx]
  · rwa [hval]

/-- **A climb from a new string to a given digest**, past a string that is not hashed. -/
theorem exists_climb_to {H : HashFunction} {used : List Bytes} {start kept : Bytes} {c : Digest}
    (path : List (Bytes × ℤ)) (hcol : ¬ Collision H used) (hstart : start ∉ used)
    (hkept : kept ∉ used) (hne : start ≠ kept) (hc : c ∉ used.map H)
    (hsize : 3 * (used.length + path.length + 3) < 256 ^ 32) :
    ∃ H' : HashFunction, (∀ x ∈ used, H' x = H x) ∧ (climb H' (H' start) path).val = c ∧
      ¬ Collision H' (start :: (climb H' (H' start) path).queries ++ used) ∧
      kept ∉ (start :: (climb H' (H' start) path).queries ++ used) ∧
      (climb H' (H' start) path).queries.length = path.length := by
  rcases List.eq_nil_or_concat' path with rfl | ⟨path, ⟨σ, b⟩, rfl⟩
  · -- the first string has the digest
    refine ⟨Function.update H start c, update_of_mem hstart c, Function.update_self _ _ _,
      not_collision_update hcol hstart hc, ?_, rfl⟩
    exact List.not_mem_cons_of_ne_of_not_mem hne.symm hkept
  · -- the last string has the digest, the first one a fresh digest
    rw [List.length_append, List.length_singleton] at hsize
    have hroom : 2 * (start :: used ++ [kept]).length + (used.map H ++ [c]).length < 256 ^ 32 := by
      simp only [List.length_append, List.length_cons, List.length_map, List.length_nil]
      omega
    obtain ⟨c₁, hfresh, htaken⟩ := exists_fresh _ _ hroom
    simp only [List.mem_append, List.mem_singleton, not_or] at htaken
    obtain ⟨H₁, hsame₁, hcol₁, hfresh₁, hclimb₁, hlen₁⟩ := exists_climb [kept] [c] path
      (not_collision_update hcol hstart htaken.1) hfresh (by
        simp only [List.length_cons, List.length_nil]
        omega)
    have hval₁ : H₁ start = c₁ := by
      rw [hsame₁ start List.mem_cons_self, Function.update_self]
    have hnew := stepPayload_not_mem hfresh₁ σ b
    obtain ⟨hlast, hlastKept⟩ := not_or.mp (mt List.mem_append.mpr hnew)
    have hfree : c ∉ ((climb H₁ c₁ path).queries ++ start :: used).map H₁ := by
      simp only [List.map_append, List.map_cons, List.mem_append, List.mem_cons, not_or]
      refine ⟨?_, ?_, ?_⟩
      · rintro hmem
        obtain ⟨x, hx, hxc⟩ := List.mem_map.mp hmem
        exact (hclimb₁ x hx).2 (List.mem_singleton.mpr hxc)
      · rw [hval₁]
        exact fun h => htaken.2 h.symm
      · intro hmem
        obtain ⟨x, hx, rfl⟩ := List.mem_map.mp hmem
        refine hc (List.mem_map.mpr ⟨x, hx, ?_⟩)
        rw [hsame₁ x (List.mem_cons_of_mem _ hx), update_of_mem hstart c₁ x hx]
    generalize hm : stepPayload (climb H₁ c₁ path).val σ b = m at *
    have hsame₂ := update_of_mem (f := H₁) hlast c
    have hstart₂ : Function.update H₁ m c start = c₁ := by
      rw [hsame₂ start (List.mem_append_right _ List.mem_cons_self), hval₁]
    have hclimb₂ : climb (Function.update H₁ m c) c₁ path = climb H₁ c₁ path :=
      climb_congr fun x hx => hsame₂ x (List.mem_append_left _ hx)
    have hsteps : climb (Function.update H₁ m c) (Function.update H₁ m c start)
        (path ++ [(σ, b)]) = ⟨c, (climb H₁ c₁ path).queries ++ [m]⟩ := by
      rw [hstart₂, climb_append, hclimb₂]
      show Logged.mk (climb _ (climb H₁ c₁ path).val [(σ, b)]).val
        ((climb H₁ c₁ path).queries ++ (climb _ (climb H₁ c₁ path).val [(σ, b)]).queries) = _
      simp [climb, climbStep_eq, hm]
    refine ⟨Function.update H₁ m c, ?_, ?_, ?_, ?_, ?_⟩
    · intro x hx
      rw [hsame₂ x (List.mem_append_right _ (List.mem_cons_of_mem _ hx)),
        hsame₁ x (List.mem_cons_of_mem _ hx), update_of_mem hstart c₁ x hx]
    · rw [hsteps]
    · rw [hsteps]
      have hcol₂ := not_collision_update hcol₁ hlast hfree
      exact fun h => hcol₂ (h.mono (by intro x; simp; tauto))
    · rw [hsteps]
      intro hmem
      simp only [List.cons_append, List.append_assoc, List.mem_cons, List.mem_append,
        List.not_mem_nil, false_or] at hmem
      rcases hmem with rfl | hmem | rfl | hmem
      · exact hne rfl
      · exact (hclimb₁ kept hmem).1 (List.mem_singleton_self kept)
      · exact hlastKept (List.mem_singleton_self kept)
      · exact hkept hmem
    · rw [hsteps, List.length_append, List.length_append, hlen₁]
      rfl

end Pbt
