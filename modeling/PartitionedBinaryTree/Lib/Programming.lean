/-
# Functions with chosen values

A function of which only the values at listed inputs matter may be given these values at
will: at a list of inputs without clashes (`exists_program`), and at one or more inputs
beyond a list (`not_collision_update`, `exists_answers`).

Where the values are strings of `n` bytes, there is one that is not among those taken and
neither begins nor ends the listed strings (`exists_fresh`).  A string that it begins or
ends is then a new input.
-/
import Mathlib.Data.Finset.Card
import Mathlib.Data.List.Pairwise
import PartitionedBinaryTree.Lib.ByteString
import PartitionedBinaryTree.Lib.QueryLog

section Programming

variable {ι δ : Type} [DecidableEq ι] {f : ι → δ} {qs : List ι}

/-- Another value elsewhere. -/
theorem update_of_mem {x : ι} (hx : x ∉ qs) (d : δ) : ∀ y ∈ qs, Function.update f x d y = f y := by
  intro y hy
  refine Function.update_of_ne (fun heq => hx ?_) d f
  rwa [← heq]

/-- **One more input**, with a value that is not taken. -/
theorem not_collision_update {x : ι} {d : δ} (hf : ¬ Collision f qs) (hx : x ∉ qs)
    (hd : d ∉ qs.map f) : ¬ Collision (Function.update f x d) (x :: qs) := by
  have hold := update_of_mem (f := f) hx d
  have hnew : ∀ y ∈ qs, Function.update f x d y ≠ d := fun y hy heq =>
    hd (List.mem_map.mpr ⟨y, hy, (hold y hy).symm.trans heq⟩)
  rintro ⟨y, hy, z, hz, hne, heq⟩
  rcases List.mem_cons.mp hy with rfl | hy'
  · rw [Function.update_self] at heq
    rcases List.mem_cons.mp hz with rfl | hz'
    · exact hne rfl
    · exact hnew z hz' heq.symm
  · rcases List.mem_cons.mp hz with rfl | hz'
    · rw [Function.update_self] at heq
      exact hnew y hy' heq
    · rw [hold y hy', hold z hz'] at heq
      exact hf ⟨y, hy', z, hz', hne, heq⟩

/-- **A list of inputs with values**, equal for equal inputs and different for others. -/
theorem exists_program [Nonempty δ] (program : List (ι × δ))
    (hpairs : program.Pairwise fun x y => x.1 = y.1 ↔ x.2 = y.2) :
    ∃ f : ι → δ, (∀ x ∈ program, f x.1 = x.2) ∧ ¬ Collision f (program.map Prod.fst) := by
  obtain ⟨other⟩ := ‹Nonempty δ›
  let Same : ι × δ → ι × δ → Prop := fun x y => x.1 = y.1 ↔ x.2 = y.2
  have hflip : program.Pairwise (flip Same) :=
    hpairs.imp fun h => ⟨fun heq => (h.mp heq.symm).symm, fun heq => (h.mpr heq.symm).symm⟩
  have h : ∀ x ∈ program, ∀ y ∈ program, Same x y := fun x hx y hy =>
    List.Pairwise.forall_of_forall_of_flip (R := Same) (fun _ _ => ⟨fun _ => rfl, fun _ => rfl⟩)
      hpairs hflip hx hy
  let f : ι → δ := fun z => ((program.find? (·.1 = z)).map Prod.snd).getD other
  have hf : ∀ x ∈ program, f x.1 = x.2 := by
    intro x hx
    obtain ⟨y, hfind⟩ : ∃ y, program.find? (·.1 = x.1) = some y :=
      Option.isSome_iff_exists.mp (List.find?_isSome.mpr ⟨x, hx, decide_eq_true rfl⟩)
    have heq : y.1 = x.1 := by simpa using List.find?_some hfind
    show ((program.find? (·.1 = x.1)).map Prod.snd).getD other = x.2
    rw [hfind]
    exact (h y (List.mem_of_find?_eq_some hfind) x hx).mp heq
  refine ⟨f, hf, ?_⟩
  rintro ⟨x, hx, y, hy, hne, heq⟩
  obtain ⟨a, ha, rfl⟩ := List.mem_map.mp hx
  obtain ⟨b, hb, rfl⟩ := List.mem_map.mp hy
  rw [hf a ha, hf b hb] at heq
  exact hne ((h a ha b hb).mpr heq)

/-- **A longer list of inputs**: `g` is `f` on the inputs of `qs`, and has no collision on those
of `qs'`. -/
structure Extends (f : ι → δ) (qs : List ι) (g : ι → δ) (qs' : List ι) : Prop where
  agrees : ∀ x ∈ qs, g x = f x
  subset : qs ⊆ qs'
  apart : ¬ Collision g qs'

omit [DecidableEq ι] in
theorem Extends.trans {g k : ι → δ} {qs' qs'' : List ι} (h : Extends f qs g qs')
    (h' : Extends g qs' k qs'') : Extends f qs k qs'' where
  agrees := fun x hx => (h'.agrees x (h.subset hx)).trans (h.agrees x hx)
  subset := List.Subset.trans h.subset h'.subset
  apart := h'.apart

omit [DecidableEq ι] in
/-- The values on the inputs stay. -/
theorem Extends.map_eq {g : ι → δ} {qs' : List ι} (h : Extends f qs g qs') : qs.map g = qs.map f :=
  List.map_congr_left h.agrees

theorem Extends.update {x : ι} {d : δ} (hf : ¬ Collision f qs) (hx : x ∉ qs)
    (hd : d ∉ qs.map f) : Extends f qs (Function.update f x d) (x :: qs) where
  agrees := update_of_mem hx d
  subset := List.subset_cons_self x qs
  apart := not_collision_update hf hx hd

/-- **More inputs with values**, all of them new and different. -/
theorem exists_answers (program : List (ι × δ)) (hf : ¬ Collision f qs)
    (hinputs : (program.map Prod.fst).Nodup) (hvalues : (program.map Prod.snd).Nodup)
    (hnew : ∀ x ∈ program, x.1 ∉ qs ∧ x.2 ∉ qs.map f) :
    ∃ g, Extends f qs g (program.map Prod.fst ++ qs) ∧ ∀ x ∈ program, g x.1 = x.2 := by
  induction program with
  | nil => exact ⟨f, ⟨fun _ _ => rfl, List.Subset.refl _, hf⟩, by simp⟩
  | cons y program ih =>
      obtain ⟨x, d⟩ := y
      rw [List.map_cons, List.nodup_cons] at hinputs hvalues
      obtain ⟨⟨hx, hd⟩, hrest⟩ := List.forall_mem_cons.mp hnew
      obtain ⟨g, hg, hanswers⟩ := ih hinputs.2 hvalues.2 hrest
      have hxNew : x ∉ program.map Prod.fst ++ qs :=
        fun h => (List.mem_append.mp h).elim hinputs.1 hx
      have hdNew : d ∉ (program.map Prod.fst ++ qs).map g := by
        have hprogram : program.map (g ∘ Prod.fst) = program.map Prod.snd :=
          List.map_congr_left hanswers
        rw [List.map_append, hg.map_eq, List.map_map, hprogram]
        exact fun h => (List.mem_append.mp h).elim hvalues.1 hd
      refine ⟨Function.update g x d, hg.trans (.update hg.apart hxNew hdNew), ?_⟩
      refine List.forall_mem_cons.mpr ⟨Function.update_self x d g, fun y hy => ?_⟩
      rw [update_of_mem hxNew d y.1 (List.mem_append_left _ (List.mem_map_of_mem hy))]
      exact hanswers y hy

/-- There are elements outside every list that is shorter than `size`. -/
def Supply (δ : Type) (size : ℕ) : Prop :=
  ∀ taken : List δ, taken.length < size → ∃ d, d ∉ taken

end Programming

/-! ## Fresh strings -/

/-- There are strings of `n` bytes outside a list that is shorter than their number. -/
theorem exists_bytesN_not_mem {n : ℕ} (taken : List Bytes) (h : taken.length < 256 ^ n) :
    ∃ d : BytesN n, d.val ∉ taken := by
  let numbered : Finset Bytes := (Finset.range (256 ^ n)).image (natToBE n)
  have hcard : taken.toFinset.card < numbered.card := by
    rw [Finset.card_image_of_injOn, Finset.card_range]
    · exact lt_of_le_of_lt (List.toFinset_card_le taken) h
    · intro a ha b hb heq
      exact natToBE_inj (Finset.mem_range.mp ha) (Finset.mem_range.mp hb) heq
  obtain ⟨d, hd, hfree⟩ := Finset.exists_mem_notMem_of_card_lt_card hcard
  obtain ⟨value, -, rfl⟩ := Finset.mem_image.mp hd
  exact ⟨BytesN.ofNat n value, fun hmem => hfree (List.mem_toFinset.mpr hmem)⟩

/-- The string neither begins nor ends one of the list. -/
def Fresh (c : Bytes) (qs : List Bytes) : Prop := ∀ x ∈ qs, ¬ c <+: x ∧ ¬ c <:+ x

theorem Fresh.mono {c : Bytes} {qs qs' : List Bytes} (h : Fresh c qs) (hsub : qs' ⊆ qs) :
    Fresh c qs' := fun x hx => h x (hsub hx)

/-- A string that it begins is new. -/
theorem Fresh.append_not_mem {c : Bytes} {qs : List Bytes} (h : Fresh c qs) (tail : Bytes) :
    c ++ tail ∉ qs := fun hmem => (h _ hmem).1 (List.prefix_append c tail)

/-- A string that it ends is new. -/
theorem Fresh.prepend_not_mem {c : Bytes} {qs : List Bytes} (h : Fresh c qs) (head : Bytes) :
    head ++ c ∉ qs := fun hmem => (h _ hmem).2 (List.suffix_append head c)

/-- **A fresh string** that is not among those taken. -/
theorem exists_fresh {n : ℕ} (qs : List Bytes) (taken : List (BytesN n))
    (h : 2 * qs.length + taken.length < 256 ^ n) :
    ∃ c : BytesN n, Fresh c.val qs ∧ c ∉ taken := by
  obtain ⟨c, hc⟩ := exists_bytesN_not_mem (n := n)
    (qs.map (·.take n) ++ (qs.map fun x => x.drop (x.length - n)) ++ taken.map Subtype.val) (by
      simp only [List.length_append, List.length_map]
      omega)
  simp only [List.mem_append, not_or] at hc
  refine ⟨c, fun x hx => ⟨fun hprefix => ?_, fun hsuffix => ?_⟩, fun hmem => ?_⟩
  · have heq := List.prefix_iff_eq_take.mp hprefix
    rw [c.length_val] at heq
    exact hc.1.1 (List.mem_map.mpr ⟨x, hx, heq.symm⟩)
  · have heq := List.suffix_iff_eq_drop.mp hsuffix
    rw [c.length_val] at heq
    exact hc.1.2 (List.mem_map.mpr ⟨x, hx, heq.symm⟩)
  · exact hc.2 (List.mem_map_of_mem hmem)
