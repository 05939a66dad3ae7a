/-
# A trie seen along one path

A path into a binary trie cuts it into the subtries beside the path, one for each level,
and the subtrie where the path ends (`spine`).  A key that leaves the path is looked up in
the subtrie beside the level where it leaves (`Off`, `lookup_spine_of_off`), any other key at
the end.

In a placed trie the keys at the end have the bits of the path (`Placed.follows`), and the
subtries beside it have no keys in common (`Placed.disjoint_sides`).
-/
import PartitionedBinaryTree.Lib.BitTrie

namespace BitTrie

variable {K V α β : Type}

/-- The trie with `base` at the end of a path: a level is the subtrie beside the path and the
side that the path takes. -/
def spine (base : BitTrie K V) : List (BitTrie K V × Bool) → BitTrie K V
  | [] => base
  | (side, true) :: levels => node side (spine base levels)
  | (side, false) :: levels => node (spine base levels) side

variable (bit : K → ℕ → Bool)

/-- The key has the bits of the path from depth `d` on. -/
def Follows (k : K) : List Bool → ℕ → Prop
  | [], _ => True
  | b :: bits, d => bit k d = b ∧ Follows k bits (d + 1)

/-- If the key leaves the path, then beside a level with the property `P`. -/
def Off (P : α → Prop) (k : K) : List (α × Bool) → ℕ → Prop
  | [], _ => True
  | (side, b) :: levels, d => if bit k d = b then Off P k levels (d + 1) else P side

variable {bit}

/-- Following a path, bit by bit. -/
theorem follows_iff {k : K} {bits : List Bool} {d : ℕ} :
    Follows bit k bits d ↔ ∀ i, (hi : i < bits.length) → bit k (d + i) = bits[i] := by
  induction bits generalizing d with
  | nil => exact ⟨fun _ i hi => absurd hi (Nat.not_lt_zero i), fun _ => trivial⟩
  | cons b bits ih =>
      rw [Follows, ih]
      constructor
      · rintro ⟨hb, hrest⟩ i hi
        cases i with
        | zero => exact hb
        | succ i =>
            rw [List.getElem_cons_succ, ← hrest i (Nat.lt_of_succ_lt_succ hi), Nat.add_right_comm,
              Nat.add_assoc]
      · intro h
        refine ⟨h 0 (Nat.zero_lt_succ _), fun i hi => ?_⟩
        have hbit := h (i + 1) (Nat.succ_lt_succ hi)
        rwa [List.getElem_cons_succ, ← Nat.add_assoc, Nat.add_right_comm] at hbit

theorem follows_concat_iff {k : K} {bits : List Bool} {b : Bool} {d : ℕ} :
    Follows bit k (bits ++ [b]) d ↔ Follows bit k bits d ∧ bit k (d + bits.length) = b := by
  induction bits generalizing d with
  | nil => simp [Follows]
  | cons b' bits ih =>
      simp only [List.cons_append, Follows, ih, List.length_cons, and_assoc, Nat.add_assoc,
        Nat.add_comm 1]

/-- What stands beside a path may be exchanged. -/
theorem Off.of_map {P : α → Prop} {Q : β → Prop} {f : α → β} {k : K} {levels : List (α × Bool)}
    {d : ℕ} (h : Off bit Q k (levels.map fun x => (f x.1, x.2)) d)
    (hQP : ∀ x ∈ levels, Q (f x.1) → P x.1) : Off bit P k levels d := by
  induction levels generalizing d with
  | nil => trivial
  | cons x levels ih =>
      obtain ⟨side, b⟩ := x
      rw [Off]
      rw [List.map_cons, Off] at h
      split_ifs at h ⊢ with hb
      · exact ih h fun x hx => hQP x (List.mem_cons_of_mem _ hx)
      · exact hQP (side, b) List.mem_cons_self h

/-- One more level, below the others. -/
theorem spine_concat (base side : BitTrie K V) (b : Bool) (levels : List (BitTrie K V × Bool)) :
    spine base (levels ++ [(side, b)]) = spine (spine base [(side, b)]) levels := by
  induction levels with
  | nil => rfl
  | cons x levels ih =>
      obtain ⟨side', b'⟩ := x
      cases b'
      · rw [List.cons_append, spine, spine, ih]
      · rw [List.cons_append, spine, spine, ih]

/-- A key that follows the path leaves it at a level below it or not at all. -/
theorem off_concat_iff {P : α → Prop} {k : K} {levels : List (α × Bool)} {side : α} {b : Bool}
    {d : ℕ} : Off bit P k (levels ++ [(side, b)]) d ↔ Off bit P k levels d ∧
      (Follows bit k (levels.map Prod.snd) d → bit k (d + levels.length) = b ∨ P side) := by
  induction levels generalizing d with
  | nil =>
      by_cases hb : bit k d = b
      · simp [Off, Follows, hb]
      · simp [Off, Follows, hb]
  | cons x levels ih =>
      obtain ⟨side', b'⟩ := x
      by_cases hb : bit k d = b'
      · simp [Off, Follows, hb, ih, Nat.add_assoc, Nat.add_comm 1]
      · simp [Off, Follows, hb]

/-! ## Where the leaves are -/

/-- A leaf is at the end of the path or beside it. -/
theorem mem_leaves_spine_iff {base : BitTrie K V} {levels : List (BitTrie K V × Bool)} {p : K × V} :
    p ∈ (spine base levels).leaves ↔ p ∈ base.leaves ∨ ∃ x ∈ levels, p ∈ x.1.leaves := by
  induction levels with
  | nil => simp [spine]
  | cons x levels ih =>
      obtain ⟨side, b⟩ := x
      rw [List.exists_mem_cons_iff, or_left_comm, ← ih]
      cases b
      · rw [spine, leaves_node, List.mem_append, or_comm]
      · rw [spine, leaves_node, List.mem_append]

/-- The leaves at the end of the path. -/
theorem leaves_base_subset (base : BitTrie K V) (levels : List (BitTrie K V × Bool)) :
    base.leaves ⊆ (spine base levels).leaves :=
  fun _ hp => mem_leaves_spine_iff.mpr (Or.inl hp)

/-- The leaves beside the path. -/
theorem leaves_side_subset (base : BitTrie K V) {levels : List (BitTrie K V × Bool)}
    {x : BitTrie K V × Bool} (hx : x ∈ levels) : x.1.leaves ⊆ (spine base levels).leaves :=
  fun _ hp => mem_leaves_spine_iff.mpr (Or.inr ⟨x, hx, hp⟩)

/-- What a level of a placed spine says. -/
theorem placed_spine_cons_iff {base side : BitTrie K V} {b : Bool}
    {levels : List (BitTrie K V × Bool)} {d : ℕ} :
    Placed bit d (spine base ((side, b) :: levels)) ↔
      (∀ p ∈ side.leaves, bit p.1 d = !b) ∧ (∀ p ∈ (spine base levels).leaves, bit p.1 d = b) ∧
        Placed bit (d + 1) side ∧ Placed bit (d + 1) (spine base levels) := by
  cases b
  · constructor
    · rintro ⟨hl, hr, hpl, hpr⟩
      exact ⟨hr, hl, hpr, hpl⟩
    · rintro ⟨hr, hl, hpr, hpl⟩
      exact ⟨hl, hr, hpl, hpr⟩
  · exact Iff.rfl

/-- **The keys at the end** have the bits of the path. -/
theorem Placed.follows {base : BitTrie K V} {levels : List (BitTrie K V × Bool)} {d : ℕ}
    (h : Placed bit d (spine base levels)) :
    ∀ p ∈ base.leaves, Follows bit p.1 (levels.map Prod.snd) d := by
  induction levels generalizing d with
  | nil => exact fun _ _ => trivial
  | cons x levels ih =>
      obtain ⟨side, b⟩ := x
      obtain ⟨-, hbits, -, hrest⟩ := placed_spine_cons_iff.mp h
      exact fun p hp => ⟨hbits p (leaves_base_subset base levels hp), ih hrest p hp⟩

/-- The end of the path is placed. -/
theorem Placed.base {base : BitTrie K V} {levels : List (BitTrie K V × Bool)} {d : ℕ}
    (h : Placed bit d (spine base levels)) : Placed bit (d + levels.length) base := by
  induction levels generalizing d with
  | nil => exact h
  | cons x levels ih =>
      have hrest := ih (placed_spine_cons_iff.mp h).2.2.2
      rwa [List.length_cons, ← Nat.add_assoc, Nat.add_right_comm]

/-- **Subtries beside the path** have no keys in common. -/
theorem Placed.disjoint_sides {base : BitTrie K V} {levels : List (BitTrie K V × Bool)} {d : ℕ}
    (h : Placed bit d (spine base levels)) :
    levels.Pairwise fun x y => List.Disjoint x.1.leaves y.1.leaves := by
  induction levels generalizing d with
  | nil => exact List.Pairwise.nil
  | cons x levels ih =>
      obtain ⟨side, b⟩ := x
      obtain ⟨hside, hbits, -, hrest⟩ := placed_spine_cons_iff.mp h
      refine List.Pairwise.cons (fun y hy p hp hp' => ?_) (ih hrest)
      -- the bit of a shared key would be on both sides
      have hbit := (hside p hp).symm.trans (hbits p (leaves_side_subset base hy hp'))
      cases b <;> cases hbit

/-- Every side of a compact spine is compact. -/
theorem Compact.side {base : BitTrie K V} {levels : List (BitTrie K V × Bool)}
    (h : (spine base levels).Compact) : ∀ x ∈ levels, x.1.Compact := by
  induction levels with
  | nil => simp
  | cons x levels ih =>
      obtain ⟨side, b⟩ := x
      rw [List.forall_mem_cons]
      cases b
      · exact ⟨h.2.2, ih h.2.1⟩
      · exact ⟨h.2.1, ih h.2.2⟩

/-- The end of a compact spine is compact. -/
theorem Compact.base {base : BitTrie K V} {levels : List (BitTrie K V × Bool)}
    (h : (spine base levels).Compact) : base.Compact := by
  induction levels with
  | nil => exact h
  | cons x levels ih =>
      obtain ⟨side, b⟩ := x
      cases b
      · exact ih h.2.1
      · exact ih h.2.2

/-- Above a leaf a compact trie has no empty side. -/
theorem Compact.last_ne_empty {k : K} {v : V} {levels : List (BitTrie K V × Bool)}
    (h : (spine (leaf k v) levels).Compact) : ∀ x ∈ levels.getLast?, x.1 ≠ empty := by
  induction levels with
  | nil => simp
  | cons x levels ih =>
      obtain ⟨side, b⟩ := x
      cases levels with
      | nil =>
          intro y hy hempty
          cases hy
          subst hempty
          cases b
          · exact absurd h.1 (by simp [spine])
          · exact absurd h.1 (by simp [spine])
      | cons y levels =>
          rw [List.getLast?_cons_cons]
          cases b
          · exact ih h.2.1
          · exact ih h.2.2

/-! ## Building a spine -/

variable (bit) in
/-- The subtries beside the path of `k`: at each level the keys have the bits of `k` above, and
the other bit there. -/
def Beside (k : K) : List (BitTrie K V × Bool) → ℕ → Prop
  | [], _ => True
  | (side, b) :: levels, d =>
      bit k d = b ∧ Placed bit (d + 1) side ∧
        (∀ p ∈ side.leaves, Agree bit d p.1 k ∧ bit p.1 d = !b) ∧ Beside k levels (d + 1)

/-- All keys of such a spine agree with `k` above it. -/
theorem Beside.under {k : K} {v : V} {levels : List (BitTrie K V × Bool)} {d : ℕ}
    (h : Beside bit k levels d) : Under bit d k (spine (leaf k v) levels) := by
  induction levels generalizing d with
  | nil =>
      intro p hp
      rw [List.mem_singleton.mp hp]
      exact fun _ _ => rfl
  | cons x levels ih =>
      obtain ⟨side, b⟩ := x
      obtain ⟨-, -, hside, hrest⟩ := h
      have hbelow : ∀ p ∈ (spine (leaf k v) levels).leaves, Agree bit d p.1 k :=
        fun p hp i hi => ih hrest p hp i (Nat.lt_succ_of_lt hi)
      intro p hp
      cases b
      · rcases List.mem_append.mp hp with hp | hp
        · exact hbelow p hp
        · exact (hside p hp).1
      · rcases List.mem_append.mp hp with hp | hp
        · exact (hside p hp).1
        · exact hbelow p hp

/-- Its key is not beside the path. -/
theorem Beside.key_ne {k : K} {levels : List (BitTrie K V × Bool)} {d : ℕ}
    (h : Beside bit k levels d) : ∀ x ∈ levels, ∀ p ∈ x.1.leaves, p.1 ≠ k := by
  induction levels generalizing d with
  | nil => simp
  | cons x levels ih =>
      obtain ⟨side, b⟩ := x
      obtain ⟨hbit, -, hside, hrest⟩ := h
      refine List.forall_mem_cons.mpr ⟨fun p hp heq => ?_, ih hrest⟩
      have hother := (hside p hp).2
      rw [heq, hbit] at hother
      cases b <;> cases hother

/-- **The spine is placed.** -/
theorem Beside.placed {k : K} {v : V} {levels : List (BitTrie K V × Bool)} {d : ℕ}
    (h : Beside bit k levels d) : Placed bit d (spine (leaf k v) levels) := by
  induction levels generalizing d with
  | nil => trivial
  | cons x levels ih =>
      obtain ⟨side, b⟩ := x
      obtain ⟨hbit, hplaced, hside, hrest⟩ := h
      refine placed_spine_cons_iff.mpr
        ⟨fun p hp => (hside p hp).2, fun p hp => ?_, hplaced, ih hrest⟩
      rw [hrest.under p hp d (Nat.lt_succ_self d), hbit]

/-- A spine above a leaf is compact, if its sides are and the last one is not empty. -/
theorem compact_spine {k : K} {v : V} {levels : List (BitTrie K V × Bool)}
    (h : ∀ x ∈ levels, x.1.Compact) (hlast : ∀ x ∈ levels.getLast?, x.1 ≠ empty) :
    (spine (leaf k v) levels).Compact := by
  induction levels with
  | nil => trivial
  | cons x levels ih =>
      obtain ⟨side, b⟩ := x
      obtain ⟨hside, hrest⟩ := List.forall_mem_cons.mp h
      cases levels with
      | nil =>
          have hpos : 0 < side.leaves.length := by
            rw [List.length_pos_iff]
            exact fun hnil => hlast (side, b) rfl (hside.eq_empty hnil)
          cases b
          · exact ⟨by simp [spine]; omega, trivial, hside⟩
          · exact ⟨by simp [spine]; omega, hside, trivial⟩
      | cons y levels =>
          rw [List.getLast?_cons_cons] at hlast
          have hcompact := ih hrest hlast
          obtain ⟨side', b'⟩ := y
          have htwo : 2 ≤ (spine (leaf k v) ((side', b') :: levels)).leaves.length := by
            cases b'
            · exact hcompact.1
            · exact hcompact.1
          cases b
          · refine ⟨?_, hcompact, hside⟩
            rw [leaves_node, List.length_append]
            omega
          · refine ⟨?_, hside, hcompact⟩
            rw [leaves_node, List.length_append]
            omega

/-! ## Lookup -/

section Lookup

variable [DecidableEq K]

/-- A level of a lookup. -/
theorem lookup_spine_cons (base side : BitTrie K V) (b : Bool)
    (levels : List (BitTrie K V × Bool)) (k : K) (d : ℕ) :
    lookup bit k (spine base ((side, b) :: levels)) d =
      if bit k d = b then lookup bit k (spine base levels) (d + 1)
      else lookup bit k side (d + 1) := by
  cases b <;> cases hbit : bit k d <;> simp [spine, lookup, hbit]

/-- A key that leaves the path beside empty subtries only is not found, unless it is found at
the end. -/
theorem lookup_spine_of_off {base : BitTrie K V} {levels : List (BitTrie K V × Bool)} {k : K}
    {d : ℕ} (h : Off bit (· = empty) k levels d)
    (hbase : Follows bit k (levels.map Prod.snd) d → lookup bit k base (d + levels.length) = none) :
    lookup bit k (spine base levels) d = none := by
  induction levels generalizing d with
  | nil => exact hbase trivial
  | cons x levels ih =>
      obtain ⟨side, b⟩ := x
      rw [lookup_spine_cons]
      rw [Off] at h
      split_ifs at h ⊢ with hb
      · refine ih h fun hfollows => ?_
        have hnone := hbase ⟨hb, hfollows⟩
        rwa [List.length_cons, ← Nat.add_assoc, Nat.add_right_comm] at hnone
      · rw [h]
        rfl

end Lookup

end BitTrie
