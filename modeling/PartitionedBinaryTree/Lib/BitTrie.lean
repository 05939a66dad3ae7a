/-
# Binary tries over keys read bit by bit

A trie over an arbitrary key type `K` whose keys are read through
`bit : K → ℕ → Bool`.  Leaves sit at the depth where their key is alone, so two
keys may share a chain of nodes before they part.

* `Placed` : every leaf lies on the path its key's bits describe;
* `Compact` : every node has at least two leaves below it;
* `upsert` / `prune` : the two updates, on the leaf of one key;
* `IsCanonical` : the trie of a finite map, described from the map alone.

The results are that the updates keep `Placed` and `Compact`
(`placed_upsert`, `compact_prune`, …), change the map `lookup` reads at one key
only (`lookup_upsert`, `lookup_prune`), and that a placed, compact trie is the
canonical one of the map it stores (`isCanonical_of_placed_compact`), of which
there is one only (`IsCanonical.unique`).
-/
import Mathlib.Data.List.Nodup
import Mathlib.Data.List.Perm.Basic
import Mathlib.Tactic.Common

/-- A binary trie with a value of type `V` at each leaf. -/
inductive BitTrie (K V : Type) where
  | empty
  | node (left right : BitTrie K V)
  | leaf (key : K) (value : V)
  deriving DecidableEq, Repr

namespace BitTrie

variable {K V : Type}

/-- The leaves, from left to right. -/
def leaves : BitTrie K V → List (K × V)
  | empty => []
  | node l r => l.leaves ++ r.leaves
  | leaf k v => [(k, v)]

@[simp] theorem leaves_empty : (empty : BitTrie K V).leaves = [] := rfl

@[simp] theorem leaves_node (l r : BitTrie K V) : (node l r).leaves = l.leaves ++ r.leaves := rfl

@[simp] theorem leaves_leaf (k : K) (v : V) : (leaf k v).leaves = [(k, v)] := rfl

/-- Every node has at least two leaves below it. -/
def Compact : BitTrie K V → Prop
  | empty => True
  | node l r => 2 ≤ (node l r).leaves.length ∧ l.Compact ∧ r.Compact
  | leaf _ _ => True

/-- A compact trie without leaves is `empty`. -/
theorem Compact.eq_empty {t : BitTrie K V} (ht : t.Compact) (h : t.leaves = []) : t = empty := by
  cases t with
  | empty => rfl
  | leaf k v => simp at h
  | node l r =>
      have h2 := ht.1
      rw [h] at h2
      simp at h2

variable (bit : K → ℕ → Bool)

/-- Every leaf below a node at depth `d` lies on the side its key's bit `d` says. -/
def Placed : ℕ → BitTrie K V → Prop
  | _, empty => True
  | d, node l r => (∀ p ∈ l.leaves, bit p.1 d = false) ∧ (∀ p ∈ r.leaves, bit p.1 d = true) ∧
      Placed (d + 1) l ∧ Placed (d + 1) r
  | _, leaf _ _ => True

/-- Two keys have the same bits at every position below `d`. -/
def Agree (d : ℕ) (k k' : K) : Prop := ∀ p < d, bit k p = bit k' p

variable {bit}

theorem Agree.symm {d : ℕ} {k k' : K} (h : Agree bit d k k') : Agree bit d k' k :=
  fun p hp => (h p hp).symm

/-- Agreement reaches one position further when that bit agrees too. -/
theorem Agree.succ {d : ℕ} {k k' : K} (h : Agree bit d k k') (hd : bit k d = bit k' d) :
    Agree bit (d + 1) k k' := by
  intro p hp
  rcases Nat.lt_succ_iff_lt_or_eq.mp hp with hlt | rfl
  · exact h p hlt
  · exact hd

/-- A key on the wrong side of a bit is the key of no leaf there. -/
theorem key_ne_of_bit {k : K} {t : BitTrie K V} {e : ℕ} {b : Bool}
    (ht : ∀ p ∈ t.leaves, bit p.1 e = b) (hk : bit k e ≠ b) {p : K × V} (hp : p ∈ t.leaves) :
    p.1 ≠ k := by
  rintro rfl
  exact hk (ht p hp)

/-! ## Lookup -/

section Lookup

variable [DecidableEq K]

/-- The value at the leaf of `k`, found by following the bits of `k` from depth `d`. -/
def lookup (bit : K → ℕ → Bool) (k : K) : BitTrie K V → ℕ → Option V
  | empty, _ => none
  | node l r, d => if bit k d then lookup bit k r (d + 1) else lookup bit k l (d + 1)
  | leaf k' v, _ => if k' = k then some v else none

/-- A lookup only returns a leaf of the trie. -/
theorem mem_leaves_of_lookup {k : K} {v : V} {t : BitTrie K V} {d : ℕ}
    (h : lookup bit k t d = some v) : (k, v) ∈ t.leaves := by
  induction t generalizing d with
  | empty => simp [lookup] at h
  | leaf k' v' =>
      rw [lookup] at h
      split at h
      · next hk => simp_all
      · simp at h
  | node l r ihl ihr =>
      rw [lookup] at h
      rw [leaves_node, List.mem_append]
      split at h
      · exact Or.inr (ihr h)
      · exact Or.inl (ihl h)

/-- In a placed trie a lookup returns exactly the leaf of its key. -/
theorem lookup_eq_some_iff {k : K} {v : V} {t : BitTrie K V} {d : ℕ} (ht : Placed bit d t) :
    lookup bit k t d = some v ↔ (k, v) ∈ t.leaves := by
  refine ⟨mem_leaves_of_lookup, ?_⟩
  induction t generalizing d with
  | empty => simp
  | leaf k' v' =>
      intro h
      simp only [leaves_leaf, List.mem_singleton, Prod.mk.injEq] at h
      simp [lookup, h.1, h.2]
  | node l r ihl ihr =>
      obtain ⟨hl, hr, hpl, hpr⟩ := ht
      intro h
      rw [leaves_node, List.mem_append] at h
      rw [lookup]
      rcases h with h | h
      · rw [if_neg (by simp [hl _ h])]
        exact ihl hpl h
      · rw [if_pos (hr _ h)]
        exact ihr hpr h

/-- A key on the wrong side of a bit is not found there. -/
theorem lookup_eq_none_of_bit {k : K} {t : BitTrie K V} {d e : ℕ} {b : Bool}
    (ht : ∀ p ∈ t.leaves, bit p.1 e = b) (hk : bit k e ≠ b) : lookup bit k t d = none := by
  rw [Option.eq_none_iff_forall_ne_some]
  intro v hv
  exact key_ne_of_bit ht hk (mem_leaves_of_lookup hv) rfl

end Lookup

/-! ## Keys below a node -/

/-- Every leaf has the bits of `k` below depth `d`. -/
def Under (bit : K → ℕ → Bool) (d : ℕ) (k : K) (t : BitTrie K V) : Prop :=
  ∀ p ∈ t.leaves, Agree bit d p.1 k

theorem under_zero (k : K) (t : BitTrie K V) : Under bit 0 k t :=
  fun _ _ i hi => absurd hi (Nat.not_lt_zero i)

/-- Descending along the bits of `k` keeps the agreement: left child. -/
theorem Under.left {d : ℕ} {k : K} {l r : BitTrie K V} (h : Under bit d k (node l r))
    (ht : Placed bit d (node l r)) (hk : bit k d = false) : Under bit (d + 1) k l :=
  fun p hp => (h p (List.mem_append_left _ hp)).succ ((ht.1 p hp).trans hk.symm)

/-- Descending along the bits of `k` keeps the agreement: right child. -/
theorem Under.right {d : ℕ} {k : K} {l r : BitTrie K V} (h : Under bit d k (node l r))
    (ht : Placed bit d (node l r)) (hk : bit k d = true) : Under bit (d + 1) k r :=
  fun p hp => (h p (List.mem_append_right _ hp)).succ ((ht.2.1 p hp).trans hk.symm)

/-- The keys of a placed trie are pairwise different. -/
theorem Placed.nodup_keys {t : BitTrie K V} {d : ℕ} (ht : Placed bit d t) :
    (t.leaves.map Prod.fst).Nodup := by
  induction t generalizing d with
  | empty => simp
  | leaf k v => simp
  | node l r ihl ihr =>
      obtain ⟨hl, hr, hpl, hpr⟩ := ht
      rw [leaves_node, List.map_append]
      refine List.Nodup.append (ihl hpl) (ihr hpr) ?_
      intro k hkl hkr
      obtain ⟨p, hp, rfl⟩ := List.mem_map.mp hkl
      obtain ⟨q, hq, hqp⟩ := List.mem_map.mp hkr
      have hfalse := hl p hp
      have htrue := hr q hq
      rw [hqp, hfalse] at htrue
      exact Bool.false_ne_true htrue

/-- A list of at least two entries with different keys shows two different keys. -/
theorem exists_ne_of_two_le {l : List (K × V)} (h2 : 2 ≤ l.length)
    (hnd : (l.map Prod.fst).Nodup) : ∃ p ∈ l, ∃ q ∈ l, p.1 ≠ q.1 := by
  match l, h2 with
  | p :: q :: l, _ =>
      refine ⟨p, List.mem_cons_self, q, List.mem_cons_of_mem _ List.mem_cons_self, ?_⟩
      intro hpq
      rw [List.map_cons, List.map_cons, hpq] at hnd
      exact (List.nodup_cons.mp hnd).1 List.mem_cons_self

/-- The number of nodes passed on the walk along the bits of `k`. -/
def walkLength (bit : K → ℕ → Bool) (k : K) : BitTrie K V → ℕ → ℕ
  | node l r, d => 1 + if bit k d then walkLength bit k r (d + 1) else walkLength bit k l (d + 1)
  | _, _ => 0

/-- **Depth bound.**  If any two stored keys part before position `B`, no walk in
a placed, compact trie passes a node at depth `B` or below. -/
theorem walkLength_le {B : ℕ} {k : K} {t : BitTrie K V} {d : ℕ} (ht : Placed bit d t)
    (hc : t.Compact) (hu : Under bit d k t)
    (hB : ∀ p ∈ t.leaves, ∀ q ∈ t.leaves, p.1 ≠ q.1 → ∃ i < B, bit p.1 i ≠ bit q.1 i) :
    walkLength bit k t d = 0 ∨ d + walkLength bit k t d ≤ B := by
  induction t generalizing d with
  | empty => exact Or.inl rfl
  | leaf _ _ => exact Or.inl rfl
  | node l r ihl ihr =>
      right
      -- two keys below this node agree with `k`, hence with each other, up to `d`
      obtain ⟨p, hp, q, hq, hpq⟩ := exists_ne_of_two_le hc.1 ht.nodup_keys
      obtain ⟨i, hiB, hi⟩ := hB p hp q hq hpq
      have hdB : d < B := by
        by_contra hge
        exact hi ((hu p hp i (by omega)).trans (hu q hq i (by omega)).symm)
      rw [walkLength]
      by_cases hk : bit k d = true
      · rw [if_pos hk]
        have hrec := ihr ht.2.2.2 hc.2.2 (hu.right ht hk)
          fun p hp q hq => hB p (List.mem_append_right _ hp) q (List.mem_append_right _ hq)
        omega
      · rw [if_neg hk]
        have hrec := ihl ht.2.2.1 hc.2.1 (hu.left ht (by simpa using hk))
          fun p hp q hq => hB p (List.mem_append_left _ hp) q (List.mem_append_left _ hq)
        omega

/-! ## Splitting two keys -/

/-- A node whose only child is on side `b`. -/
def extend (b : Bool) (child : BitTrie K V) : BitTrie K V :=
  if b then node empty child else node child empty

/-- A node over two subtries, the second one on side `b`. -/
def fork (b : Bool) (t t' : BitTrie K V) : BitTrie K V :=
  if b then node t t' else node t' t

/-- The chain of nodes that parts the leaves of `k` and `k'` from depth `d` on.
`fuel` bounds the number of positions looked at. -/
def split (bit : K → ℕ → Bool) (k : K) (v : V) (k' : K) (v' : V) : ℕ → ℕ → Option (BitTrie K V)
  | 0, _ => none
  | fuel + 1, d =>
      if bit k d = bit k' d then
        (split bit k v k' v' fuel (d + 1)).map (extend (bit k d))
      else some (fork (bit k' d) (leaf k v) (leaf k' v'))

section Split

variable {k k' : K} {v v' : V}

/-- Splitting fails exactly when the keys agree at all positions looked at. -/
theorem split_eq_none_iff {fuel d : ℕ} :
    split bit k v k' v' fuel d = none ↔ ∀ p, d ≤ p → p < d + fuel → bit k p = bit k' p := by
  induction fuel generalizing d with
  | zero => simp only [split, true_iff]; intro p hp hlt; omega
  | succ fuel ih =>
      rw [split]
      split_ifs with hd
      · rw [Option.map_eq_none_iff, ih]
        constructor
        · intro h p hp hlt
          rcases Nat.eq_or_lt_of_le hp with rfl | hgt
          · exact hd
          · exact h p hgt (by omega)
        · exact fun h p hp hlt => h p (by omega) (by omega)
      · simp only [false_iff]
        exact fun h => hd (h d (Nat.le_refl d) (by omega))

/-- What one level of a split can be. -/
theorem split_succ_cases {fuel d : ℕ} {t : BitTrie K V}
    (h : split bit k v k' v' (fuel + 1) d = some t) :
    (bit k d = bit k' d ∧ ∃ child, split bit k v k' v' fuel (d + 1) = some child ∧
      t = extend (bit k d) child) ∨
    (bit k d = !bit k' d ∧ t = fork (bit k' d) (leaf k v) (leaf k' v')) := by
  rw [split] at h
  split_ifs at h with hd
  · obtain ⟨child, hchild, rfl⟩ := Option.map_eq_some_iff.mp h
    exact Or.inl ⟨hd, child, hchild, rfl⟩
  · cases h
    exact Or.inr ⟨Bool.eq_not_of_ne hd, rfl⟩

/-- **The walk to a parted key** passes the nodes down to the position where the keys part. -/
theorem walkLength_split {fuel d p : ℕ} {t : BitTrie K V}
    (h : split bit k v k' v' fuel d = some t) (hdp : d ≤ p)
    (hagree : ∀ q, d ≤ q → q < p → bit k q = bit k' q) (hp : bit k p ≠ bit k' p) :
    walkLength bit k t d = p + 1 - d := by
  induction fuel generalizing d t with
  | zero => cases h
  | succ fuel ih =>
      rcases split_succ_cases h with ⟨hd, child, hchild, rfl⟩ | ⟨hd, rfl⟩
      · have hlt : d < p := by
          rcases Nat.eq_or_lt_of_le hdp with rfl | hlt
          · exact absurd hd hp
          · exact hlt
        have hrec := ih hchild hlt fun q hq => hagree q (by omega)
        have hwalk : walkLength bit k (extend (bit k d) child) d =
            1 + walkLength bit k child (d + 1) := by
          cases hbit : bit k d <;> simp [extend, walkLength, hbit]
        omega
      · have hdp' : d = p := by
          by_contra hne
          have heq := hagree d (Nat.le_refl d) (by omega)
          rw [heq] at hd
          cases hbit : bit k' d <;> simp [hbit] at hd
        subst hdp'
        cases hbit : bit k' d <;> simp [fork, walkLength, hd, hbit]

@[simp] theorem leaves_extend (b : Bool) (child : BitTrie K V) :
    (extend b child).leaves = child.leaves := by
  cases b <;> simp [extend]

theorem leaves_fork (b : Bool) (t t' : BitTrie K V) :
    (fork b t t').leaves.Perm (t.leaves ++ t'.leaves) := by
  cases b
  · exact List.perm_append_comm
  · exact List.Perm.refl _

/-- The two leaves are all that a split holds. -/
theorem leaves_split {fuel d : ℕ} {t : BitTrie K V} (h : split bit k v k' v' fuel d = some t) :
    t.leaves.Perm [(k, v), (k', v')] := by
  induction fuel generalizing d t with
  | zero => simp [split] at h
  | succ fuel ih =>
      rcases split_succ_cases h with ⟨-, child, hchild, rfl⟩ | ⟨-, rfl⟩
      · rw [leaves_extend]
        exact ih hchild
      · exact leaves_fork _ _ _

theorem compact_split {fuel d : ℕ} {t : BitTrie K V}
    (h : split bit k v k' v' fuel d = some t) : t.Compact := by
  induction fuel generalizing d t with
  | zero => simp [split] at h
  | succ fuel ih =>
      have hlen : 2 ≤ t.leaves.length := (leaves_split h).length_eq ▸ Nat.le_refl 2
      rcases split_succ_cases h with ⟨-, child, hchild, rfl⟩ | ⟨-, rfl⟩
      · cases hb : bit k d
        · exact ⟨by simpa using hlen, ih hchild, trivial⟩
        · exact ⟨by simpa using hlen, trivial, ih hchild⟩
      · cases hb : bit k' d
        · exact ⟨by simp, trivial, trivial⟩
        · exact ⟨by simp, trivial, trivial⟩

theorem placed_split {fuel d : ℕ} {t : BitTrie K V}
    (h : split bit k v k' v' fuel d = some t) : Placed bit d t := by
  induction fuel generalizing d t with
  | zero => simp [split] at h
  | succ fuel ih =>
      rcases split_succ_cases h with ⟨hd, child, hchild, rfl⟩ | ⟨hd, rfl⟩
      · have hmem : ∀ p ∈ child.leaves, bit p.1 d = bit k d := by
          intro p hp
          have hp' := (leaves_split hchild).mem_iff.mp hp
          simp only [List.mem_cons, List.not_mem_nil, or_false] at hp'
          rcases hp' with rfl | rfl
          · rfl
          · exact hd.symm
        cases hb : bit k d
        · exact ⟨fun p hp => (hmem p hp).trans hb, by simp, ih hchild, trivial⟩
        · exact ⟨by simp, fun p hp => (hmem p hp).trans hb, trivial, ih hchild⟩
      · cases hb : bit k' d
        · rw [hb] at hd
          exact ⟨by simp [hb], by simp [hd], trivial, trivial⟩
        · rw [hb] at hd
          exact ⟨by simp [hd], by simp [hb], trivial, trivial⟩

end Split

/-! ## Collapsing a node -/

/-- A node without two leaves below it is replaced by what is left. -/
def collapse : BitTrie K V → BitTrie K V → BitTrie K V
  | empty, empty => empty
  | empty, leaf k v => leaf k v
  | leaf k v, empty => leaf k v
  | l, r => node l r

@[simp] theorem leaves_collapse (l r : BitTrie K V) :
    (collapse l r).leaves = l.leaves ++ r.leaves := by
  unfold collapse
  split <;> simp

theorem placed_collapse {l r : BitTrie K V} {d : ℕ} (h : Placed bit d (node l r)) :
    Placed bit d (collapse l r) := by
  unfold collapse
  split
  · trivial
  · trivial
  · trivial
  · exact h

/-- Collapsing two compact children gives a compact trie. -/
theorem compact_collapse {l r : BitTrie K V} (hl : l.Compact) (hr : r.Compact) :
    (collapse l r).Compact := by
  have htwo : ∀ t : BitTrie K V, t.Compact → t ≠ empty → 1 ≤ t.leaves.length := by
    intro t ht hne
    by_contra hlt
    exact hne (ht.eq_empty (List.length_eq_zero_iff.mp (by omega)))
  unfold collapse
  split
  · trivial
  · trivial
  · trivial
  · next hee hel hle =>
      refine ⟨?_, hl, hr⟩
      rw [leaves_node, List.length_append]
      cases l with
      | empty =>
          cases r with
          | empty => exact (hee rfl rfl).elim
          | leaf k v => exact (hel k v rfl rfl).elim
          | node rl rr => simpa using hr.1
      | leaf k v =>
          have := htwo r hr fun h => hle k v rfl h
          simp only [leaves_leaf, List.length_singleton]
          omega
      | node ll lr =>
          have := hl.1
          omega

/-! ## Updating the leaf of one key -/

section Update

variable [DecidableEq K]

/-- Replace the value at `k` by `f` of the old one, adding a leaf if there is
none.  `sep k k'` bounds the positions at which two keys can part first. -/
def upsert (bit : K → ℕ → Bool) (sep : K → K → ℕ) (f : Option V → V) (k : K) :
    BitTrie K V → ℕ → Option (BitTrie K V)
  | empty, _ => some (leaf k (f none))
  | node l r, d =>
      if bit k d then (upsert bit sep f k r (d + 1)).map fun r' => node l r'
      else (upsert bit sep f k l (d + 1)).map fun l' => node l' r
  | leaf k' v, d =>
      if k' = k then some (leaf k' (f (some v)))
      else split bit k' v k (f none) (sep k' k - d) d

/-- Change the value at `k` by `g`, dropping the leaf when `g` returns `none`. -/
def prune (bit : K → ℕ → Bool) (g : V → Option V) (k : K) : BitTrie K V → ℕ → BitTrie K V
  | empty, _ => empty
  | node l r, d =>
      if bit k d then collapse l (prune bit g k r (d + 1))
      else collapse (prune bit g k l (d + 1)) r
  | leaf k' v, _ =>
      if k' = k then
        match g v with
        | none => empty
        | some v' => leaf k' v'
      else leaf k' v

variable {sep : K → K → ℕ} {f : Option V → V} {g : V → Option V} {k : K}

/-- Distinct keys part at a position below their separation bound. -/
def Separates (bit : K → ℕ → Bool) (sep : K → K → ℕ) : Prop :=
  ∀ k k', k ≠ k' → ∃ p < sep k k', bit k p ≠ bit k' p

/-- **An update along the path of its key always finds a place to split.** -/
theorem upsert_isSome (hsep : Separates bit sep) {t : BitTrie K V} {d : ℕ}
    (ht : Placed bit d t) (hu : Under bit d k t) :
    ∃ t', upsert bit sep f k t d = some t' := by
  induction t generalizing d with
  | empty => exact ⟨_, rfl⟩
  | leaf k' v =>
      rw [upsert]
      split_ifs with hk
      · exact ⟨_, rfl⟩
      · obtain ⟨p, hp, hne⟩ := hsep k' k hk
        -- above `d` the leaf's key and `k` agree, so they part at or below it
        have hdp : d ≤ p := by
          by_contra hlt
          exact hne (hu (k', v) (by simp) p (by omega))
        rw [← Option.isSome_iff_exists, ← Option.ne_none_iff_isSome, Ne, split_eq_none_iff]
        exact fun h => hne (h p hdp (by omega))
  | node l r ihl ihr =>
      rw [upsert]
      split_ifs with hk
      · obtain ⟨r', hr'⟩ := ihr ht.2.2.2 (hu.right ht hk)
        exact ⟨_, by rw [hr', Option.map_some]⟩
      · obtain ⟨l', hl'⟩ := ihl ht.2.2.1 (hu.left ht (by simpa using hk))
        exact ⟨_, by rw [hl', Option.map_some]⟩

/-- The leaves after an update: the old ones of the other keys, and one of `k`. -/
theorem mem_leaves_upsert {t t' : BitTrie K V} {d : ℕ} (ht : Placed bit d t)
    (h : upsert bit sep f k t d = some t') (p : K × V) :
    p ∈ t'.leaves ↔
      (p.1 ≠ k ∧ p ∈ t.leaves) ∨ p = (k, f (lookup bit k t d)) := by
  induction t generalizing d t' with
  | empty =>
      rw [upsert] at h
      cases h
      simp [lookup]
  | leaf k' v =>
      rw [upsert] at h
      split_ifs at h with hk
      · cases h
        subst hk
        simp only [leaves_leaf, List.mem_singleton, lookup, if_true]
        constructor
        · exact Or.inr
        · rintro (⟨hne, rfl⟩ | rfl)
          · exact absurd rfl hne
          · rfl
      · rw [(leaves_split h).mem_iff]
        simp only [leaves_leaf, List.mem_cons, List.not_mem_nil, or_false, lookup, if_neg hk]
        constructor
        · rintro (rfl | rfl)
          · exact Or.inl ⟨hk, rfl⟩
          · exact Or.inr rfl
        · rintro (⟨-, rfl⟩ | rfl)
          · exact Or.inl rfl
          · exact Or.inr rfl
  | node l r ihl ihr =>
      obtain ⟨hl, hr, hpl, hpr⟩ := ht
      rw [upsert] at h
      rw [lookup]
      split_ifs at h ⊢ with hk
      · obtain ⟨r', hr', rfl⟩ := Option.map_eq_some_iff.mp h
        have hne : p ∈ l.leaves → p.1 ≠ k := key_ne_of_bit hl (by simp [hk])
        rw [leaves_node, leaves_node, List.mem_append, List.mem_append, ihr hpr hr']
        tauto
      · obtain ⟨l', hl', rfl⟩ := Option.map_eq_some_iff.mp h
        have hne : p ∈ r.leaves → p.1 ≠ k := key_ne_of_bit hr hk
        rw [leaves_node, leaves_node, List.mem_append, List.mem_append, ihl hpl hl']
        tauto

theorem placed_upsert {t t' : BitTrie K V} {d : ℕ} (ht : Placed bit d t)
    (h : upsert bit sep f k t d = some t') : Placed bit d t' := by
  induction t generalizing d t' with
  | empty =>
      rw [upsert] at h
      cases h
      trivial
  | leaf k' v =>
      rw [upsert] at h
      split_ifs at h with hk
      · cases h
        trivial
      · exact placed_split h
  | node l r ihl ihr =>
      obtain ⟨hl, hr, hpl, hpr⟩ := ht
      rw [upsert] at h
      split_ifs at h with hk
      · obtain ⟨r', hr', rfl⟩ := Option.map_eq_some_iff.mp h
        refine ⟨hl, fun p hp => ?_, hpl, ihr hpr hr'⟩
        rcases (mem_leaves_upsert hpr hr' p).mp hp with ⟨-, hp⟩ | rfl
        · exact hr p hp
        · exact hk
      · obtain ⟨l', hl', rfl⟩ := Option.map_eq_some_iff.mp h
        refine ⟨fun p hp => ?_, hr, ihl hpl hl', hpr⟩
        rcases (mem_leaves_upsert hpl hl' p).mp hp with ⟨-, hp⟩ | rfl
        · exact hl p hp
        · simpa using hk

/-- An update never removes a leaf. -/
theorem length_leaves_le_upsert {t t' : BitTrie K V} {d : ℕ}
    (h : upsert bit sep f k t d = some t') : t.leaves.length ≤ t'.leaves.length := by
  induction t generalizing d t' with
  | empty => simp
  | leaf k' v =>
      rw [upsert] at h
      split_ifs at h with hk
      · cases h
        simp
      · rw [(leaves_split h).length_eq]
        simp
  | node l r ihl ihr =>
      rw [upsert] at h
      split_ifs at h with hk
      · obtain ⟨r', hr', rfl⟩ := Option.map_eq_some_iff.mp h
        have hlen := ihr hr'
        rw [leaves_node, leaves_node, List.length_append, List.length_append]
        omega
      · obtain ⟨l', hl', rfl⟩ := Option.map_eq_some_iff.mp h
        have hlen := ihl hl'
        rw [leaves_node, leaves_node, List.length_append, List.length_append]
        omega

theorem compact_upsert {t t' : BitTrie K V} {d : ℕ} (hc : t.Compact)
    (h : upsert bit sep f k t d = some t') : t'.Compact := by
  induction t generalizing d t' with
  | empty =>
      rw [upsert] at h
      cases h
      trivial
  | leaf k' v =>
      rw [upsert] at h
      split_ifs at h with hk
      · cases h
        trivial
      · exact compact_split h
  | node l r ihl ihr =>
      obtain ⟨h2, hcl, hcr⟩ := hc
      have hlen := length_leaves_le_upsert h
      rw [upsert] at h
      split_ifs at h with hk
      · obtain ⟨r', hr', rfl⟩ := Option.map_eq_some_iff.mp h
        exact ⟨Nat.le_trans h2 hlen, hcl, ihr hcr hr'⟩
      · obtain ⟨l', hl', rfl⟩ := Option.map_eq_some_iff.mp h
        exact ⟨Nat.le_trans h2 hlen, ihl hcl hl', hcr⟩

/-- **Update specification.**  An update changes the map at its key only. -/
theorem lookup_upsert {t t' : BitTrie K V} {d : ℕ} (ht : Placed bit d t)
    (h : upsert bit sep f k t d = some t') (k' : K) :
    lookup bit k' t' d = if k' = k then some (f (lookup bit k t d)) else lookup bit k' t d := by
  have ht' := placed_upsert ht h
  split_ifs with hk
  · subst hk
    rw [lookup_eq_some_iff ht', mem_leaves_upsert ht h]
    exact Or.inr rfl
  · apply Option.ext
    intro v
    rw [lookup_eq_some_iff ht', mem_leaves_upsert ht h, lookup_eq_some_iff ht]
    simp [hk]

/-! ### Removal -/

/-- The leaves after a removal: the old ones of the other keys, and what `g`
keeps of the one of `k`. -/
theorem mem_leaves_prune {t : BitTrie K V} {d : ℕ} (ht : Placed bit d t) (p : K × V) :
    p ∈ (prune bit g k t d).leaves ↔
      (p.1 ≠ k ∧ p ∈ t.leaves) ∨ (p.1 = k ∧ (lookup bit k t d).bind g = some p.2) := by
  induction t generalizing d with
  | empty => simp [prune, lookup]
  | leaf k' v =>
      rw [prune, lookup]
      split_ifs with hk
      · subst hk
        rw [Option.bind_some]
        cases hg : g v with
        | none =>
            simp only [leaves_empty, List.not_mem_nil, leaves_leaf, List.mem_singleton, false_iff,
              reduceCtorEq, and_false, or_false, not_and]
            rintro hne rfl
            exact hne rfl
        | some v' =>
            simp only [leaves_leaf, List.mem_singleton, Option.some.injEq]
            constructor
            · rintro rfl
              exact Or.inr ⟨rfl, rfl⟩
            · rintro (⟨hne, rfl⟩ | ⟨h1, h2⟩)
              · exact absurd rfl hne
              · exact Prod.ext h1 h2.symm
      · simp only [leaves_leaf, List.mem_singleton, Option.bind_none, reduceCtorEq, and_false,
          or_false]
        constructor
        · rintro rfl
          exact ⟨hk, rfl⟩
        · exact fun h => h.2
  | node l r ihl ihr =>
      obtain ⟨hl, hr, hpl, hpr⟩ := ht
      rw [prune, lookup]
      split_ifs with hk
      · have hne : p ∈ l.leaves → p.1 ≠ k := key_ne_of_bit hl (by simp [hk])
        rw [leaves_collapse, leaves_node, List.mem_append, List.mem_append, ihr hpr]
        tauto
      · have hne : p ∈ r.leaves → p.1 ≠ k := key_ne_of_bit hr hk
        rw [leaves_collapse, leaves_node, List.mem_append, List.mem_append, ihl hpl]
        tauto

theorem placed_prune {t : BitTrie K V} {d : ℕ} (ht : Placed bit d t) :
    Placed bit d (prune bit g k t d) := by
  induction t generalizing d with
  | empty => trivial
  | leaf k' v =>
      rw [prune]
      split_ifs
      · cases g v <;> trivial
      · trivial
  | node l r ihl ihr =>
      obtain ⟨hl, hr, hpl, hpr⟩ := ht
      rw [prune]
      split_ifs with hk
      · refine placed_collapse ⟨hl, fun p hp => ?_, hpl, ihr hpr⟩
        rcases (mem_leaves_prune hpr p).mp hp with ⟨-, hp⟩ | ⟨hpk, -⟩
        · exact hr p hp
        · rw [hpk]
          exact hk
      · refine placed_collapse ⟨fun p hp => ?_, hr, ihl hpl, hpr⟩
        rcases (mem_leaves_prune hpl p).mp hp with ⟨-, hp⟩ | ⟨hpk, -⟩
        · exact hl p hp
        · rw [hpk]
          simpa using hk

theorem compact_prune {t : BitTrie K V} {d : ℕ} (hc : t.Compact) :
    (prune bit g k t d).Compact := by
  induction t generalizing d with
  | empty => trivial
  | leaf k' v =>
      rw [prune]
      split_ifs
      · cases g v <;> trivial
      · trivial
  | node l r ihl ihr =>
      obtain ⟨-, hcl, hcr⟩ := hc
      rw [prune]
      split_ifs
      · exact compact_collapse hcl (ihr hcr)
      · exact compact_collapse (ihl hcl) hcr

/-- **Removal specification.**  A removal changes the map at its key only. -/
theorem lookup_prune {t : BitTrie K V} {d : ℕ} (ht : Placed bit d t) (k' : K) :
    lookup bit k' (prune bit g k t d) d =
      if k' = k then (lookup bit k t d).bind g else lookup bit k' t d := by
  have ht' : Placed bit d (prune bit g k t d) := placed_prune ht
  apply Option.ext
  intro v
  rw [lookup_eq_some_iff ht', mem_leaves_prune ht]
  split_ifs with hk
  · simp [hk]
  · simp [hk, lookup_eq_some_iff ht]

end Update

/-! ## The canonical trie of a map -/

section Canonical

variable [DecidableEq K]

/-- The part of the map `m` whose keys have bit `b` at position `d`. -/
def restrict (bit : K → ℕ → Bool) (m : K → Option V) (d : ℕ) (b : Bool) (k : K) : Option V :=
  if bit k d = b then m k else none

/-- The canonical trie of a map, from depth `d` on: `empty` for no key, the leaf
for a single key, and otherwise a node over the canonical tries of the keys with
bit `0` and with bit `1` at `d`. -/
inductive IsCanonical (bit : K → ℕ → Bool) : (K → Option V) → ℕ → BitTrie K V → Prop
  | empty {m : K → Option V} {d : ℕ} : (∀ k, m k = none) → IsCanonical bit m d empty
  | leaf {m : K → Option V} {d : ℕ} {k : K} {v : V} :
      (∀ k', m k' = if k' = k then some v else none) → IsCanonical bit m d (leaf k v)
  | node {m : K → Option V} {d : ℕ} {l r : BitTrie K V} :
      (∃ k k', k ≠ k' ∧ m k ≠ none ∧ m k' ≠ none) →
      IsCanonical bit (restrict bit m d false) (d + 1) l →
      IsCanonical bit (restrict bit m d true) (d + 1) r →
      IsCanonical bit m d (node l r)

/-- A map of a single key is not empty. -/
theorem ne_none_of_single {m : K → Option V} {k : K} {v : V}
    (hm : ∀ k', m k' = if k' = k then some v else none) : m k ≠ none := by
  rw [hm k, if_pos rfl]
  exact Option.some_ne_none v

/-- A map of a single key has no two keys. -/
theorem eq_of_single {m : K → Option V} {k a b : K} {v : V}
    (hm : ∀ k', m k' = if k' = k then some v else none) (ha : m a ≠ none) (hb : m b ≠ none) :
    a = b := by
  have hkey : ∀ x, m x ≠ none → x = k := by
    intro x hx
    by_contra hne
    exact hx ((hm x).trans (if_neg hne))
  exact (hkey a ha).trans (hkey b hb).symm

/-- **A map has one canonical trie**: how many keys it has decides the constructor. -/
theorem IsCanonical.unique {m : K → Option V} {d : ℕ} {t t' : BitTrie K V}
    (h : IsCanonical bit m d t) (h' : IsCanonical bit m d t') : t = t' := by
  induction h generalizing t' with
  | empty hm =>
      cases h' with
      | empty _ => rfl
      | leaf hm' => exact absurd (hm _) (ne_none_of_single hm')
      | node hm' _ _ =>
          obtain ⟨k, -, -, hk, -⟩ := hm'
          exact absurd (hm k) hk
  | @leaf _ _ k v hm =>
      cases h' with
      | empty hm' => exact absurd (hm' _) (ne_none_of_single hm)
      | @leaf _ _ k' v' hm' =>
          have hk := hm k
          rw [hm' k, if_pos rfl] at hk
          split_ifs at hk with hkk
          · cases hk
            rw [hkk]
      | node hm' _ _ =>
          obtain ⟨a, b, hab, ha, hb⟩ := hm'
          exact absurd (eq_of_single hm ha hb) hab
  | node hm _ _ ihl ihr =>
      cases h' with
      | empty hm' =>
          obtain ⟨k, -, -, hk, -⟩ := hm
          exact absurd (hm' k) hk
      | leaf hm' =>
          obtain ⟨a, b, hab, ha, hb⟩ := hm
          exact absurd (eq_of_single hm' ha hb) hab
      | node _ hl hr => rw [ihl hl, ihr hr]

/-- What the left child of a placed node stores. -/
theorem lookup_left {l r : BitTrie K V} {d : ℕ} (ht : Placed bit d (node l r)) :
    (fun k => lookup bit k l (d + 1)) =
      restrict bit (fun k => lookup bit k (node l r) d) d false := by
  funext k
  rw [restrict, lookup]
  split_ifs with hf ht'
  · rw [hf] at ht'
    exact absurd ht' Bool.false_ne_true
  · rfl
  · exact lookup_eq_none_of_bit ht.1 hf

/-- What the right child of a placed node stores. -/
theorem lookup_right {l r : BitTrie K V} {d : ℕ} (ht : Placed bit d (node l r)) :
    (fun k => lookup bit k r (d + 1)) =
      restrict bit (fun k => lookup bit k (node l r) d) d true := by
  funext k
  rw [restrict, lookup]
  split_ifs with hf
  · rfl
  · exact lookup_eq_none_of_bit ht.2.1 hf

/-- **A placed, compact trie is the canonical trie of the map it stores.** -/
theorem isCanonical_of_placed_compact {t : BitTrie K V} {d : ℕ} (ht : Placed bit d t)
    (hc : t.Compact) : IsCanonical bit (fun k => lookup bit k t d) d t := by
  induction t generalizing d with
  | empty => exact .empty fun _ => rfl
  | leaf k v =>
      refine .leaf fun k' => ?_
      rw [lookup]
      exact if_congr eq_comm rfl rfl
  | node l r ihl ihr =>
      have hl := ihl ht.2.2.1 hc.2.1
      have hr := ihr ht.2.2.2 hc.2.2
      rw [lookup_left ht] at hl
      rw [lookup_right ht] at hr
      refine .node ?_ hl hr
      obtain ⟨p, hp, q, hq, hpq⟩ := exists_ne_of_two_le hc.1 ht.nodup_keys
      refine ⟨p.1, q.1, hpq, ?_, ?_⟩
      · rw [(lookup_eq_some_iff ht).mpr hp]
        exact Option.some_ne_none _
      · rw [(lookup_eq_some_iff ht).mpr hq]
        exact Option.some_ne_none _

end Canonical

end BitTrie
