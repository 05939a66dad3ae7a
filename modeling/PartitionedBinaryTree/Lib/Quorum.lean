/-
# Counting votes until there is a quorum

A vote is a candidate and its voter.  Candidates are counted by their distinct
voters, so that a repeated vote counts once, and a list of votes has a quorum when
some candidate has enough of them (`HasQuorum`).

`countUntil` reads ballots one after the other and stops at the first quorum.  A
ballot may be void, and reading it may fail; what a stop leaves unread does not
fail.  `countUntil_eq_true_iff` and `countUntil_eq_false_iff` free its result from
the loop, and `countUntil_of_hasQuorum` says which failures a quorum withstands.
-/
import Mathlib.Data.Finset.Card
import PartitionedBinaryTree.Lib.OrderedDict

namespace Quorum

variable {κ ν ι ε : Type}

/-! ## Ballots -/

section

variable (ballot : ι → Except ε (Option (κ × ν)))

/-- Reading the ballot fails. -/
def Fails (x : ι) : Prop := ∃ e, ballot x = .error e

/-- The vote of a ballot that can be read and is not void. -/
def voteOf (x : ι) : Option (κ × ν) :=
  match ballot x with
  | .ok vote => vote
  | .error _ => none

/-- The votes of a list of ballots. -/
def votesOf (xs : List ι) : List (κ × ν) := xs.filterMap (voteOf ballot)

variable {ballot}

theorem voteOf_of_ok {x : ι} {vote : Option (κ × ν)} (h : ballot x = .ok vote) :
    voteOf ballot x = vote := by
  rw [voteOf, h]

theorem not_fails_of_ok {x : ι} {vote : Option (κ × ν)} (h : ballot x = .ok vote) :
    ¬ Fails ballot x := by
  rintro ⟨e, he⟩
  rw [h] at he
  cases he

theorem mem_votesOf {xs : List ι} {vote : κ × ν} :
    vote ∈ votesOf ballot xs ↔ ∃ x ∈ xs, ballot x = .ok (some vote) := by
  rw [votesOf, List.mem_filterMap]
  refine exists_congr fun x => and_congr_right fun _ => ?_
  unfold voteOf
  cases ballot x with
  | error e => simp
  | ok vote' => simp

theorem votesOf_subset {xs ys : List ι} (h : xs ⊆ ys) : votesOf ballot xs ⊆ votesOf ballot ys := by
  intro vote hvote
  obtain ⟨x, hx, hok⟩ := mem_votesOf.mp hvote
  exact mem_votesOf.mpr ⟨x, h hx, hok⟩

theorem votesOf_cons_none {x : ι} (h : ballot x = .ok none) (xs : List ι) :
    votesOf ballot (x :: xs) = votesOf ballot xs :=
  List.filterMap_cons_none (voteOf_of_ok h)

theorem votesOf_cons_some {x : ι} {vote : κ × ν} (h : ballot x = .ok (some vote)) (xs : List ι) :
    votesOf ballot (x :: xs) = vote :: votesOf ballot xs :=
  List.filterMap_cons_some (voteOf_of_ok h)

@[simp] theorem votesOf_nil : votesOf ballot [] = [] := rfl

variable (ballot) in
/-- Either all ballots can be read, or there is a first one that cannot. -/
theorem forall_read_or_first_fails (xs : List ι) :
    (∀ x ∈ xs, ¬ Fails ballot x) ∨
      ∃ pre x suf, xs = pre ++ x :: suf ∧ (∀ y ∈ pre, ¬ Fails ballot y) ∧ Fails ballot x := by
  classical
  induction xs with
  | nil => exact Or.inl fun x hx => absurd hx List.not_mem_nil
  | cons x xs ih =>
      by_cases hx : Fails ballot x
      · exact Or.inr ⟨[], x, xs, rfl, fun y hy => absurd hy List.not_mem_nil, hx⟩
      · rcases ih with hall | ⟨pre, y, suf, rfl, hpre, hy⟩
        · exact Or.inl (List.forall_mem_cons.mpr ⟨hx, hall⟩)
        · exact Or.inr ⟨x :: pre, y, suf, rfl, List.forall_mem_cons.mpr ⟨hx, hpre⟩, hy⟩

end

variable [DecidableEq κ] [DecidableEq ν]

/-! ## Quorums -/

/-- Who has voted for a candidate. -/
def voters (votes : List (κ × ν)) (k : κ) : Finset ν :=
  ((votes.filter (·.1 = k)).map Prod.snd).toFinset

@[simp] theorem mem_voters {votes : List (κ × ν)} {k : κ} {v : ν} :
    v ∈ voters votes k ↔ (k, v) ∈ votes := by
  rw [voters, List.mem_toFinset, List.mem_map]
  constructor
  · rintro ⟨⟨k', v'⟩, hmem, rfl⟩
    obtain ⟨hvote, hk⟩ := List.mem_filter.mp hmem
    obtain rfl : k' = k := of_decide_eq_true hk
    exact hvote
  · intro hvote
    exact ⟨(k, v), List.mem_filter.mpr ⟨hvote, decide_eq_true rfl⟩, rfl⟩

@[simp] theorem voters_nil (k : κ) : voters ([] : List (κ × ν)) k = ∅ := rfl

/-- One more vote counts for its candidate. -/
theorem voters_concat (votes : List (κ × ν)) (k k' : κ) (v : ν) :
    voters (votes ++ [(k, v)]) k' =
      if k' = k then insert v (voters votes k) else voters votes k' := by
  ext v'
  split_ifs with hk
  · subst hk
    simp [or_comm]
  · simp [hk]

/-- Some candidate has at least `n` voters. -/
def HasQuorum (n : ℤ) (votes : List (κ × ν)) : Prop := ∃ k, n ≤ (voters votes k).card

/-- Enough distinct voters of one candidate are a quorum. -/
theorem hasQuorum_of_forall_mem {n : ℤ} {votes : List (κ × ν)} {k : κ} {electors : Finset ν}
    (hn : n ≤ electors.card) (h : ∀ v ∈ electors, (k, v) ∈ votes) : HasQuorum n votes := by
  have hle : electors.card ≤ (voters votes k).card := by
    apply Finset.card_le_card
    intro v hv
    exact mem_voters.mpr (h v hv)
  exact ⟨k, hn.trans (by exact_mod_cast hle)⟩

/-- More votes take no quorum away. -/
theorem HasQuorum.mono {n : ℤ} {votes votes' : List (κ × ν)} (h : HasQuorum n votes)
    (hsub : votes ⊆ votes') : HasQuorum n votes' := by
  obtain ⟨k, hk⟩ := h
  exact hasQuorum_of_forall_mem hk fun v hv => hsub (mem_voters.mp hv)

theorem not_hasQuorum_nil {n : ℤ} (hn : 0 < n) : ¬ HasQuorum n ([] : List (κ × ν)) := by
  rintro ⟨k, hk⟩
  rw [voters_nil, Finset.card_empty] at hk
  exact absurd hk (not_le.mpr hn)

/-- A quorum needs as many votes. -/
theorem HasQuorum.le_length {n : ℤ} {votes : List (κ × ν)} (h : HasQuorum n votes) :
    n ≤ votes.length := by
  obtain ⟨k, hk⟩ := h
  have hle : (voters votes k).card ≤ votes.length :=
    (List.toFinset_card_le _).trans (by
      rw [List.length_map]
      exact List.length_filter_le _ _)
  exact hk.trans (by exact_mod_cast hle)

/-! ## The tally -/

/-- Count a vote. -/
def addVote (k : κ) (v : ν) (tally : OrderedDict κ (Finset ν)) : OrderedDict κ (Finset ν) :=
  OrderedDict.setItem k (insert v ((tally.lookup k).getD ∅)) tally

/-- The tally holds the voters of each candidate that has any. -/
def Counts (tally : OrderedDict κ (Finset ν)) (votes : List (κ × ν)) : Prop :=
  ∀ k, (tally.lookup k).getD ∅ = voters votes k

theorem counts_empty : Counts (∅ : OrderedDict κ (Finset ν)) [] := fun k => by
  rw [AList.lookup_empty, voters_nil, Option.getD_none]

theorem Counts.addVote {tally : OrderedDict κ (Finset ν)} {votes : List (κ × ν)}
    (h : Counts tally votes) (k : κ) (v : ν) : Counts (addVote k v tally) (votes ++ [(k, v)]) := by
  intro k'
  rw [Quorum.addVote, OrderedDict.lookup_setItem, voters_concat, h k]
  split_ifs
  · exact Option.getD_some
  · exact h k'

/-- A vote that is counted makes a quorum for its own candidate, if it makes one. -/
theorem hasQuorum_concat_iff {n : ℤ} {votes : List (κ × ν)} (h : ¬ HasQuorum n votes) (k : κ)
    (v : ν) : HasQuorum n (votes ++ [(k, v)]) ↔ n ≤ (voters (votes ++ [(k, v)]) k).card := by
  constructor
  · rintro ⟨k', hk'⟩
    by_cases heq : k' = k
    · rwa [heq] at hk'
    · rw [voters_concat, if_neg heq] at hk'
      exact absurd ⟨k', hk'⟩ h
  · intro hk
    exact ⟨k, hk⟩

/-! ## The count -/

variable (ballot : ι → Except ε (Option (κ × ν)))

/-- Read ballots until a candidate has `n` voters. -/
def countUntil (n : ℤ) : OrderedDict κ (Finset ν) → List ι → Except ε Bool
  | _, [] => .ok false
  | tally, x :: xs =>
    match ballot x with
    | .error e => .error e
    | .ok none => countUntil n tally xs
    | .ok (some (k, v)) =>
      if n ≤ (((addVote k v tally).lookup k).getD ∅).card then .ok true
      else countUntil n (addVote k v tally) xs

variable {ballot}

/-- More ballots take no quorum away. -/
theorem HasQuorum.append_ballots {n : ℤ} {xs : List ι} (h : HasQuorum n (votesOf ballot xs))
    (ys : List ι) : HasQuorum n (votesOf ballot (xs ++ ys)) :=
  h.mono (votesOf_subset (List.subset_append_left xs ys))

/-- Ballots that are set aside count as void ones. -/
theorem countUntil_filter {p : ι → Bool} (n : ℤ) (tally : OrderedDict κ (Finset ν)) (xs : List ι) :
    countUntil ballot n tally (xs.filter p) =
      countUntil (fun x => if p x then ballot x else .ok none) n tally xs := by
  induction xs generalizing tally with
  | nil => rfl
  | cons x xs ih =>
      rw [List.filter_cons]
      by_cases hx : p x = true
      · rw [if_pos hx, countUntil, countUntil, if_pos hx]
        cases ballot x with
        | error e => rfl
        | ok vote =>
            cases vote with
            | none => exact ih tally
            | some vote =>
                dsimp only
                rw [ih]
      · rw [if_neg hx, countUntil, if_neg hx]
        exact ih tally

/-- The prefixes of a list with a property that the empty one does not have. -/
theorem exists_prefix_cons_iff {P : List ι → Prop} (hP : ¬ P []) {x : ι} {xs : List ι} :
    (∃ pre suf, x :: xs = pre ++ suf ∧ P pre) ↔ ∃ pre suf, xs = pre ++ suf ∧ P (x :: pre) := by
  constructor
  · rintro ⟨pre, suf, heq, hpre⟩
    cases pre with
    | nil => exact absurd hpre hP
    | cons y pre =>
        obtain ⟨rfl, rfl⟩ := List.cons.inj heq
        exact ⟨pre, suf, rfl, hpre⟩
  · rintro ⟨pre, suf, rfl, hpre⟩
    exact ⟨x :: pre, suf, rfl, hpre⟩

/-- **The count from a tally on.**  It stops with a quorum exactly when one is reached by
ballots that can all be read, and ends without one when all can be read and none is reached. -/
theorem countUntil_spec {n : ℤ} {tally : OrderedDict κ (Finset ν)} {votes : List (κ × ν)}
    (htally : Counts tally votes) (hnone : ¬ HasQuorum n votes) (xs : List ι) :
    (countUntil ballot n tally xs = .ok true ↔
      ∃ pre suf, xs = pre ++ suf ∧ (∀ x ∈ pre, ¬ Fails ballot x) ∧
        HasQuorum n (votes ++ votesOf ballot pre)) ∧
    (countUntil ballot n tally xs = .ok false ↔
      (∀ x ∈ xs, ¬ Fails ballot x) ∧ ¬ HasQuorum n (votes ++ votesOf ballot xs)) := by
  induction xs generalizing tally votes with
  | nil =>
      have hend : votes ++ votesOf ballot [] = votes := List.append_nil votes
      rw [hend]
      refine ⟨iff_of_false ?_ ?_, iff_of_true rfl ⟨fun x hx => absurd hx List.not_mem_nil, hnone⟩⟩
      · intro h
        cases h
      · rintro ⟨pre, suf, hsplit, -, hquorum⟩
        rw [(List.nil_eq_append_iff.mp hsplit).1, hend] at hquorum
        exact hnone hquorum
  | cons x xs ih =>
      -- no quorum is reached before the first ballot is read
      have hempty : ¬ ((∀ y ∈ ([] : List ι), ¬ Fails ballot y) ∧
          HasQuorum n (votes ++ votesOf ballot [])) := by
        rintro ⟨-, hquorum⟩
        rw [show votes ++ votesOf ballot [] = votes from List.append_nil votes] at hquorum
        exact hnone hquorum
      rw [exists_prefix_cons_iff hempty]
      simp only [List.forall_mem_cons]
      rw [countUntil]
      cases hballot : ballot x with
      | error e =>
          have hfails : Fails ballot x := ⟨e, hballot⟩
          simp [hfails]
      | ok vote =>
          have hread : ¬ Fails ballot x := not_fails_of_ok hballot
          cases vote with
          | none =>
              dsimp only
              simpa only [hread, not_false_iff, true_and, votesOf_cons_none hballot] using
                ih htally hnone
          | some vote =>
              obtain ⟨k, v⟩ := vote
              have hcounts := htally.addVote k v
              have hcons : ∀ ys, votes ++ votesOf ballot (x :: ys) =
                  (votes ++ [(k, v)]) ++ votesOf ballot ys := by
                intro ys
                rw [votesOf_cons_some hballot, List.append_assoc, List.singleton_append]
              dsimp only
              rw [hcounts k]
              split_ifs with hcard
              · -- the vote of this ballot completes a quorum
                have hquorum := (hasQuorum_concat_iff hnone k v).mpr hcard
                have hall : ∀ ys, HasQuorum n (votes ++ votesOf ballot (x :: ys)) := by
                  intro ys
                  rw [hcons]
                  exact hquorum.mono (List.subset_append_left _ _)
                refine ⟨iff_of_true rfl ⟨[], xs, rfl, ?_, hall []⟩, iff_of_false ?_ ?_⟩
                · exact ⟨hread, fun y hy => absurd hy List.not_mem_nil⟩
                · intro h
                  cases h
                · rintro ⟨-, h⟩
                  exact h (hall xs)
              · have hstill := fun h => hcard ((hasQuorum_concat_iff hnone k v).mp h)
                simpa only [hread, not_false_iff, true_and, hcons] using ih hcounts hstill

section

variable {n : ℤ} (hn : 0 < n) (xs : List ι)

include hn

/-- The count stops with a quorum exactly when ballots that can all be read reach one. -/
theorem countUntil_eq_true_iff :
    countUntil ballot n ∅ xs = .ok true ↔
      ∃ pre suf, xs = pre ++ suf ∧ (∀ x ∈ pre, ¬ Fails ballot x) ∧
        HasQuorum n (votesOf ballot pre) :=
  (countUntil_spec counts_empty (not_hasQuorum_nil hn) xs).1

/-- It ends without one exactly when all ballots can be read and there is none. -/
theorem countUntil_eq_false_iff :
    countUntil ballot n ∅ xs = .ok false ↔
      (∀ x ∈ xs, ¬ Fails ballot x) ∧ ¬ HasQuorum n (votesOf ballot xs) :=
  (countUntil_spec counts_empty (not_hasQuorum_nil hn) xs).2

end

/-- **What a quorum withstands.**  With a quorum among all ballots, the count finds one
exactly when each ballot that fails stands behind one. -/
theorem countUntil_of_hasQuorum {n : ℤ} (hn : 0 < n) {xs : List ι}
    (hquorum : HasQuorum n (votesOf ballot xs)) :
    countUntil ballot n ∅ xs = .ok true ↔
      ∀ pre x suf, xs = pre ++ x :: suf → Fails ballot x → HasQuorum n (votesOf ballot pre) := by
  rw [countUntil_eq_true_iff hn]
  constructor
  · rintro ⟨found, unread, rfl, hread, hfound⟩ pre x suf hsplit hx
    -- the ballots that were read end before the one that fails
    rcases List.append_eq_append_iff.mp hsplit with ⟨mid, rfl, -⟩ | ⟨mid, rfl, hmid⟩
    · exact hfound.append_ballots mid
    · cases mid with
      | nil =>
          rw [List.append_nil] at hfound
          exact hfound
      | cons y mid =>
          obtain ⟨rfl, -⟩ := List.cons.inj hmid
          exact absurd hx (hread x (by simp))
  · intro hbehind
    rcases forall_read_or_first_fails ballot xs with hall | ⟨pre, x, suf, rfl, hpre, hx⟩
    · exact ⟨xs, [], (List.append_nil xs).symm, hall, hquorum⟩
    · exact ⟨pre, x :: suf, rfl, hpre, hbehind pre x suf rfl hx⟩

end Quorum
