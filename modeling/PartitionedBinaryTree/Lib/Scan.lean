/-
# Scans that carry a state

A `Scanner` reads a list from left to right and answers each symbol in the light
of the state that the symbols before it have left.  With calls for symbols it is
an object with methods, and a scan is the record of a run: `scan_invariant` is the
rule for what holds of every run, `scan_eq_append_cons` finds the state in which a
recorded call was made.

A list can be scanned block by block, provided every block is entered in the state
that the blocks before it leave.  `blocks` is the scanner that does this and answers
each block with a record of its own; `take_decode_scan_blocks` says when the records,
read one by one and without the state, give the answers of one scan of the whole list.
-/
import Mathlib.Data.List.Induction

/-- What a scanner does with one symbol: its next state, and its answer. -/
structure Scanner (σ α β : Type) where
  step : σ → α → σ
  output : σ → α → β

namespace Scanner

variable {σ α β : Type} (m : Scanner σ α β)

/-- The state after a list of symbols. -/
def stateAfter (s : σ) (xs : List α) : σ := xs.foldl m.step s

/-- The answers to a list of symbols. -/
def scan : σ → List α → List β
  | _, [] => []
  | s, x :: xs => m.output s x :: scan (m.step s x) xs

@[simp] theorem stateAfter_nil (s : σ) : m.stateAfter s [] = s := rfl

@[simp] theorem scan_nil (s : σ) : m.scan s [] = [] := rfl

@[simp] theorem scan_cons (s : σ) (x : α) (xs : List α) :
    m.scan s (x :: xs) = m.output s x :: m.scan (m.step s x) xs := rfl

theorem stateAfter_append (s : σ) (xs ys : List α) :
    m.stateAfter s (xs ++ ys) = m.stateAfter (m.stateAfter s xs) ys := List.foldl_append

/-- There is one answer for each symbol. -/
@[simp] theorem length_scan (s : σ) (xs : List α) : (m.scan s xs).length = xs.length := by
  induction xs generalizing s with
  | nil => rfl
  | cons x xs ih => rw [scan_cons, List.length_cons, List.length_cons, ih]

/-- **A scan in two parts**: the second one starts where the first one has stopped. -/
theorem scan_append (s : σ) (xs ys : List α) :
    m.scan s (xs ++ ys) = m.scan s xs ++ m.scan (m.stateAfter s xs) ys := by
  induction xs generalizing s with
  | nil => rfl
  | cons x xs ih =>
      rw [List.cons_append, scan_cons, scan_cons, ih, List.cons_append]
      rfl

/-- An answer in the middle of a scan: the symbols before it give the state it comes from. -/
theorem scan_eq_append_cons {s : σ} {xs : List α} {bs cs : List β} {b : β}
    (h : m.scan s xs = bs ++ b :: cs) :
    ∃ ys y zs, xs = ys ++ y :: zs ∧ m.scan s ys = bs ∧ m.output (m.stateAfter s ys) y = b := by
  induction bs generalizing s xs with
  | nil =>
      cases xs with
      | nil => cases h
      | cons x xs => exact ⟨[], x, xs, rfl, rfl, (List.cons.inj h).1⟩
  | cons b' bs ih =>
      cases xs with
      | nil => cases h
      | cons x xs =>
          obtain ⟨hhead, htail⟩ := List.cons.inj h
          obtain ⟨ys, y, zs, rfl, hys, hy⟩ := ih htail
          exact ⟨x :: ys, y, zs, rfl, by rw [scan_cons, hhead, hys], hy⟩

/-- The scanner of blocks: it carries the state of `m` from block to block, and records of each
block what `encode` makes of it and of the state it is entered in. -/
def blocks {γ : Type} (encode : σ → List α → γ) : Scanner σ (List α) γ where
  step := m.stateAfter
  output := encode

variable {m}

/-- What a step keeps is kept by a whole scan. -/
theorem stateAfter_invariant {I : σ → Prop} (hstep : ∀ s x, I s → I (m.step s x)) {s : σ}
    (hs : I s) (xs : List α) : I (m.stateAfter s xs) := by
  induction xs generalizing s with
  | nil => exact hs
  | cons x xs ih => exact ih (hstep s x hs)

/-- **The run rule**: what holds of no answers and the first state, and is kept by a step with
its answer, holds of all answers and the state after them. -/
theorem scan_invariant {I : List β → σ → Prop}
    (hstep : ∀ bs s x, I bs s → I (bs ++ [m.output s x]) (m.step s x)) {s : σ} (hs : I [] s)
    (xs : List α) : I (m.scan s xs) (m.stateAfter s xs) := by
  induction xs using List.reverseRecOn with
  | nil => exact hs
  | append_singleton xs x ih =>
      rw [scan_append, stateAfter_append]
      exact hstep _ _ x ih

/-- **Records read block by block.**  Each record is read as `w` answers, the first of which
are those to its block; only the last block may have fewer than `w` symbols. -/
theorem take_decode_scan_blocks {γ : Type} {encode : σ → List α → γ} {decode : γ → List β}
    {I : σ → Prop} {w : ℕ} (hstep : ∀ s x, I s → I (m.step s x))
    (hwidth : ∀ s xs, I s → xs.length ≤ w → (decode (encode s xs)).length = w)
    (hdecode : ∀ s xs, I s → xs.length ≤ w →
      (decode (encode s xs)).take xs.length = m.scan s xs)
    {s : σ} (hs : I s) {full : List (List α)} {last : List α} (hfull : ∀ xs ∈ full, xs.length = w)
    (hlast : last.length ≤ w) :
    (((m.blocks encode).scan s (full ++ [last])).flatMap decode).take
      (full.flatten ++ last).length = m.scan s (full.flatten ++ last) := by
  induction full generalizing s with
  | nil => simpa [blocks] using hdecode s last hs hlast
  | cons xs full ih =>
      have hxs : xs.length = w := hfull xs List.mem_cons_self
      have hhead : decode (encode s xs) = m.scan s xs := by
        have hle : xs.length ≤ w := by omega
        have hall := hwidth s xs hs hle
        rw [← hdecode s xs hs hle, List.take_of_length_le (by omega)]
      have htail := ih (stateAfter_invariant hstep hs xs) fun ys hys =>
        hfull ys (List.mem_cons_of_mem _ hys)
      rw [List.cons_append, scan_cons, List.flatMap_cons, List.flatten_cons, List.append_assoc,
        m.scan_append s xs, List.length_append, ← htail]
      show (decode (encode s xs) ++ _).take _ = _
      rw [hhead, List.take_append, length_scan, Nat.add_sub_cancel_left,
        List.take_of_length_le (by rw [length_scan]; omega)]
      rfl

end Scanner
