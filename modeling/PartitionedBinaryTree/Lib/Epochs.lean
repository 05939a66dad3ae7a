/-
# Epochs of a log

A log of events is cut into epochs by the events that reset: the current epoch is what has
been logged since the last reset (`sinceReset`), the longest suffix of the log without one.

A set that a program clears at each reset and extends at the other events holds what the
events of the current epoch have added (`mem_foldl_iff`), and what such an event finds in it
is said by the part of the epoch before the event (`sinceReset_eq_append_cons_iff`).

An invariant holds throughout a log when each event keeps it (`forall_prefix_iff`).
-/
import Mathlib.Data.List.DropRight
import Mathlib.Order.Bounds.Defs

namespace Epochs

variable {α β σ : Type} {reset : α → Bool}

/-- The events since the last reset. -/
def sinceReset (reset : α → Bool) (log : List α) : List α := log.rtakeWhile fun a => !reset a

@[simp] theorem sinceReset_nil : sinceReset reset [] = [] := List.rtakeWhile_nil _

/-- A reset starts an epoch. -/
theorem sinceReset_concat_of_reset {log : List α} {a : α} (ha : reset a = true) :
    sinceReset reset (log ++ [a]) = [] := by
  rw [sinceReset, List.rtakeWhile_concat_neg]
  simp [ha]

/-- Any other event goes to the current epoch. -/
theorem sinceReset_concat {log : List α} {a : α} (ha : reset a = false) :
    sinceReset reset (log ++ [a]) = sinceReset reset log ++ [a] := by
  rw [sinceReset, List.rtakeWhile_concat_pos]
  · rfl
  · simp [ha]

/-- An epoch goes on until the next reset. -/
theorem sinceReset_append {log later : List α} (h : ∀ a ∈ later, reset a = false) :
    sinceReset reset (log ++ later) = sinceReset reset log ++ later := by
  induction later using List.reverseRecOn with
  | nil => rw [List.append_nil, List.append_nil]
  | append_singleton later a ih =>
      have ha := h a (List.mem_append_right _ List.mem_cons_self)
      rw [← List.append_assoc, sinceReset_concat ha,
        ih fun b hb => h b (List.mem_append_left _ hb), List.append_assoc]

/-- No reset is inside an epoch. -/
theorem reset_of_mem_sinceReset {log : List α} {a : α} (h : a ∈ sinceReset reset log) :
    reset a = false := by
  simpa using List.mem_rtakeWhile_imp h

/-- A log is its finished epochs and the current one. -/
theorem exists_eq_append_sinceReset (reset : α → Bool) (log : List α) :
    ∃ past, sinceReset reset past = [] ∧ log = past ++ sinceReset reset log := by
  refine ⟨log.rdropWhile fun a => !reset a, ?_, List.rdropWhile_append_rtakeWhile.symm⟩
  rw [sinceReset, List.rtakeWhile_eq_nil_iff]
  intro hne
  exact List.rdropWhile_last_not _ _ hne

/-- A suffix without a reset belongs to the current epoch, and so do its own suffixes. -/
theorem le_length_sinceReset_iff {log : List α} {n : ℕ} :
    n ≤ (sinceReset reset log).length ↔
      ∃ suffix, suffix <:+ log ∧ (∀ a ∈ suffix, reset a = false) ∧ suffix.length = n := by
  constructor
  · intro hn
    obtain ⟨past, -, hlog⟩ := exists_eq_append_sinceReset reset log
    have hdrop := List.drop_suffix ((sinceReset reset log).length - n) (sinceReset reset log)
    refine ⟨_, hdrop.trans ⟨past, hlog.symm⟩,
      fun a ha => reset_of_mem_sinceReset (hdrop.subset ha), ?_⟩
    rw [List.length_drop]
    omega
  · rintro ⟨suffix, ⟨past, rfl⟩, hsuffix, rfl⟩
    rw [sinceReset_append hsuffix, List.length_append]
    omega

/-- **The current epoch is the longest suffix** of the log without a reset. -/
theorem isGreatest_length_sinceReset (reset : α → Bool) (log : List α) :
    IsGreatest {n | ∃ suffix, suffix <:+ log ∧ (∀ a ∈ suffix, reset a = false) ∧
      suffix.length = n} (sinceReset reset log).length :=
  ⟨le_length_sinceReset_iff.mp (le_refl _), fun _ hn => le_length_sinceReset_iff.mpr hn⟩

/-- **An event of the current epoch**, with what comes before it and after it in the log. -/
theorem sinceReset_eq_append_cons_iff {log earlier later : List α} {a : α} :
    sinceReset reset log = earlier ++ a :: later ↔
      ∃ before, log = before ++ a :: later ∧ sinceReset reset before = earlier ∧
        ∀ b ∈ a :: later, reset b = false := by
  constructor
  · intro h
    have hepoch : ∀ b ∈ earlier ++ a :: later, reset b = false := by
      intro b hb
      exact reset_of_mem_sinceReset (h ▸ hb)
    obtain ⟨past, hpast, hlog⟩ := exists_eq_append_sinceReset reset log
    refine ⟨past ++ earlier, ?_, ?_, fun b hb => hepoch b (List.mem_append_right _ hb)⟩
    · rw [List.append_assoc, ← h, ← hlog]
    · rw [sinceReset_append fun b hb => hepoch b (List.mem_append_left _ hb), hpast,
        List.nil_append]
  · rintro ⟨before, rfl, rfl, hlater⟩
    exact sinceReset_append hlater

/-- **A set that is cleared at resets** and extended at the other events. -/
theorem mem_foldl_iff (mem : β → σ → Prop) {step : σ → α → σ} {adds : α → β → Prop} {start : σ}
    (hstart : ∀ b, ¬ mem b start)
    (hstep : ∀ s a b, mem b (step s a) ↔ reset a = false ∧ (mem b s ∨ adds a b))
    (log : List α) (b : β) :
    mem b (log.foldl step start) ↔ ∃ a ∈ sinceReset reset log, adds a b := by
  induction log using List.reverseRecOn with
  | nil => simp [hstart b]
  | append_singleton log a ih =>
      rw [List.foldl_concat, hstep, ih]
      cases ha : reset a with
      | true => simp [sinceReset_concat_of_reset ha]
      | false => simp [sinceReset_concat ha, or_and_right, exists_or]

/-! ## The first event of a kind -/

variable {p : α → Prop}

/-- An event of a kind has a first one. -/
theorem exists_first [DecidablePred p] {log : List α} {a : α} (ha : a ∈ log) (h : p a) :
    ∃ earlier b later, log = earlier ++ b :: later ∧ p b ∧ ∀ c ∈ earlier, ¬ p c := by
  obtain ⟨b, earlier, later, hearlier, hb, hlog, -⟩ :=
    List.exists_of_eraseP (p := fun c => decide (p c)) ha (decide_eq_true h)
  exact ⟨earlier, b, later, hlog, of_decide_eq_true hb,
    fun c hc hpc => hearlier c hc (decide_eq_true hpc)⟩

/-- There is one first event of a kind. -/
theorem first_unique {earlier earlier' later later' : List α} {a a' : α} (ha : p a) (ha' : p a')
    (hearlier : ∀ c ∈ earlier, ¬ p c) (hearlier' : ∀ c ∈ earlier', ¬ p c)
    (h : earlier ++ a :: later = earlier' ++ a' :: later') : earlier = earlier' ∧ a = a' := by
  induction earlier generalizing earlier' with
  | nil =>
      cases earlier' with
      | nil => exact ⟨rfl, (List.cons.inj h).1⟩
      | cons c earlier' =>
          obtain ⟨rfl, -⟩ := List.cons.inj h
          exact absurd ha (hearlier' a List.mem_cons_self)
  | cons c earlier ih =>
      cases earlier' with
      | nil =>
          obtain ⟨rfl, -⟩ := List.cons.inj h
          exact absurd ha' (hearlier c List.mem_cons_self)
      | cons c' earlier' =>
          obtain ⟨rfl, htail⟩ := List.cons.inj h
          obtain ⟨rfl, rfl⟩ := ih (fun c hc => hearlier c (List.mem_cons_of_mem _ hc))
            (fun c hc => hearlier' c (List.mem_cons_of_mem _ hc)) htail
          exact ⟨rfl, rfl⟩

/-! ## What holds throughout a log -/

/-- **An invariant of the states holds throughout a log** exactly when each event keeps it,
where the states that have it say which events do. -/
theorem forall_prefix_iff {step : σ → α → σ} {start : σ} {inv : σ → Prop} {keeps : σ → α → Prop}
    (hstart : inv start) (hstep : ∀ s a, inv s → (inv (step s a) ↔ keeps s a)) (log : List α) :
    (∀ past, past <+: log → inv (past.foldl step start)) ↔
      ∀ past a, past ++ [a] <+: log → keeps (past.foldl step start) a := by
  constructor
  · intro hinv past a hpast
    have hnext := hinv (past ++ [a]) hpast
    rw [List.foldl_append] at hnext
    exact (hstep _ a (hinv past ((List.prefix_append past [a]).trans hpast))).mp hnext
  · intro hkeeps past
    induction past using List.reverseRecOn with
    | nil => exact fun _ => hstart
    | append_singleton past a ih =>
        intro hpast
        rw [List.foldl_append]
        exact (hstep _ a (ih ((List.prefix_append past [a]).trans hpast))).mpr (hkeeps past a hpast)

end Epochs
