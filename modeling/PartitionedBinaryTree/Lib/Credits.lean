/-
# Paying for queries in advance

A stateful computation may record what it queries (`StateT σ (Logged ι)`).  It
mirrors the computation that does not record (`Mirrors`) when the two go through
the same states to the same results.

What it queries is bounded by the method of potentials.  Each state carries a
potential, a call is given some credits, and `Pays` says that a credit or a unit
of potential pays for every query, whatever is left over being kept in the state
or in the result.  The rules follow the shape of a program: `Pays.pure`,
`Pays.bind`, and `Pays.frame` for credits that a part of the program does not
touch.  `length_queries_foldlM_le` lifts the accounts of one step to those of
every run.
-/
import PartitionedBinaryTree.Lib.QueryLog
import Mathlib.Algebra.BigOperators.Group.List.Basic
import Mathlib.Algebra.Ring.Nat
import Mathlib.Tactic.Common

section Recorded

variable {ι σ α β : Type}

/-! ## Recording changes nothing else -/

/-- The computation `x` records its queries and otherwise does what `y` does. -/
def Mirrors (x : StateT σ (Logged ι) α) (y : StateM σ α) : Prop :=
  ∀ s, (x.run s).val = y.run s

namespace Mirrors

theorem pure (a : α) : Mirrors (Pure.pure a : StateT σ (Logged ι) α) (Pure.pure a) := fun _ => rfl

theorem bind {x : StateT σ (Logged ι) α} {y : StateM σ α} {f : α → StateT σ (Logged ι) β}
    {g : α → StateM σ β} (hx : Mirrors x y) (hf : ∀ a, Mirrors (f a) (g a)) :
    Mirrors (x >>= f) (y >>= g) := by
  intro s
  show ((f (x.run s).val.1).run (x.run s).val.2).val = (g (y.run s).1).run (y.run s).2
  rw [hx s]
  exact hf _ _

end Mirrors

/-! ## Credits -/

/-- **Every query is paid for.**  Started with `credit` credits, the call pays one unit for
each query, out of them or of the potential of its state; a result `a` leaves `change a`. -/
def Pays (potential : σ → ℕ) (credit : ℕ) (x : StateT σ (Logged ι) α) (change : α → ℕ) : Prop :=
  ∀ s, (x.run s).queries.length + (potential (x.run s).val.2 + change (x.run s).val.1) ≤
    potential s + credit

namespace Pays

variable {potential : σ → ℕ} {credit : ℕ} {change : α → ℕ}

theorem pure {a : α} (h : change a ≤ credit) :
    Pays potential credit (Pure.pure a : StateT σ (Logged ι) α) change := by
  intro s
  show 0 + (potential s + change a) ≤ potential s + credit
  omega

/-- **Calls in sequence**: the second one is given what the first one leaves. -/
theorem bind {x : StateT σ (Logged ι) α} {f : α → StateT σ (Logged ι) β} {change' : β → ℕ}
    (hx : Pays potential credit x change) (hf : ∀ a, Pays potential (change a) (f a) change') :
    Pays potential credit (x >>= f) change' := by
  intro s
  have hfirst := hx s
  have hsecond := hf (x.run s).val.1 (x.run s).val.2
  have hlength : ((x >>= f).run s).queries.length =
      (x.run s).queries.length + ((f (x.run s).val.1).run (x.run s).val.2).queries.length :=
    List.length_append
  have hval : ((x >>= f).run s).val = ((f (x.run s).val.1).run (x.run s).val.2).val := rfl
  rw [hlength, hval]
  omega

/-- Credits that the call does not touch. -/
theorem frame {x : StateT σ (Logged ι) α} (hx : Pays potential credit x change) (kept : ℕ) :
    Pays potential (credit + kept) x fun a => change a + kept := by
  intro s
  have hpaid := hx s
  show _ + (_ + (change _ + kept)) ≤ _
  omega

/-- One credit pays for one query. -/
theorem query {δ : Type} (f : ι → δ) (q : ι) (kept : ℕ) :
    Pays potential (kept + 1) (liftM (Logged.query f q) : StateT σ (Logged ι) δ) fun _ => kept := by
  intro s
  show 1 + (potential s + kept) ≤ potential s + (kept + 1)
  omega

end Pays

/-! ## Runs -/

/-- **The accounts of a run.**  A step that keeps the invariant and queries no more than its
budget and the potential it releases makes a run that queries no more than all budgets and
the potential of its start.  The induction is on the calls. -/
theorem length_queries_foldlM_le {κ : Type} (step : σ → κ → Logged ι σ) {Inv : σ → Prop}
    (potential : σ → ℕ) (budget : κ → ℕ) {calls : List κ}
    (hinv : ∀ s, ∀ call ∈ calls, Inv s → Inv (step s call).val)
    (hpaid : ∀ s, ∀ call ∈ calls, Inv s →
      (step s call).queries.length + potential (step s call).val ≤ potential s + budget call)
    {s : σ} (hs : Inv s) :
    (calls.foldlM step s).queries.length + potential (calls.foldlM step s).val ≤
      potential s + (calls.map budget).sum := by
  induction calls generalizing s with
  | nil =>
      show 0 + potential s ≤ potential s + 0
      omega
  | cons call calls ih =>
      have hhead := hpaid s call List.mem_cons_self hs
      have htail := ih (fun s' c hc => hinv s' c (List.mem_cons_of_mem call hc))
        (fun s' c hc => hpaid s' c (List.mem_cons_of_mem call hc))
        (hinv s call List.mem_cons_self hs)
      rw [List.foldlM_cons, Logged.queries_bind, Logged.val_bind, List.length_append,
        List.map_cons, List.sum_cons]
      omega

end Recorded
