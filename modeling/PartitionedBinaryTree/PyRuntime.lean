/-
# The Python runtime the reference client relies on

Exceptions as values (`PyError`, `Py`), and the few operations of built-in
`int` and `bytes` that the modelled functions call.  Python integers are `ℤ`
where the code puts no sign on them, byte strings are `Bytes`.
-/
import Mathlib.Data.List.Forall2
import Mathlib.Data.List.Infix
import PartitionedBinaryTree.Lib.ByteString

namespace Pbt

/-! ## Exceptions -/

/-- The exception classes that the modelled code raises or lets through. -/
inductive PyExc
  | valueError
  | typeError
  | overflowError
  | recursionError
  | runtimeError
  | permissionError
  | keyError
  | indexError
  | unverifiedResponseError
  | assertionError
  deriving DecidableEq, Repr

/-- A raised exception: its class and its text. -/
structure PyError where
  exc : PyExc
  message : String
  deriving DecidableEq, Repr

/-- The outcome of a call: a value, or a raised exception. -/
abbrev Py (α : Type) := Except PyError α

/-- `raise ValueError(message)`. -/
def raiseValueError {α : Type} (message : String) : Py α := .error ⟨.valueError, message⟩

/-- `raise TypeError(message)`. -/
def raiseTypeError {α : Type} (message : String) : Py α := .error ⟨.typeError, message⟩

/-- `if condition: raise ValueError(message)`. -/
def raiseIf (condition : Prop) [Decidable condition] (message : String) : Py Unit :=
  if condition then raiseValueError message else .ok ()

@[simp] theorem raiseIf_eq_ok_iff {condition : Prop} [Decidable condition] {message : String}
    {u : Unit} : raiseIf condition message = .ok u ↔ ¬ condition := by
  unfold raiseIf
  split_ifs with h <;> simp [raiseValueError, h]

theorem py_ok_bind {α β : Type} (a : α) (f : α → Py β) : (.ok a >>= f : Py β) = f a := rfl

theorem py_ite_pure {α : Type} {p : Prop} [Decidable p] (a b : α) :
    (if p then (pure a : Py α) else pure b) = .ok (if p then a else b) := by
  split_ifs <;> rfl

/-- A sequence of two calls returns when both return. -/
theorem py_bind_eq_ok_iff {α β : Type} {x : Py α} {f : α → Py β} {b : β} :
    x >>= f = .ok b ↔ ∃ a, x = .ok a ∧ f a = .ok b := by
  cases x with
  | error e => simp [bind, Except.bind]
  | ok a => simp [bind, Except.bind]

/-- A list comprehension that returns has one result per item. -/
theorem mapM_eq_ok_iff {α β : Type} {f : α → Py β} {items : List α} {results : List β} :
    items.mapM f = .ok results ↔ List.Forall₂ (fun x y => f x = .ok y) items results := by
  induction items generalizing results with
  | nil => simp [pure, Except.pure, eq_comm]
  | cons x items ih =>
      simp only [List.mapM_cons, py_bind_eq_ok_iff, ih, pure, Except.pure, Except.ok.injEq,
        List.forall₂_cons_left_iff]
      constructor
      · rintro ⟨y, hy, ys, hys, rfl⟩
        exact ⟨y, ys, hy, hys, rfl⟩
      · rintro ⟨y, ys, hy, hys, rfl⟩
        exact ⟨y, hy, ys, hys, rfl⟩

/-- A loop that returns nothing returns when each of its rounds does. -/
theorem forM_eq_ok_iff {α : Type} {f : α → Py Unit} {xs : List α} {u : Unit} :
    xs.forM f = .ok u ↔ ∀ x ∈ xs, f x = .ok () := by
  induction xs with
  | nil => simp [pure, Except.pure]
  | cons x xs ih =>
      show (f x >>= fun _ => xs.forM f) = .ok u ↔ _
      simp only [py_bind_eq_ok_iff, ih, List.forall_mem_cons]
      exact ⟨fun ⟨_, hx, hxs⟩ => ⟨hx, hxs⟩, fun ⟨hx, hxs⟩ => ⟨(), hx, hxs⟩⟩

/-- A loop of checks passes when every check does. -/
theorem forM_raiseIf_eq_ok_iff {α : Type} {p : α → Prop} [DecidablePred p] {message : α → String}
    {xs : List α} {u : Unit} :
    xs.forM (fun x => raiseIf (p x) (message x)) = .ok u ↔ ∀ x ∈ xs, ¬ p x := by
  simp only [forM_eq_ok_iff, raiseIf_eq_ok_iff]

/-- A loop of steps that may raise: it returns when no step raises. -/
theorem foldlM_eq_ok_iff {σ α : Type} {f : σ → α → Py σ} {g : σ → α → σ} {p : α → Prop}
    (h : ∀ s x s', f s x = .ok s' ↔ p x ∧ g s x = s') {xs : List α} {s s' : σ} :
    xs.foldlM f s = .ok s' ↔ (∀ x ∈ xs, p x) ∧ xs.foldl g s = s' := by
  induction xs generalizing s with
  | nil => simp [pure, Except.pure]
  | cons x xs ih =>
      simp only [List.foldlM_cons, List.foldl_cons, py_bind_eq_ok_iff, h, ih, List.forall_mem_cons]
      constructor
      · rintro ⟨_, ⟨hx, rfl⟩, hxs, rfl⟩
        exact ⟨⟨hx, hxs⟩, rfl⟩
      · rintro ⟨⟨hx, hxs⟩, rfl⟩
        exact ⟨_, ⟨hx, rfl⟩, hxs, rfl⟩

/-- A recursion that never reaches a base case ends in the interpreter's `RecursionError`. -/
def recursionError : PyError := ⟨.recursionError, "maximum recursion depth exceeded"⟩

/-! ## Methods -/

/-- A method of an object with the attributes `σ`: it may raise, and what it has done to the
object until then stays done. -/
abbrev PyMethod (σ α : Type) := ExceptT PyError (StateM σ) α

namespace PyMethod

variable {σ α β : Type}

/-- What a method returns or raises, and the object after the call. -/
def call (method : PyMethod σ α) (self : σ) : Py α × σ := method.run.run self

/-- A call that leaves the object alone. -/
def ofPy (x : Py α) : PyMethod σ α := ExceptT.mk (pure x)

@[simp] theorem call_ofPy (x : Py α) (self : σ) : (ofPy x : PyMethod σ α).call self = (x, self) :=
  rfl

@[simp] theorem call_pure (a : α) (self : σ) :
    (pure a : PyMethod σ α).call self = (.ok a, self) := rfl

@[simp] theorem call_throw (e : PyError) (self : σ) :
    (throw e : PyMethod σ α).call self = (.error e, self) := rfl

@[simp] theorem call_get_bind (f : σ → PyMethod σ α) (self : σ) :
    ((get : PyMethod σ σ) >>= f).call self = (f self).call self := rfl

@[simp] theorem call_modify (g : σ → σ) (self : σ) :
    (modify g : PyMethod σ PUnit).call self = (.ok ⟨⟩, g self) := rfl

@[simp] theorem call_modify_bind (g : σ → σ) (f : PUnit → PyMethod σ α) (self : σ) :
    ((modify g : PyMethod σ PUnit) >>= f).call self = (f ⟨⟩).call (g self) := rfl

@[simp] theorem call_map (g : α → β) (method : PyMethod σ α) (self : σ) :
    (g <$> method).call self = ((method.call self).1.map g, (method.call self).2) := by
  unfold call
  rw [ExceptT.run_map, StateT.run_map]
  rfl

/-- A sequence of two calls on the object. -/
theorem call_bind (method : PyMethod σ α) (f : α → PyMethod σ β) (self : σ) :
    (method >>= f).call self =
      match method.call self with
      | (.ok a, self) => (f a).call self
      | (.error e, self) => (.error e, self) := by
  unfold call
  rw [ExceptT.run_bind, StateT.run_bind]
  rcases method.run.run self with ⟨outcome, self'⟩
  cases outcome with
  | error e => rfl
  | ok a => rfl

theorem call_bind_eq_ok_iff {method : PyMethod σ α} {f : α → PyMethod σ β} {self self' : σ}
    {b : β} :
    (method >>= f).call self = (.ok b, self') ↔
      ∃ a between, method.call self = (.ok a, between) ∧ (f a).call between = (.ok b, self') := by
  rw [call_bind]
  rcases method.call self with ⟨outcome, between⟩
  cases outcome <;> simp

theorem call_ofPy_bind_eq_ok_iff {x : Py α} {f : α → PyMethod σ β} {self self' : σ} {b : β} :
    (ofPy x >>= f).call self = (.ok b, self') ↔
      ∃ a, x = .ok a ∧ (f a).call self = (.ok b, self') := by
  rw [call_bind, call_ofPy]
  cases x <;> simp

@[simp] theorem call_ite {p : Prop} [Decidable p] (x y : PyMethod σ α) (self : σ) :
    (if p then x else y).call self = if p then x.call self else y.call self := by
  split_ifs <;> rfl

/-- A call takes the object to a related one, whether it returns or raises. -/
def Keeps (R : σ → σ → Prop) (method : PyMethod σ α) : Prop := ∀ self, R self (method.call self).2

namespace Keeps

variable {R : σ → σ → Prop} {method : PyMethod σ α}

theorem modify {g : σ → σ} (h : ∀ self, R self (g self)) :
    Keeps R (modify g : PyMethod σ PUnit) := h

theorem get_bind {f : σ → PyMethod σ α} (hf : ∀ self, Keeps R (f self)) :
    Keeps R ((get : PyMethod σ σ) >>= f) := fun self => hf self self

theorem ite {p : Prop} [Decidable p] {method' : PyMethod σ α} (h : Keeps R method)
    (h' : Keeps R method') : Keeps R (if p then method else method') := by
  split_ifs
  · exact h
  · exact h'

variable [IsPreorder σ R]

theorem ofPy (x : Py α) : Keeps R (PyMethod.ofPy x : PyMethod σ α) := fun self => refl_of R self

theorem pure (a : α) : Keeps R (Pure.pure a : PyMethod σ α) := fun self => refl_of R self

/-- A sequence keeps what its calls keep; one that raises ends there. -/
theorem bind {f : α → PyMethod σ β} (h : Keeps R method) (hf : ∀ a, Keeps R (f a)) :
    Keeps R (method >>= f) := by
  intro self
  have hfirst := h self
  rw [call_bind]
  rcases hcall : method.call self with ⟨outcome, between⟩
  rw [hcall] at hfirst
  cases outcome with
  | error e => exact hfirst
  | ok a => exact trans_of R hfirst (hf a between)

/-- A loop keeps what its body keeps. -/
theorem forM {ι : Type} {body : ι → PyMethod σ PUnit} (h : ∀ x, Keeps R (body x)) (xs : List ι) :
    Keeps R (xs.forM body) := by
  induction xs with
  | nil => exact pure PUnit.unit
  | cons x xs ih => exact bind (h x) fun _ => ih

end Keeps

end PyMethod

/-! ## Integers as bytes -/

/-- What has passed the check for a negative number. -/
theorem nonneg_of_not_neg {value : ℤ} (h : ¬ value < 0) : 0 ≤ value := not_lt.mp h

/-- `value.to_bytes(length, "big")`. -/
def intToBytes (value : ℤ) (length : ℕ) : Py Bytes :=
  if value < 0 then .error ⟨.overflowError, "can't convert negative int to unsigned"⟩
  else if 256 ^ length ≤ value.toNat then .error ⟨.overflowError, "int too big to convert"⟩
  else .ok (natToBE length value.toNat)

/-- `int.from_bytes(data, "big")`. -/
def intFromBytes (data : Bytes) : ℤ := beToNat data

/-- A number that fits its field is written as its big-endian digits. -/
theorem intToBytes_of_lt {value : ℤ} {length : ℕ} (h0 : 0 ≤ value) (h : value < 256 ^ length) :
    intToBytes value length = .ok (natToBE length value.toNat) := by
  have hlt : ¬ 256 ^ length ≤ value.toNat := by
    rw [not_le, Int.toNat_lt h0]
    exact_mod_cast h
  rw [intToBytes, if_neg (not_lt.mpr h0), if_neg hlt]

/-- What a successful `to_bytes` says about its argument and its result. -/
theorem intToBytes_eq_ok {value : ℤ} {length : ℕ} {data : Bytes}
    (h : intToBytes value length = .ok data) :
    0 ≤ value ∧ value < 256 ^ length ∧ data = natToBE length value.toNat := by
  rw [intToBytes] at h
  split_ifs at h with hneg hbig
  cases h
  have h0 : 0 ≤ value := not_lt.mp hneg
  refine ⟨h0, ?_, rfl⟩
  rw [not_le, Int.toNat_lt h0] at hbig
  exact_mod_cast hbig

theorem intToBytes_eq_ok_iff {value : ℤ} {length : ℕ} {data : Bytes} :
    intToBytes value length = .ok data ↔
      0 ≤ value ∧ value < 256 ^ length ∧ data = natToBE length value.toNat := by
  refine ⟨intToBytes_eq_ok, ?_⟩
  rintro ⟨h0, h, rfl⟩
  exact intToBytes_of_lt h0 h

/-- Reading a field back gives the number that was written. -/
theorem intFromBytes_natToBE {value : ℤ} {length : ℕ} (h0 : 0 ≤ value)
    (h : value < 256 ^ length) : intFromBytes (natToBE length value.toNat) = value := by
  have hlt : value.toNat < 256 ^ length := by
    rw [Int.toNat_lt h0]
    exact_mod_cast h
  rw [intFromBytes, beToNat_natToBE hlt, Int.toNat_of_nonneg h0]

/-- A field is written for one number. -/
theorem natToBE_toNat_inj {m n : ℤ} {length : ℕ} (hm0 : 0 ≤ m) (hm : m < 256 ^ length)
    (hn0 : 0 ≤ n) (hn : n < 256 ^ length)
    (h : natToBE length m.toNat = natToBE length n.toNat) : m = n := by
  rw [← intFromBytes_natToBE hm0 hm, h, intFromBytes_natToBE hn0 hn]

/-! ## Texts -/

/-- `part in text`. -/
def textIn (part text : String) : Bool := decide (part.toList <:+: text.toList)

/-- The lower-case hexadecimal digit of a number below 16. -/
def hexDigit (n : ℕ) : Char := Nat.digitChar n

/-- The two hexadecimal digits of a byte. -/
def hexByte (b : UInt8) : List Char := [hexDigit (b.toNat / 16), hexDigit (b.toNat % 16)]

/-- `data.hex()`. -/
def bytesHex (data : Bytes) : List Char := data.flatMap hexByte

/-- One byte inside `repr(data)`, under the quote character chosen for the literal. -/
def reprByte (quote : ℕ) (b : UInt8) : List Char :=
  let n := b.toNat
  if n = quote ∨ n = 92 then ['\\', Char.ofNat n]
  else if n = 9 then ['\\', 't']
  else if n = 10 then ['\\', 'n']
  else if n = 13 then ['\\', 'r']
  else if n < 32 ∨ 127 ≤ n then '\\' :: 'x' :: hexByte b
  else [Char.ofNat n]

/-- `repr(data)`: quoted with `"` when the data has a `'` (39) and no `"` (34). -/
def bytesRepr (data : Bytes) : String :=
  let quote := if 39 ∈ data.map UInt8.toNat ∧ 34 ∉ data.map UInt8.toNat then 34 else 39
  String.ofList ('b' :: Char.ofNat quote :: (data.flatMap (reprByte quote) ++ [Char.ofNat quote]))

end Pbt
