/-
# Byte strings: widths, concatenation, big-endian numbers

General facts about byte strings that any model of a binary format rests on:

* `BytesN n` : byte strings whose type records that they are `n` bytes wide;
* `flatten_inj_of_widths` : a concatenation of equally wide pieces splits in
  only one way;
* `pieces_eq_of_flatten_eq` : so does one of different widths when all of them
  but one are known;
* `natToBE` / `beToNat` : fixed-width big-endian numbers, inverse to each other.
-/
import Mathlib.Data.List.Basic
import Mathlib.Data.List.Induction
import Mathlib.Tactic.Linarith
import Mathlib.Tactic.Ring

/-- A byte string. -/
abbrev Bytes := List UInt8

/-- Byte strings of exactly `n` bytes. -/
abbrev BytesN (n : ℕ) := {b : Bytes // b.length = n}

/-- The all-zero string of `n` bytes. -/
def zeroBytes (n : ℕ) : Bytes := List.replicate n 0

@[simp] theorem length_zeroBytes (n : ℕ) : (zeroBytes n).length = n := List.length_replicate

namespace BytesN

/-- The all-zero string of `n` bytes, with its width. -/
def zero (n : ℕ) : BytesN n := ⟨zeroBytes n, length_zeroBytes n⟩

@[simp] theorem length_val {n : ℕ} (b : BytesN n) : b.val.length = n := b.property

/-- A zero array of `n` bytes, its front overwritten by the data, of which the rest is dropped. -/
def copyFrom (n : ℕ) (data : Bytes) : BytesN n :=
  ⟨data.take n ++ zeroBytes (n - data.length), by
    rw [List.length_append, List.length_take, length_zeroBytes]
    omega⟩

/-- Data of the full width is copied as it is. -/
@[simp] theorem copyFrom_val {n : ℕ} (b : BytesN n) : copyFrom n b.val = b := by
  apply Subtype.ext
  show b.val.take n ++ zeroBytes (n - b.val.length) = b.val
  rw [b.property, Nat.sub_self, List.take_of_length_le b.property.le]
  exact List.append_nil _

end BytesN

/-! ## Order -/

instance instIsTransBytes : IsTrans Bytes fun a b => a ≤ b := inferInstance

instance instAntisymmBytes : Std.Antisymm fun a b : Bytes => a ≤ b := inferInstance

instance instTotalBytes : Std.Total fun a b : Bytes => a ≤ b := inferInstance

/-! ## Pieces of one width -/

/-- The length of a concatenation of `n`-byte pieces. -/
theorem length_flatten_of_widths {n : ℕ} {l : List Bytes} (h : ∀ x ∈ l, x.length = n) :
    l.flatten.length = l.length * n := by
  induction l with
  | nil => simp
  | cons x l ih =>
      rw [List.flatten_cons, List.length_append, ih fun y hy => h y (List.mem_cons_of_mem _ hy),
        h x List.mem_cons_self, List.length_cons]
      ring

/-- A concatenation of equally many pieces of one width splits in only one way. -/
theorem flatten_inj_of_widths {n : ℕ} {l l' : List Bytes} (h : ∀ x ∈ l, x.length = n)
    (h' : ∀ x ∈ l', x.length = n) (hlen : l.length = l'.length)
    (heq : l.flatten = l'.flatten) : l = l' := by
  have hwidths : l.map List.length = l'.map List.length := by
    rw [List.map_eq_replicate_iff.mpr h, List.map_eq_replicate_iff.mpr h', hlen]
  exact List.eq_iff_flatten_eq.mpr ⟨heq, hwidths⟩

/-! ## Pieces of different widths -/

/-- Pieces side by side are cut in one way when the widths of all of them but one are known:
the width of that one is what the others leave. -/
theorem pieces_eq_of_flatten_eq {front back front' back' : List Bytes} {x x' : Bytes}
    (h : (front ++ x :: back).flatten = (front' ++ x' :: back').flatten)
    (hfront : front.map List.length = front'.map List.length)
    (hback : back.map List.length = back'.map List.length) :
    front ++ x :: back = front' ++ x' :: back' := by
  have hx : x.length = x'.length := by
    have htotal := congrArg List.length h
    simp only [List.length_flatten, List.map_append, List.map_cons, hfront, hback,
      List.sum_append, List.sum_cons] at htotal
    omega
  refine List.eq_iff_flatten_eq.mpr ⟨h, ?_⟩
  rw [List.map_append, List.map_append, List.map_cons, List.map_cons, hfront, hback, hx]

/-! ## Big-endian numbers -/

/-- The low `len` bytes of `n`, most significant byte first. -/
def natToBE : ℕ → ℕ → Bytes
  | 0, _ => []
  | len + 1, n => natToBE len (n / 256) ++ [UInt8.ofNat (n % 256)]

/-- The number a byte string spells, most significant byte first. -/
def beToNat (b : Bytes) : ℕ := b.foldl (fun acc x => acc * 256 + x.toNat) 0

@[simp] theorem length_natToBE (len n : ℕ) : (natToBE len n).length = len := by
  induction len generalizing n with
  | zero => rfl
  | succ len ih => rw [natToBE, List.length_append, ih, List.length_singleton]

/-- The bytes of a number, with their width. -/
def BytesN.ofNat (n value : ℕ) : BytesN n := ⟨natToBE n value, length_natToBE n value⟩

@[simp] theorem beToNat_nil : beToNat [] = 0 := rfl

/-- A trailing byte is the least significant digit. -/
@[simp] theorem beToNat_concat (b : Bytes) (x : UInt8) :
    beToNat (b ++ [x]) = beToNat b * 256 + x.toNat := by
  rw [beToNat, List.foldl_concat, ← beToNat]

/-- Reading back a number that fits its field. -/
theorem beToNat_natToBE {len n : ℕ} (h : n < 256 ^ len) : beToNat (natToBE len n) = n := by
  induction len generalizing n with
  | zero => simp [natToBE]; omega
  | succ len ih =>
      have hq : n / 256 < 256 ^ len := by
        rw [pow_succ] at h
        exact Nat.div_lt_of_lt_mul (by linarith)
      rw [natToBE, beToNat_concat, ih hq, UInt8.toNat_ofNat', Nat.mod_mod_of_dvd _ (by decide)]
      omega

theorem natToBE_zero (len : ℕ) : natToBE len 0 = zeroBytes len := by
  induction len with
  | zero => rfl
  | succ len ih =>
      rw [natToBE, Nat.zero_div, ih, zeroBytes, zeroBytes, List.replicate_succ']
      rfl

/-- A number that fits a narrow field is written into a wide one behind zeros. -/
theorem natToBE_add {len n : ℕ} (k : ℕ) (h : n < 256 ^ len) :
    natToBE (k + len) n = zeroBytes k ++ natToBE len n := by
  induction len generalizing n with
  | zero =>
      rw [pow_zero, Nat.lt_one_iff] at h
      rw [h, Nat.add_zero, natToBE_zero, natToBE, List.append_nil]
  | succ len ih =>
      rw [pow_succ] at h
      rw [← Nat.add_assoc, natToBE, natToBE, ih (Nat.div_lt_of_lt_mul (by linarith)),
        List.append_assoc]

/-- Numbers that fit their field are written differently. -/
theorem natToBE_inj {len m n : ℕ} (hm : m < 256 ^ len) (hn : n < 256 ^ len)
    (h : natToBE len m = natToBE len n) : m = n := by
  rw [← beToNat_natToBE hm, h, beToNat_natToBE hn]

/-- A number spelled by `len` bytes fits in `len` bytes. -/
theorem beToNat_lt (b : Bytes) : beToNat b < 256 ^ b.length := by
  induction b using List.reverseRecOn with
  | nil => simp
  | append_singleton b x ih =>
      have hx : x.toNat < 256 := x.toNat_lt
      rw [beToNat_concat, List.length_append, List.length_singleton, pow_succ]
      omega

/-- Writing back a number read from a field gives the field. -/
theorem natToBE_beToNat (b : Bytes) : natToBE b.length (beToNat b) = b := by
  induction b using List.reverseRecOn with
  | nil => rfl
  | append_singleton b x ih =>
      have hx : x.toNat < 256 := x.toNat_lt
      have hdiv : (beToNat b * 256 + x.toNat) / 256 = beToNat b := by omega
      have hmod : (beToNat b * 256 + x.toNat) % 256 = x.toNat := by omega
      rw [beToNat_concat, List.length_append, List.length_singleton, natToBE, hdiv, hmod, ih,
        UInt8.ofNat_toNat]

/-- A field is the writing of the number it spells. -/
theorem eq_natToBE {b : Bytes} {len n : ℕ} (hlen : b.length = len) (hn : beToNat b = n) :
    b = natToBE len n := by
  rw [← hn, ← hlen, natToBE_beToNat]
