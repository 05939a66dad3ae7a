/-
# Hexadecimal texts of the Python runtime

`bytes.fromhex`, `int(text, 16)`, `data.hex()` and `hex(value)`, as CPython 3.11
computes them.  Both readers accept more than they need to: `bytes.fromhex`
skips ASCII white space between bytes, and `int` accepts white space around the
number, underscores between digits and the decimal digits of every script.

What the writers emit, the readers take back (`bytesFromHex_bytesHex`,
`intBase16_hexInt`).
-/
import Mathlib.Data.List.TakeWhile
import PartitionedBinaryTree.PyRuntime

namespace Pbt

/-! ## Characters -/

/-- The value of an ASCII hexadecimal digit of either case. -/
def hexValue (c : Char) : Option ℕ :=
  if '0' ≤ c ∧ c ≤ '9' then some (c.toNat - 48)
  else if 'a' ≤ c ∧ c ≤ 'f' then some (c.toNat - 87)
  else if 'A' ≤ c ∧ c ≤ 'F' then some (c.toNat - 55)
  else none

/-- `Py_ISSPACE`: the ASCII white space. -/
def isAsciiSpace (c : Char) : Bool := c == ' ' || (9 ≤ c.toNat && c.toNat ≤ 13)

/-- `Py_UNICODE_ISSPACE` beyond ASCII. -/
def unicodeSpaces : List ℕ :=
  [0x85, 0xA0, 0x1680, 0x2000, 0x2001, 0x2002, 0x2003, 0x2004, 0x2005, 0x2006, 0x2007, 0x2008,
    0x2009, 0x200A, 0x2028, 0x2029, 0x202F, 0x205F, 0x3000]

/-- The zeros of the decimal digits of Unicode 14; the nine next code points are the
digits from one to nine. -/
def decimalZeros : List ℕ :=
  [0x30, 0x660, 0x6F0, 0x7C0, 0x966, 0x9E6, 0xA66, 0xAE6, 0xB66, 0xBE6, 0xC66, 0xCE6, 0xD66, 0xDE6,
    0xE50, 0xED0, 0xF20, 0x1040, 0x1090, 0x17E0, 0x1810, 0x1946, 0x19D0, 0x1A80, 0x1A90, 0x1B50,
    0x1BB0, 0x1C40, 0x1C50, 0xA620, 0xA8D0, 0xA900, 0xA9D0, 0xA9F0, 0xAA50, 0xABF0, 0xFF10,
    0x104A0, 0x10D30, 0x11066, 0x110F0, 0x11136, 0x111D0, 0x112F0, 0x11450, 0x114D0, 0x11650,
    0x116C0, 0x11730, 0x118E0, 0x11950, 0x11C50, 0x11D50, 0x11DA0, 0x16A60, 0x16AC0, 0x16B50,
    0x1D7CE, 0x1D7D8, 0x1D7E2, 0x1D7EC, 0x1D7F6, 0x1E140, 0x1E2F0, 0x1E950, 0x1FBF0]

/-- `Py_UNICODE_TODECIMAL`. -/
def decimalValue (c : Char) : Option ℕ :=
  (decimalZeros.find? fun z => z ≤ c.toNat && c.toNat < z + 10).map (c.toNat - ·)

/-- One character under `_PyUnicode_TransformDecimalAndSpaceToASCII`. -/
def transformChar (c : Char) : Char :=
  if c.toNat < 127 then c
  else if c.toNat ∈ unicodeSpaces then ' '
  else
    match decimalValue c with
    | some d => hexDigit d
    | none => '?'

/-- `_PyUnicode_TransformDecimalAndSpaceToASCII`: an ASCII text stays as it is. -/
def transformDecimalAndSpace (text : List Char) : List Char :=
  if text.all (·.toNat < 128) then text else text.map transformChar

/-! ## Readers -/

/-- `bytes.fromhex(text)`; `none` when it raises `ValueError`. -/
def bytesFromHex : List Char → Option Bytes
  | [] => some []
  | [c] => if isAsciiSpace c then some [] else none
  | c :: c' :: rest =>
      if isAsciiSpace c then bytesFromHex (c' :: rest)
      else do
        let high ← hexValue c
        let low ← hexValue c'
        let data ← bytesFromHex rest
        pure (UInt8.ofNat (high * 16 + low) :: data)

/-- The sign in front of a number: whether it is negative, and the rest. -/
def takeSign : List Char → Bool × List Char
  | '+' :: rest => (false, rest)
  | '-' :: rest => (true, rest)
  | text => (false, text)

/-- The optional `0x` in front of a number in base 16, with the underscore that may follow. -/
def dropHexPrefix : List Char → List Char
  | '0' :: x :: '_' :: rest => if x = 'x' ∨ x = 'X' then rest else '0' :: x :: '_' :: rest
  | '0' :: x :: rest => if x = 'x' ∨ x = 'X' then rest else '0' :: x :: rest
  | text => text

/-- Underscores stand alone, between two digits. -/
def underscoresOk : Char → List Char → Bool
  | prev, [] => prev != '_'
  | prev, c :: rest => !(prev == '_' && c == '_') && underscoresOk c rest

/-- The number that digits spell in base 16; other characters are skipped. -/
def hexNumber (digits : List Char) : ℕ :=
  digits.foldl (fun n c => match hexValue c with | some d => n * 16 + d | none => n) 0

/-- `int(text, 16)`; `none` when it raises `ValueError`. -/
def intBase16 (text : List Char) : Option ℤ :=
  let (negative, unsigned) := takeSign ((transformDecimalAndSpace text).dropWhile isAsciiSpace)
  let body := dropHexPrefix unsigned
  let digits := body.takeWhile fun c => (hexValue c).isSome || c == '_'
  let rest := body.dropWhile fun c => (hexValue c).isSome || c == '_'
  -- a leading underscore is refused like a doubled one
  if digits = [] ∨ ¬ underscoresOk '_' digits ∨ ¬ rest.all isAsciiSpace then none
  else if negative then some (-(hexNumber digits : ℤ)) else some (hexNumber digits : ℤ)

/-! ## Writers -/

/-- The digits of `hex(value)`, without the `0x`. -/
def hexInt (n : ℕ) : List Char := Nat.toDigits 16 n

/-- `data.hex()` as a text. -/
def hexText (data : Bytes) : String := String.ofList (bytesHex data)

/-! ## Round trips -/

/-- The sixteen digits: each has its value, and none is white space, an underscore or
outside ASCII. -/
theorem hexDigit_spec : ∀ d < 16, hexValue (hexDigit d) = some d ∧
    isAsciiSpace (hexDigit d) = false ∧ hexDigit d ≠ '_' ∧ (hexDigit d).toNat < 128 := by
  decide

theorem hexValue_hexDigit {d : ℕ} (h : d < 16) : hexValue (hexDigit d) = some d :=
  (hexDigit_spec d h).1

theorem isAsciiSpace_hexDigit {d : ℕ} (h : d < 16) : isAsciiSpace (hexDigit d) = false :=
  (hexDigit_spec d h).2.1

theorem hexDigit_ne_underscore {d : ℕ} (h : d < 16) : hexDigit d ≠ '_' := (hexDigit_spec d h).2.2.1

theorem toNat_hexDigit_lt {d : ℕ} (h : d < 16) : (hexDigit d).toNat < 128 :=
  (hexDigit_spec d h).2.2.2

/-- **`bytes.fromhex` reads back `data.hex()`.** -/
theorem bytesFromHex_bytesHex (data : Bytes) : bytesFromHex (bytesHex data) = some data := by
  induction data with
  | nil => rfl
  | cons b data ih =>
      have hb : b.toNat < 256 := b.toNat_lt
      have hhigh : b.toNat / 16 < 16 := by omega
      have hlow : b.toNat % 16 < 16 := by omega
      have hbyte : UInt8.ofNat (b.toNat / 16 * 16 + b.toNat % 16) = b := by
        rw [Nat.div_add_mod', UInt8.ofNat_toNat]
      show bytesFromHex (hexDigit (b.toNat / 16) :: hexDigit (b.toNat % 16) :: bytesHex data) = _
      rw [bytesFromHex, isAsciiSpace_hexDigit hhigh, hexValue_hexDigit hhigh,
        hexValue_hexDigit hlow, ih]
      simp only [Bool.false_eq_true, if_false, Option.bind_eq_bind, Option.bind_some,
        Option.pure_def, hbyte]

theorem length_bytesHex (data : Bytes) : (bytesHex data).length = 2 * data.length := by
  induction data with
  | nil => rfl
  | cons b data ih =>
      show (hexByte b ++ bytesHex data).length = _
      rw [List.length_append, ih, hexByte, List.length_cons, List.length_cons, List.length_nil,
        List.length_cons]
      omega

/-- The characters of `hex(value)` are hexadecimal digits. -/
theorem exists_hexDigit_of_mem_hexInt (n : ℕ) : ∀ c ∈ hexInt n, ∃ d < 16, c = hexDigit d := by
  induction n using Nat.strong_induction_on with
  | _ n ih =>
      intro c hc
      rw [hexInt, Nat.toDigits_eq_if (by norm_num)] at hc
      split_ifs at hc with hsmall
      · exact ⟨n, hsmall, List.mem_singleton.mp hc⟩
      · rcases List.mem_append.mp hc with hc | hc
        · exact ih (n / 16) (by omega) c hc
        · exact ⟨n % 16, by omega, List.mem_singleton.mp hc⟩

theorem hexNumber_concat (digits : List Char) {d : ℕ} (hd : d < 16) :
    hexNumber (digits ++ [hexDigit d]) = hexNumber digits * 16 + d := by
  rw [hexNumber, List.foldl_concat, hexValue_hexDigit hd,
    ← hexNumber]

/-- The digits of `hex(value)` spell the value. -/
theorem hexNumber_hexInt (n : ℕ) : hexNumber (hexInt n) = n := by
  induction n using Nat.strong_induction_on with
  | _ n ih =>
      rw [hexInt, Nat.toDigits_eq_if (by norm_num)]
      split_ifs with hsmall
      · exact (hexNumber_concat [] hsmall).trans (by simp [hexNumber])
      · have hd : n % 16 < 16 := by omega
        have hdigits := hexNumber_concat (hexInt (n / 16)) hd
        rw [ih (n / 16) (by omega)] at hdigits
        exact hdigits.trans (by omega)

theorem underscoresOk_of_digits {text : List Char} (h : ∀ c ∈ text, ∃ d < 16, c = hexDigit d)
    (hne : text ≠ []) (prev : Char) : underscoresOk prev text = true := by
  induction text generalizing prev with
  | nil => exact absurd rfl hne
  | cons c rest ih =>
      obtain ⟨d, hd, rfl⟩ := h c List.mem_cons_self
      have hc := hexDigit_ne_underscore hd
      cases rest with
      | nil => simp [underscoresOk, hc]
      | cons c' rest' =>
          rw [underscoresOk, ih (fun x hx => h x (List.mem_cons_of_mem _ hx)) (by simp)]
          simp [hc]

/-- **`int(text, 16)` reads back `hex(value)`.** -/
theorem intBase16_hexInt (n : ℕ) : intBase16 ('0' :: 'x' :: hexInt n) = some (n : ℤ) := by
  have hdigits := exists_hexDigit_of_mem_hexInt n
  have hne : hexInt n ≠ [] := Nat.toDigits_ne_nil
  have hrun : ∀ c ∈ hexInt n, ((hexValue c).isSome || c == '_') = true := by
    intro c hc
    obtain ⟨d, hd, rfl⟩ := hdigits c hc
    rw [hexValue_hexDigit hd]
    rfl
  have hascii : (hexInt n).all (·.toNat < 128) = true := by
    rw [List.all_eq_true]
    intro c hc
    obtain ⟨d, hd, rfl⟩ := hdigits c hc
    exact decide_eq_true (toNat_hexDigit_lt hd)
  have htransform : transformDecimalAndSpace ('0' :: 'x' :: hexInt n) = '0' :: 'x' :: hexInt n := by
    rw [transformDecimalAndSpace, if_pos]
    simpa using hascii
  -- the text starts with `0x` and goes on with a digit, which is no underscore
  have hbody : dropHexPrefix ('0' :: 'x' :: hexInt n) = hexInt n := by
    cases hcs : hexInt n with
    | nil => exact absurd hcs hne
    | cons c rest =>
        have hc : c ≠ '_' := by
          obtain ⟨d, hd, rfl⟩ := hdigits c (hcs ▸ List.mem_cons_self)
          exact hexDigit_ne_underscore hd
        simp [dropHexPrefix, hc]
  have htake := List.takeWhile_eq_self_iff.mpr hrun
  have hdrop := List.dropWhile_eq_nil_iff.mpr hrun
  have hsign : takeSign (('0' :: 'x' :: hexInt n).dropWhile isAsciiSpace) =
      (false, '0' :: 'x' :: hexInt n) := rfl
  have haccept : ¬ (hexInt n = [] ∨ ¬ underscoresOk '_' (hexInt n) ∨
      ¬ ([] : List Char).all isAsciiSpace) := by
    rw [underscoresOk_of_digits hdigits hne]
    simpa using hne
  unfold intBase16
  rw [htransform, hsign]
  dsimp only
  rw [hbody, htake, hdrop, if_neg haccept, hexNumber_hexInt]
  rfl

end Pbt
