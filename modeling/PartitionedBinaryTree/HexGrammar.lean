/-
# The grammar of hexadecimal fields (`pbt/verified_rpc.py`)

The wire format writes bytes as `0x` and pairs of hexadecimal digits, and numbers as `0x` and
hexadecimal digits.  The readers lean on `bytes.fromhex` and `int(text, 16)`, which take more:
white space between the pairs, underscores between the digits, white space behind the number and
the decimal digits of every script.

Both readers are described by a grammar of what they take (`hexToBytes_eq_ok_iff`,
`parseU64Hex_eq_ok_iff`), and what it has beyond the strict one is the whole difference
(`hexFields_iff`).
-/
import PartitionedBinaryTree.VerifiedRpc

namespace Pbt

/-! ## The strict grammar -/

/-- Pairs of hexadecimal digits, with the bytes that they spell. -/
inductive HexPairs : List Char → Bytes → Prop
  | nil : HexPairs [] []
  | pair {c c' : Char} {high low : ℕ} {rest : List Char} {data : Bytes} :
      hexValue c = some high → hexValue c' = some low → HexPairs rest data →
      HexPairs (c :: c' :: rest) (UInt8.ofNat (high * 16 + low) :: data)

/-- A field of bytes: `0x` and the pairs of digits of its bytes. -/
def IsHexBytes (text : String) (data : Bytes) : Prop :=
  ∃ body, text.toList = '0' :: 'x' :: body ∧ HexPairs body data

/-- A field of a number of 64 bits: `0x` and one or more digits. -/
def IsU64Hex (text : String) (value : ℤ) : Prop :=
  ∃ body, text.toList = '0' :: 'x' :: body ∧ body ≠ [] ∧
    (∀ c ∈ body, (hexValue c).isSome = true) ∧ value = hexNumber body ∧ hexNumber body < 2 ^ 64

/-! ## What `bytes.fromhex` takes -/

/-- Pairs of hexadecimal digits with ASCII white space around them. -/
inductive SpacedHexPairs : List Char → Bytes → Prop
  | nil : SpacedHexPairs [] []
  | space {c : Char} {rest : List Char} {data : Bytes} :
      isAsciiSpace c = true → SpacedHexPairs rest data → SpacedHexPairs (c :: rest) data
  | pair {c c' : Char} {high low : ℕ} {rest : List Char} {data : Bytes} :
      hexValue c = some high → hexValue c' = some low → SpacedHexPairs rest data →
      SpacedHexPairs (c :: c' :: rest) (UInt8.ofNat (high * 16 + low) :: data)

/-- White space and underscores are no digits. -/
theorem hexValue_of_isAsciiSpace {c : Char} (h : isAsciiSpace c = true) : hexValue c = none := by
  have hsmall : c.toNat ≤ 32 := by
    rw [isAsciiSpace, Bool.or_eq_true, Bool.and_eq_true] at h
    rcases h with h | ⟨-, h⟩
    · rw [beq_iff_eq.mp h]
      decide
    · have := of_decide_eq_true h
      omega
  have hlow : ∀ d : Char, 32 < d.toNat → ¬ d ≤ c := by
    intro d hd hle
    have hnat : d.toNat ≤ c.toNat := UInt32.le_iff_toNat_le.mp (Char.le_def.mp hle)
    omega
  unfold hexValue
  rw [if_neg fun h => hlow _ (by decide) h.1, if_neg fun h => hlow _ (by decide) h.1,
    if_neg fun h => hlow _ (by decide) h.1]

theorem isAsciiSpace_of_hexValue {c : Char} {d : ℕ} (h : hexValue c = some d) :
    isAsciiSpace c = false := by
  refine Bool.eq_false_iff.mpr fun hspace => ?_
  rw [hexValue_of_isAsciiSpace hspace] at h
  cases h

theorem ne_underscore_of_hexValue {c : Char} (h : (hexValue c).isSome = true) : c ≠ '_' := by
  rintro rfl
  exact absurd h (by decide)

theorem SpacedHexPairs.bytesFromHex {body : List Char} {data : Bytes}
    (h : SpacedHexPairs body data) : bytesFromHex body = some data := by
  induction h with
  | nil => rfl
  | @space c rest data hspace _ ih =>
      cases rest with
      | nil =>
          cases ih
          rw [Pbt.bytesFromHex, if_pos hspace]
      | cons c' rest => rw [Pbt.bytesFromHex, if_pos hspace, ih]
  | @pair c c' high low rest data hhigh hlow _ ih =>
      have hspace := Bool.eq_false_iff.mp (isAsciiSpace_of_hexValue hhigh)
      rw [Pbt.bytesFromHex, if_neg hspace, hhigh, hlow, ih]
      rfl

theorem spacedHexPairs_of_bytesFromHex (body : List Char) :
    ∀ {data : Bytes}, bytesFromHex body = some data → SpacedHexPairs body data := by
  fun_induction bytesFromHex body with
  | case1 =>
      intro data h
      cases h
      exact .nil
  | case2 c hspace =>
      intro data h
      cases h
      exact .space hspace .nil
  | case3 c hspace =>
      intro data h
      cases h
  | case4 c c' rest hspace ih => exact fun h => .space hspace (ih h)
  | case5 c c' rest hspace ih =>
      intro data h
      simp only [Option.bind_eq_bind, Option.bind_eq_some_iff, Option.pure_def,
        Option.some.injEq] at h
      obtain ⟨high, hhigh, low, hlow, rest, hrest, rfl⟩ := h
      exact .pair hhigh hlow (ih hrest)

/-- **What `bytes.fromhex` takes.** -/
theorem bytesFromHex_eq_some_iff {body : List Char} {data : Bytes} :
    bytesFromHex body = some data ↔ SpacedHexPairs body data :=
  ⟨spacedHexPairs_of_bytesFromHex body, SpacedHexPairs.bytesFromHex⟩

theorem HexPairs.spaced {body : List Char} {data : Bytes} (h : HexPairs body data) :
    SpacedHexPairs body data := by
  induction h with
  | nil => exact .nil
  | pair hhigh hlow _ ih => exact .pair hhigh hlow ih

theorem HexPairs.even_length {body : List Char} {data : Bytes} (h : HexPairs body data) :
    body.length % 2 = 0 := by
  induction h with
  | nil => rfl
  | pair _ _ _ ih =>
      rw [List.length_cons, List.length_cons]
      omega

theorem HexPairs.not_space {body : List Char} {data : Bytes} (h : HexPairs body data) :
    ∀ c ∈ body, isAsciiSpace c = false := by
  induction h with
  | nil => exact List.forall_mem_nil _
  | pair hhigh hlow _ ih =>
      refine List.forall_mem_cons.mpr ⟨isAsciiSpace_of_hexValue hhigh, ?_⟩
      exact List.forall_mem_cons.mpr ⟨isAsciiSpace_of_hexValue hlow, ih⟩

/-- Without white space the pairs are strict. -/
theorem SpacedHexPairs.strict {body : List Char} {data : Bytes} (h : SpacedHexPairs body data)
    (hspace : ∀ c ∈ body, isAsciiSpace c = false) : HexPairs body data := by
  induction h with
  | nil => exact .nil
  | space hc _ _ =>
      rw [hspace _ List.mem_cons_self] at hc
      cases hc
  | pair hhigh hlow _ ih =>
      exact .pair hhigh hlow (ih fun c hc =>
        hspace c (List.mem_cons_of_mem _ (List.mem_cons_of_mem _ hc)))

/-! ## What `int(text, 16)` takes -/

/-- Digits with single underscores between them. -/
inductive Underscored : List Char → Prop
  | digit {c : Char} : (hexValue c).isSome = true → Underscored [c]
  | cons {c : Char} {rest : List Char} :
      (hexValue c).isSome = true → Underscored rest → Underscored (c :: rest)
  | underscore {c : Char} {rest : List Char} :
      (hexValue c).isSome = true → Underscored rest → Underscored (c :: '_' :: rest)

/-- What may follow the `0x`: an underscore, digits with underscores and white space, where
decimal digits and white space may be of any script. -/
def LooseNumber (body : List Char) (n : ℕ) : Prop :=
  ∃ lead digits spaces, transformDecimalAndSpace body = lead ++ digits ++ spaces ∧
    (lead = [] ∨ lead = ['_']) ∧ Underscored digits ∧ (∀ c ∈ spaces, isAsciiSpace c = true) ∧
    n = hexNumber digits

theorem Underscored.ne_nil {digits : List Char} (h : Underscored digits) : digits ≠ [] := by
  cases h <;> exact List.cons_ne_nil _ _

theorem Underscored.head_ne_underscore {digits : List Char} (h : Underscored digits) :
    digits.head? ≠ some '_' := by
  have hdigit : ∀ {c : Char} {rest : List Char}, (hexValue c).isSome = true →
      (c :: rest).head? ≠ some '_' := by
    intro c rest hc hhead
    exact ne_underscore_of_hexValue hc (Option.some.inj hhead)
  cases h with
  | digit hc => exact hdigit hc
  | cons hc _ => exact hdigit hc
  | underscore hc _ => exact hdigit hc

theorem underscoresOk_of_underscored {digits : List Char} (h : Underscored digits) :
    ∀ prev, underscoresOk prev digits = true := by
  have hdigit : ∀ {c : Char}, (hexValue c).isSome = true → (c == '_') = false :=
    fun hc => beq_false_of_ne (ne_underscore_of_hexValue hc)
  induction h with
  | digit hc =>
      intro prev
      simp [underscoresOk, hdigit hc, bne]
  | cons hc _ ih =>
      intro prev
      simp [underscoresOk, hdigit hc, ih]
  | underscore hc _ ih =>
      intro prev
      simp [underscoresOk, hdigit hc, ih]

/-- A run of digits and underscores: the rest of one after a digit, and a whole one, whose first
character follows no digit. -/
theorem underscored_of_underscoresOk {digits : List Char}
    (hrun : ∀ c ∈ digits, ((hexValue c).isSome || c == '_') = true) :
    (∀ prev, (hexValue prev).isSome = true → underscoresOk prev digits = true →
      Underscored (prev :: digits)) ∧
    (underscoresOk '_' digits = true → Underscored digits) := by
  induction digits with
  | nil => exact ⟨fun prev hprev _ => .digit hprev, fun hok => absurd hok (by decide)⟩
  | cons c rest ih =>
      obtain ⟨hc, hrest⟩ := List.forall_mem_cons.mp hrun
      obtain ⟨ihdigit, ihunder⟩ := ih hrest
      by_cases hunder : c = '_'
      · subst hunder
        refine ⟨fun prev hprev hok => .underscore hprev (ihunder ?_), fun hok => ?_⟩
        · rw [underscoresOk, Bool.and_eq_true] at hok
          exact hok.2
        · simp [underscoresOk] at hok
      · have hdigit : (hexValue c).isSome = true := by simpa [hunder] using hc
        have hcons : ∀ prev, underscoresOk prev (c :: rest) = true → Underscored (c :: rest) := by
          intro prev hok
          rw [underscoresOk, Bool.and_eq_true] at hok
          exact ihdigit c hdigit hok.2
        exact ⟨fun prev hprev hok => .cons hprev (hcons prev hok), hcons '_'⟩

theorem Underscored.run {digits : List Char} (h : Underscored digits) :
    ∀ c ∈ digits, ((hexValue c).isSome || c == '_') = true := by
  induction h with
  | digit hc => exact List.forall_mem_singleton.mpr (by rw [hc]; rfl)
  | cons hc _ ih => exact List.forall_mem_cons.mpr ⟨by rw [hc]; rfl, ih⟩
  | underscore hc _ ih =>
      exact List.forall_mem_cons.mpr ⟨by rw [hc]; rfl, List.forall_mem_cons.mpr ⟨by decide, ih⟩⟩

theorem transformDecimalAndSpace_hexPrefix (body : List Char) :
    transformDecimalAndSpace ('0' :: 'x' :: body) = '0' :: 'x' :: transformDecimalAndSpace body := by
  have hall : ('0' :: 'x' :: body).all (·.toNat < 128) = body.all (·.toNat < 128) := by
    simp
  unfold transformDecimalAndSpace
  rw [hall]
  split_ifs
  · rfl
  · rfl

theorem dropHexPrefix_hexPrefix {lead digits : List Char} (hlead : lead = [] ∨ lead = ['_'])
    (hdigits : digits.head? ≠ some '_') :
    dropHexPrefix ('0' :: 'x' :: (lead ++ digits)) = digits := by
  rcases hlead with rfl | rfl
  · cases digits with
    | nil => rfl
    | cons c rest =>
        have hc : c ≠ '_' := fun h => hdigits (by rw [h]; rfl)
        simp [dropHexPrefix, hc]
  · rfl

/-- The underscore that may follow the `0x` is all that is dropped with it. -/
theorem dropHexPrefix_spec (body : List Char) :
    ∃ lead, (lead = [] ∨ lead = ['_']) ∧ body = lead ++ dropHexPrefix ('0' :: 'x' :: body) := by
  cases body with
  | nil => exact ⟨[], Or.inl rfl, rfl⟩
  | cons c rest =>
      by_cases hc : c = '_'
      · subst hc
        exact ⟨['_'], Or.inr rfl, rfl⟩
      · exact ⟨[], Or.inl rfl, by simp [dropHexPrefix, hc]⟩

/-- **What `int(text, 16)` takes** behind the `0x`. -/
theorem intBase16_hexPrefix_eq_some_iff {body : List Char} {value : ℤ} :
    intBase16 ('0' :: 'x' :: body) = some value ↔ ∃ n : ℕ, value = n ∧ LooseNumber body n := by
  set run : Char → Bool := fun c => (hexValue c).isSome || c == '_' with hrundef
  have hsign : takeSign (('0' :: 'x' :: transformDecimalAndSpace body).dropWhile isAsciiSpace) =
      (false, '0' :: 'x' :: transformDecimalAndSpace body) := rfl
  unfold intBase16
  rw [transformDecimalAndSpace_hexPrefix, hsign]
  simp only [Bool.false_eq_true, if_false]
  rw [← hrundef]
  generalize hbody : dropHexPrefix ('0' :: 'x' :: transformDecimalAndSpace body) = digits
  constructor
  · intro h
    split_ifs at h with hrefused
    obtain ⟨-, hok, hspaces⟩ : digits.takeWhile run ≠ [] ∧
        underscoresOk '_' (digits.takeWhile run) = true ∧
        (digits.dropWhile run).all isAsciiSpace = true := by
      simpa only [not_or, not_not] using hrefused
    obtain ⟨lead, hlead, htext⟩ := dropHexPrefix_spec (transformDecimalAndSpace body)
    refine ⟨_, (Option.some.inj h).symm, lead, digits.takeWhile run, digits.dropWhile run, ?_,
      hlead, (underscored_of_underscoresOk ?_).2 hok, List.all_eq_true.mp hspaces, rfl⟩
    · rw [List.append_assoc, List.takeWhile_append_dropWhile, ← hbody]
      exact htext
    · intro c hc
      have hc : run c = true := List.mem_takeWhile_imp hc
      exact hc
  · rintro ⟨n, rfl, lead, number, spaces, htext, hlead, hnumber, hspaces, rfl⟩
    have hstop : ∀ c ∈ spaces, run c = false := by
      intro c hc
      have hnone := hexValue_of_isAsciiSpace (hspaces c hc)
      have hunder : (c == '_') = false := by
        refine beq_false_of_ne fun heq => ?_
        have := hspaces c hc
        rw [heq] at this
        exact absurd this (by decide)
      rw [hrundef]
      simp only [hnone, hunder, Option.isSome_none, Bool.or_self]
    have hhead : (number ++ spaces).head? ≠ some '_' := by
      rw [List.head?_append_of_ne_nil _ hnumber.ne_nil]
      exact hnumber.head_ne_underscore
    have hdigits : digits = number ++ spaces := by
      rw [← hbody, htext, List.append_assoc, dropHexPrefix_hexPrefix hlead hhead]
    obtain ⟨htake, hdrop⟩ : digits.takeWhile run = number ∧ digits.dropWhile run = spaces := by
      rw [hdigits, List.takeWhile_append_of_pos hnumber.run,
        List.dropWhile_append_of_pos hnumber.run]
      cases spaces with
      | nil => exact ⟨List.append_nil _, rfl⟩
      | cons c rest =>
          have hc := Bool.eq_false_iff.mp (hstop c List.mem_cons_self)
          rw [List.takeWhile_cons_of_neg hc, List.dropWhile_cons_of_neg hc]
          exact ⟨List.append_nil _, rfl⟩
    rw [htake, hdrop, if_neg]
    rintro (hnil | hok | hrest)
    · exact hnumber.ne_nil hnil
    · exact hok (underscoresOk_of_underscored hnumber _)
    · exact hrest (List.all_eq_true.mpr hspaces)

theorem underscored_of_digits {digits : List Char} (hne : digits ≠ [])
    (h : ∀ c ∈ digits, (hexValue c).isSome = true) : Underscored digits := by
  induction digits with
  | nil => exact absurd rfl hne
  | cons c rest ih =>
      obtain ⟨hc, hrest⟩ := List.forall_mem_cons.mp h
      by_cases hnil : rest = []
      · rw [hnil]
        exact .digit hc
      · exact .cons hc (ih hnil hrest)

/-- Hexadecimal digits are ASCII characters. -/
theorem toNat_lt_of_hexValue {c : Char} (h : (hexValue c).isSome = true) : c.toNat < 128 := by
  have hle : ∀ {d : Char}, c ≤ d → c.toNat ≤ d.toNat := fun hcd =>
    UInt32.le_iff_toNat_le.mp (Char.le_def.mp hcd)
  unfold hexValue at h
  split_ifs at h with h0 ha hA
  · exact (hle h0.2).trans_lt (by decide)
  · exact (hle ha.2).trans_lt (by decide)
  · exact (hle hA.2).trans_lt (by decide)
  · cases h

/-- Behind the `0x`, hexadecimal digits are the number they spell and no other. -/
theorem looseNumber_iff_of_digits {body : List Char} {n : ℕ}
    (h : ∀ c ∈ body, (hexValue c).isSome = true) :
    LooseNumber body n ↔ body ≠ [] ∧ n = hexNumber body := by
  have hascii : transformDecimalAndSpace body = body := by
    refine if_pos (List.all_eq_true.mpr fun c hc => decide_eq_true (toNat_lt_of_hexValue (h c hc)))
  constructor
  · rintro ⟨lead, digits, spaces, htext, hlead, hdigits, hspaces, rfl⟩
    rw [hascii] at htext
    subst htext
    have hspaces : spaces = [] := by
      refine List.eq_nil_iff_forall_not_mem.mpr fun c hc => ?_
      have hsome := h c (List.mem_append_right _ hc)
      rw [hexValue_of_isAsciiSpace (hspaces c hc)] at hsome
      cases hsome
    have hlead : lead = [] := by
      refine hlead.resolve_right fun hunder => ?_
      have hsome := h '_' (by simp [hunder])
      exact absurd hsome (by decide)
    subst hspaces hlead
    rw [List.nil_append, List.append_nil]
    exact ⟨hdigits.ne_nil, rfl⟩
  · rintro ⟨hne, rfl⟩
    refine ⟨[], body, [], ?_, Or.inl rfl, underscored_of_digits hne h, List.forall_mem_nil _, rfl⟩
    rw [hascii, List.nil_append, List.append_nil]

/-! ## The fields -/

/-- **The grammar of `_hex_to_bytes`.** -/
theorem hexToBytes_eq_ok_iff {text name : String} {data : Bytes} :
    hexToBytes (.str text) name none = .ok data ↔ ∃ body, text.toList = '0' :: 'x' :: body ∧
      body.length % 2 = 0 ∧ SpacedHexPairs body data := by
  rw [hexToBytes]
  split
  · rename_i body hbody
    simp only [py_bind_eq_ok_iff, raiseIf_eq_ok_iff, exists_const, not_not, Option.any_none,
      Bool.false_eq_true, not_false_eq_true, true_and, hbody, List.cons.injEq, exists_eq_left']
    refine and_congr_right fun _ => ?_
    rw [← bytesFromHex_eq_some_iff]
    cases bytesFromHex body with
    | none => exact iff_of_false (fun h => by cases h) (fun h => by cases h)
    | some read => simp [pure, Except.pure]
  · rename_i hno
    refine iff_of_false (fun h => by cases h) ?_
    rintro ⟨body, hbody, -⟩
    exact hno body hbody

/-- **The grammar of `_parse_u64_hex`.** -/
theorem parseU64Hex_eq_ok_iff {text name : String} {value : ℤ} :
    parseU64Hex (.str text) name = .ok value ↔ ∃ body, text.toList = '0' :: 'x' :: body ∧
      ∃ n : ℕ, LooseNumber body n ∧ value = n ∧ n < 2 ^ 64 := by
  rw [parseU64Hex]
  split
  · rename_i body hbody
    simp only [hbody, List.cons.injEq, true_and, exists_eq_left']
    constructor
    · intro h
      split at h
      · rename_i parsed hparsed
        simp only [py_bind_eq_ok_iff, raiseIf_eq_ok_iff, exists_const, pure, Except.pure,
          Except.ok.injEq] at h
        obtain ⟨-, hmax, rfl⟩ := h
        obtain ⟨n, rfl, hn⟩ := intBase16_hexPrefix_eq_some_iff.mp hparsed
        rw [maxU64] at hmax
        exact ⟨n, hn, rfl, by omega⟩
      · cases h
    · rintro ⟨n, hn, rfl, hlt⟩
      have hmax : ¬ (n : ℤ) > maxU64 := by
        rw [maxU64]
        omega
      rw [intBase16_hexPrefix_eq_some_iff.mpr ⟨n, rfl, hn⟩]
      dsimp only
      rw [raiseIf, if_neg (not_lt.mpr (Int.natCast_nonneg n)), raiseIf, if_neg hmax]
      rfl
  · rename_i hno
    refine iff_of_false (fun h => by cases h) ?_
    rintro ⟨body, hbody, -⟩
    exact hno body hbody

/-- Pairs of digits behind `0x`, of an even number of characters, with white space among them. -/
def HasSpacedBytes (text : String) : Prop :=
  ∃ body data, text.toList = '0' :: 'x' :: body ∧ body.length % 2 = 0 ∧ SpacedHexPairs body data ∧
    ∃ c ∈ body, isAsciiSpace c = true

/-- A number of 64 bits behind `0x` that is not spelled in hexadecimal digits only. -/
def HasLooseU64 (text : String) : Prop :=
  ∃ body n, text.toList = '0' :: 'x' :: body ∧ LooseNumber body n ∧ n < 2 ^ 64 ∧
    ∃ c ∈ body, hexValue c = none

/-- A reader that takes all of its strict grammar takes nothing else when nothing that it takes
lies outside. -/
theorem forall_iff_iff_not_exists {α : Type} {accepts strict : α → Prop}
    (h : ∀ v, strict v → accepts v) :
    (∀ v, accepts v ↔ strict v) ↔ ¬ ∃ v, accepts v ∧ ¬ strict v := by
  constructor
  · rintro hall ⟨v, haccepts, hstrict⟩
    exact hstrict ((hall v).mp haccepts)
  · intro hnone v
    exact ⟨fun haccepts => not_not.mp fun hstrict => hnone ⟨v, haccepts, hstrict⟩, h v⟩

theorem hexToBytes_exact_iff {text name : String} :
    (∀ data, hexToBytes (.str text) name none = .ok data ↔ IsHexBytes text data) ↔
      ¬ HasSpacedBytes text := by
  simp only [hexToBytes_eq_ok_iff]
  rw [forall_iff_iff_not_exists]
  · refine not_congr ⟨?_, ?_⟩
    · rintro ⟨data, ⟨body, hbody, heven, hpairs⟩, hstrict⟩
      refine ⟨body, data, hbody, heven, hpairs, not_forall_not.mp fun hnone => hstrict ?_⟩
      exact ⟨body, hbody, hpairs.strict fun c hc => Bool.eq_false_iff.mpr fun hspace =>
        hnone c ⟨hc, hspace⟩⟩
    · rintro ⟨body, data, hbody, heven, hpairs, c, hc, hspace⟩
      refine ⟨data, ⟨body, hbody, heven, hpairs⟩, ?_⟩
      rintro ⟨body', hbody', hstrict⟩
      rw [hbody] at hbody'
      cases hbody'
      rw [hstrict.not_space c hc] at hspace
      cases hspace
  · rintro data ⟨body, hbody, hpairs⟩
    exact ⟨body, hbody, hpairs.even_length, hpairs.spaced⟩

theorem parseU64Hex_exact_iff {text name : String} :
    (∀ value, parseU64Hex (.str text) name = .ok value ↔ IsU64Hex text value) ↔
      ¬ HasLooseU64 text := by
  simp only [parseU64Hex_eq_ok_iff]
  rw [forall_iff_iff_not_exists]
  · refine not_congr ⟨?_, ?_⟩
    · rintro ⟨value, ⟨body, hbody, n, hn, rfl, hlt⟩, hstrict⟩
      refine ⟨body, n, hbody, hn, hlt, not_forall_not.mp fun hnone => hstrict ?_⟩
      have hdigits : ∀ c ∈ body, (hexValue c).isSome = true := fun c hc =>
        Option.isSome_iff_ne_none.mpr fun hc' => hnone c ⟨hc, hc'⟩
      obtain ⟨hne, rfl⟩ := (looseNumber_iff_of_digits hdigits).mp hn
      exact ⟨body, hbody, hne, hdigits, rfl, hlt⟩
    · rintro ⟨body, n, hbody, hn, hlt, c, hc, hnone⟩
      refine ⟨n, ⟨body, hbody, n, hn, rfl, hlt⟩, ?_⟩
      rintro ⟨body', hbody', -, hdigits, -⟩
      rw [hbody] at hbody'
      cases hbody'
      have hsome := hdigits c hc
      rw [hnone] at hsome
      cases hsome
  · rintro value ⟨body, hbody, hne, hdigits, rfl, hlt⟩
    exact ⟨body, hbody, _, (looseNumber_iff_of_digits hdigits).mpr ⟨hne, rfl⟩, rfl, hlt⟩

/-- **When the hexadecimal fields accept exactly their grammar**: for every text, exactly when it
has no white space among the pairs of digits of `_hex_to_bytes`, and when the number that
`_parse_u64_hex` reads is spelled in hexadecimal digits only. -/
theorem hexFields_iff (text name : String) :
    ((∀ data, hexToBytes (.str text) name none = .ok data ↔ IsHexBytes text data) ↔
      ¬ HasSpacedBytes text) ∧
    ((∀ value, parseU64Hex (.str text) name = .ok value ↔ IsU64Hex text value) ↔
      ¬ HasLooseU64 text) :=
  ⟨hexToBytes_exact_iff, parseU64Hex_exact_iff⟩

/-- Two blanks are read as no bytes, and an underscore is read over. -/
theorem not_hexFields_exact :
    ¬ (∀ data, hexToBytes (.str "0x  ") "key" none = .ok data ↔ IsHexBytes "0x  " data) ∧
    ¬ (∀ value, parseU64Hex (.str "0x1_0") "number" = .ok value ↔ IsU64Hex "0x1_0" value) := by
  have hspaced : HasSpacedBytes "0x  " := by
    refine ⟨[' ', ' '], [], by decide, rfl, .space rfl (.space rfl .nil), ' ', ?_, rfl⟩
    exact List.mem_cons_self
  have hloose : HasLooseU64 "0x1_0" := by
    refine ⟨['1', '_', '0'], 16, by decide, ⟨[], ['1', '_', '0'], [], rfl, Or.inl rfl,
      .underscore rfl (.digit rfl), List.forall_mem_nil _, by decide⟩, by norm_num, '_', ?_, rfl⟩
    exact List.mem_cons_of_mem _ List.mem_cons_self
  exact ⟨fun h => hexToBytes_exact_iff.mp h hspaced, fun h => parseU64Hex_exact_iff.mp h hloose⟩

end Pbt
