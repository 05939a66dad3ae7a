/-
# Compressed witnesses (`pbt/witness_compression.py`)

An envelope carries the compressed bytes of a canonical witness with their length
and the hash of what they decompress to.  The `zlib` module is a parameter, with
what its documentation says of streams that it has compressed itself, up to the
longest buffer that it can be asked for (`Zlib.Lawful`); nothing is said of other
streams.

A provider compresses and writes the dictionary of the wire, a client reads it and
decompresses.  The whole way gives back the witness exactly when every limit is met
(`transport_returns_iff`), and what a client accepts under the commitment of an
envelope is what was put into that envelope, whatever `zlib` does with the rest
(`accepted_eq_compressed`).
-/
import PartitionedBinaryTree.HexGrammar

namespace Pbt

/-! ## The `zlib` module -/

/-- The part of `zlib` that the wrapper calls.  No modelled function catches `zlib.error`,
which stands here as any other exception. -/
structure Zlib where
  Decompressor : Type
  compress : Bytes → ℤ → Py Bytes
  decompressobj : Decompressor
  decompress : Decompressor → Bytes → ℤ → Py (Bytes × Decompressor)
  flush : Decompressor → ℤ → Py (Bytes × Decompressor)
  unconsumedTail : Decompressor → Bytes
  unusedData : Decompressor → Bytes
  eof : Decompressor → Bool

/-- What the documentation says of the levels `0` to `9`, and of a stream that is decompressed
in one call with room for more than its data.  It says so of the lengths up to `bound`, the
longest buffer that the module can be asked for: a length is a C integer there. -/
structure Zlib.Lawful (zlib : Zlib) (bound : ℤ) : Prop where
  compress_returns : ∀ data level, 0 ≤ level → level ≤ 9 → (data.length : ℤ) ≤ bound →
    ∃ stream, zlib.compress data level = .ok stream
  decompress_compress : ∀ data level stream trailing maxLength,
    zlib.compress data level = .ok stream → (data.length : ℤ) < maxLength → maxLength ≤ bound →
      ∃ d, zlib.decompress zlib.decompressobj (stream ++ trailing) maxLength = .ok (data, d) ∧
        zlib.eof d = true ∧ zlib.unconsumedTail d = [] ∧
        ∀ length, 0 < length → length ≤ bound → ∃ d', zlib.flush d length = .ok ([], d') ∧
          zlib.unusedData d' = trailing

/-! ## Envelopes -/

/-- `CompressedWitnessEnvelope`. -/
structure CompressedWitnessEnvelope where
  systemId : String
  version : ℤ
  uncompressedLength : ℤ
  uncompressedCommitment : Bytes
  compressedPayload : Bytes
  deriving DecidableEq, Repr

/-- `MAX_CANONICAL_WITNESS_BYTES`. -/
def maxCanonicalWitnessBytes : ℤ := 16 * 1024 * 1024

/-- `compress_canonical_witness`. -/
def compressCanonicalWitness (zlib : Zlib) (H : HashFunction) (payload : Bytes)
    (systemId : String) (version level maxUncompressedLength : ℤ) :
    HashPy CompressedWitnessEnvelope := do
  HashPy.ofPy (raiseIf (systemId = "") "system_id must be non-empty")
  HashPy.ofPy (raiseIf (version ≤ 0) "version must be positive")
  HashPy.ofPy (raiseIf (level < 0 ∨ level > 9) "level must be between 0 and 9")
  HashPy.ofPy (raiseIf (maxUncompressedLength ≤ 0) "max_uncompressed_length must be positive")
  HashPy.ofPy (raiseIf ((payload.length : ℤ) > maxUncompressedLength)
    "payload exceeds max_uncompressed_length")
  let commitment ← HashPy.ofHash (treeHash H payload)
  let compressed ← HashPy.ofPy (zlib.compress payload level)
  pure {
    systemId := systemId
    version := version
    uncompressedLength := payload.length
    uncompressedCommitment := commitment.val
    compressedPayload := compressed }

/-- `decompress_canonical_witness`. -/
def decompressCanonicalWitness (zlib : Zlib) (H : HashFunction)
    (envelope : CompressedWitnessEnvelope) (maxUncompressedLength : ℤ) : HashPy Bytes := do
  HashPy.ofPy (raiseIf (envelope.uncompressedLength < 0)
    "uncompressed_length must be non-negative")
  HashPy.ofPy (raiseIf (maxUncompressedLength ≤ 0) "max_uncompressed_length must be positive")
  HashPy.ofPy (raiseIf (envelope.uncompressedLength > maxUncompressedLength)
    "uncompressed_length exceeds max_uncompressed_length")
  let (head, decompressor) ← HashPy.ofPy
    (zlib.decompress zlib.decompressobj envelope.compressedPayload (maxUncompressedLength + 1))
  HashPy.ofPy (raiseIf ((head.length : ℤ) > maxUncompressedLength)
    "decompressed payload exceeds max_uncompressed_length")
  HashPy.ofPy (raiseIf (zlib.unconsumedTail decompressor ≠ [] ∨ zlib.eof decompressor = false)
    "compressed payload exceeds safety limit or is incomplete")
  let (tail, decompressor) ← HashPy.ofPy
    (zlib.flush decompressor (maxUncompressedLength + 1 - head.length))
  let decompressed := head ++ tail
  HashPy.ofPy (raiseIf ((decompressed.length : ℤ) > maxUncompressedLength)
    "decompressed payload exceeds max_uncompressed_length")
  HashPy.ofPy (raiseIf (zlib.unusedData decompressor ≠ [])
    "compressed payload contains trailing bytes")
  HashPy.ofPy (raiseIf ((decompressed.length : ℤ) ≠ envelope.uncompressedLength)
    "decompressed length mismatch")
  let commitment ← HashPy.ofHash (treeHash H decompressed)
  HashPy.ofPy (raiseIf (commitment.val ≠ envelope.uncompressedCommitment)
    "uncompressed commitment mismatch")
  pure decompressed

/-! ## The dictionary of the wire -/

/-- `envelope_to_dict`. -/
def envelopeToDict (envelope : CompressedWitnessEnvelope) : Fields :=
  [("systemId", .str envelope.systemId),
    ("version", .int envelope.version),
    ("uncompressedLength", .int envelope.uncompressedLength),
    ("uncompressedCommitment", .str (bytesToHex envelope.uncompressedCommitment)),
    ("compressedPayload", .str (bytesToHex envelope.compressedPayload))]

/-- The number of a value that is an instance of `int`, which `bool` is a subclass of. -/
def Json.intValue : Json → Option ℤ
  | .int n => some n
  | .bool b => some (if b then 1 else 0)
  | _ => none

/-- `if not isinstance(value, int) or value < least: raise ValueError(message)`. -/
def expectInt (value : Json) (least : ℤ) (message : String) : Py ℤ :=
  match value.intValue with
  | some n => do
      raiseIf (n < least) message
      pure n
  | none => raiseValueError message

/-- `if not isinstance(value, str) or not value.startswith("0x"): raise ValueError(message)`,
and the text behind the prefix. -/
def expectHexBody (value : Json) (message : String) : Py (List Char) :=
  match value with
  | .str text =>
      match text.toList with
      | '0' :: 'x' :: body => .ok body
      | _ => raiseValueError message
  | _ => raiseValueError message

/-- `bytes.fromhex(text)`; `texts` has the text of its error. -/
def fromHex (texts : String → String) (body : List Char) : Py Bytes :=
  match bytesFromHex body with
  | some data => .ok data
  | none => raiseValueError (texts (String.ofList body))

/-- `envelope_from_dict`. -/
def envelopeFromDict (texts : String → String) (data : Json) : Py CompressedWitnessEnvelope := do
  let fields ← expectDict data "envelope must be an object"
  let systemId ← expectText (fields.get "systemId") "systemId must be a non-empty string"
  let version ← expectInt (fields.get "version") 1 "version must be a positive integer"
  let uncompressedLength ← expectInt (fields.get "uncompressedLength") 0
    "uncompressedLength must be a non-negative integer"
  let commitmentHex ← expectHexBody (fields.get "uncompressedCommitment")
    "uncompressedCommitment must be 0x-prefixed hex"
  let payloadHex ← expectHexBody (fields.get "compressedPayload")
    "compressedPayload must be 0x-prefixed hex"
  let commitment ← fromHex texts commitmentHex
  let payload ← fromHex texts payloadHex
  raiseIf (commitment.length ≠ 32) "uncompressedCommitment must be 32 bytes"
  pure {
    systemId := systemId
    version := version
    uncompressedLength := uncompressedLength
    uncompressedCommitment := commitment
    compressedPayload := payload }

/-! ## What the wire carries -/

/-- The envelopes that the reader of the wire can return. -/
structure CompressedWitnessEnvelope.WellFormed (envelope : CompressedWitnessEnvelope) :
    Prop where
  systemId_ne : envelope.systemId ≠ ""
  version_pos : 0 < envelope.version
  length_nonneg : 0 ≤ envelope.uncompressedLength
  commitment_width : envelope.uncompressedCommitment.length = 32

theorem expectInt_eq_ok_iff {value : Json} {least n : ℤ} {message : String} :
    expectInt value least message = .ok n ↔ value.intValue = some n ∧ least ≤ n := by
  unfold expectInt
  split
  · rename_i n' hn
    simp only [hn, py_bind_eq_ok_iff, raiseIf_eq_ok_iff, exists_const, pure, Except.pure,
      Except.ok.injEq, Option.some.injEq, not_lt]
    constructor
    · rintro ⟨h, rfl⟩
      exact ⟨rfl, h⟩
    · rintro ⟨rfl, h⟩
      exact ⟨h, rfl⟩
  · rename_i hnone
    rw [hnone]
    constructor
    · intro h
      cases h
    · rintro ⟨h, -⟩
      cases h

theorem expectHexBody_eq_ok_iff {value : Json} {message : String} {body : List Char} :
    expectHexBody value message = .ok body ↔
      ∃ text, value = .str text ∧ text.toList = '0' :: 'x' :: body := by
  unfold expectHexBody
  split
  · rename_i text
    split
    · rename_i body' hbody
      rw [Except.ok.injEq]
      constructor
      · rintro rfl
        exact ⟨text, rfl, hbody⟩
      · rintro ⟨_, htext, htoList⟩
        cases htext
        rw [hbody] at htoList
        cases htoList
        rfl
    · rename_i hother
      constructor
      · intro h
        cases h
      · rintro ⟨_, htext, htoList⟩
        cases htext
        exact absurd htoList (hother body)
  · rename_i hstr
    constructor
    · intro h
      cases h
    · rintro ⟨text, h, -⟩
      exact absurd h (hstr text)

theorem fromHex_eq_ok_iff {texts : String → String} {body : List Char} {data : Bytes} :
    fromHex texts body = .ok data ↔ SpacedHexPairs body data := by
  rw [← bytesFromHex_eq_some_iff]
  unfold fromHex
  split
  · rename_i data' h
    rw [h, Except.ok.injEq, Option.some.injEq]
  · rename_i h
    rw [h]
    constructor
    · intro h
      cases h
    · intro h
      cases h

/-- A field of bytes on the wire: `0x` and pairs of digits, with white space allowed. -/
def IsHexField (value : Json) (data : Bytes) : Prop :=
  ∃ text body, value = .str text ∧ text.toList = '0' :: 'x' :: body ∧ SpacedHexPairs body data

/-- **What the reader of the wire takes.** -/
theorem envelopeFromDict_eq_ok_iff {texts : String → String} {data : Json}
    {envelope : CompressedWitnessEnvelope} :
    envelopeFromDict texts data = .ok envelope ↔
      envelope.WellFormed ∧ ∃ fields : Fields, data = .dict fields ∧
        fields.get "systemId" = .str envelope.systemId ∧
        (fields.get "version").intValue = some envelope.version ∧
        (fields.get "uncompressedLength").intValue = some envelope.uncompressedLength ∧
        IsHexField (fields.get "uncompressedCommitment") envelope.uncompressedCommitment ∧
        IsHexField (fields.get "compressedPayload") envelope.compressedPayload := by
  cases data with
  | dict fields =>
      simp only [envelopeFromDict, expectDict, py_ok_bind, py_bind_eq_ok_iff,
        expectText_eq_ok_iff, expectInt_eq_ok_iff, expectHexBody_eq_ok_iff, fromHex_eq_ok_iff,
        raiseIf_eq_ok_iff, not_not, exists_const, pure, Except.pure, Except.ok.injEq,
        Json.dict.injEq]
      constructor
      · rintro ⟨systemId, ⟨hid, hne⟩, version, ⟨hversion, hpos⟩, length, ⟨hlength, hnonneg⟩,
          commitmentHex, ⟨commitmentText, hcommitment, hcommitmentHex⟩,
          payloadHex, ⟨payloadText, hpayload, hpayloadHex⟩, commitment, hpairs, payload, hpairs',
          hwidth, rfl⟩
        exact ⟨⟨hne, Int.lt_iff_add_one_le.mpr hpos, hnonneg, hwidth⟩, fields, rfl, hid, hversion,
          hlength, ⟨_, _, hcommitment, hcommitmentHex, hpairs⟩,
          ⟨_, _, hpayload, hpayloadHex, hpairs'⟩⟩
      · rintro ⟨hwf, _, rfl, hid, hversion, hlength,
          ⟨commitmentText, commitmentHex, hcommitment, hcommitmentHex, hpairs⟩,
          ⟨payloadText, payloadHex, hpayload, hpayloadHex, hpairs'⟩⟩
        exact ⟨_, ⟨hid, hwf.systemId_ne⟩, _, ⟨hversion, Int.lt_iff_add_one_le.mp hwf.version_pos⟩,
          _, ⟨hlength, hwf.length_nonneg⟩, _, ⟨_, hcommitment, hcommitmentHex⟩,
          _, ⟨_, hpayload, hpayloadHex⟩, _, hpairs, _, hpairs', hwf.commitment_width, rfl⟩
  | _ =>
      constructor
      · intro h
        cases h
      · rintro ⟨-, fields, h, -⟩
        cases h

theorem IsHexField.eq {value : Json} {data data' : Bytes} (h : IsHexField value data)
    (h' : IsHexField value data') : data = data' := by
  obtain ⟨text, body, rfl, hbody, hpairs⟩ := h
  obtain ⟨text', body', htext, hbody', hpairs'⟩ := h'
  cases htext
  rw [hbody] at hbody'
  cases hbody'
  exact Option.some.inj (hpairs.bytesFromHex.symm.trans hpairs'.bytesFromHex)

theorem isHexField_bytesToHex (data : Bytes) : IsHexField (.str (bytesToHex data)) data :=
  ⟨_, _, rfl, String.toList_ofList, bytesFromHex_eq_some_iff.mp (bytesFromHex_bytesHex data)⟩

/-- **The wire gives an envelope back** exactly when its reader can return it at all. -/
theorem envelopeFromDict_envelopeToDict_iff {texts : String → String}
    {envelope envelope' : CompressedWitnessEnvelope} :
    envelopeFromDict texts (.dict (envelopeToDict envelope)) = .ok envelope' ↔
      envelope.WellFormed ∧ envelope' = envelope := by
  constructor
  · intro h
    obtain ⟨hwf, fields, hfields, hid, hversion, hlength, hcommitment, hpayload⟩ :=
      envelopeFromDict_eq_ok_iff.mp h
    cases hfields
    have heq : envelope' = envelope := by
      obtain ⟨systemId', version', length', commitment', payload'⟩ := envelope'
      cases hid
      cases hversion
      cases hlength
      cases hcommitment.eq (isHexField_bytesToHex envelope.uncompressedCommitment)
      cases hpayload.eq (isHexField_bytesToHex envelope.compressedPayload)
      rfl
    exact ⟨heq ▸ hwf, heq⟩
  · rintro ⟨hwf, rfl⟩
    exact envelopeFromDict_eq_ok_iff.mpr ⟨hwf, _, rfl, rfl, rfl, rfl, isHexField_bytesToHex _,
      isHexField_bytesToHex _⟩

/-! ## The two calls -/

section

variable {zlib : Zlib} {H : HashFunction} {payload : Bytes} {systemId : String}
variable {version level maxUncompressedLength : ℤ}
variable {envelope : CompressedWitnessEnvelope} {qs : List Bytes}

/-- When an envelope is made, and what it holds. -/
theorem compressCanonicalWitness_returns_iff :
    (compressCanonicalWitness zlib H payload systemId version level
        maxUncompressedLength).Returns envelope qs ↔
      systemId ≠ "" ∧ 0 < version ∧ (0 ≤ level ∧ level ≤ 9) ∧ 0 < maxUncompressedLength ∧
        (payload.length : ℤ) ≤ maxUncompressedLength ∧
        ∃ stream, zlib.compress payload level = .ok stream ∧
          envelope = ⟨systemId, version, payload.length, (H payload).val, stream⟩ ∧
          qs = [payload] := by
  simp only [compressCanonicalWitness, HashPy.returns_ofPy_bind_iff, raiseIf_eq_ok_iff,
    HashPy.returns_ofHash_bind_iff, HashPy.returns_pure_iff, exists_const, val_treeHash,
    queries_treeHash, not_or, not_lt, not_le, gt_iff_lt]
  constructor
  · rintro ⟨hid, hversion, hlevel, hmax, hlen, rest, ⟨stream, hstream, rfl, rfl⟩, rfl⟩
    exact ⟨hid, hversion, hlevel, hmax, hlen, stream, hstream, rfl, rfl⟩
  · rintro ⟨hid, hversion, hlevel, hmax, hlen, stream, hstream, rfl, rfl⟩
    exact ⟨hid, hversion, hlevel, hmax, hlen, [], ⟨stream, hstream, rfl, rfl⟩, rfl⟩

/-- When an envelope is taken: its limits are met, one call of the decompressor and its flush
give all the data, and the data has the length and the hash of the envelope. -/
theorem decompressCanonicalWitness_returns_iff {data : Bytes} :
    (decompressCanonicalWitness zlib H envelope maxUncompressedLength).Returns data qs ↔
      0 ≤ envelope.uncompressedLength ∧ 0 < maxUncompressedLength ∧
        envelope.uncompressedLength ≤ maxUncompressedLength ∧
        (∃ head d tail d', zlib.decompress zlib.decompressobj envelope.compressedPayload
            (maxUncompressedLength + 1) = .ok (head, d) ∧
          zlib.unconsumedTail d = [] ∧ zlib.eof d = true ∧
          zlib.flush d (maxUncompressedLength + 1 - head.length) = .ok (tail, d') ∧
          zlib.unusedData d' = [] ∧ data = head ++ tail) ∧
        (data.length : ℤ) = envelope.uncompressedLength ∧
        (H data).val = envelope.uncompressedCommitment ∧ qs = [data] := by
  simp only [decompressCanonicalWitness, HashPy.returns_ofPy_bind_iff, raiseIf_eq_ok_iff,
    HashPy.returns_ofHash_bind_iff, HashPy.returns_pure_iff, exists_const, not_or, not_lt, not_le,
    not_not, gt_iff_lt, Prod.exists, Bool.not_eq_false]
  simp only [val_treeHash, queries_treeHash]
  constructor
  · rintro ⟨hnonneg, hmax, hlimit, head, d, hhead, -, ⟨htail, heof⟩, tail, d', hflush, -, hunused,
      hlen, rest, ⟨hcommitment, rfl, rfl⟩, rfl⟩
    exact ⟨hnonneg, hmax, hlimit, ⟨head, d, tail, d', hhead, htail, heof, hflush, hunused, rfl⟩,
      hlen, hcommitment, rfl⟩
  · rintro ⟨hnonneg, hmax, hlimit, ⟨head, d, tail, d', hhead, htail, heof, hflush, hunused, rfl⟩,
      hlen, hcommitment, rfl⟩
    -- the head is no longer than the whole, which has the length of the envelope
    have hle : (head.length : ℤ) ≤ (head ++ tail).length := by
      rw [List.length_append]
      exact_mod_cast Nat.le_add_right _ _
    exact ⟨hnonneg, hmax, hlimit, head, d, hhead, hle.trans (hlen.le.trans hlimit),
      ⟨htail, heof⟩, tail, d', hflush, hlen.le.trans hlimit, hunused, hlen, [],
      ⟨hcommitment, rfl, rfl⟩, rfl⟩

/-- The envelope of a stream that `zlib` has made, with more bytes behind the stream, is taken
exactly when there are none. -/
theorem Zlib.Lawful.decompress_returns_iff {bound : ℤ} (hzlib : zlib.Lawful bound)
    {stream trailing data : Bytes} (hstream : zlib.compress payload level = .ok stream)
    (hbound : maxUncompressedLength < bound) :
    (decompressCanonicalWitness zlib H
        ⟨systemId, version, payload.length, (H payload).val, stream ++ trailing⟩
        maxUncompressedLength).Returns data qs ↔
      0 < maxUncompressedLength ∧ (payload.length : ℤ) ≤ maxUncompressedLength ∧
        trailing = [] ∧ data = payload ∧ qs = [payload] := by
  have hroom : maxUncompressedLength + 1 - payload.length ≤ bound := by omega
  rw [decompressCanonicalWitness_returns_iff]
  dsimp only
  constructor
  · rintro ⟨-, hmax, hlimit, ⟨head, d, tail, d', hhead, htail, heof, hflush, hunused, rfl⟩, -, -,
      rfl⟩
    obtain ⟨_, hdecompress, -, -, hflushes⟩ := hzlib.decompress_compress payload level stream
      trailing (maxUncompressedLength + 1) hstream (Int.lt_add_one_of_le hlimit) hbound
    rw [hdecompress] at hhead
    cases hhead
    obtain ⟨_, hflush', htrailing⟩ := hflushes (maxUncompressedLength + 1 - payload.length)
      (Int.sub_pos_of_lt (Int.lt_add_one_of_le hlimit)) hroom
    rw [hflush'] at hflush
    cases hflush
    rw [List.append_nil]
    exact ⟨hmax, hlimit, htrailing.symm.trans hunused, rfl, rfl⟩
  · rintro ⟨hmax, hlimit, rfl, rfl, rfl⟩
    obtain ⟨d, hdecompress, heof, htail, hflushes⟩ := hzlib.decompress_compress data level stream
      [] (maxUncompressedLength + 1) hstream (Int.lt_add_one_of_le hlimit) hbound
    obtain ⟨d', hflush, hunused⟩ := hflushes (maxUncompressedLength + 1 - data.length)
      (Int.sub_pos_of_lt (Int.lt_add_one_of_le hlimit)) hroom
    exact ⟨Int.natCast_nonneg _, hmax, hlimit, ⟨data, d, [], d', hdecompress, htail, heof, hflush,
      hunused, (List.append_nil data).symm⟩, rfl, rfl, rfl⟩

end

/-! ## Stored streams -/

/-- Stored blocks of at most one byte, the last of them marked. -/
def storedBlocks : Bytes → Bytes
  | [] => [1, 0, 0, 255, 255]
  | [b] => [1, 1, 0, 254, 255, b]
  | b :: b' :: rest => 0 :: 1 :: 0 :: 254 :: 255 :: b :: storedBlocks (b' :: rest)

/-- The data of such blocks, and what stands behind the last one. -/
def inflateStored : Bytes → Option (Bytes × Bytes)
  | 1 :: 0 :: 0 :: 255 :: 255 :: rest => some ([], rest)
  | 1 :: 1 :: 0 :: 254 :: 255 :: b :: rest => some ([b], rest)
  | 0 :: 1 :: 0 :: 254 :: 255 :: b :: rest =>
      (inflateStored rest).map fun found => (b :: found.1, found.2)
  | _ => none

theorem inflateStored_storedBlocks (data rest : Bytes) :
    inflateStored (storedBlocks data ++ rest) = some (data, rest) := by
  fun_induction storedBlocks data with
  | case1 => rfl
  | case2 b => rfl
  | case3 b b' data ih =>
      show (inflateStored (storedBlocks (b' :: data) ++ rest)).map _ = _
      rw [ih]
      rfl

/-- The checksum at the end of a stream. -/
def adler32 (data : Bytes) : ℕ :=
  let sums := data.foldl (fun (sums : ℕ × ℕ) b =>
    ((sums.1 + b.toNat) % 65521, (sums.2 + (sums.1 + b.toNat) % 65521) % 65521)) (1, 0)
  sums.2 * 65536 + sums.1

/-- `zlib` with the streams of these blocks, which are the ones of level `0` for data of at most
one byte.  A decompressor is `eof`, `unconsumed_tail` and `unused_data`. -/
def storedZlib : Zlib where
  Decompressor := Bool × Bytes × Bytes
  compress data _ := .ok (120 :: 1 :: (storedBlocks data ++ natToBE 4 (adler32 data)))
  decompressobj := (false, [], [])
  decompress _ input maxLength :=
    match input with
    | 120 :: 1 :: body =>
        match inflateStored body with
        | some (data, rest) =>
            if rest.take 4 = natToBE 4 (adler32 data) then
              if (data.length : ℤ) < maxLength then .ok (data, true, [], rest.drop 4)
              else .ok (data.take maxLength.toNat, false, rest, [])
            else raiseValueError "incorrect data check"
        | none => raiseValueError "invalid block type"
    | _ => raiseValueError "incorrect header check"
  flush d _ := .ok ([], d)
  unconsumedTail d := d.2.1
  unusedData d := d.2.2
  eof d := d.1

theorem lawful_storedZlib (bound : ℤ) : storedZlib.Lawful bound where
  compress_returns data level _ _ _ := ⟨_, rfl⟩
  decompress_compress := by
    intro data level stream trailing maxLength hstream hlen _
    cases hstream
    have hdecompress : storedZlib.decompress storedZlib.decompressobj
        (120 :: 1 :: (storedBlocks data ++ natToBE 4 (adler32 data)) ++ trailing) maxLength =
          .ok (data, true, [], trailing) := by
      have htake : (natToBE 4 (adler32 data) ++ trailing).take 4 = natToBE 4 (adler32 data) :=
        List.take_left' (length_natToBE 4 _)
      have hdrop : (natToBE 4 (adler32 data) ++ trailing).drop 4 = trailing :=
        List.drop_left' (length_natToBE 4 _)
      simp only [storedZlib, List.cons_append, List.append_assoc, inflateStored_storedBlocks,
        htake, hdrop, if_pos, hlen]
    exact ⟨_, hdecompress, rfl, rfl, fun length _ _ => ⟨_, rfl, rfl⟩⟩

/-! ## From the provider to the client -/

/-- **The whole way.**  A witness that is compressed, written to the wire with `trailing` bytes
behind its stream, read and decompressed with a limit that `zlib` can take comes back exactly when
the arguments are in range, no limit is passed and nothing trails the stream; it is then the
witness. -/
theorem transport_returns_iff {zlib : Zlib} {bound : ℤ} (hzlib : zlib.Lawful bound)
    (H : HashFunction) (texts : String → String) (payload trailing : Bytes) (systemId : String)
    (version level maxCompress maxDecompress : ℤ) (hbound : maxDecompress < bound) (data : Bytes)
    (qs : List Bytes) :
    (do
        let envelope ← compressCanonicalWitness zlib H payload systemId version level maxCompress
        let received ← HashPy.ofPy (envelopeFromDict texts (.dict (envelopeToDict
          { envelope with compressedPayload := envelope.compressedPayload ++ trailing })))
        decompressCanonicalWitness zlib H received maxDecompress).Returns data qs ↔
      (systemId ≠ "" ∧ 0 < version ∧ 0 ≤ level ∧ level ≤ 9) ∧
        (0 < maxCompress ∧ 0 < maxDecompress) ∧
        ((payload.length : ℤ) ≤ maxCompress ∧ (payload.length : ℤ) ≤ maxDecompress) ∧
        trailing = [] ∧ data = payload ∧ qs = [payload, payload] := by
  simp only [HashPy.returns_bind_iff, compressCanonicalWitness_returns_iff,
    HashPy.returns_ofPy_iff, envelopeFromDict_envelopeToDict_iff]
  constructor
  · rintro ⟨_, _, _, ⟨hid, hversion, hlevel, hmax, hlen, stream, hstream, rfl, rfl⟩,
      ⟨_, _, qs', ⟨⟨-, rfl⟩, rfl⟩, hdecompress, rfl⟩, rfl⟩
    obtain ⟨hmax', hlen', htrailing, hdata, rfl⟩ :=
      (hzlib.decompress_returns_iff hstream hbound).mp hdecompress
    exact ⟨⟨hid, hversion, hlevel⟩, ⟨hmax, hmax'⟩, ⟨hlen, hlen'⟩, htrailing, hdata, rfl⟩
  · rintro ⟨⟨hid, hversion, hlevel⟩, ⟨hmax, hmax'⟩, ⟨hlen, hlen'⟩, htrailing, hdata, rfl⟩
    obtain ⟨stream, hstream⟩ := hzlib.compress_returns payload level hlevel.1 hlevel.2
      (hlen'.trans hbound.le)
    refine ⟨_, _, _, ⟨hid, hversion, hlevel, hmax, hlen, stream, hstream, rfl, rfl⟩,
      ⟨_, _, _, ⟨⟨⟨hid, hversion, Int.natCast_nonneg _, (H payload).property⟩, rfl⟩, rfl⟩,
        (hzlib.decompress_returns_iff hstream hbound).mpr ⟨hmax', hlen', htrailing, hdata, rfl⟩, rfl⟩,
      rfl⟩

/-- The stream of a payload of one byte goes the whole way with nothing behind it. -/
theorem transport_returns_storedZlib :
    (do
        let envelope ← compressCanonicalWitness storedZlib (fun _ => emptyValue) [97]
          "zlib-stark-wrapper" 1 0 maxCanonicalWitnessBytes
        let received ← HashPy.ofPy (envelopeFromDict id (.dict (envelopeToDict
          { envelope with compressedPayload := envelope.compressedPayload ++ [] })))
        decompressCanonicalWitness storedZlib (fun _ => emptyValue) received
          maxCanonicalWitnessBytes).Returns [97] [[97], [97]] :=
  (transport_returns_iff (lawful_storedZlib (2 ^ 63 - 1)) _ _ _ _ _ _ _ _ _ (by decide) _ _).mpr
    ⟨⟨by decide, by decide, by decide, by decide⟩, ⟨by decide, by decide⟩,
      ⟨by decide, by decide⟩, rfl, rfl, rfl⟩

/-- **The commitment binds the witness.**  Whatever `zlib` and the wire do, what a client takes
from an object that shows the commitment of an envelope is within its limit, has the length that
the object shows, and is the witness that was put into that envelope, or the two collide. -/
theorem accepted_eq_compressed {zlib zlib' : Zlib} {H : HashFunction} {texts : String → String}
    {payload data : Bytes} {systemId : String} {version level maxCompress maxDecompress : ℤ}
    {envelope : CompressedWitnessEnvelope} {received : Fields} {qs qs' : List Bytes}
    (hcompress : (compressCanonicalWitness zlib H payload systemId version level
      maxCompress).Returns envelope qs)
    (hcommitment : IsHexField (received.get "uncompressedCommitment")
      envelope.uncompressedCommitment)
    (hdecompress : (do
        let envelope' ← HashPy.ofPy (envelopeFromDict texts (.dict received))
        decompressCanonicalWitness zlib' H envelope' maxDecompress).Returns data qs') :
    (data.length : ℤ) ≤ maxDecompress ∧
      (received.get "uncompressedLength").intValue = some (data.length : ℤ) ∧
      (data = payload ∨ Collision H (qs ++ qs')) := by
  obtain ⟨-, -, -, -, -, stream, -, rfl, rfl⟩ := compressCanonicalWitness_returns_iff.mp hcompress
  obtain ⟨envelope', hparse, hdecompress⟩ := HashPy.returns_ofPy_bind_iff.mp hdecompress
  obtain ⟨-, _, hfields, -, -, hlength, hcommitment', -⟩ := envelopeFromDict_eq_ok_iff.mp hparse
  cases hfields
  obtain ⟨-, -, hlimit, -, hlen, hhash, rfl⟩ :=
    decompressCanonicalWitness_returns_iff.mp hdecompress
  have himage : H payload = H data :=
    Subtype.ext ((hcommitment.eq hcommitment').trans hhash.symm)
  refine ⟨hlen.le.trans hlimit, hlen ▸ hlength, ?_⟩
  rcases eq_or_collision_pair himage with rfl | hcol
  · exact Or.inl rfl
  · exact Or.inr hcol

/-- The envelope of that payload. -/
def storedEnvelope : CompressedWitnessEnvelope :=
  ⟨"zlib-stark-wrapper", 1, 1, emptyValue.val,
    120 :: 1 :: (storedBlocks [97] ++ natToBE 4 (adler32 [97]))⟩

theorem compressCanonicalWitness_storedEnvelope :
    (compressCanonicalWitness storedZlib (fun _ => emptyValue) [97] "zlib-stark-wrapper" 1 0
      maxCanonicalWitnessBytes).Returns storedEnvelope [[97]] :=
  compressCanonicalWitness_returns_iff.mpr
    ⟨by decide, by decide, by decide, by decide, by decide, _, rfl, rfl, rfl⟩

theorem decompressCanonicalWitness_storedEnvelope :
    (do
        let envelope ← HashPy.ofPy (envelopeFromDict id (.dict (envelopeToDict storedEnvelope)))
        decompressCanonicalWitness storedZlib (fun _ => emptyValue) envelope
          maxCanonicalWitnessBytes).Returns [97] [[97]] := by
  have hwf : storedEnvelope.WellFormed :=
    ⟨by decide, by decide, by decide, emptyValue.property⟩
  have hstream : storedZlib.compress [97] 0 = .ok storedEnvelope.compressedPayload := rfl
  refine HashPy.returns_ofPy_bind_iff.mpr
    ⟨_, envelopeFromDict_envelopeToDict_iff.mpr ⟨hwf, rfl⟩, ?_⟩
  have h : (decompressCanonicalWitness storedZlib (fun _ => emptyValue)
      ⟨"zlib-stark-wrapper", 1, (([97] : Bytes).length : ℤ), emptyValue.val,
        storedEnvelope.compressedPayload ++ []⟩ maxCanonicalWitnessBytes).Returns [97] [[97]] :=
    ((lawful_storedZlib (2 ^ 63 - 1)).decompress_returns_iff hstream (by decide)).mpr
      ⟨by decide, by decide, rfl, rfl, rfl⟩
  rwa [List.append_nil] at h

/-- What a client takes for it. -/
theorem accepted_eq_compressed_storedEnvelope :
    (([97] : Bytes).length : ℤ) ≤ maxCanonicalWitnessBytes ∧
      (Fields.get (envelopeToDict storedEnvelope) "uncompressedLength").intValue =
        some (([97] : Bytes).length : ℤ) ∧
      (([97] : Bytes) = [97] ∨ Collision (fun _ : Bytes => emptyValue) ([[97]] ++ [[97]])) :=
  accepted_eq_compressed compressCanonicalWitness_storedEnvelope
    (show IsHexField (Fields.get (envelopeToDict storedEnvelope) "uncompressedCommitment")
      storedEnvelope.uncompressedCommitment from isHexField_bytesToHex _)
    decompressCanonicalWitness_storedEnvelope

end Pbt
