/-
# The leaves of an account in both clients

`encode_basic_data` and `chunk_code` exist twice, in `pbt/embedding.py` and in
`pbt-rs/src/migration.rs`, and a migrated account has the root of the reference client
only if both write the same leaves.

The basic data are four big-endian fields in 32 bytes.  Writer and reader of the Python
client are connected through `basicDataBytes`, and the Rust writer emits the same bytes
(`basicData_format`).  The Rust `chunk_code` leaves the first byte of every leaf at zero,
so `chunkCode_agrees_iff` says for which code this is what the Python client stores.
-/
import PartitionedBinaryTree.CodeChunks
import PartitionedBinaryTree.Migration
import PartitionedBinaryTree.StemPacket

namespace Pbt

/-! ## Basic data -/

/-- `encode_basic_data`; that the result has 32 bytes is asserted there, and here it is
`length_basicDataBytes`. -/
def encodeBasicData (version balance nonce codeSize : ℤ) : Py Bytes := do
  raiseIf (¬ (0 ≤ version ∧ version < 2 ^ 32)) ("version out of range: " ++ toString version)
  raiseIf (¬ (0 ≤ balance ∧ balance < 2 ^ 64)) ("balance out of range: " ++ toString balance)
  raiseIf (¬ (0 ≤ nonce ∧ nonce < 2 ^ 64)) ("nonce out of range: " ++ toString nonce)
  raiseIf (¬ (0 ≤ codeSize ∧ codeSize < 2 ^ 96)) ("code_size out of range: " ++ toString codeSize)
  let versionBytes ← intToBytes version 4
  let balanceBytes ← intToBytes balance 8
  let nonceBytes ← intToBytes nonce 8
  let codeSizeBytes ← intToBytes codeSize 12
  pure (versionBytes ++ balanceBytes ++ nonceBytes ++ codeSizeBytes)

/-- `BasicData`. -/
structure BasicData where
  version : ℤ
  balance : ℤ
  nonce : ℤ
  codeSize : ℤ
  deriving DecidableEq, Repr

/-- `decode_basic_data`. -/
def decodeBasicData (leaf : Bytes) : Py BasicData := do
  raiseIf (leaf.length ≠ 32) ("BASIC_DATA leaf must be 32 bytes, got " ++ toString leaf.length)
  pure {
    version := intFromBytes (slice leaf 0 4)
    balance := intFromBytes (slice leaf 4 8)
    nonce := intFromBytes (slice leaf 12 8)
    codeSize := intFromBytes (slice leaf 20 12) }

/-- Every field fits its width. -/
structure BasicData.InRange (data : BasicData) : Prop where
  version : 0 ≤ data.version ∧ data.version < 2 ^ 32
  balance : 0 ≤ data.balance ∧ data.balance < 2 ^ 64
  nonce : 0 ≤ data.nonce ∧ data.nonce < 2 ^ 64
  codeSize : 0 ≤ data.codeSize ∧ data.codeSize < 2 ^ 96

theorem BasicData.inRange_natCast {version balance nonce codeSize : ℕ} (hversion : version < 2 ^ 32)
    (hbalance : balance < 2 ^ 64) (hnonce : nonce < 2 ^ 64) (hcodeSize : codeSize < 2 ^ 96) :
    (BasicData.mk version balance nonce codeSize).InRange := by
  refine ⟨⟨Int.natCast_nonneg _, ?_⟩, ⟨Int.natCast_nonneg _, ?_⟩, ⟨Int.natCast_nonneg _, ?_⟩,
    ⟨Int.natCast_nonneg _, ?_⟩⟩ <;> dsimp only <;> omega

/-- The leaf of the data. -/
def basicDataBytes (data : BasicData) : Bytes :=
  natToBE 4 data.version.toNat ++ natToBE 8 data.balance.toNat ++ natToBE 8 data.nonce.toNat ++
    natToBE 12 data.codeSize.toNat

@[simp] theorem length_basicDataBytes (data : BasicData) : (basicDataBytes data).length = 32 := by
  simp [basicDataBytes]

/-- **The writer** accepts the data in range, and writes their leaf. -/
theorem encodeBasicData_eq_ok_iff {version balance nonce codeSize : ℤ} {leaf : Bytes} :
    encodeBasicData version balance nonce codeSize = .ok leaf ↔
      (BasicData.mk version balance nonce codeSize).InRange ∧
        leaf = basicDataBytes ⟨version, balance, nonce, codeSize⟩ := by
  simp only [encodeBasicData, py_bind_eq_ok_iff, raiseIf_eq_ok_iff, exists_const, not_not,
    intToBytes_eq_ok_iff, pure, Except.pure, Except.ok.injEq]
  constructor
  · rintro ⟨hversion, hbalance, hnonce, hcodeSize, _, ⟨-, -, rfl⟩, _, ⟨-, -, rfl⟩, _, ⟨-, -, rfl⟩,
      _, ⟨-, -, rfl⟩, rfl⟩
    exact ⟨⟨hversion, hbalance, hnonce, hcodeSize⟩, rfl⟩
  · rintro ⟨⟨hversion, hbalance, hnonce, hcodeSize⟩, rfl⟩
    exact ⟨hversion, hbalance, hnonce, hcodeSize, _, ⟨hversion.1, by linarith [hversion.2], rfl⟩,
      _, ⟨hbalance.1, by linarith [hbalance.2], rfl⟩, _, ⟨hnonce.1, by linarith [hnonce.2], rfl⟩,
      _, ⟨hcodeSize.1, by linarith [hcodeSize.2], rfl⟩, rfl⟩

/-- **The reader** accepts the leaves of data in range, and returns these data. -/
theorem decodeBasicData_eq_ok_iff {leaf : Bytes} {data : BasicData} :
    decodeBasicData leaf = .ok data ↔ data.InRange ∧ leaf = basicDataBytes data := by
  simp only [decodeBasicData, py_bind_eq_ok_iff, raiseIf_eq_ok_iff, exists_const, not_not, pure,
    Except.pure, Except.ok.injEq]
  constructor
  · rintro ⟨hlen, rfl⟩
    have hversion : Spans leaf 0 (slice leaf 0 4) 4 := Spans.of_slice (by omega)
    have hbalance : Spans leaf 4 (slice leaf 4 8) 12 := Spans.of_slice (by omega)
    have hnonce : Spans leaf 12 (slice leaf 12 8) 20 := Spans.of_slice (by omega)
    have hcodeSize : Spans leaf 20 (slice leaf 20 12) 32 := Spans.of_slice (by omega)
    have hwhole := ((hversion.append hbalance).append hnonce).append hcodeSize
    rw [← hlen] at hwhole
    have hend := hversion.end_eq
    have hend' := hbalance.end_eq
    have hend'' := hnonce.end_eq
    have hend''' := hcodeSize.end_eq
    have h4 : (slice leaf 0 4).length = 4 := by omega
    have h8 : (slice leaf 4 8).length = 8 := by omega
    have h8' : (slice leaf 12 8).length = 8 := by omega
    have h12 : (slice leaf 20 12).length = 12 := by omega
    refine ⟨⟨⟨intFromBytes_nonneg _, ?_⟩, ⟨intFromBytes_nonneg _, ?_⟩, ⟨intFromBytes_nonneg _, ?_⟩,
      ⟨intFromBytes_nonneg _, ?_⟩⟩, ?_⟩
    · linarith [intFromBytes_lt h4]
    · linarith [intFromBytes_lt h8]
    · linarith [intFromBytes_lt h8']
    · linarith [intFromBytes_lt h12]
    · -- each field is written back as the bytes it was read from
      rw [basicDataBytes, natToBE_intFromBytes h4, natToBE_intFromBytes h8,
        natToBE_intFromBytes h8', natToBE_intFromBytes h12, spans_zero_iff.mp hwhole]
  · rintro ⟨h, rfl⟩
    obtain ⟨version, balance, nonce, codeSize⟩ := data
    have hversion : slice (basicDataBytes ⟨version, balance, nonce, codeSize⟩) 0 4 =
        natToBE 4 version.toNat := by
      rw [basicDataBytes, List.append_assoc, List.append_assoc, slice, List.drop_zero,
        List.take_left' (length_natToBE _ _)]
    have hbalance : slice (basicDataBytes ⟨version, balance, nonce, codeSize⟩) 4 8 =
        natToBE 8 balance.toNat := by
      rw [basicDataBytes, List.append_assoc]
      exact slice_append (length_natToBE _ _) (length_natToBE _ _)
    have hnonce : slice (basicDataBytes ⟨version, balance, nonce, codeSize⟩) 12 8 =
        natToBE 8 nonce.toNat := by
      exact slice_append (by simp) (length_natToBE _ _)
    have hcodeSize : slice (basicDataBytes ⟨version, balance, nonce, codeSize⟩) 20 12 =
        natToBE 12 codeSize.toNat := by
      rw [basicDataBytes, ← List.append_nil (_ ++ natToBE 12 _)]
      exact slice_append (by simp) (length_natToBE _ _)
    refine ⟨length_basicDataBytes _, ?_⟩
    rw [hversion, hbalance, hnonce, hcodeSize, intFromBytes_natToBE h.version.1,
      intFromBytes_natToBE h.balance.1, intFromBytes_natToBE h.nonce.1,
      intFromBytes_natToBE h.codeSize.1]
    · linarith [h.codeSize.2]
    · linarith [h.nonce.2]
    · linarith [h.balance.2]
    · linarith [h.version.2]

/-- A `usize` has 12 of the 16 bytes of a `u128` to spare. -/
theorem slice_usize (codeSize : PbtRs.Usize) :
    slice (natToBE 16 codeSize.toNat) 4 12 = natToBE 12 codeSize.toNat := by
  have hlt : codeSize.toNat < 256 ^ 12 := codeSize.toNat_lt.trans (by norm_num)
  rw [natToBE_add 4 hlt, slice, List.drop_left' (length_zeroBytes 4)]
  exact List.take_of_length_le (length_natToBE _ _).le

/-- **The basic data are one format.**  The writer accepts exactly the fields in range, the
reader is its inverse in both directions, and the Rust writer writes the same leaves. -/
theorem basicData_format :
    (∀ version balance nonce codeSize : ℤ,
      (∃ leaf, encodeBasicData version balance nonce codeSize = .ok leaf) ↔
        (0 ≤ version ∧ version < 2 ^ 32) ∧ (0 ≤ balance ∧ balance < 2 ^ 64) ∧
          (0 ≤ nonce ∧ nonce < 2 ^ 64) ∧ (0 ≤ codeSize ∧ codeSize < 2 ^ 96)) ∧
    (∀ (version balance nonce codeSize : ℤ) (leaf : Bytes),
      encodeBasicData version balance nonce codeSize = .ok leaf →
        decodeBasicData leaf = .ok ⟨version, balance, nonce, codeSize⟩) ∧
    (∀ leaf : Bytes, leaf.length = 32 → ∃ data, decodeBasicData leaf = .ok data ∧
      encodeBasicData data.version data.balance data.nonce data.codeSize = .ok leaf) ∧
    ∀ (version : UInt32) (balance nonce : UInt64) (codeSize : PbtRs.Usize),
      encodeBasicData version.toNat balance.toNat nonce.toNat codeSize.toNat =
        .ok (PbtRs.encodeBasicData version balance nonce codeSize).val := by
  refine ⟨?_, ?_, ?_, ?_⟩
  · intro version balance nonce codeSize
    constructor
    · rintro ⟨leaf, hleaf⟩
      obtain ⟨h, -⟩ := encodeBasicData_eq_ok_iff.mp hleaf
      exact ⟨h.version, h.balance, h.nonce, h.codeSize⟩
    · rintro ⟨hversion, hbalance, hnonce, hcodeSize⟩
      exact ⟨_, encodeBasicData_eq_ok_iff.mpr ⟨⟨hversion, hbalance, hnonce, hcodeSize⟩, rfl⟩⟩
  · intro version balance nonce codeSize leaf hleaf
    exact decodeBasicData_eq_ok_iff.mpr (encodeBasicData_eq_ok_iff.mp hleaf)
  · intro leaf hlen
    have hread : ∃ data, decodeBasicData leaf = .ok data := by
      unfold decodeBasicData raiseIf
      rw [if_neg (not_not.mpr hlen)]
      exact ⟨_, rfl⟩
    obtain ⟨data, hdata⟩ := hread
    exact ⟨data, hdata, encodeBasicData_eq_ok_iff.mpr (decodeBasicData_eq_ok_iff.mp hdata)⟩
  · intro version balance nonce codeSize
    have hcodeSize : codeSize.toNat < 2 ^ 96 := codeSize.toNat_lt.trans (by norm_num)
    rw [encodeBasicData_eq_ok_iff, basicDataBytes]
    refine ⟨BasicData.inRange_natCast version.toNat_lt balance.toNat_lt nonce.toNat_lt hcodeSize,
      ?_⟩
    simp only [PbtRs.encodeBasicData, slice_usize, Int.toNat_natCast]

/-! ## Code chunks -/

/-- A leaf stores that it begins with an opcode exactly when nothing is carried into it. -/
theorem chunkLeaf_eq_zero_iff {pushdataRemaining : ℕ} {raw : Bytes} (hne : raw ≠ [])
    (hraw : raw.length ≤ chunkSize) (hcarried : pushdataRemaining ≤ 32) :
    chunkLeaf pushdataRemaining raw = chunkLeaf 0 raw ↔ pushdataRemaining = 0 := by
  constructor
  · intro h
    have hhead := congrArg UInt8.toNat (List.cons.inj h).1
    rw [toNat_pushdataOffset hcarried hraw, toNat_pushdataOffset (Nat.zero_le 32) hraw,
      Nat.zero_min] at hhead
    have hpos := List.length_pos_iff.mpr hne
    omega
  · rintro rfl
    rfl

/-- The first role of a scan says whether an operand is carried into it. -/
theorem head_scan_pushScanner {pushdataRemaining : ℕ} {code : Bytes} (hne : code ≠ []) :
    (pushScanner.scan pushdataRemaining code)[0]? = some .opcode ↔ pushdataRemaining = 0 := by
  cases code with
  | nil => exact absurd rfl hne
  | cons byte code =>
      rw [Scanner.scan_cons, List.getElem?_cons_zero, pushScanner]
      dsimp only
      split_ifs with hpos
      · simp only [Option.some.injEq, reduceCtorEq, false_iff]
        omega
      · simp only [true_iff]
        omega

/-- **When no leaf has a carry**: exactly when every chunk begins with an opcode. -/
theorem scan_chunkLeaf_eq_map_iff {full : List Bytes} {last : Bytes}
    (hfull : ∀ raw ∈ full, raw.length = chunkSize) (hne : last ≠ [])
    (hlast : last.length ≤ chunkSize) {pushdataRemaining : ℕ} (hcarried : pushdataRemaining ≤ 32) :
    (pushScanner.blocks chunkLeaf).scan pushdataRemaining (full ++ [last]) =
        (full ++ [last]).map (chunkLeaf 0) ↔
      ∀ i, 31 * i < (full.flatten ++ last).length →
        (pushScanner.scan pushdataRemaining (full.flatten ++ last))[31 * i]? = some .opcode := by
  have hsize : chunkSize = 31 := rfl
  induction full generalizing pushdataRemaining with
  | nil =>
      have hpos := List.length_pos_iff.mpr hne
      rw [List.nil_append, List.flatten_nil, List.nil_append, List.map_singleton]
      show [chunkLeaf pushdataRemaining last] = [chunkLeaf 0 last] ↔ _
      rw [List.singleton_inj, chunkLeaf_eq_zero_iff hne hlast hcarried,
        ← head_scan_pushScanner hne]
      constructor
      · intro h i hi
        obtain rfl : i = 0 := by omega
        exact h
      · intro h
        exact h 0 hpos
  | cons raw full ih =>
      have hraw : raw.length = 31 := hfull raw List.mem_cons_self
      have hrawNe : raw ≠ [] := List.length_pos_iff.mp (by omega)
      have hnext : pushScanner.stateAfter pushdataRemaining raw ≤ 32 :=
        Scanner.stateAfter_invariant (I := fun carried => carried ≤ 32)
          (fun _ byte => pushStep_le byte) hcarried raw
      have hrest := ih (fun r hr => hfull r (List.mem_cons_of_mem _ hr)) hnext
      -- the roles of the first chunk, and those of the others behind them
      have hfirst : ∀ code, (pushScanner.scan pushdataRemaining (raw ++ code))[31 * 0]? =
          some .opcode ↔ pushdataRemaining = 0 := by
        intro code
        rw [Nat.mul_zero]
        exact head_scan_pushScanner (List.append_ne_nil_of_left_ne_nil hrawNe code)
      have hlater : ∀ code i, (pushScanner.scan pushdataRemaining (raw ++ code))[31 * (i + 1)]? =
          (pushScanner.scan (pushScanner.stateAfter pushdataRemaining raw) code)[31 * i]? := by
        intro code i
        rw [Scanner.scan_append, List.getElem?_append_right (by rw [Scanner.length_scan]; omega),
          Scanner.length_scan]
        congr 1
        omega
      rw [List.cons_append, Scanner.scan_cons, List.map_cons, List.cons.injEq, List.flatten_cons,
        List.append_assoc, ← Nat.and_forall_add_one]
      show chunkLeaf pushdataRemaining raw = chunkLeaf 0 raw ∧ _ ↔ _
      rw [chunkLeaf_eq_zero_iff hrawNe (by omega) hcarried, hfirst]
      refine and_congr ?_ (hrest.trans (forall_congr' fun i => ?_))
      · rw [List.length_append]
        exact ⟨fun h _ => h, fun h => h (by omega)⟩
      · have hlen : (raw ++ (full.flatten ++ last)).length = 31 + (full.flatten ++ last).length := by
          rw [List.length_append, hraw]
        rw [hlater, hlen]
        exact imp_congr_left (by omega)

end Pbt

namespace PbtRs

open Pbt (ByteRole byteRoles)

/-- The leaf that `chunk_code` makes of a chunk. -/
theorem copyFrom_chunk {raw : Bytes} (hraw : raw.length ≤ Pbt.chunkSize) :
    (BytesN.copyFrom 32 (0 :: raw)).val = Pbt.chunkLeaf 0 raw := by
  have hsize : Pbt.chunkSize = 31 := rfl
  have htake : (0 :: raw).take 32 = 0 :: raw := List.take_of_length_le (by
    rw [List.length_cons]
    omega)
  have hpadding : 32 - (raw.length + 1) = 31 - raw.length := by omega
  show (0 :: raw).take 32 ++ zeroBytes (32 - (0 :: raw).length) = _
  rw [htake, List.length_cons, hpadding, Pbt.chunkLeaf, Nat.zero_min]
  rfl

/-- **The code leaves of both clients** are the same exactly when every chunk of the code
begins with an opcode. -/
theorem chunkCode_agrees_iff (code : Bytes) :
    Pbt.chunkCode code = .ok ((chunkCode code).map Subtype.val) ↔
      ∀ i, 31 * i < code.length → (byteRoles code)[31 * i]? = some ByteRole.opcode := by
  by_cases hne : code = []
  · subst hne
    refine iff_of_true ?_ fun i hi => absurd hi (Nat.not_lt_zero _)
    rw [Pbt.chunkCode, chunks_nil]
    rfl
  · have hsize : 0 < Pbt.chunkSize := by decide
    obtain ⟨full, last, hchunks, hdata, hfull, hlast⟩ := chunks_eq hsize hne
    have hle : ∀ raw ∈ full ++ [last], raw.length ≤ Pbt.chunkSize := by
      intro raw hraw
      rcases List.mem_append.mp hraw with hraw | hraw
      · exact (hfull raw hraw).le
      · rw [List.mem_singleton.mp hraw]
        exact hlast
    have hleaves : (chunkCode code).map Subtype.val = (full ++ [last]).map (Pbt.chunkLeaf 0) := by
      have hpieces : chunks 31 code = full ++ [last] := hchunks
      rw [chunkCode, if_neg (by simpa using hne), hpieces, List.map_map]
      exact List.map_congr_left fun raw hraw => copyFrom_chunk (hle raw hraw)
    have hlastNe : last ≠ [] := by
      rintro rfl
      -- there would be one piece too many
      have hcount := congrArg List.length hchunks
      have hlength := congrArg List.length hdata
      rw [length_chunks, List.length_append, List.length_singleton, Pbt.chunkSize] at hcount
      rw [List.append_nil, length_flatten_of_widths hfull, Pbt.chunkSize] at hlength
      omega
    have hroles : Pbt.pushScanner.scan 0 code = byteRoles code := by
      rw [Pbt.scan_pushScanner, Nat.zero_min, List.replicate_zero, List.nil_append, List.drop_zero]
    rw [Pbt.chunkCode, hchunks, Pbt.chunkLoop_eq hle, hleaves, Except.ok.injEq,
      Pbt.scan_chunkLeaf_eq_map_iff hfull hlastNe hlast (Nat.zero_le 32), hdata, hroles]

/-- **A `PUSH` across a boundary**: a `PUSH2` in the last place of the first chunk has its
operand in the second one, which the Rust leaf does not say. -/
theorem chunkCode_differs :
    Pbt.chunkCode (zeroBytes 30 ++ [0x61, 0x60, 0x7f]) ≠
      .ok ((chunkCode (zeroBytes 30 ++ [0x61, 0x60, 0x7f])).map Subtype.val) := by
  decide

end PbtRs
