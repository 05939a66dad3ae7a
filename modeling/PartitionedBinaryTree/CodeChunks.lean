/-
# Code chunks (`pbt/embedding.py`)

`chunk_code` cuts the bytecode of an account into leaves of 31 code bytes each.  A
`PUSH` has up to 32 operand bytes behind it, which may look like opcodes and may
reach over one or two boundaries; the first byte of a leaf says how many of its code
bytes are operands of a `PUSH` of an earlier leaf.

`byteRoles` is what the machine makes of code that it reads from the start.
`chunkRoles` reads one leaf alone.  `chunkCode_self_describing` says that both agree.
-/
import PartitionedBinaryTree.Lib.ByteCursor
import PartitionedBinaryTree.Lib.Scan
import PartitionedBinaryTree.PyRuntime

namespace Pbt

/-! ## The functions of the source -/

/-- `CHUNK_SIZE`. -/
def chunkSize : ℕ := 31

/-- `PUSH1`. -/
def push1 : ℕ := 0x60

/-- `PUSH32`. -/
def push32 : ℕ := 0x7f

/-- `encode_code_chunk`. -/
def encodeCodeChunk (pushdataOffset : ℤ) (codeSlice : Bytes) : Py Bytes := do
  raiseIf (¬ (0 ≤ pushdataOffset ∧ pushdataOffset ≤ 31))
    ("pushdata_offset must be 0–31, got " ++ toString pushdataOffset)
  raiseIf (31 < codeSlice.length)
    ("code_slice must be at most 31 bytes, got " ++ toString codeSlice.length)
  let padded := codeSlice ++ zeroBytes (31 - codeSlice.length)
  pure ([UInt8.ofNat pushdataOffset.toNat] ++ padded)

/-- The inner loop of `chunk_code`: `pushdata_remaining` after one more byte. -/
def pushStep (pushdataRemaining : ℕ) (byte : UInt8) : ℕ :=
  if 0 < pushdataRemaining then pushdataRemaining - 1
  else if push1 ≤ byte.toNat ∧ byte.toNat ≤ push32 then byte.toNat - push1 + 1
  else pushdataRemaining

/-- The outer loop of `chunk_code`, from a `pushdata_remaining` on. -/
def chunkLoop : ℕ → List Bytes → Py (List Bytes)
  | _, [] => pure []
  | pushdataRemaining, raw :: rest => do
      let pushdataOffset := min pushdataRemaining raw.length
      let chunk ← encodeCodeChunk pushdataOffset raw
      let chunks ← chunkLoop (raw.foldl pushStep pushdataRemaining) rest
      pure (chunk :: chunks)

/-- `chunk_code`. -/
def chunkCode (bytecode : Bytes) : Py (List Bytes) := chunkLoop 0 (chunks chunkSize bytecode)

/-! ## What the bytes of code are -/

/-- A byte of code is an opcode or belongs to the operand of one. -/
inductive ByteRole
  | opcode
  | operand
  deriving DecidableEq, Repr

/-- The length of the operand of an opcode: `n` for `PUSHn`. -/
def operandWidth (opcode : UInt8) : ℕ :=
  if 0x60 ≤ opcode.toNat ∧ opcode.toNat ≤ 0x7f then opcode.toNat - 0x5f else 0

/-- The roles of the bytes of code that starts with an opcode. -/
def byteRoles : Bytes → List ByteRole
  | [] => []
  | opcode :: code =>
      .opcode :: (List.replicate (min (operandWidth opcode) code.length) .operand ++
        byteRoles (code.drop (operandWidth opcode)))
termination_by code => code.length

/-- The roles of the code bytes of a leaf, found from the leaf alone. -/
def chunkRoles : Bytes → List ByteRole
  | [] => []
  | pushdataOffset :: code =>
      List.replicate pushdataOffset.toNat .operand ++ byteRoles (code.drop pushdataOffset.toNat)

/-- The counter of `chunk_code` as a scanner of bytes. -/
def pushScanner : Scanner ℕ UInt8 ByteRole where
  step := pushStep
  output pushdataRemaining _ := if 0 < pushdataRemaining then .operand else .opcode

/-- The leaf that `encode_code_chunk` makes of a chunk. -/
def chunkLeaf (pushdataRemaining : ℕ) (raw : Bytes) : Bytes :=
  UInt8.ofNat (min pushdataRemaining raw.length) :: (raw ++ zeroBytes (31 - raw.length))

/-! ## One scan -/

theorem pushStep_zero (opcode : UInt8) : pushStep 0 opcode = operandWidth opcode := by
  unfold pushStep operandWidth push1 push32
  rw [if_neg (by omega)]
  split_ifs <;> omega

/-- No operand is longer than that of `PUSH32`. -/
theorem pushStep_le {pushdataRemaining : ℕ} (byte : UInt8) (h : pushdataRemaining ≤ 32) :
    pushStep pushdataRemaining byte ≤ 32 := by
  unfold pushStep push1 push32
  split_ifs <;> omega

/-- **The counter finds the roles**: what it has in store are operands, and the code behind
them starts with an opcode. -/
theorem scan_pushScanner (pushdataRemaining : ℕ) (code : Bytes) :
    pushScanner.scan pushdataRemaining code =
      List.replicate (min pushdataRemaining code.length) .operand ++
        byteRoles (code.drop pushdataRemaining) := by
  induction code generalizing pushdataRemaining with
  | nil => simp [byteRoles]
  | cons byte code ih =>
      rw [Scanner.scan_cons, ih]
      cases pushdataRemaining with
      | zero =>
          rw [show pushScanner.step 0 byte = operandWidth byte from pushStep_zero byte,
            List.drop_zero, byteRoles, Nat.zero_min]
          rfl
      | succ n =>
          have hstep : pushScanner.step (n + 1) byte = n := rfl
          rw [hstep, List.drop_succ_cons, List.length_cons, Nat.succ_min_succ,
            List.replicate_succ, List.cons_append]
          rfl

/-- There is one role for each byte. -/
@[simp] theorem length_byteRoles (code : Bytes) : (byteRoles code).length = code.length := by
  have hscan := scan_pushScanner 0 code
  rw [Nat.zero_min, List.replicate_zero, List.nil_append, List.drop_zero] at hscan
  rw [← hscan, Scanner.length_scan]

/-! ## One leaf -/

section

variable {pushdataRemaining : ℕ} {raw : Bytes}

theorem toNat_pushdataOffset (h : pushdataRemaining ≤ 32) (hraw : raw.length ≤ chunkSize) :
    (UInt8.ofNat (min pushdataRemaining raw.length)).toNat = min pushdataRemaining raw.length := by
  have hsize : chunkSize = 31 := rfl
  rw [UInt8.toNat_ofNat', Nat.mod_eq_of_lt (by omega)]

theorem length_chunkLeaf (hraw : raw.length ≤ chunkSize) :
    (chunkLeaf pushdataRemaining raw).length = 32 := by
  have hsize : chunkSize = 31 := rfl
  rw [chunkLeaf, List.length_cons, List.length_append, length_zeroBytes]
  omega

/-- A chunk of at most 31 bytes has a leaf. -/
theorem encodeCodeChunk_eq (hraw : raw.length ≤ chunkSize) :
    encodeCodeChunk (min pushdataRemaining raw.length : ℕ) raw =
      .ok (chunkLeaf pushdataRemaining raw) := by
  have hsize : chunkSize = 31 := rfl
  simp only [encodeCodeChunk, py_bind_eq_ok_iff, raiseIf_eq_ok_iff, exists_const, not_not]
  exact ⟨by omega, by omega, rfl⟩

/-- A leaf has a role for each of its code bytes. -/
theorem length_chunkRoles (h : pushdataRemaining ≤ 32) (hraw : raw.length ≤ chunkSize) :
    (chunkRoles (chunkLeaf pushdataRemaining raw)).length = chunkSize := by
  have hsize : chunkSize = 31 := rfl
  rw [chunkLeaf, chunkRoles, toNat_pushdataOffset h hraw, List.length_append,
    List.length_replicate, length_byteRoles, List.length_drop, List.length_append,
    length_zeroBytes]
  omega

/-- **A leaf describes itself**: its roles are those of a scan that enters the chunk with the
counter that is carried into it. -/
theorem take_chunkRoles (h : pushdataRemaining ≤ 32) (hraw : raw.length ≤ chunkSize) :
    (chunkRoles (chunkLeaf pushdataRemaining raw)).take raw.length =
      pushScanner.scan pushdataRemaining raw := by
  set offset := min pushdataRemaining raw.length with hoffset
  have hmin : min offset (raw ++ zeroBytes (31 - raw.length)).length = offset := by
    rw [List.length_append]
    omega
  -- the leaf stores how many operands there are room for, a scan carries all of them
  have hroles : chunkRoles (chunkLeaf pushdataRemaining raw) =
      pushScanner.scan offset (raw ++ zeroBytes (31 - raw.length)) := by
    rw [chunkLeaf, chunkRoles, toNat_pushdataOffset h hraw, scan_pushScanner, ← hoffset, hmin]
  rw [hroles, Scanner.scan_append, List.take_left' (Scanner.length_scan _ _ _),
    scan_pushScanner, scan_pushScanner, hoffset, Nat.min_assoc, Nat.min_self]
  by_cases hlt : pushdataRemaining ≤ raw.length
  · rw [Nat.min_eq_left hlt]
  · rw [Nat.min_eq_right (by omega), List.drop_length, List.drop_of_length_le (by omega)]

end

/-! ## All leaves -/

/-- The loop never raises on chunks of at most 31 bytes: it is a scan of the chunks. -/
theorem chunkLoop_eq {raws : List Bytes} (h : ∀ raw ∈ raws, raw.length ≤ chunkSize)
    (pushdataRemaining : ℕ) :
    chunkLoop pushdataRemaining raws =
      .ok ((pushScanner.blocks chunkLeaf).scan pushdataRemaining raws) := by
  induction raws generalizing pushdataRemaining with
  | nil => rfl
  | cons raw rest ih =>
      have hrest := ih (fun r hr => h r (List.mem_cons_of_mem _ hr)) (raw.foldl pushStep
        pushdataRemaining)
      have hraw : encodeCodeChunk (min pushdataRemaining raw.length : ℕ) raw =
          .ok (chunkLeaf pushdataRemaining raw) := encodeCodeChunk_eq (h raw List.mem_cons_self)
      rw [chunkLoop, hraw, hrest]
      rfl

/-- The code bytes of the leaves are the chunks, the last of them padded. -/
theorem flatMap_chunkLeaf {full : List Bytes} {last : Bytes}
    (hfull : ∀ raw ∈ full, raw.length = chunkSize) (pushdataRemaining : ℕ) :
    ((pushScanner.blocks chunkLeaf).scan pushdataRemaining (full ++ [last])).flatMap
        (fun leaf => leaf.drop 1) =
      full.flatten ++ last ++ zeroBytes (chunkSize - last.length) := by
  induction full generalizing pushdataRemaining with
  | nil => simp [Scanner.blocks, chunkLeaf, chunkSize]
  | cons raw full ih =>
      have hraw : raw.length = 31 := hfull raw List.mem_cons_self
      have hcode : (chunkLeaf pushdataRemaining raw).drop 1 = raw := by
        rw [chunkLeaf, List.drop_one, List.tail_cons, hraw]
        exact List.append_nil raw
      rw [List.cons_append, Scanner.scan_cons, List.flatMap_cons, List.flatten_cons,
        ih fun r hr => hfull r (List.mem_cons_of_mem _ hr)]
      show (chunkLeaf pushdataRemaining raw).drop 1 ++ _ = _
      rw [hcode, List.append_assoc, List.append_assoc, List.append_assoc]

/-- Every leaf that the loop makes has 31 code bytes with a role each. -/
theorem length_of_mem_scan {raws : List Bytes} (h : ∀ raw ∈ raws, raw.length ≤ chunkSize)
    {pushdataRemaining : ℕ} (hcarried : pushdataRemaining ≤ 32) :
    ∀ leaf ∈ (pushScanner.blocks chunkLeaf).scan pushdataRemaining raws,
      leaf.length = 32 ∧ (chunkRoles leaf).length = chunkSize := by
  induction raws generalizing pushdataRemaining with
  | nil => simp
  | cons raw rest ih =>
      have hraw := h raw List.mem_cons_self
      have hnext : pushScanner.stateAfter pushdataRemaining raw ≤ 32 :=
        Scanner.stateAfter_invariant (I := fun carried => carried ≤ 32)
          (fun _ byte => pushStep_le byte) hcarried raw
      intro leaf hleaf
      rcases List.mem_cons.mp hleaf with rfl | hleaf
      · exact ⟨length_chunkLeaf hraw, length_chunkRoles hcarried hraw⟩
      · exact ih (fun r hr => h r (List.mem_cons_of_mem _ hr)) hnext leaf hleaf

/-- **Code chunks are self-describing.**  `chunk_code` returns one leaf of 32 bytes for every
31 bytes that are begun; the code bytes of the leaves are the bytecode, padded with zeros; and
the roles that are read from each leaf alone are those of the whole bytecode. -/
theorem chunkCode_self_describing (bytecode : Bytes) :
    ∃ leaves, chunkCode bytecode = .ok leaves ∧
      leaves.length = (bytecode.length + 30) / 31 ∧
      (∀ leaf ∈ leaves, leaf.length = 32 ∧ (chunkRoles leaf).length = 31) ∧
      leaves.flatMap (fun leaf => leaf.drop 1) =
        bytecode ++ zeroBytes (31 * leaves.length - bytecode.length) ∧
      (leaves.flatMap chunkRoles).take bytecode.length = byteRoles bytecode := by
  by_cases hne : bytecode = []
  · subst hne
    refine ⟨[], by rw [chunkCode, chunks_nil]; rfl, rfl, by simp, rfl, ?_⟩
    rw [byteRoles]
    rfl
  · have hsize : 0 < chunkSize := by decide
    obtain ⟨full, last, hchunks, hdata, hfull, hlast⟩ := chunks_eq hsize hne
    have hle : ∀ raw ∈ full ++ [last], raw.length ≤ chunkSize := by
      intro raw hraw
      rcases List.mem_append.mp hraw with hraw | hraw
      · exact (hfull raw hraw).le
      · rw [List.mem_singleton.mp hraw]
        exact hlast
    have hcount : (full ++ [last]).length = (bytecode.length + 30) / 31 := by
      rw [← hchunks, length_chunks]
      rfl
    have hlength : bytecode.length = full.length * chunkSize + last.length := by
      rw [← hdata, List.length_append, length_flatten_of_widths hfull]
    have hroles := Scanner.take_decode_scan_blocks (I := fun carried => carried ≤ 32)
      (fun _ byte => pushStep_le byte) (fun _ _ => length_chunkRoles) (fun _ _ => take_chunkRoles)
      (Nat.zero_le 32) hfull hlast
    refine ⟨_, by rw [chunkCode, hchunks, chunkLoop_eq hle], ?_, ?_, ?_, ?_⟩
    · rw [Scanner.length_scan, hcount]
    · exact length_of_mem_scan hle (Nat.zero_le 32)
    · have hpadding : chunkSize - last.length =
          31 * (full ++ [last]).length - bytecode.length := by
        rw [hlength, List.length_append, List.length_singleton, chunkSize]
        rw [chunkSize] at hlast
        omega
      rw [flatMap_chunkLeaf hfull, Scanner.length_scan, hdata, hpadding]
    · rw [hdata] at hroles
      rw [hroles, scan_pushScanner, Nat.zero_min, List.replicate_zero, List.nil_append,
        List.drop_zero]

-- a `PUSH2` in the last place of a chunk: both bytes of its operand are in the next one
example : (chunkCode (zeroBytes 30 ++ [0x61, 0x60, 0x7f])).map (List.map List.head?) =
    .ok [some 0, some 2] := by
  decide

end Pbt
