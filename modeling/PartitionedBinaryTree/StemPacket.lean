/-
# The stem witness packet (`pbt/stem_subscription.py`)

The binary record `STEM_PKT_V1` that carries one key's proof: its writer, its
reader with the limits it enforces, and `verify_witness_packet`.

Reader and writer are connected by two characterisations.  The writers emit one
explicit byte string for each value they accept (`encodeProofBlob_eq_ok_iff`,
`packetPayload_eq_ok_iff`), and the readers accept exactly those strings, within
their limits (`decodeProofBlob_eq_ok_iff`, `decodePacketFields_eq_ok_iff`).
-/
import PartitionedBinaryTree.Lib.ByteCursor
import PartitionedBinaryTree.Tree

namespace Pbt

/-! ## Limits -/

/-- `WIRE_VERSION_V1`. -/
def wireVersionV1 : UInt8 := 1

/-- `MAX_PACKET_WIRE_BYTES`, of `stem_subscription` and of `verified_rpc`. -/
def maxPacketWireBytes : ℕ := 262144

/-- `MAX_PROOF_BLOB_BYTES`. -/
def maxProofBlobBytes : ℕ := 131072

/-- `MAX_STEM_PREFIX_BYTES`. -/
def maxStemPrefixBytes : ℕ := 256

/-- `MAX_KEY_BYTES`. -/
def maxKeyBytes : ℕ := 512

/-- `MAX_PATH_COMPONENTS`. -/
def maxPathComponents : ℕ := 4096

/-! ## The record -/

/-- `StemWitnessPacket`. -/
structure StemWitnessPacket where
  epoch : ℤ
  blockNumber : ℤ
  blockRoot : Bytes
  stemPrefix : Bytes
  key : Bytes
  value : Bytes
  proof : MerkleProof
  bucketId : ℤ
  deriving DecidableEq, Repr

/-! ## Fields -/

/-- `_pack_u16_len` and `_pack_u32_len`: a big-endian length of `lenBytes` bytes, and the data. -/
def packLen (lenBytes limit : ℕ) (message : String) (data : Bytes) : Py Bytes := do
  raiseIf (data.length > limit) message
  let prefixBytes ← intToBytes data.length lenBytes
  pure (prefixBytes ++ data)

/-- `_pack_u16_len`. -/
def packU16Len (data : Bytes) : Py Bytes :=
  packLen 2 0xFFFF "field too large for u16 length prefix" data

/-- `_pack_u32_len`. -/
def packU32Len (data : Bytes) : Py Bytes :=
  packLen 4 0xFFFFFFFF "field too large for u32 length prefix" data

/-- `_read_exact`. -/
def readExact (blob : Bytes) (offset size : ℕ) : Py (Bytes × ℕ) :=
  if offset + size > blob.length then raiseValueError "truncated payload"
  else .ok (slice blob offset size, offset + size)

/-- `_read_u16_len` and `_read_u32_len`, with their `max_size` argument. -/
def readLen (lenBytes : ℕ) (blob : Bytes) (offset : ℕ) (maxSize : Option ℕ) :
    Py (Bytes × ℕ) := do
  let (rawLen, offset) ← readExact blob offset lenBytes
  let size := beToNat rawLen
  raiseIf (maxSize.any (size > ·)) "length-prefixed field exceeds configured maximum"
  readExact blob offset size

/-- `_read_u16_len`. -/
def readU16Len (blob : Bytes) (offset : ℕ) (maxSize : Option ℕ) : Py (Bytes × ℕ) :=
  readLen 2 blob offset maxSize

/-- `_read_u32_len`. -/
def readU32Len (blob : Bytes) (offset : ℕ) (maxSize : Option ℕ) : Py (Bytes × ℕ) :=
  readLen 4 blob offset maxSize

/-- A loop of `count` calls to `_read_exact`. -/
def readMany (blob : Bytes) (size : ℕ) : ℕ → ℕ → Py (List Bytes × ℕ)
  | 0, offset => .ok ([], offset)
  | count + 1, offset => do
      let (item, offset) ← readExact blob offset size
      let (items, offset) ← readMany blob size count offset
      pure (item :: items, offset)

/-- The loop of `_decode_proof_blob` over the path bits. -/
def readPathBits (blob : Bytes) : ℕ → ℕ → Py (List ℤ × ℕ)
  | 0, offset => .ok ([], offset)
  | count + 1, offset => do
      let (bitRaw, offset) ← readExact blob offset 1
      let bit := intFromBytes bitRaw
      raiseIf (¬ (bit = 0 ∨ bit = 1)) "path_bits entries must be 0 or 1"
      let (bits, offset) ← readPathBits blob count offset
      pure (bit :: bits, offset)

/-! ## The proof blob -/

/-- `out.append(bit)` for one path bit. -/
def bitByte (bit : ℤ) : UInt8 := UInt8.ofNat bit.toNat

/-- `_encode_proof_blob`. -/
def encodeProofBlob (proof : MerkleProof) : Py Bytes := do
  raiseIf (proof.value.length ≠ 32) "proof value must be 32 bytes"
  raiseIf (proof.stemValues.length ≠ 256) "stem_values_count must be 256"
  raiseIf (proof.pathSiblings.length ≠ proof.pathBits.length)
    "siblings_count must equal path_bits_count"
  raiseIf (∃ bit ∈ proof.pathBits, ¬ (bit = 0 ∨ bit = 1)) "path_bits entries must be 0 or 1"
  raiseIf (∃ v ∈ proof.stemValues, v.length ≠ 32) "all stem values must be 32 bytes"
  raiseIf (∃ s ∈ proof.pathSiblings, s.length ≠ 32) "all sibling hashes must be 32 bytes"
  let key ← packU16Len proof.key
  let stemValuesCount ← intToBytes 256 2
  let siblingsCount ← intToBytes proof.pathSiblings.length 2
  let pathBitsCount ← intToBytes proof.pathBits.length 2
  pure (key ++ proof.value ++ stemValuesCount ++ proof.stemValues.flatten ++ siblingsCount ++
    proof.pathSiblings.flatten ++ pathBitsCount ++ proof.pathBits.map bitByte)

/-- `_decode_proof_blob`. -/
def decodeProofBlob (blob : Bytes) : Py MerkleProof := do
  raiseIf (blob.length > maxProofBlobBytes) "proof_blob exceeds configured maximum"
  let (proofKey, offset) ← readU16Len blob 0 (some maxKeyBytes)
  let (proofValue, offset) ← readExact blob offset 32
  let (stemCountRaw, offset) ← readExact blob offset 2
  let stemValuesCount := beToNat stemCountRaw
  raiseIf (stemValuesCount ≠ 256) "stem_values_count must be 256"
  let (stemValues, offset) ← readMany blob 32 stemValuesCount offset
  let (siblingsCountRaw, offset) ← readExact blob offset 2
  let siblingsCount := beToNat siblingsCountRaw
  raiseIf (siblingsCount > maxPathComponents) "siblings_count exceeds configured maximum"
  let (siblings, offset) ← readMany blob 32 siblingsCount offset
  let (pathBitsCountRaw, offset) ← readExact blob offset 2
  let pathBitsCount := beToNat pathBitsCountRaw
  raiseIf (pathBitsCount > maxPathComponents) "path_bits_count exceeds configured maximum"
  raiseIf (siblingsCount ≠ pathBitsCount) "siblings_count must equal path_bits_count"
  let (pathBits, offset) ← readPathBits blob pathBitsCount offset
  raiseIf (offset ≠ blob.length) "truncated payload"
  pure {
    key := proofKey
    value := proofValue
    stemValues := stemValues
    pathSiblings := siblings
    pathBits := pathBits }

/-! ## The packet -/

/-- `_packet_payload_without_commitment`. -/
def packetPayload (packet : StemWitnessPacket) : Py Bytes := do
  raiseIf (packet.blockRoot.length ≠ 32) "block_root must be 32 bytes"
  raiseIf (packet.value.length ≠ 32) "value must be 32 bytes"
  raiseIf (packet.epoch < 0 ∨ packet.blockNumber < 0 ∨ packet.bucketId < 0)
    "numeric packet fields must be non-negative"
  let proofBlob ← encodeProofBlob packet.proof
  let epoch ← intToBytes packet.epoch 8
  let blockNumber ← intToBytes packet.blockNumber 8
  let bucketId ← intToBytes packet.bucketId 4
  let stemPrefix ← packU16Len packet.stemPrefix
  let key ← packU16Len packet.key
  let proofField ← packU32Len proofBlob
  pure ([wireVersionV1] ++ epoch ++ blockNumber ++ packet.blockRoot ++ bucketId ++ stemPrefix ++
    key ++ packet.value ++ proofField)

/-- `packet_commitment_v1`. -/
def packetCommitmentV1 (H : HashFunction) (packet : StemWitnessPacket) : HashPy Digest := do
  let payload ← HashPy.ofPy (packetPayload packet)
  HashPy.ofHash (treeHash H payload)

/-- `encode_stem_witness_packet_v1`. -/
def encodeStemWitnessPacketV1 (H : HashFunction) (packet : StemWitnessPacket) : HashPy Bytes := do
  let payload ← HashPy.ofPy (packetPayload packet)
  let commitment ← packetCommitmentV1 H packet
  pure (payload ++ commitment.val)

/-- `decode_stem_witness_packet_v1` up to the check of the commitment: the packet and
the `packet_commitment` field. -/
def decodePacketFields (blob : Bytes) : Py (StemWitnessPacket × Bytes) := do
  raiseIf (blob.length > maxPacketWireBytes) "packet wire exceeds configured maximum"
  let (versionRaw, offset) ← readExact blob 0 1
  raiseIf (versionRaw.head? ≠ some wireVersionV1) "unknown version"
  let (epochRaw, offset) ← readExact blob offset 8
  let (blockNumberRaw, offset) ← readExact blob offset 8
  let (blockRoot, offset) ← readExact blob offset 32
  let (bucketIdRaw, offset) ← readExact blob offset 4
  let (stemPrefix, offset) ← readU16Len blob offset (some maxStemPrefixBytes)
  let (key, offset) ← readU16Len blob offset (some maxKeyBytes)
  let (value, offset) ← readExact blob offset 32
  let (proofBlob, offset) ← readU32Len blob offset (some maxProofBlobBytes)
  let (packetCommitment, offset) ← readExact blob offset 32
  raiseIf (offset ≠ blob.length) "truncated payload"
  let proof ← decodeProofBlob proofBlob
  raiseIf (proof.key ≠ key) "proof_key != key"
  raiseIf (proof.value ≠ value) "proof_value != value"
  pure ({
    epoch := intFromBytes epochRaw
    blockNumber := intFromBytes blockNumberRaw
    blockRoot := blockRoot
    stemPrefix := stemPrefix
    key := key
    value := value
    proof := proof
    bucketId := intFromBytes bucketIdRaw }, packetCommitment)

/-- `decode_stem_witness_packet_v1`. -/
def decodeStemWitnessPacketV1 (H : HashFunction) (blob : Bytes) : HashPy StemWitnessPacket := do
  let (packet, packetCommitment) ← HashPy.ofPy (decodePacketFields blob)
  let expectedCommitment ← packetCommitmentV1 H packet
  HashPy.ofPy (raiseIf (expectedCommitment.val ≠ packetCommitment) "packet_commitment mismatch")
  pure packet

/-- `verify_witness_packet`. -/
def verifyWitnessPacket (H : HashFunction) (packet : StemWitnessPacket) : HashPy Bool := do
  let (stemPrefix, _) ← HashPy.ofPy (splitKey packet.key)
  if stemPrefix ≠ packet.stemPrefix then pure false
  else if packet.proof.key ≠ packet.key then pure false
  else if packet.proof.value ≠ packet.value then pure false
  else HashPy.ofPyHash (verifyProof H packet.blockRoot packet.proof)

/-! ## What the field readers and writers do -/

theorem packLen_eq_ok_iff {lenBytes limit : ℕ} {message : String} {data out : Bytes}
    (hlimit : limit < 256 ^ lenBytes) :
    packLen lenBytes limit message data = .ok out ↔
      data.length ≤ limit ∧ out = natToBE lenBytes data.length ++ data := by
  simp only [packLen, py_bind_eq_ok_iff, raiseIf_eq_ok_iff, exists_and_left, exists_const, not_lt,
    intToBytes_eq_ok_iff, pure, Except.pure, Except.ok.injEq, Int.toNat_natCast]
  constructor
  · rintro ⟨hle, prefixBytes, ⟨-, -, rfl⟩, rfl⟩
    exact ⟨hle, rfl⟩
  · rintro ⟨hle, rfl⟩
    exact ⟨hle, _, ⟨by omega, by exact_mod_cast lt_of_le_of_lt hle hlimit, rfl⟩, rfl⟩

theorem readExact_eq_ok_iff {blob x : Bytes} {o n o' : ℕ} :
    readExact blob o n = .ok (x, o') ↔ x.length = n ∧ Spans blob o x o' := by
  unfold readExact
  split_ifs with hlong
  · -- the field would reach past the end of the blob
    simp only [raiseValueError, reduceCtorEq, false_iff, not_and]
    rintro rfl hspan
    have hle := hspan.end_le
    rw [hspan.end_eq] at hle
    omega
  · have hspan := Spans.of_slice (not_lt.mp hlong)
    have hlen : (slice blob o n).length = n := by
      have := hspan.end_eq
      omega
    simp only [Except.ok.injEq, Prod.mk.injEq]
    constructor
    · rintro ⟨rfl, rfl⟩
      exact ⟨hlen, hspan⟩
    · rintro ⟨rfl, hx⟩
      exact hspan.unique hx hlen

theorem readLen_eq_ok_iff {lenBytes : ℕ} {blob x : Bytes} {o o' : ℕ} {maxSize : Option ℕ} :
    readLen lenBytes blob o maxSize = .ok (x, o') ↔
      (∀ m ∈ maxSize, x.length ≤ m) ∧ x.length < 256 ^ lenBytes ∧
        Spans blob o (natToBE lenBytes x.length ++ x) o' := by
  simp only [readLen, py_bind_eq_ok_iff, Prod.exists, readExact_eq_ok_iff, raiseIf_eq_ok_iff]
  constructor
  · rintro ⟨rawLen, m, ⟨hraw, hspan⟩, -, hmax, hlen, hx⟩
    -- the length that was read is the one that would be written
    have hspelled : rawLen = natToBE lenBytes x.length := by
      rw [hlen, ← hraw, natToBE_beToNat]
    refine ⟨fun k hk => ?_, ?_, ?_⟩
    · rw [Option.mem_def.mp hk] at hmax
      simpa [hlen] using hmax
    · rw [hlen, ← hraw]
      exact beToNat_lt rawLen
    · rw [← hspelled]
      exact hspan.append hx
  · rintro ⟨hmax, hlt, hspan⟩
    obtain ⟨m, hlenSpan, hx⟩ := Spans.append_iff.mp hspan
    have hval : beToNat (natToBE lenBytes x.length) = x.length := beToNat_natToBE hlt
    refine ⟨_, m, ⟨length_natToBE _ _, hlenSpan⟩, (), ?_, hval.symm, hx⟩
    rw [hval]
    cases maxSize with
    | none => simp
    | some k => simpa using hmax k rfl

theorem readMany_eq_ok_iff {blob : Bytes} {n count o o' : ℕ} {xs : List Bytes}
    (ho : o ≤ blob.length) :
    readMany blob n count o = .ok (xs, o') ↔
      xs.length = count ∧ (∀ x ∈ xs, x.length = n) ∧ Spans blob o xs.flatten o' := by
  induction count generalizing o xs with
  | zero =>
      simp only [readMany, Except.ok.injEq, Prod.mk.injEq]
      constructor
      · rintro ⟨rfl, rfl⟩
        exact ⟨rfl, by simp, spans_nil_iff.mpr ⟨rfl, ho⟩⟩
      · rintro ⟨hlen, -, hspan⟩
        obtain rfl := List.length_eq_zero_iff.mp hlen
        exact ⟨rfl, (spans_nil_iff.mp hspan).1.symm⟩
  | succ count ih =>
      simp only [readMany, py_bind_eq_ok_iff, Prod.exists, readExact_eq_ok_iff, pure, Except.pure,
        Except.ok.injEq, Prod.mk.injEq]
      constructor
      · rintro ⟨item, m, ⟨hitem, hspan⟩, items, m', hitems, rfl, rfl⟩
        obtain ⟨hlen, hwidths, hrest⟩ := (ih hspan.end_le).mp hitems
        exact ⟨by rw [List.length_cons, hlen], List.forall_mem_cons.mpr ⟨hitem, hwidths⟩,
          hspan.append hrest⟩
      · rintro ⟨hlen, hwidths, hspan⟩
        cases xs with
        | nil => simp at hlen
        | cons item items =>
            obtain ⟨hitem, hitems⟩ := List.forall_mem_cons.mp hwidths
            obtain ⟨m, hx, hrest⟩ := Spans.append_iff.mp hspan
            exact ⟨item, m, ⟨hitem, hx⟩, items, o', (ih hx.end_le).mpr
              ⟨by simpa using hlen, hitems, hrest⟩, rfl, rfl⟩

/-- A byte that reads as the bit `0` or `1` is the byte that is written for it. -/
theorem singleton_eq_bitByte {x : Bytes} (hlen : x.length = 1)
    (hbit : intFromBytes x = 0 ∨ intFromBytes x = 1) : x = [bitByte (intFromBytes x)] := by
  obtain ⟨b, rfl⟩ := List.length_eq_one_iff.mp hlen
  have hval : intFromBytes [b] = b.toNat := by
    simp [intFromBytes, beToNat]
  rw [hval] at hbit ⊢
  rw [bitByte, Int.toNat_natCast, UInt8.ofNat_toNat]

theorem intFromBytes_bitByte {bit : ℤ} (hbit : bit = 0 ∨ bit = 1) :
    intFromBytes [bitByte bit] = bit := by
  rcases hbit with rfl | rfl <;> rfl

theorem readPathBits_eq_ok_iff {blob : Bytes} {count o o' : ℕ} {bits : List ℤ}
    (ho : o ≤ blob.length) :
    readPathBits blob count o = .ok (bits, o') ↔
      bits.length = count ∧ (∀ b ∈ bits, b = 0 ∨ b = 1) ∧ Spans blob o (bits.map bitByte) o' := by
  induction count generalizing o bits with
  | zero =>
      simp only [readPathBits, Except.ok.injEq, Prod.mk.injEq]
      constructor
      · rintro ⟨rfl, rfl⟩
        exact ⟨rfl, by simp, spans_nil_iff.mpr ⟨rfl, ho⟩⟩
      · rintro ⟨hlen, -, hspan⟩
        obtain rfl := List.length_eq_zero_iff.mp hlen
        exact ⟨rfl, (spans_nil_iff.mp hspan).1.symm⟩
  | succ count ih =>
      simp only [readPathBits, py_bind_eq_ok_iff, Prod.exists, readExact_eq_ok_iff,
        raiseIf_eq_ok_iff, not_not, pure, Except.pure, Except.ok.injEq, Prod.mk.injEq]
      constructor
      · rintro ⟨bitRaw, m, ⟨hraw, hspan⟩, -, hbit, rest, m', hrest, rfl, rfl⟩
        obtain ⟨hlen, hbits, hrestSpan⟩ := (ih hspan.end_le).mp hrest
        refine ⟨by rw [List.length_cons, hlen], List.forall_mem_cons.mpr ⟨hbit, hbits⟩, ?_⟩
        rw [singleton_eq_bitByte hraw hbit] at hspan
        exact hspan.append hrestSpan
      · rintro ⟨hlen, hbits, hspan⟩
        cases bits with
        | nil => simp at hlen
        | cons bit rest =>
            obtain ⟨hbit, hrest⟩ := List.forall_mem_cons.mp hbits
            obtain ⟨m, hx, hrestSpan⟩ := Spans.append_iff (x := [bitByte bit]).mp hspan
            refine ⟨[bitByte bit], m, ⟨rfl, hx⟩, (), ?_, rest, o',
              (ih hx.end_le).mpr ⟨by simpa using hlen, hrest, hrestSpan⟩, ?_, rfl⟩
            · rwa [intFromBytes_bitByte hbit]
            · rw [intFromBytes_bitByte hbit]

/-! ## The format of a proof blob -/

/-- The proofs that have a blob. -/
structure ProofEncodable (p : MerkleProof) : Prop where
  value_width : p.value.length = 32
  stemValues_length : p.stemValues.length = 256
  siblings_length_eq : p.pathSiblings.length = p.pathBits.length
  bits : ∀ b ∈ p.pathBits, b = 0 ∨ b = 1
  stemValues_width : ∀ v ∈ p.stemValues, v.length = 32
  siblings_width : ∀ s ∈ p.pathSiblings, s.length = 32
  key_length : p.key.length ≤ 0xFFFF
  siblings_length : p.pathSiblings.length < 256 ^ 2

/-- The blob of a proof. -/
def proofBlobBytes (p : MerkleProof) : Bytes :=
  (natToBE 2 p.key.length ++ p.key) ++ p.value ++ natToBE 2 256 ++ p.stemValues.flatten ++
    natToBE 2 p.pathSiblings.length ++ p.pathSiblings.flatten ++ natToBE 2 p.pathBits.length ++
    p.pathBits.map bitByte

/-- **The proof blob writer**: it accepts the encodable proofs and writes their blobs. -/
theorem encodeProofBlob_eq_ok_iff {p : MerkleProof} {blob : Bytes} :
    encodeProofBlob p = .ok blob ↔ ProofEncodable p ∧ blob = proofBlobBytes p := by
  have h16 : 0xFFFF < 256 ^ 2 := by norm_num
  simp only [encodeProofBlob, py_bind_eq_ok_iff, raiseIf_eq_ok_iff, exists_const, packU16Len,
    packLen_eq_ok_iff h16, intToBytes_eq_ok_iff, not_not, not_exists, not_and, pure, Except.pure,
    Except.ok.injEq, Int.toNat_natCast]
  constructor
  · rintro ⟨hvalue, hn, hlen, hbits, hvalues, hsiblings, key, ⟨hkey, rfl⟩, count,
      ⟨-, -, rfl⟩, siblingsCount, ⟨-, hcount, rfl⟩, bitsCount, ⟨-, -, rfl⟩, rfl⟩
    exact ⟨⟨hvalue, hn, hlen, hbits, hvalues, hsiblings, hkey, by exact_mod_cast hcount⟩, rfl⟩
  · rintro ⟨h, rfl⟩
    have hcount : (p.pathSiblings.length : ℤ) < 256 ^ 2 := by exact_mod_cast h.siblings_length
    have hcount' : (p.pathBits.length : ℤ) < 256 ^ 2 := by rwa [← h.siblings_length_eq]
    exact ⟨h.value_width, h.stemValues_length, h.siblings_length_eq, h.bits, h.stemValues_width,
      h.siblings_width, _, ⟨h.key_length, rfl⟩, _, ⟨by norm_num, by norm_num, rfl⟩, _,
      ⟨by omega, hcount, rfl⟩, _, ⟨by omega, hcount', rfl⟩, rfl⟩

/-- The limits that the blob reader enforces on top of the format. -/
structure ProofWithinLimits (p : MerkleProof) : Prop where
  blob_length : (proofBlobBytes p).length ≤ maxProofBlobBytes
  key_length : p.key.length ≤ maxKeyBytes
  siblings_length : p.pathSiblings.length ≤ maxPathComponents

/-- **The proof blob reader**: it accepts exactly the blobs of encodable proofs within the
limits, and returns the proof. -/
theorem decodeProofBlob_eq_ok_iff {blob : Bytes} {p : MerkleProof} :
    decodeProofBlob blob = .ok p ↔
      ProofEncodable p ∧ ProofWithinLimits p ∧ blob = proofBlobBytes p := by
  simp only [decodeProofBlob, py_bind_eq_ok_iff, raiseIf_eq_ok_iff, exists_const, Prod.exists,
    readU16Len, readLen_eq_ok_iff, readExact_eq_ok_iff, not_lt, not_not, Option.mem_def,
    Option.some.injEq, forall_eq', pure, Except.pure, Except.ok.injEq]
  constructor
  · rintro ⟨hblob, key, o₁, ⟨hkeyMax, hkey, hkeySpan⟩, value, o₂, ⟨hvalue, hvalueSpan⟩, count, o₃,
      ⟨hcountLen, hcountSpan⟩, hcount, values, o₄, hvalues, siblingsCount, o₅,
      ⟨hsibCountLen, hsibCountSpan⟩, hsibMax, siblings, o₆, hsiblings, bitsCount, o₇,
      ⟨hbitsCountLen, hbitsCountSpan⟩, hbitsMax, hcounts, bits, o₈, hbits, rfl, rfl⟩
    obtain ⟨hvaluesLen, hvaluesWidth, hvaluesSpan⟩ :=
      (readMany_eq_ok_iff hcountSpan.end_le).mp hvalues
    obtain ⟨hsiblingsLen, hsiblingsWidth, hsiblingsSpan⟩ :=
      (readMany_eq_ok_iff hsibCountSpan.end_le).mp hsiblings
    obtain ⟨hbitsLen, hbitsDomain, hbitsSpan⟩ :=
      (readPathBits_eq_ok_iff hbitsCountSpan.end_le).mp hbits
    -- the three counters spell the lengths of the lists they announce
    have hcountEq : count = natToBE 2 256 := eq_natToBE hcountLen hcount
    have hsibEq : siblingsCount = natToBE 2 siblings.length :=
      eq_natToBE hsibCountLen hsiblingsLen.symm
    have hbitsEq : bitsCount = natToBE 2 bits.length := eq_natToBE hbitsCountLen hbitsLen.symm
    have hwhole := ((((((hkeySpan.append hvalueSpan).append hcountSpan).append hvaluesSpan).append
      hsibCountSpan).append hsiblingsSpan).append hbitsCountSpan).append hbitsSpan
    rw [hcountEq, hsibEq, hbitsEq] at hwhole
    have hbytes := spans_zero_iff.mp hwhole
    refine ⟨⟨hvalue, hvaluesLen.trans hcount, ?_, hbitsDomain, hvaluesWidth, hsiblingsWidth, ?_,
      ?_⟩, ⟨?_, hkeyMax, ?_⟩, hbytes.symm⟩
    · rw [hsiblingsLen, hcounts, hbitsLen]
    · show key.length ≤ 0xFFFF
      omega
    · rw [hsiblingsLen, ← hsibCountLen]
      exact beToNat_lt siblingsCount
    · show (proofBlobBytes _).length ≤ _
      rw [proofBlobBytes, hbytes]
      exact hblob
    · rw [hsiblingsLen]
      exact hsibMax
  · rintro ⟨h, hlimits, rfl⟩
    -- cut the blob at the fields, from the last one back
    have hwhole := spans_zero_iff.mpr (rfl : proofBlobBytes p = proofBlobBytes p)
    have hsibCount : beToNat (natToBE 2 p.pathSiblings.length) = p.pathSiblings.length :=
      beToNat_natToBE h.siblings_length
    have hbitsCount : beToNat (natToBE 2 p.pathBits.length) = p.pathBits.length :=
      beToNat_natToBE (h.siblings_length_eq ▸ h.siblings_length)
    have h256 : beToNat (natToBE 2 256) = 256 := rfl
    obtain ⟨o₇, hspan, hbits⟩ := Spans.append_iff.mp hwhole
    obtain ⟨o₆, hspan, hbitsCountSpan⟩ := Spans.append_iff.mp hspan
    obtain ⟨o₅, hspan, hsiblings⟩ := Spans.append_iff.mp hspan
    obtain ⟨o₄, hspan, hsibCountSpan⟩ := Spans.append_iff.mp hspan
    obtain ⟨o₃, hspan, hvalues⟩ := Spans.append_iff.mp hspan
    obtain ⟨o₂, hspan, hcountSpan⟩ := Spans.append_iff.mp hspan
    obtain ⟨o₁, hkey, hvalue⟩ := Spans.append_iff.mp hspan
    refine ⟨hlimits.blob_length, p.key, o₁, ⟨hlimits.key_length, ?_, hkey⟩, p.value, o₂,
      ⟨h.value_width, hvalue⟩, _, o₃, ⟨length_natToBE _ _, hcountSpan⟩, h256, p.stemValues, o₄, ?_,
      _, o₅, ⟨length_natToBE _ _, hsibCountSpan⟩, ?_, p.pathSiblings, o₆, ?_, _, o₇,
      ⟨length_natToBE _ _, hbitsCountSpan⟩, ?_, ?_, p.pathBits, _, ?_, rfl, rfl⟩
    · have := h.key_length
      omega
    · exact (readMany_eq_ok_iff hcountSpan.end_le).mpr
        ⟨h.stemValues_length.trans h256.symm, h.stemValues_width, hvalues⟩
    · rw [hsibCount]
      exact hlimits.siblings_length
    · exact (readMany_eq_ok_iff hsibCountSpan.end_le).mpr
        ⟨hsibCount.symm, h.siblings_width, hsiblings⟩
    · rw [hbitsCount, ← h.siblings_length_eq]
      exact hlimits.siblings_length
    · rw [hsibCount, hbitsCount, h.siblings_length_eq]
    · exact (readPathBits_eq_ok_iff hbitsCountSpan.end_le).mpr ⟨hbitsCount.symm, h.bits, hbits⟩

/-! ## The format of a packet -/

/-- The packets that have a wire form. -/
structure PacketEncodable (p : StemWitnessPacket) : Prop where
  blockRoot_width : p.blockRoot.length = 32
  value_width : p.value.length = 32
  epoch_nonneg : 0 ≤ p.epoch
  epoch_lt : p.epoch < 256 ^ 8
  blockNumber_nonneg : 0 ≤ p.blockNumber
  blockNumber_lt : p.blockNumber < 256 ^ 8
  bucketId_nonneg : 0 ≤ p.bucketId
  bucketId_lt : p.bucketId < 256 ^ 4
  stemPrefix_length : p.stemPrefix.length ≤ 0xFFFF
  key_length : p.key.length ≤ 0xFFFF
  proof_encodable : ProofEncodable p.proof
  proof_length : (proofBlobBytes p.proof).length ≤ 0xFFFFFFFF

/-- The wire form of a packet, without its commitment. -/
def packetBytes (p : StemWitnessPacket) : Bytes :=
  [wireVersionV1] ++ natToBE 8 p.epoch.toNat ++ natToBE 8 p.blockNumber.toNat ++ p.blockRoot ++
    natToBE 4 p.bucketId.toNat ++ (natToBE 2 p.stemPrefix.length ++ p.stemPrefix) ++
    (natToBE 2 p.key.length ++ p.key) ++ p.value ++
    (natToBE 4 (proofBlobBytes p.proof).length ++ proofBlobBytes p.proof)

/-- **The packet writer**: it accepts the encodable packets and writes their wire form. -/
theorem packetPayload_eq_ok_iff {p : StemWitnessPacket} {payload : Bytes} :
    packetPayload p = .ok payload ↔ PacketEncodable p ∧ payload = packetBytes p := by
  have h16 : 0xFFFF < 256 ^ 2 := by norm_num
  have h32 : 0xFFFFFFFF < 256 ^ 4 := by norm_num
  simp only [packetPayload, py_bind_eq_ok_iff, raiseIf_eq_ok_iff, exists_const, packU16Len,
    packU32Len, packLen_eq_ok_iff h16, packLen_eq_ok_iff h32, intToBytes_eq_ok_iff,
    encodeProofBlob_eq_ok_iff, not_not, not_or, not_lt, pure, Except.pure, Except.ok.injEq]
  constructor
  · rintro ⟨hroot, hvalue, ⟨hepoch, hnumber, hbucket⟩, blob, ⟨hproof, rfl⟩, epoch,
      ⟨-, hepochLt, rfl⟩, number, ⟨-, hnumberLt, rfl⟩, bucket, ⟨-, hbucketLt, rfl⟩, stemPrefix,
      ⟨hstem, rfl⟩, key, ⟨hkey, rfl⟩, field, ⟨hblob, rfl⟩, rfl⟩
    exact ⟨⟨hroot, hvalue, hepoch, hepochLt, hnumber, hnumberLt, hbucket, hbucketLt, hstem, hkey,
      hproof, hblob⟩, rfl⟩
  · rintro ⟨h, rfl⟩
    exact ⟨h.blockRoot_width, h.value_width, ⟨h.epoch_nonneg, h.blockNumber_nonneg,
      h.bucketId_nonneg⟩, _, ⟨h.proof_encodable, rfl⟩, _, ⟨h.epoch_nonneg, h.epoch_lt, rfl⟩, _,
      ⟨h.blockNumber_nonneg, h.blockNumber_lt, rfl⟩, _, ⟨h.bucketId_nonneg, h.bucketId_lt, rfl⟩, _,
      ⟨h.stemPrefix_length, rfl⟩, _, ⟨h.key_length, rfl⟩, _, ⟨h.proof_length, rfl⟩, rfl⟩

/-- What the packet reader enforces on top of the format: its limits, and that the packet
repeats the key and the value of its proof. -/
structure PacketWithinLimits (p : StemWitnessPacket) : Prop where
  wire_length : (packetBytes p).length + 32 ≤ maxPacketWireBytes
  stemPrefix_length : p.stemPrefix.length ≤ maxStemPrefixBytes
  key_length : p.key.length ≤ maxKeyBytes
  proof_withinLimits : ProofWithinLimits p.proof
  proof_key : p.proof.key = p.key
  proof_value : p.proof.value = p.value

/-- A field of eight or four bytes is spelled by the number it reads as. -/
theorem natToBE_intFromBytes {len : ℕ} {data : Bytes} (h : data.length = len) :
    natToBE len (intFromBytes data).toNat = data := by
  rw [intFromBytes, Int.toNat_natCast, ← h, natToBE_beToNat]

theorem intFromBytes_nonneg (data : Bytes) : 0 ≤ intFromBytes data := Int.natCast_nonneg _

theorem intFromBytes_lt {len : ℕ} {data : Bytes} (h : data.length = len) :
    intFromBytes data < 256 ^ len := by
  rw [intFromBytes, ← h]
  exact_mod_cast beToNat_lt data

theorem eq_singleton_of_head? {x : Bytes} {b : UInt8} (hlen : x.length = 1)
    (hhead : x.head? = some b) : x = [b] := by
  obtain ⟨c, rfl⟩ := List.length_eq_one_iff.mp hlen
  rw [List.head?_cons] at hhead
  rw [Option.some.inj hhead]

/-- **The packet reader, up to the commitment**: it accepts exactly the wire forms of
encodable packets within the limits, followed by 32 bytes. -/
theorem decodePacketFields_eq_ok_iff {blob commitment : Bytes} {p : StemWitnessPacket} :
    decodePacketFields blob = .ok (p, commitment) ↔
      PacketEncodable p ∧ PacketWithinLimits p ∧ commitment.length = 32 ∧
        blob = packetBytes p ++ commitment := by
  simp only [decodePacketFields, py_bind_eq_ok_iff, raiseIf_eq_ok_iff, exists_const, Prod.exists,
    readU16Len, readU32Len, readLen_eq_ok_iff, readExact_eq_ok_iff, decodeProofBlob_eq_ok_iff,
    not_lt, not_not, Option.mem_def, Option.some.injEq, forall_eq', pure, Except.pure,
    Except.ok.injEq, Prod.mk.injEq]
  constructor
  · rintro ⟨hblob, version, o₁, ⟨hversionLen, hversion⟩, hv1, epoch, o₂, ⟨hepochLen, hepoch⟩,
      number, o₃, ⟨hnumberLen, hnumber⟩, root, o₄, ⟨hrootLen, hroot⟩, bucket, o₅,
      ⟨hbucketLen, hbucket⟩, stem, o₆, ⟨hstemMax, -, hstem⟩, key, o₇, ⟨hkeyMax, -, hkey⟩, value,
      o₈, ⟨hvalueLen, hvalue⟩, proofBlob, o₉, ⟨hproofMax, hproofLt, hproof⟩, commitment', o₁₀,
      ⟨hcommitmentLen, hcommitment⟩, rfl, proof, ⟨henc, hlimits, rfl⟩, rfl, rfl, rfl, rfl⟩
    have hwhole := (((((((((hversion.append hepoch).append hnumber).append hroot).append
      hbucket).append hstem).append hkey).append hvalue).append hproof).append hcommitment)
    rw [eq_singleton_of_head? hversionLen hv1] at hwhole
    have hbytes := spans_zero_iff.mp hwhole
    -- the four numbers are written back as the bytes they were read from
    have hwire : packetBytes ⟨intFromBytes epoch, intFromBytes number, root, stem, proof.key,
        proof.value, proof, intFromBytes bucket⟩ ++ commitment' = blob := by
      rw [← hbytes]
      show [wireVersionV1] ++ natToBE 8 (intFromBytes epoch).toNat ++
        natToBE 8 (intFromBytes number).toNat ++ root ++ natToBE 4 (intFromBytes bucket).toNat ++
        _ ++ _ ++ _ ++ _ ++ _ = _
      rw [natToBE_intFromBytes hepochLen, natToBE_intFromBytes hnumberLen,
        natToBE_intFromBytes hbucketLen]
    have hstem16 : stem.length ≤ 0xFFFF := le_trans hstemMax (by decide)
    have hkey16 : proof.key.length ≤ 0xFFFF := le_trans hkeyMax (by decide)
    refine ⟨⟨hrootLen, hvalueLen, intFromBytes_nonneg _, intFromBytes_lt hepochLen,
      intFromBytes_nonneg _, intFromBytes_lt hnumberLen, intFromBytes_nonneg _,
      intFromBytes_lt hbucketLen, hstem16, hkey16, henc, le_trans hproofMax (by decide)⟩,
      ⟨?_, hstemMax, hkeyMax, hlimits, rfl, rfl⟩, hcommitmentLen, hwire.symm⟩
    have hlen := congrArg List.length hwire
    rw [List.length_append, hcommitmentLen] at hlen
    rw [hlen]
    exact hblob
  · rintro ⟨h, hlimits, hcommitmentLen, rfl⟩
    -- cut the wire form at the fields, from the last one back
    have hwhole := spans_zero_iff.mpr
      (rfl : packetBytes p ++ commitment = packetBytes p ++ commitment)
    obtain ⟨o₉, hspan, hcommitment⟩ := Spans.append_iff.mp hwhole
    obtain ⟨o₈, hspan, hproof⟩ := Spans.append_iff.mp hspan
    obtain ⟨o₇, hspan, hvalue⟩ := Spans.append_iff.mp hspan
    obtain ⟨o₆, hspan, hkey⟩ := Spans.append_iff.mp hspan
    obtain ⟨o₅, hspan, hstem⟩ := Spans.append_iff.mp hspan
    obtain ⟨o₄, hspan, hbucket⟩ := Spans.append_iff.mp hspan
    obtain ⟨o₃, hspan, hroot⟩ := Spans.append_iff.mp hspan
    obtain ⟨o₂, hspan, hnumber⟩ := Spans.append_iff.mp hspan
    obtain ⟨o₁, hversion, hepoch⟩ := Spans.append_iff.mp hspan
    have hkeyLt : p.key.length < 256 ^ 2 := by have := h.key_length; omega
    have hstemLt : p.stemPrefix.length < 256 ^ 2 := by have := h.stemPrefix_length; omega
    have hproofLt : (proofBlobBytes p.proof).length < 256 ^ 4 := by
      have := h.proof_length
      omega
    refine ⟨?_, [wireVersionV1], o₁, ⟨rfl, hversion⟩, rfl, _, o₂, ⟨length_natToBE _ _, hepoch⟩, _,
      o₃, ⟨length_natToBE _ _, hnumber⟩, _, o₄, ⟨h.blockRoot_width, hroot⟩, _, o₅,
      ⟨length_natToBE _ _, hbucket⟩, _, o₆, ⟨hlimits.stemPrefix_length, hstemLt, hstem⟩, _, o₇,
      ⟨hlimits.key_length, hkeyLt, hkey⟩, _, o₈, ⟨h.value_width, hvalue⟩, _, o₉,
      ⟨hlimits.proof_withinLimits.blob_length, hproofLt, hproof⟩, commitment, _,
      ⟨hcommitmentLen, hcommitment⟩, rfl, p.proof,
      ⟨h.proof_encodable, hlimits.proof_withinLimits, rfl⟩, hlimits.proof_key, hlimits.proof_value,
      ?_, rfl⟩
    · rw [List.length_append, hcommitmentLen]
      exact hlimits.wire_length
    · rw [intFromBytes_natToBE h.epoch_nonneg h.epoch_lt,
        intFromBytes_natToBE h.blockNumber_nonneg h.blockNumber_lt,
        intFromBytes_natToBE h.bucketId_nonneg h.bucketId_lt]

/-! ## The codec with its commitment -/

/-- **`encode_stem_witness_packet_v1`** appends the hash of the wire form, and computes
nothing else. -/
theorem encodeStemWitnessPacketV1_returns_iff {H : HashFunction} {p : StemWitnessPacket}
    {blob : Bytes} {qs : List Bytes} :
    (encodeStemWitnessPacketV1 H p).Returns blob qs ↔
      PacketEncodable p ∧ blob = packetBytes p ++ (H (packetBytes p)).val ∧
        qs = [packetBytes p] := by
  simp only [encodeStemWitnessPacketV1, packetCommitmentV1, bind_assoc,
    HashPy.returns_ofPy_bind_iff, HashPy.returns_ofHash_bind_iff, HashPy.returns_pure_iff,
    packetPayload_eq_ok_iff, val_treeHash, queries_treeHash]
  constructor
  · rintro ⟨payload, ⟨h, rfl⟩, payload, ⟨-, rfl⟩, rest, ⟨rfl, rfl⟩, rfl⟩
    exact ⟨h, rfl, rfl⟩
  · rintro ⟨h, rfl, rfl⟩
    exact ⟨_, ⟨h, rfl⟩, _, ⟨h, rfl⟩, [], ⟨rfl, rfl⟩, rfl⟩

/-- **`decode_stem_witness_packet_v1`** accepts exactly what the encoder writes for packets
within the limits, and hashes the wire form once. -/
theorem decodeStemWitnessPacketV1_returns_iff {H : HashFunction} {p : StemWitnessPacket}
    {blob : Bytes} {qs : List Bytes} :
    (decodeStemWitnessPacketV1 H blob).Returns p qs ↔
      PacketWithinLimits p ∧ (encodeStemWitnessPacketV1 H p).Returns blob qs := by
  simp only [encodeStemWitnessPacketV1_returns_iff, decodeStemWitnessPacketV1, packetCommitmentV1,
    bind_assoc, HashPy.returns_ofPy_bind_iff, HashPy.returns_ofHash_bind_iff,
    HashPy.returns_pure_iff, packetPayload_eq_ok_iff, decodePacketFields_eq_ok_iff, Prod.exists,
    raiseIf_eq_ok_iff, exists_const, not_not]
  constructor
  · rintro ⟨p', commitment, ⟨h, hlimits, -, rfl⟩, payload, ⟨-, rfl⟩, rest, ⟨rfl, rfl, rfl⟩, rfl⟩
    exact ⟨hlimits, h, rfl, rfl⟩
  · rintro ⟨hlimits, h, rfl, rfl⟩
    exact ⟨p, _, ⟨h, hlimits, BytesN.length_val _, rfl⟩, _, ⟨h, rfl⟩, [], ⟨rfl, rfl, rfl⟩, rfl⟩

/-- **`verify_witness_packet`** is true exactly when the packet repeats its proof under the
key's stem prefix and the proof is accepted. -/
theorem verifyWitnessPacket_returns_true_iff {H : HashFunction} {packet : StemWitnessPacket}
    {qs : List Bytes} : (verifyWitnessPacket H packet).Returns true qs ↔
      (∃ i, splitKey packet.key = .ok (packet.stemPrefix, i)) ∧ packet.proof.key = packet.key ∧
      packet.proof.value = packet.value ∧
      verifyProof H packet.blockRoot packet.proof = .ok ⟨true, qs⟩ := by
  simp only [verifyWitnessPacket, HashPy.returns_ofPy_bind_iff, Prod.exists]
  constructor
  · rintro ⟨s, i, hsplit, h⟩
    split_ifs at h with hs hkey hvalue
    · simp at h
    · simp at h
    · simp at h
    · rw [HashPy.returns_ofPyHash_iff] at h
      exact ⟨⟨i, (not_not.mp hs) ▸ hsplit⟩, not_not.mp hkey, not_not.mp hvalue, h⟩
  · rintro ⟨⟨i, hsplit⟩, hkey, hvalue, h⟩
    refine ⟨packet.stemPrefix, i, hsplit, ?_⟩
    rw [if_neg (not_not.mpr rfl), if_neg (not_not.mpr hkey), if_neg (not_not.mpr hvalue)]
    exact HashPy.returns_ofPyHash_iff.mpr h

end Pbt
