/-
# Honest providers

A packet built from `get_proof` for a stored stem survives the trip through the
codec and both RPC endpoints, on trees whose stem prefixes have at most 65 bytes.
The depth of such a tree is at most 521 (`length_siblings_le`), which keeps every
length far within the limits of the readers.
-/
import PartitionedBinaryTree.ProofCompleteness
import PartitionedBinaryTree.VerifiedRpc

namespace Pbt

variable {H : HashFunction}

/-! ## The depth of a tree -/

/-- A proof has one sibling per `InternalNode` on the walk. -/
theorem length_proofPath (s : Bytes) (t : Node) (d : ℕ) :
    (proofPath H s t d).val.1.length = BitTrie.walkLength pathBit s t d := by
  induction t generalizing d with
  | empty => rfl
  | leaf s' vs => rfl
  | node l r ihl ihr =>
      rw [proofPath_internalNode, BitTrie.walkLength]
      rcases pathBitAt_eq_zero_or_one s d with hbit | hbit
      · rw [if_pos hbit, if_neg (by simp [pathBit, hbit]), List.length_cons, ihl]
        omega
      · rw [if_neg (by omega), if_pos (by simp [pathBit, hbit]), List.length_cons, ihr]
        omega

/-- The longest stem prefix that the embedding produces. -/
def maxEmbeddedPrefix : ℕ := 65

/-- Every stem prefix of the tree has at most 65 bytes. -/
def EmbeddedPrefixes (t : Node) : Prop := ∀ p ∈ t.leaves, p.1.length ≤ maxEmbeddedPrefix

/-- **Depth bound.**  Two prefixes part at the latest at the terminator of the longer one, so
a walk passes at most `8 * 65 + 1` nodes. -/
theorem length_siblings_le {t : Node} (ht : WellFormed t) (hlen : EmbeddedPrefixes t) (s : Bytes) :
    (proofPath H s t 0).val.1.length ≤ 521 := by
  rw [length_proofPath]
  have hpart : ∀ p ∈ t.leaves, ∀ q ∈ t.leaves, p.1 ≠ q.1 →
      ∃ i < 521, pathBit p.1 i ≠ pathBit q.1 i := by
    intro p hp q hq hne
    obtain ⟨i, hi, hbit⟩ := exists_pathBit_ne hne
    have hpl := hlen p hp
    have hql := hlen q hq
    rw [maxEmbeddedPrefix] at hpl hql
    exact ⟨i, by omega, hbit⟩
  have hwalk := BitTrie.walkLength_le ht.placed ht.compact (BitTrie.under_zero s t) hpart
  omega

/-! ## Lengths on the wire -/

theorem length_proofBlobBytes {p : MerkleProof} (h : ProofEncodable p) :
    (proofBlobBytes p).length = 8232 + p.key.length + 33 * p.pathSiblings.length := by
  simp only [proofBlobBytes, List.length_append, length_natToBE, List.length_map, h.value_width,
    length_flatten_of_widths h.stemValues_width, length_flatten_of_widths h.siblings_width,
    h.stemValues_length, ← h.siblings_length_eq]
  omega

theorem length_packetBytes {p : StemWitnessPacket} (h : PacketEncodable p) :
    (packetBytes p).length =
      93 + p.stemPrefix.length + p.key.length + (proofBlobBytes p.proof).length := by
  simp only [packetBytes, List.length_append, length_natToBE, List.length_singleton,
    h.blockRoot_width, h.value_width]
  omega

/-! ## Reading back what was written -/

/-- `_hex_to_bytes` reads back `_bytes_to_hex`. -/
theorem hexToBytes_bytesToHex (data : Bytes) (name : String) {maxBytes : Option ℕ}
    (hmax : ∀ m ∈ maxBytes, data.length ≤ m) :
    hexToBytes (.str (bytesToHex data)) name maxBytes = .ok data := by
  have hlen := length_bytesHex data
  have heven : ¬ (bytesHex data).length % 2 ≠ 0 := by omega
  have hfit : ¬ maxBytes.any ((bytesHex data).length / 2 > ·) = true := by
    cases maxBytes with
    | none => simp
    | some m =>
        have := hmax m rfl
        simp only [Option.any_some, decide_eq_true_eq, not_lt]
        omega
  simp only [hexToBytes, bytesToHex, String.toList_ofList, bytesFromHex_bytesHex]
  rw [raiseIf, if_neg heven, raiseIf, if_neg hfit]
  rfl

/-- The two hexadecimal forms of numbers agree on `u64`. -/
theorem parseU64Hex_hexInt {value : ℤ} (h0 : 0 ≤ value) (h : value ≤ maxU64) (name : String) :
    parseU64Hex (.str (String.ofList ('0' :: 'x' :: hexInt value.toNat))) name = .ok value := by
  simp only [parseU64Hex, String.toList_ofList, intBase16_hexInt, Int.toNat_of_nonneg h0]
  rw [raiseIf, if_neg (not_lt.mpr h0), raiseIf, if_neg (not_lt.mpr h)]
  rfl

/-- A list of byte strings written as hexadecimal texts is read back. -/
theorem mapM_hexToBytes (items : List Bytes) (name : String) :
    (items.map fun x => Json.str (bytesToHex x)).mapM (hexToBytes · name none) = .ok items := by
  induction items with
  | nil => rfl
  | cons x items ih =>
      rw [List.map_cons, List.mapM_cons, hexToBytes_bytesToHex x name (by simp), ih]
      rfl

/-- The bits written as JSON integers are read back. -/
theorem filterMap_asInt_map_int (bits : List ℤ) :
    (bits.map Json.int).filterMap Json.asInt = bits := by
  induction bits with
  | nil => rfl
  | cons b bits ih =>
      show b :: (bits.map Json.int).filterMap Json.asInt = b :: bits
      rw [ih]

/-- **`_proof_from_json_dict` reads back `_proof_to_json_dict`** for encodable proofs of at most
4096 siblings. -/
theorem proofFromJsonDict_proofToJsonDict {p : MerkleProof} (h : ProofEncodable p)
    (hmax : p.pathSiblings.length ≤ maxProofPathLength) :
    proofFromJsonDict (proofToJsonDict p) = .ok p := by
  unfold proofToJsonDict proofFromJsonDict
  simp only [py_bind_eq_ok_iff, raiseIf_eq_ok_iff, requireLen_eq_ok_iff, forM_requireLen_eq_ok_iff,
    exists_const, not_not, not_lt, pure, Except.pure, Except.ok.injEq]
  refine ⟨_, rfl, p.key, hexToBytes_bytesToHex _ _ (by simp), p.value,
    hexToBytes_bytesToHex _ _ (by simp), h.value_width, _, rfl, ?_, p.stemValues,
    mapM_hexToBytes _ _, h.stemValues_width, _, rfl, ?_, p.pathSiblings, mapM_hexToBytes _ _,
    h.siblings_width, _, rfl, ?_, ?_, ?_, ?_, ?_⟩
  · rw [List.length_map, h.stemValues_length]
  · rw [List.length_map]
    exact hmax
  · rw [List.length_map, ← h.siblings_length_eq]
    exact hmax
  · rw [List.length_map, List.length_map, h.siblings_length_eq]
  · simp [Json.asInt]
  · rw [filterMap_asInt_map_int]
    rintro ⟨b, hb, hbit⟩
    exact hbit (h.bits b hb)
  · rw [filterMap_asInt_map_int]

/-! ## The endpoints -/

theorem isStr_self (s : String) : (Json.str s).isStr s = true := beq_self_eq_true s

theorem expectProvider_str {provider : String} (h : provider ≠ "") :
    expectProvider (.str provider) = .ok provider := by
  rw [expectProvider, raiseIf, if_neg h]
  rfl

/-- A raw result object with the expected method is taken as it is. -/
theorem extractResultObject_raw {fields : Fields} {method : String}
    (hraw : fields.has "jsonrpc" = false ∧ fields.has "id" = false ∧
      fields.has "result" = false ∧ fields.has "error" = false)
    (hmethod : fields.get "method" = .str method) :
    extractResultObject (.dict fields) method = .ok fields := by
  obtain ⟨h1, h2, h3, h4⟩ := hraw
  have hnone : fields.lookup "result" = none := by
    simpa [Fields.has] using h3
  have hresult : payloadResult (.dict fields) fields = .ok (.dict fields) := by
    rw [payloadResult, h1, h2, h3, h4, hnone]
    rfl
  unfold extractResultObject
  simp only [py_bind_eq_ok_iff, raiseIf_eq_ok_iff, exists_const, pure, Except.pure, not_not]
  exact ⟨fields, rfl, _, hresult, fields, rfl, by rw [hmethod, isStr_self], rfl⟩

/-- **What `make_eth_getVerifiedProof_result` emits, the parser reads back.** -/
theorem parse_makeEthGetVerifiedProofResult {provider : String} {blockNumber : ℤ}
    {blockHash stateRoot : Bytes} {p : MerkleProof} (hprovider : provider ≠ "")
    (h0 : 0 ≤ blockNumber) (h64 : blockNumber ≤ maxU64) (hhash : blockHash.length = 32)
    (hroot : stateRoot.length = 32) (hp : ProofEncodable p)
    (hmax : p.pathSiblings.length ≤ maxProofPathLength) :
    ∃ payload, makeEthGetVerifiedProofResult provider blockNumber blockHash stateRoot p.key p.value
        p = .ok payload ∧
      parseEthGetVerifiedProofResult payload = .ok
        ⟨provider, blockNumber, blockHash, stateRoot, p.key, p.value, p⟩ := by
  have hrange : ¬ (blockNumber < 0 ∨ blockNumber > maxU64) := by omega
  unfold makeEthGetVerifiedProofResult u64Hex
  simp only [py_bind_eq_ok_iff, raiseIf_eq_ok_iff, requireLen_eq_ok_iff, exists_const, pure,
    Except.pure, Except.ok.injEq]
  refine ⟨_, ⟨hprovider, hhash, hroot, hp.value_width, _, ⟨hrange, rfl⟩, rfl⟩, ?_⟩
  unfold parseEthGetVerifiedProofResult
  simp only [py_bind_eq_ok_iff, raiseIf_eq_ok_iff, requireLen_eq_ok_iff, exists_const, not_not,
    pure, Except.pure, Except.ok.injEq]
  exact ⟨_, extractResultObject_raw ⟨rfl, rfl, rfl, rfl⟩ rfl, isStr_self _, provider,
    expectProvider_str hprovider, _, rfl, _, rfl, blockNumber, parseU64Hex_hexInt h0 h64 _,
    blockHash, hexToBytes_bytesToHex _ _ (by simp), stateRoot,
    hexToBytes_bytesToHex _ _ (by simp), p.key, hexToBytes_bytesToHex _ _ (by simp), p.value,
    hexToBytes_bytesToHex _ _ (by simp), hhash, hroot, hp.value_width, p,
    proofFromJsonDict_proofToJsonDict hp hmax, rfl, rfl, rfl⟩

/-- The payload of a packet and its wire form. -/
def stemWitnessPayload (provider : String) (blockHash : Bytes) (packet : StemWitnessPacket)
    (packetWire : Bytes) : Json :=
  .dict [("version", .str wireVersion),
    ("method", .str methodGetStemWitness),
    ("provider", .str provider),
    ("block", .dict [("number", .str (String.ofList ('0' :: 'x' :: hexInt packet.blockNumber.toNat))),
      ("hash", .str (bytesToHex blockHash)),
      ("stateRoot", .str (bytesToHex packet.blockRoot))]),
    ("stemWitness", .dict [("packetWire", .str (bytesToHex packetWire))])]

/-- The wire form of a packet with its commitment. -/
def packetWire (H : HashFunction) (packet : StemWitnessPacket) : Bytes :=
  packetBytes packet ++ (H (packetBytes packet)).val

theorem PacketEncodable.blockNumber_le {packet : StemWitnessPacket} (h : PacketEncodable packet) :
    packet.blockNumber ≤ maxU64 := by
  have := h.blockNumber_lt
  rw [maxU64]
  omega

/-- **`make_eth_getStemWitness_result`** emits the payload of the wire form, for every packet
that has one of at most 262144 bytes. -/
theorem makeEthGetStemWitnessResult_returns_iff {provider : String} {blockHash : Bytes}
    {packet : StemWitnessPacket} {payload : Json} {qs : List Bytes} :
    (makeEthGetStemWitnessResult H provider blockHash packet).Returns payload qs ↔
      provider ≠ "" ∧ blockHash.length = 32 ∧ PacketEncodable packet ∧
        (packetBytes packet).length + 32 ≤ maxPacketWireBytes ∧
        payload = stemWitnessPayload provider blockHash packet (packetWire H packet) ∧
        qs = [packetBytes packet] := by
  simp only [makeEthGetStemWitnessResult, HashPy.returns_bind_iff, HashPy.returns_ofPy_iff,
    HashPy.returns_pure_iff, encodeStemWitnessPacketV1_returns_iff, raiseIf_eq_ok_iff,
    requireLen_eq_ok_iff, not_lt]
  constructor
  · rintro ⟨-, -, qs₁, ⟨hprovider, rfl⟩, ⟨-, -, qs₂, ⟨hhash, rfl⟩, ⟨wire, -, qs₃,
      ⟨henc, rfl, rfl⟩, ⟨-, -, qs₄, ⟨hlen, rfl⟩, ⟨number, -, qs₅, ⟨hnumber, rfl⟩, ⟨rfl, rfl⟩, rfl⟩,
      rfl⟩, rfl⟩, rfl⟩, rfl⟩
    rw [List.length_append, BytesN.length_val] at hlen
    have hrange : ¬ (packet.blockNumber < 0 ∨ packet.blockNumber > maxU64) := by
      have h0 := henc.blockNumber_nonneg
      have h64 := henc.blockNumber_le
      omega
    rw [u64Hex, raiseIf, if_neg hrange] at hnumber
    cases hnumber
    exact ⟨hprovider, hhash, henc, hlen, rfl, rfl⟩
  · rintro ⟨hprovider, hhash, henc, hlen, rfl, rfl⟩
    have hrange : ¬ (packet.blockNumber < 0 ∨ packet.blockNumber > maxU64) := by
      have h0 := henc.blockNumber_nonneg
      have h64 := henc.blockNumber_le
      omega
    have hnumber : u64Hex packet.blockNumber =
        .ok (String.ofList ('0' :: 'x' :: hexInt packet.blockNumber.toNat)) := by
      rw [u64Hex, raiseIf, if_neg hrange]
      rfl
    refine ⟨(), [], _, ⟨hprovider, rfl⟩, ⟨(), [], _, ⟨hhash, rfl⟩, ⟨_, _, [], ⟨henc, rfl, rfl⟩,
      ⟨(), [], [], ⟨?_, rfl⟩, ⟨_, [], [], ⟨hnumber, rfl⟩, ⟨rfl, rfl⟩, rfl⟩, rfl⟩, rfl⟩, rfl⟩, rfl⟩
    rw [List.length_append, BytesN.length_val]
    exact hlen

/-- **`parse_eth_getStemWitness_result`** on such a payload returns what the packet reader
returns on the wire form, if it has the block number and the root of the payload. -/
theorem parseEthGetStemWitnessResult_returns_iff {provider : String} {blockHash : Bytes}
    {packet : StemWitnessPacket} (hprovider : provider ≠ "") (hhash : blockHash.length = 32)
    (henc : PacketEncodable packet) (hlen : (packetBytes packet).length + 32 ≤ maxPacketWireBytes)
    {result : StemWitnessRpcResult} {qs : List Bytes} :
    (parseEthGetStemWitnessResult H
        (stemWitnessPayload provider blockHash packet (packetWire H packet))).Returns result qs ↔
      (decodeStemWitnessPacketV1 H (packetWire H packet)).Returns result.packet qs ∧
        result = ⟨provider, packet.blockNumber, blockHash, packet.blockRoot, result.packet⟩ ∧
        result.packet.blockNumber = packet.blockNumber ∧
        result.packet.blockRoot = packet.blockRoot := by
  have hwire : (packetWire H packet).length ≤ maxPacketWireBytes := by
    rw [packetWire, List.length_append, BytesN.length_val]
    exact hlen
  have hfields : parseStemWitnessFields
      (stemWitnessPayload provider blockHash packet (packetWire H packet)) =
      .ok (provider, packet.blockNumber, blockHash, packet.blockRoot, packetWire H packet) := by
    unfold parseStemWitnessFields stemWitnessPayload
    simp only [py_bind_eq_ok_iff, raiseIf_eq_ok_iff, requireLen_eq_ok_iff, exists_const, not_not,
      pure, Except.pure, Except.ok.injEq]
    exact ⟨_, extractResultObject_raw ⟨rfl, rfl, rfl, rfl⟩ rfl, isStr_self _, provider,
      expectProvider_str hprovider, _, rfl, _, rfl, packet.blockNumber,
      parseU64Hex_hexInt henc.blockNumber_nonneg henc.blockNumber_le _, blockHash,
      hexToBytes_bytesToHex _ _ (by simp), packet.blockRoot, hexToBytes_bytesToHex _ _ (by simp),
      packetWire H packet, hexToBytes_bytesToHex _ _ (by simpa using hwire), hhash,
      henc.blockRoot_width, rfl⟩
  simp only [parseEthGetStemWitnessResult, hfields, HashPy.returns_bind_iff,
    HashPy.returns_ofPy_iff, HashPy.returns_pure_iff, raiseIf_eq_ok_iff, not_not, Except.ok.injEq]
  constructor
  · rintro ⟨fields, qs₁, qs₂, ⟨rfl, rfl⟩, ⟨packet', qs₃, qs₄, hdecode, ⟨-, qs₅, qs₆, ⟨hnumber, rfl⟩,
      ⟨-, qs₇, qs₈, ⟨hroot, rfl⟩, ⟨rfl, rfl⟩, rfl⟩, rfl⟩, rfl⟩, rfl⟩
    simp only [List.nil_append, List.append_nil]
    exact ⟨hdecode, trivial, hnumber, hroot⟩
  · rintro ⟨hdecode, hresult, hnumber, hroot⟩
    exact ⟨_, [], _, ⟨rfl, rfl⟩, ⟨result.packet, qs, [], hdecode, ⟨(), [], [], ⟨hnumber, rfl⟩,
      ⟨(), [], [], ⟨hroot, rfl⟩, ⟨hresult.symm, rfl⟩, rfl⟩, rfl⟩, (List.append_nil qs).symm⟩, rfl⟩

/-- **What `make_eth_getStemWitness_result` emits, the parser reads back**, for packets within
the limits of the packet reader. -/
theorem parse_makeEthGetStemWitnessResult {provider : String} {blockHash : Bytes}
    {packet : StemWitnessPacket} (hprovider : provider ≠ "") (hhash : blockHash.length = 32)
    (henc : PacketEncodable packet) (hlimits : PacketWithinLimits packet) :
    ∃ payload qs, (makeEthGetStemWitnessResult H provider blockHash packet).Returns payload qs ∧
      ∃ qs', (parseEthGetStemWitnessResult H payload).Returns
        ⟨provider, packet.blockNumber, blockHash, packet.blockRoot, packet⟩ qs' := by
  have hencode : (encodeStemWitnessPacketV1 H packet).Returns (packetWire H packet)
      [packetBytes packet] := encodeStemWitnessPacketV1_returns_iff.mpr ⟨henc, rfl, rfl⟩
  -- the packet goes into the payload in its wire form, which the reader inverts
  have hdecode := decodeStemWitnessPacketV1_returns_iff.mpr ⟨hlimits, hencode⟩
  exact ⟨_, _, makeEthGetStemWitnessResult_returns_iff.mpr
      ⟨hprovider, hhash, henc, hlimits.wire_length, rfl, rfl⟩,
    _, (parseEthGetStemWitnessResult_returns_iff hprovider hhash henc hlimits.wire_length).mpr
      ⟨hdecode, rfl, rfl, rfl⟩⟩

/-! ## Honest packets -/

/-- The packet that a provider builds around a proof of `get_proof`. -/
def honestPacket (root : Bytes) (p : MerkleProof) (epoch blockNumber bucketId : ℤ) :
    StemWitnessPacket where
  epoch := epoch
  blockNumber := blockNumber
  blockRoot := root
  stemPrefix := p.key.dropLast
  key := p.key
  value := p.value
  proof := p
  bucketId := bucketId

/-- A generated proof of a shallow tree is encodable, and within the limits of the reader. -/
theorem getProof_encodable {t : Node} (ht : WellFormed t) (hlen : EmbeddedPrefixes t) {key : Bytes}
    (hkey : key.length ≤ maxEmbeddedPrefix + 1) {p : Logged Bytes MerkleProof}
    (hp : getProof H t key = .ok p) :
    ProofEncodable p.val ∧ ProofWithinLimits p.val ∧ p.val.pathSiblings.length ≤ 521 := by
  obtain ⟨hpkey, hn, hvalues, hvalue, heq, hsiblings, hbits⟩ := getProof_widths hp
  have hdepth : p.val.pathSiblings.length ≤ 521 := by
    cases hsplit : splitKey key with
    | error e =>
        rw [getProof, hsplit] at hp
        cases hp
    | ok si =>
        obtain ⟨p', hp', hval⟩ := getProof_spec (H := H) t hsplit
        rw [hp] at hp'
        cases hp'
        rw [hval]
        exact length_siblings_le ht hlen si.1
  rw [maxEmbeddedPrefix] at hkey
  -- at most 521 siblings, so the counters fit and the blob stays within its limit
  have henc : ProofEncodable p.val := ⟨hvalue, hn, heq, hbits, hvalues, hsiblings,
    by rw [hpkey]; omega, by norm_num; omega⟩
  refine ⟨henc, ⟨?_, ?_, ?_⟩, hdepth⟩
  · rw [length_proofBlobBytes henc, hpkey, maxProofBlobBytes]
    omega
  · rw [hpkey, maxKeyBytes]
    omega
  · rw [maxPathComponents]
    omega

/-- The packet around such a proof is encodable, and within the limits of the reader. -/
theorem honestPacket_encodable {p : MerkleProof} (henc : ProofEncodable p)
    (hlimits : ProofWithinLimits p) (hkey : p.key.length ≤ maxEmbeddedPrefix + 1) {root : Bytes}
    (hroot : root.length = 32) {epoch blockNumber bucketId : ℤ}
    (hepoch : 0 ≤ epoch ∧ epoch < 2 ^ 64) (hnumber : 0 ≤ blockNumber ∧ blockNumber < 2 ^ 64)
    (hbucket : 0 ≤ bucketId ∧ bucketId < 2 ^ 32) :
    PacketEncodable (honestPacket root p epoch blockNumber bucketId) ∧
    PacketWithinLimits (honestPacket root p epoch blockNumber bucketId) := by
  have hblob := hlimits.blob_length
  rw [maxEmbeddedPrefix] at hkey
  rw [maxProofBlobBytes] at hblob
  have hstem : p.key.dropLast.length ≤ 65 := by
    rw [List.length_dropLast]
    omega
  have hpacket : PacketEncodable (honestPacket root p epoch blockNumber bucketId) :=
    ⟨hroot, henc.value_width, hepoch.1, hepoch.2.trans_eq (by norm_num), hnumber.1,
      hnumber.2.trans_eq (by norm_num), hbucket.1, hbucket.2.trans_eq (by norm_num),
      le_trans hstem (by norm_num), henc.key_length, henc, le_trans hblob (by norm_num)⟩
  refine ⟨hpacket, ⟨?_, ?_, hlimits.key_length, hlimits, rfl, rfl⟩⟩
  · rw [length_packetBytes hpacket, maxPacketWireBytes]
    show 93 + p.key.dropLast.length + p.key.length + (proofBlobBytes p).length + 32 ≤ 262144
    omega
  · exact le_trans hstem (by decide)

/-- The stem witness endpoint accepts what it emits for a packet that verifies. -/
theorem stemWitness_accepted {provider : String} {blockHash : Bytes} {packet : StemWitnessPacket}
    (hprovider : provider ≠ "") (hhash : blockHash.length = 32) (henc : PacketEncodable packet)
    (hlimits : PacketWithinLimits packet) {qs : List Bytes}
    (hverify : (verifyWitnessPacket H packet).Returns true qs) :
    ∃ payload qs res qs',
      (makeEthGetStemWitnessResult H provider blockHash packet).Returns payload qs ∧
      (verifyEthGetStemWitnessResult H payload (some packet.blockRoot)).Returns res qs' ∧
      res.accepted = true := by
  obtain ⟨payload, qs₁, hmake, qs₂, hparse⟩ :=
    parse_makeEthGetStemWitnessResult (H := H) hprovider hhash henc hlimits
  refine ⟨payload, qs₁, ⟨true, "stem witness locally accepted"⟩, qs₂ ++ (qs ++ []), hmake,
    withParsed_returns hparse ?_, rfl⟩
  rw [if_neg (by simp)]
  exact .bind hverify (.pure _)

/-- The verified proof endpoint accepts what it emits for a proof that verifies. -/
theorem verifiedProof_accepted (provider : String) (blockNumber : ℤ) (blockHash : Bytes)
    {stateRoot : Bytes} {p : MerkleProof} (hprovider : provider ≠ "") (h0 : 0 ≤ blockNumber)
    (h64 : blockNumber ≤ maxU64) (hhash : blockHash.length = 32) (hroot : stateRoot.length = 32)
    (hp : ProofEncodable p) (hmax : p.pathSiblings.length ≤ maxProofPathLength) {qs : List Bytes}
    (hverify : verifyProof H stateRoot p = .ok ⟨true, qs⟩) :
    ∃ payload res qs',
      makeEthGetVerifiedProofResult provider blockNumber blockHash stateRoot p.key p.value p =
        .ok payload ∧
      (verifyEthGetVerifiedProofResult H payload (some stateRoot)).Returns res qs' ∧
      res.accepted = true := by
  obtain ⟨payload, hmake, hparse⟩ :=
    parse_makeEthGetVerifiedProofResult hprovider h0 h64 hhash hroot hp hmax
  refine ⟨payload, ⟨true, "verified proof locally accepted"⟩, [] ++ (qs ++ []), hmake,
    withParsed_returns (.ofPy hparse) ?_, rfl⟩
  rw [if_neg (by simp)]
  exact .bind (HashPy.returns_ofPyHash_iff.mpr hverify) (.pure _)

/-- **Honest providers are always accepted.**  On a reachable tree with stem prefixes of at most
65 bytes, the packet built from the proof of a key in a stored stem survives the codec, and both
endpoints accept what they emit for it. -/
theorem honestPacket_accepted (H : HashFunction) (ops : List TreeOp)
    (hlen : EmbeddedPrefixes (run ops)) (key : Bytes) (hkey : 2 ≤ key.length)
    (hstem : storedStem (run ops) key.dropLast ≠ none) (provider : String)
    (hprovider : provider ≠ "") (blockHash : Bytes) (hhash : blockHash.length = 32)
    (epoch blockNumber bucketId : ℤ) (hepoch : 0 ≤ epoch ∧ epoch < 2 ^ 64)
    (hnumber : 0 ≤ blockNumber ∧ blockNumber < 2 ^ 64)
    (hbucket : 0 ≤ bucketId ∧ bucketId < 2 ^ 32) :
    ∃ p, getProof H (run ops) key = .ok p ∧
      (∃ blob qs qs',
        (encodeStemWitnessPacketV1 H (honestPacket (rootHash H (run ops)).val.val p.val epoch
          blockNumber bucketId)).Returns blob qs ∧
        (decodeStemWitnessPacketV1 H blob).Returns (honestPacket (rootHash H (run ops)).val.val
          p.val epoch blockNumber bucketId) qs') ∧
      (∃ payload qs res qs',
        (makeEthGetStemWitnessResult H provider blockHash (honestPacket
          (rootHash H (run ops)).val.val p.val epoch blockNumber bucketId)).Returns payload qs ∧
        (verifyEthGetStemWitnessResult H payload
          (some (rootHash H (run ops)).val.val)).Returns res qs' ∧ res.accepted = true) ∧
      (∃ payload res qs',
        makeEthGetVerifiedProofResult provider blockNumber blockHash
          (rootHash H (run ops)).val.val key p.val.value p.val = .ok payload ∧
        (verifyEthGetVerifiedProofResult H payload
          (some (rootHash H (run ops)).val.val)).Returns res qs' ∧ res.accepted = true) := by
  obtain ⟨s, i, hsplit, rfl⟩ := exists_splitKey hkey
  rw [dropLast_joinKey] at hstem
  obtain ⟨vs, hvs⟩ := Option.ne_none_iff_exists'.mp hstem
  have hwf := wellFormed_run ops
  -- the stored stem bounds the key, the tree bounds the depth
  have hs : s.length ≤ maxEmbeddedPrefix := hlen (s, vs) (hwf.storedStem_eq_some_iff.mp hvs)
  have hkeyLen : (joinKey s i).length ≤ maxEmbeddedPrefix + 1 := by
    rw [length_joinKey]
    omega
  obtain ⟨p, hp, -, ⟨valid, qs⟩, hw, rfl⟩ := completeAt_of_storedStem (H := H) hsplit hvs
  obtain ⟨hpkey, -⟩ := getProof_widths hp
  obtain ⟨henc, hlimits, hdepth⟩ := getProof_encodable hwf hlen hkeyLen hp
  obtain ⟨hpacket, hpacketLimits⟩ := honestPacket_encodable henc hlimits (hpkey ▸ hkeyLen)
    (BytesN.length_val (rootHash H (run ops)).val) hepoch hnumber hbucket
  have hverify : (verifyWitnessPacket H (honestPacket (rootHash H (run ops)).val.val p.val epoch
      blockNumber bucketId)).Returns true qs := by
    refine verifyWitnessPacket_returns_true_iff.mpr ⟨⟨i, ?_⟩, rfl, rfl, hw⟩
    show splitKey p.val.key = .ok (p.val.key.dropLast, i)
    rw [hpkey, hsplit, dropLast_joinKey]
  refine ⟨p, hp, ?_, ?_, ?_⟩
  · have hencode := (encodeStemWitnessPacketV1_returns_iff (H := H)).mpr ⟨hpacket, rfl, rfl⟩
    exact ⟨_, _, _, hencode, decodeStemWitnessPacketV1_returns_iff.mpr ⟨hpacketLimits, hencode⟩⟩
  · exact stemWitness_accepted hprovider hhash hpacket hpacketLimits hverify
  · have h64 : blockNumber ≤ maxU64 := by
      rw [maxU64]
      omega
    rw [← hpkey]
    exact verifiedProof_accepted provider blockNumber blockHash hprovider hnumber.1 h64 hhash
      (BytesN.length_val _) henc (le_trans hdepth (by decide)) hw

/-- The prefixes of two stems. -/
theorem embeddedPrefixes_pair : EmbeddedPrefixes (run pairOps) := by
  intro q hq
  have hmem : q ∈ [([0], emptyStem.set 0 onesDigest), ([128], emptyStem.set 7 onesDigest)] := hq
  simp only [List.mem_cons, List.not_mem_nil, or_false] at hmem
  rcases hmem with rfl | rfl <;> decide

/-- Two stems that part at the first bit. -/
theorem honestPacket_accepted_two_stems :
    ∃ p payload qs res qs',
      getProof (fun _ => emptyValue) (run [.insert [0, 0] onesDigest.val,
        .insert [128, 7] onesDigest.val]) [128, 0] = .ok p ∧
      (makeEthGetStemWitnessResult (fun _ => emptyValue) "provider" (zeroBytes 32)
        (honestPacket emptyValue.val p.val 1 2 3)).Returns payload qs ∧
      (verifyEthGetStemWitnessResult (fun _ => emptyValue) payload
        (some emptyValue.val)).Returns res qs' ∧ res.accepted = true := by
  obtain ⟨p, hp, -, ⟨payload, qs, res, qs', hmake, hverify, hacc⟩, -⟩ :=
    honestPacket_accepted (fun _ => emptyValue) _ embeddedPrefixes_pair [128, 0] (by decide)
      (fun h => by cases h) "provider" (by decide) (zeroBytes 32) rfl 1 2 3 (by decide)
      (by decide) (by decide)
  exact ⟨p, payload, qs, res, qs', hp, hmake, hverify, hacc⟩

end Pbt
