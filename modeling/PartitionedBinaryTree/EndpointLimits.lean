/-
# What the stem witness endpoint can read back

`make_eth_getStemWitness_result` bounds the wire form of a packet as a whole;
`decode_stem_witness_packet_v1` bounds the stem prefix, the key, the path and the
proof blob as well.  So the endpoint emits packets that it refuses to read
(`not_readBack_longPrefix`), and `readBack_iff_limits` says which: of the bounds
of the reader, those on the key and the path follow from the other two.
-/
import PartitionedBinaryTree.HonestProvider
import PartitionedBinaryTree.PacketCanonical

namespace Pbt

variable {H : HashFunction}

/-! ## The limits of the reader on packets that verify -/

/-- On a packet that verifies and fits the wire, the limits of the reader are two. -/
theorem packetWithinLimits_iff {packet : StemWitnessPacket} (henc : PacketEncodable packet)
    (hlen : (packetBytes packet).length + 32 ≤ maxPacketWireBytes)
    (hkey : packet.key.length = packet.stemPrefix.length + 1)
    (hproofKey : packet.proof.key = packet.key) (hproofValue : packet.proof.value = packet.value) :
    PacketWithinLimits packet ↔ packet.stemPrefix.length ≤ maxStemPrefixBytes ∧
      8232 + packet.key.length + 33 * packet.proof.pathSiblings.length ≤ maxProofBlobBytes := by
  have hblob := length_proofBlobBytes henc.proof_encodable
  rw [hproofKey] at hblob
  constructor
  · intro h
    refine ⟨h.stemPrefix_length, ?_⟩
    rw [← hblob]
    exact h.proof_withinLimits.blob_length
  · rintro ⟨hstem, hfit⟩
    rw [maxStemPrefixBytes] at hstem
    rw [maxProofBlobBytes] at hfit
    -- a stem prefix of 256 bytes bounds the key, and a full blob the path
    refine ⟨hlen, hstem, ?_, ⟨?_, ?_, ?_⟩, hproofKey, hproofValue⟩
    · rw [maxKeyBytes]
      omega
    · rw [hblob, maxProofBlobBytes]
      exact hfit
    · rw [hproofKey, maxKeyBytes]
      omega
    · rw [maxPathComponents]
      omega

/-- `verify_witness_packet` raises exactly on a key that is too short to split. -/
theorem verifyWitnessPacket_fails_iff {packet : StemWitnessPacket} :
    (∃ e, (verifyWitnessPacket H packet).outcome = .error e) ↔ packet.key.length < 2 := by
  rw [verifyWitnessPacket, HashPy.outcome_bind, HashPy.outcome_ofPy]
  constructor
  · rintro ⟨e, he⟩
    by_contra hlen
    obtain ⟨s, i, hkey, -⟩ := exists_splitKey (not_lt.mp hlen)
    rw [hkey] at he
    simp only [bind, Except.bind] at he
    split_ifs at he with hs hproofKey hvalue
    · cases he
    · cases he
    · cases he
    · -- the proof is of the packet's own key
      rw [HashPy.outcome_ofPyHash] at he
      cases hverify : verifyProof H packet.blockRoot packet.proof with
      | error e' =>
          have hshort := verifyProof_fails_iff.mp ⟨e', hverify⟩
          rw [not_not.mp hproofKey] at hshort
          exact hlen hshort
      | ok verdict =>
          rw [hverify] at he
          cases he
  · intro hlen
    rw [splitKey_of_short hlen]
    exact ⟨_, rfl⟩

/-- The key of a packet that verifies is its stem prefix and one byte. -/
theorem length_key_of_verify {packet : StemWitnessPacket}
    (h : (verifyWitnessPacket H packet).outcome = .ok true) :
    packet.key.length = packet.stemPrefix.length + 1 ∧ packet.proof.key = packet.key ∧
      packet.proof.value = packet.value := by
  obtain ⟨qs, hreturns⟩ := HashPy.outcome_eq_ok_iff.mp h
  obtain ⟨⟨i, hsplit⟩, hkey, hvalue, -⟩ := verifyWitnessPacket_returns_true_iff.mp hreturns
  refine ⟨?_, hkey, hvalue⟩
  rw [(splitKey_eq_ok_iff.mp hsplit).1, length_joinKey]

/-- The parser returns the packet that was emitted exactly when it is within the limits. -/
theorem parse_outcome_eq_iff {provider : String} {blockHash : Bytes} {packet : StemWitnessPacket}
    (hprovider : provider ≠ "") (hhash : blockHash.length = 32) (henc : PacketEncodable packet)
    (hlen : (packetBytes packet).length + 32 ≤ maxPacketWireBytes) :
    (parseEthGetStemWitnessResult H
        (stemWitnessPayload provider blockHash packet (packetWire H packet))).outcome =
          .ok ⟨provider, packet.blockNumber, blockHash, packet.blockRoot, packet⟩ ↔
      PacketWithinLimits packet := by
  rw [HashPy.outcome_eq_ok_iff]
  constructor
  · rintro ⟨qs, hparse⟩
    obtain ⟨hdecode, -⟩ :=
      (parseEthGetStemWitnessResult_returns_iff hprovider hhash henc hlen).mp hparse
    exact (decodeStemWitnessPacketV1_returns_iff.mp hdecode).1
  · intro hlimits
    have hencode : (encodeStemWitnessPacketV1 H packet).Returns (packetWire H packet)
        [packetBytes packet] := encodeStemWitnessPacketV1_returns_iff.mpr ⟨henc, rfl, rfl⟩
    exact ⟨_, (parseEthGetStemWitnessResult_returns_iff hprovider hhash henc hlen).mpr
      ⟨decodeStemWitnessPacketV1_returns_iff.mpr ⟨hlimits, hencode⟩, rfl, rfl, rfl⟩⟩

/-- **What the endpoint reads back.**  A packet that verifies and is emitted is returned by
the parser, with its provider, block and root, exactly when its stem prefix has at most 256
bytes and its proof blob at most 131072. -/
theorem readBack_iff_limits (H : HashFunction) (provider : String) (blockHash : Bytes)
    (packet : StemWitnessPacket) (payload : Json)
    (hverify : (verifyWitnessPacket H packet).outcome = .ok true)
    (hmake : (makeEthGetStemWitnessResult H provider blockHash packet).outcome = .ok payload) :
    (parseEthGetStemWitnessResult H payload).outcome =
        .ok ⟨provider, packet.blockNumber, blockHash, packet.blockRoot, packet⟩ ↔
      packet.stemPrefix.length ≤ maxStemPrefixBytes ∧
        8232 + packet.key.length + 33 * packet.proof.pathSiblings.length ≤ maxProofBlobBytes := by
  obtain ⟨qs, hreturns⟩ := HashPy.outcome_eq_ok_iff.mp hmake
  obtain ⟨hprovider, hhash, henc, hlen, rfl, -⟩ :=
    makeEthGetStemWitnessResult_returns_iff.mp hreturns
  obtain ⟨hkey, hproofKey, hproofValue⟩ := length_key_of_verify hverify
  rw [parse_outcome_eq_iff hprovider hhash henc hlen]
  exact packetWithinLimits_iff henc hlen hkey hproofKey hproofValue

/-! ## Packets of a lone stem -/

/-- The packet of a tree that holds one value, in slot 0 of the stem `s`. -/
def lonePacket (H : HashFunction) (s : Bytes) : StemWitnessPacket :=
  honestPacket (rootHash H (.stemNode s (emptyStem.set 0 onesDigest stemSubtreeWidth_pos))).val.val
    (loneProof s 0 onesDigest) 0 0 0

/-- It verifies. -/
theorem verify_lonePacket {s : Bytes} (hs : s ≠ []) :
    (verifyWitnessPacket H (lonePacket H s)).outcome = .ok true := by
  refine HashPy.outcome_eq_ok_iff.mpr ⟨_, verifyWitnessPacket_returns_true_iff.mpr
    ⟨⟨0, ?_⟩, rfl, rfl, verifyProof_loneProof H hs 0 onesDigest⟩⟩
  show splitKey (joinKey s 0) = .ok ((joinKey s 0).dropLast, 0)
  rw [dropLast_joinKey, splitKey_joinKey hs]

/-- It can be written. -/
theorem encodable_lonePacket {s : Bytes} (hs : s.length ≤ 257) :
    PacketEncodable (lonePacket H s) ∧
      (packetBytes (lonePacket H s)).length + 32 ≤ maxPacketWireBytes := by
  have hpos : ∀ n, (0 : ℤ) < 256 ^ n := fun n => by positivity
  have hproof : ProofEncodable (loneProof s 0 onesDigest) := by
    refine ⟨rfl, length_stemBytes _, rfl, fun b hb => absurd hb List.not_mem_nil,
      length_of_mem_stemBytes, fun σ hσ => absurd hσ List.not_mem_nil, ?_, Nat.zero_lt_succ _⟩
    show (joinKey s 0).length ≤ _
    rw [length_joinKey]
    omega
  have hblob : (proofBlobBytes (loneProof s 0 onesDigest)).length = 8232 + (s.length + 1) := by
    rw [length_proofBlobBytes hproof]
    show 8232 + (joinKey s 0).length = _
    rw [length_joinKey]
  have hdrop : (joinKey s 0).dropLast.length = s.length := by rw [dropLast_joinKey]
  have henc : PacketEncodable (lonePacket H s) := by
    refine ⟨BytesN.length_val _, rfl, le_refl 0, hpos 8, le_refl 0, hpos 8, le_refl 0, hpos 4,
      ?_, ?_, hproof, ?_⟩
    · show (joinKey s 0).dropLast.length ≤ _
      omega
    · exact hproof.key_length
    · show (proofBlobBytes (loneProof s 0 onesDigest)).length ≤ _
      omega
  refine ⟨henc, ?_⟩
  rw [length_packetBytes henc, maxPacketWireBytes]
  show 93 + (joinKey s 0).dropLast.length + (joinKey s 0).length +
    (proofBlobBytes (loneProof s 0 onesDigest)).length + 32 ≤ 262144
  rw [hdrop, length_joinKey, hblob]
  omega

/-- It is emitted. -/
theorem make_lonePacket {s : Bytes} (hs : s.length ≤ 257) :
    (makeEthGetStemWitnessResult H "provider" (zeroBytes 32) (lonePacket H s)).outcome =
      .ok (stemWitnessPayload "provider" (zeroBytes 32) (lonePacket H s)
        (packetWire H (lonePacket H s))) := by
  obtain ⟨henc, hlen⟩ := encodable_lonePacket (H := H) hs
  exact HashPy.outcome_eq_ok_iff.mpr ⟨_, makeEthGetStemWitnessResult_returns_iff.mpr
    ⟨by decide, length_zeroBytes 32, henc, hlen, rfl, rfl⟩⟩

/-- A stem prefix of one byte. -/
theorem readBack_iff_limits_short :
    (parseEthGetStemWitnessResult (fun _ => emptyValue)
        (stemWitnessPayload "provider" (zeroBytes 32) (lonePacket (fun _ => emptyValue) [7])
          (packetWire (fun _ => emptyValue) (lonePacket (fun _ => emptyValue) [7])))).outcome =
      .ok ⟨"provider", 0, zeroBytes 32, emptyValue.val, lonePacket (fun _ => emptyValue) [7]⟩ :=
  (readBack_iff_limits _ "provider" (zeroBytes 32) _ _ (verify_lonePacket (by simp))
    (make_lonePacket (by simp))).mpr ⟨by decide, by decide⟩

/-- A stem prefix of 257 bytes: the packet verifies and is emitted, and is not read back. -/
theorem not_readBack_longPrefix :
    (verifyWitnessPacket (fun _ => emptyValue)
        (lonePacket (fun _ => emptyValue) (zeroBytes 257))).outcome = .ok true ∧
    ∃ payload, (makeEthGetStemWitnessResult (fun _ => emptyValue) "provider" (zeroBytes 32)
        (lonePacket (fun _ => emptyValue) (zeroBytes 257))).outcome = .ok payload ∧
      (parseEthGetStemWitnessResult (fun _ => emptyValue) payload).outcome ≠
        .ok ⟨"provider", 0, zeroBytes 32, emptyValue.val,
          lonePacket (fun _ => emptyValue) (zeroBytes 257)⟩ := by
  have hlength : (zeroBytes 257).length = 257 := length_zeroBytes 257
  have hs : zeroBytes 257 ≠ [] := List.ne_nil_of_length_pos (by rw [hlength]; norm_num)
  have hmake := make_lonePacket (H := fun _ => emptyValue) (le_of_eq hlength)
  refine ⟨verify_lonePacket hs, _, hmake, fun hparse => ?_⟩
  obtain ⟨qs, hreturns⟩ := HashPy.outcome_eq_ok_iff.mp hmake
  obtain ⟨hprovider, hhash, henc, hlen, -⟩ := makeEthGetStemWitnessResult_returns_iff.mp hreturns
  have hlimits := (parse_outcome_eq_iff hprovider hhash henc hlen).mp hparse
  have hprefix := hlimits.stemPrefix_length
  rw [show (lonePacket (fun _ => emptyValue) (zeroBytes 257)).stemPrefix =
    (joinKey (zeroBytes 257) 0).dropLast from rfl, dropLast_joinKey, hlength] at hprefix
  exact absurd hprefix (by decide)

end Pbt
