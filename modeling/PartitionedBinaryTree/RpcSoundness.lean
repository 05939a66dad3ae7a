/-
# Soundness of the verified RPC

An accepted payload tells the truth about the tree behind the expected root,
whatever it contains: each parser leaves a proof with fixed widths whose key and
value are those it returns, which is what `verifyProof_sound` asks for.
-/
import PartitionedBinaryTree.HonestProvider

namespace Pbt

variable {H : HashFunction}

/-! ## What the parsers enforce -/

/-- **What `_proof_from_json_dict` enforces**: 256 values and siblings of 32 bytes, and as
many bits as siblings, each `0` or `1`. -/
theorem proofFromJsonDict_widths {data : Json} {p : MerkleProof}
    (h : proofFromJsonDict data = .ok p) :
    p.value.length = 32 ∧ p.stemValues.length = stemSubtreeWidth ∧
    (∀ v ∈ p.stemValues, v.length = 32) ∧ (∀ σ ∈ p.pathSiblings, σ.length = 32) ∧
    (∀ b ∈ p.pathBits, b = 0 ∨ b = 1) := by
  simp only [proofFromJsonDict, py_bind_eq_ok_iff, raiseIf_eq_ok_iff, requireLen_eq_ok_iff,
    forM_requireLen_eq_ok_iff, mapM_eq_ok_iff, exists_const, not_not, not_exists, not_and, pure,
    Except.pure, Except.ok.injEq] at h
  obtain ⟨fields, -, key, -, value, -, hvalue, valuesRaw, -, hn, values, hvalues, hwidths,
    siblingsRaw, -, -, siblings, -, hsiblings, bitsRaw, -, -, -, -, hbits, rfl⟩ := h
  exact ⟨hvalue, by rw [← hvalues.length_eq, hn], hwidths, hsiblings, hbits⟩

/-- **What `parse_eth_getVerifiedProof_result` enforces**: the widths of the proof, and that
it returns the key and the value of the proof. -/
theorem parseEthGetVerifiedProofResult_spec {payload : Json} {r : VerifiedProofRpcResult}
    (h : parseEthGetVerifiedProofResult payload = .ok r) :
    r.proof.key = r.key ∧ r.proof.value = r.value ∧ (∀ v ∈ r.proof.stemValues, v.length = 32) ∧
    ∀ σ ∈ r.proof.pathSiblings, σ.length = 32 := by
  simp only [parseEthGetVerifiedProofResult, py_bind_eq_ok_iff, raiseIf_eq_ok_iff,
    requireLen_eq_ok_iff, exists_const, not_not, pure, Except.pure, Except.ok.injEq] at h
  obtain ⟨result, -, -, provider, -, block, -, state, -, number, -, hash, -, root, -, key, -, value,
    -, -, -, -, proof, hproof, hkey, hvalue, rfl⟩ := h
  obtain ⟨-, -, hvalues, hsiblings, -⟩ := proofFromJsonDict_widths hproof
  exact ⟨hkey, hvalue, hvalues, hsiblings⟩

/-- What `parse_eth_getStemWitness_result` enforces: its packet is decoded, and carries the
announced state root. -/
theorem parseEthGetStemWitnessResult_spec {payload : Json} {r : StemWitnessRpcResult}
    {qs : List Bytes} (h : (parseEthGetStemWitnessResult H payload).Returns r qs) :
    r.packet.blockRoot = r.stateRoot ∧
    ∃ wire, (decodeStemWitnessPacketV1 H wire).Returns r.packet qs := by
  simp only [parseEthGetStemWitnessResult, HashPy.returns_bind_iff, HashPy.returns_ofPy_iff,
    HashPy.returns_pure_iff, raiseIf_eq_ok_iff, not_not, Prod.exists] at h
  obtain ⟨provider, number, hash, root, wire, qs₁, qs₂, ⟨-, rfl⟩, ⟨packet, qs₃, qs₄, hpacket,
    ⟨-, qs₅, qs₆, ⟨-, rfl⟩, ⟨-, qs₇, qs₈, ⟨hroot, rfl⟩, ⟨rfl, rfl⟩, rfl⟩, rfl⟩, rfl⟩, rfl⟩ := h
  refine ⟨hroot, wire, ?_⟩
  simpa using hpacket

/-! ## Soundness -/

/-- An accepted `eth_getVerifiedProof` payload returns a committed value. -/
theorem verifiedProof_sound {t : Node} (ht : Reachable t) {payload : Json}
    {res : LocalVerificationResult} {qs : List Bytes}
    (h : (verifyEthGetVerifiedProofResult H payload
      (some (rootHash H t).val.val)).Returns res qs) (hacc : res.accepted = true) :
    ∃ r, parseEthGetVerifiedProofResult payload = .ok r ∧
      (Holds t r.key r.value ∨ Collision H ((rootHash H t).queries ++ qs)) := by
  obtain ⟨r, qs₁, qs₂, hcall, hverify, rfl⟩ := returns_withParsed h hacc
  obtain ⟨hparse, rfl⟩ := HashPy.returns_ofPy_iff.mp hcall
  obtain ⟨hkey, hvalue, hvalues, hsiblings⟩ := parseEthGetVerifiedProofResult_spec hparse
  refine ⟨r, hparse, ?_⟩
  rw [← hkey, ← hvalue]
  obtain ⟨hroot, hvalid⟩ := returns_check_of_accepted hverify hacc
  rw [HashPy.returns_ofPyHash_iff, hroot] at hvalid
  rw [List.nil_append]
  exact soundAt_of_widths ht hvalues (fun σ hσ => by rw [hsiblings σ hσ]; norm_num) _ hvalid rfl

/-- An accepted `eth_getStemWitness` payload returns a packet with a committed value and the
whole stem of its key. -/
theorem stemWitness_sound {t : Node} (ht : Reachable t) {payload : Json}
    {res : LocalVerificationResult} {qs : List Bytes}
    (h : (verifyEthGetStemWitnessResult H payload
      (some (rootHash H t).val.val)).Returns res qs) (hacc : res.accepted = true) :
    ∃ r qs', (parseEthGetStemWitnessResult H payload).Returns r qs' ∧
      ((Holds t r.packet.key r.packet.value ∧ ∃ i vs,
          splitKey r.packet.key = .ok (r.packet.stemPrefix, i) ∧
          storedStem t r.packet.stemPrefix = some vs ∧
          r.packet.proof.stemValues = stemBytes vs) ∨
        Collision H ((rootHash H t).queries ++ qs)) := by
  obtain ⟨r, qs₁, qs₂, hparse, hverify, rfl⟩ := returns_withParsed h hacc
  obtain ⟨hblockRoot, wire, hdecode⟩ := parseEthGetStemWitnessResult_spec hparse
  -- a decoded packet is an encodable one, which fixes the widths of its proof
  have henc := (encodeStemWitnessPacketV1_returns_iff.mp
    (decodeStemWitnessPacketV1_returns_iff.mp hdecode).2).1.proof_encodable
  refine ⟨r, qs₁, hparse, ?_⟩
  obtain ⟨hroot, hvalid⟩ := returns_check_of_accepted hverify hacc
  obtain ⟨⟨i, hsplit⟩, hkey, hvalue, hproof⟩ := verifyWitnessPacket_returns_true_iff.mp hvalid
  rw [hblockRoot, hroot] at hproof
  obtain ⟨s, j, vs, hsplit', hstem, hvalues, hslot⟩ | hcol := verifyProof_sound ht hproof rfl
    henc.stemValues_width fun σ hσ => by rw [henc.siblings_width σ hσ]; norm_num
  · -- the packet's stem prefix is the one its key splits into
    rw [hkey, hsplit] at hsplit'
    cases hsplit'
    refine Or.inl ⟨?_, i, vs, hsplit, hstem, hvalues⟩
    rw [← hvalue, hslot]
    exact holds_of_storedStem hsplit hstem
  · exact Or.inr (hcol.mono_append (List.Subset.refl _) (List.subset_append_right _ _))

/-- **Soundness of the verified RPC.**  For every reachable tree, every JSON value and the
tree's root as the expected one: what an accepted `eth_getVerifiedProof` payload parses to has
the committed value, and what an accepted `eth_getStemWitness` payload parses to has the
committed value and the 256 values of its key's stem, unless two strings hashed for the root
or by the call collide. -/
theorem verifiedRpc_sound (H : HashFunction) (ops : List TreeOp) (payload : Json)
    (res : LocalVerificationResult) (qs : List Bytes) (hacc : res.accepted = true) :
    ((verifyEthGetVerifiedProofResult H payload
        (some (rootHash H (run ops)).val.val)).Returns res qs →
      ∃ r, parseEthGetVerifiedProofResult payload = .ok r ∧
        (Holds (run ops) r.key r.value ∨ Collision H ((rootHash H (run ops)).queries ++ qs))) ∧
    ((verifyEthGetStemWitnessResult H payload
        (some (rootHash H (run ops)).val.val)).Returns res qs →
      ∃ r qs', (parseEthGetStemWitnessResult H payload).Returns r qs' ∧
        ((Holds (run ops) r.packet.key r.packet.value ∧ ∃ i vs,
            splitKey r.packet.key = .ok (r.packet.stemPrefix, i) ∧
            storedStem (run ops) r.packet.stemPrefix = some vs ∧
            r.packet.proof.stemValues = stemBytes vs) ∨
          Collision H ((rootHash H (run ops)).queries ++ qs))) :=
  ⟨fun h => verifiedProof_sound ⟨ops, rfl⟩ h hacc, fun h => stemWitness_sound ⟨ops, rfl⟩ h hacc⟩

/-- What the honest provider of two stems emits for the second one is accepted at both endpoints,
and true. -/
theorem verifiedRpc_sound_pair :
    (∃ payload res qs r,
      (verifyEthGetVerifiedProofResult prefixHash payload
        (some (rootHash prefixHash (run pairOps)).val.val)).Returns res qs ∧
      res.accepted = true ∧ parseEthGetVerifiedProofResult payload = .ok r ∧
      (Holds (run pairOps) r.key r.value ∨
        Collision prefixHash ((rootHash prefixHash (run pairOps)).queries ++ qs))) ∧
    ∃ payload res qs r qs',
      (verifyEthGetStemWitnessResult prefixHash payload
        (some (rootHash prefixHash (run pairOps)).val.val)).Returns res qs ∧
      res.accepted = true ∧ (parseEthGetStemWitnessResult prefixHash payload).Returns r qs' ∧
      ((Holds (run pairOps) r.packet.key r.packet.value ∧ ∃ i vs,
          splitKey r.packet.key = .ok (r.packet.stemPrefix, i) ∧
          storedStem (run pairOps) r.packet.stemPrefix = some vs ∧
          r.packet.proof.stemValues = stemBytes vs) ∨
        Collision prefixHash ((rootHash prefixHash (run pairOps)).queries ++ qs)) := by
  obtain ⟨p, -, -, ⟨witness, -, res, qs, -, hwitness, hres⟩, payload, res', qs', -, hproof, hres'⟩ :=
    honestPacket_accepted prefixHash pairOps embeddedPrefixes_pair [128, 7] (by decide)
      (fun h => by cases h) "provider" (by decide) (zeroBytes 32) rfl 1 2 3 (by decide) (by decide)
      (by decide)
  constructor
  · obtain ⟨r, hparse, hholds⟩ :=
      (verifiedRpc_sound prefixHash pairOps payload res' qs' hres').1 hproof
    exact ⟨payload, res', qs', r, hproof, hres', hparse, hholds⟩
  · obtain ⟨r, qs'', hparse, hholds⟩ :=
      (verifiedRpc_sound prefixHash pairOps witness res qs hres).2 hwitness
    exact ⟨witness, res, qs, r, qs'', hwitness, hres, hparse, hholds⟩

end Pbt
