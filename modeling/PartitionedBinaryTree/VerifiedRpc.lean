/-
# Verified RPC payloads (`pbt/verified_rpc.py`)

Parsers, writers and local verification of the result objects of
`eth_getVerifiedProof` and `eth_getStemWitness`.  A payload is an arbitrary JSON
value: the parsers check types, prefixes, widths, counts and the agreement of
the fields, and raise `ValueError` with the texts of the source.
-/
import PartitionedBinaryTree.PyText
import PartitionedBinaryTree.StemPacket

namespace Pbt

/-! ## JSON values -/

/-- A JSON value as Python holds it.  No modelled function computes with a float, which is
kept as its bits. -/
inductive Json
  | null
  | bool (b : Bool)
  | int (n : ℤ)
  | float (bits : UInt64)
  | str (s : String)
  | list (items : List Json)
  | dict (fields : List (String × Json))
  deriving Repr

/-- The entries of a `dict`. -/
abbrev Fields := List (String × Json)

namespace Fields

/-- `name in fields`. -/
def has (fields : Fields) (name : String) : Bool := (fields.lookup name).isSome

/-- `fields.get(name)`. -/
def get (fields : Fields) (name : String) : Json := (fields.lookup name).getD .null

end Fields

/-- `value == text` for a `str` on the right. -/
def Json.isStr (value : Json) (text : String) : Bool :=
  match value with
  | .str s => s == text
  | _ => false

/-- The value of an `int` that is no `bool`. -/
def Json.asInt : Json → Option ℤ
  | .int n => some n
  | _ => none

/-! ## Constants -/

/-- `METHOD_GET_VERIFIED_PROOF`. -/
def methodGetVerifiedProof : String := "eth_getVerifiedProof"

/-- `METHOD_GET_STEM_WITNESS`. -/
def methodGetStemWitness : String := "eth_getStemWitness"

/-- `WIRE_VERSION`. -/
def wireVersion : String := "pbt-verified-rpc-v1"

/-- `JSONRPC_VERSION`. -/
def jsonrpcVersion : String := "2.0"

/-- `MAX_PROOF_PATH_LENGTH`. -/
def maxProofPathLength : ℕ := 4096

/-- `MAX_U64`. -/
def maxU64 : ℤ := 2 ^ 64 - 1

/-! ## Fields of a payload -/

/-- `_bytes_to_hex`. -/
def bytesToHex (data : Bytes) : String := String.ofList ('0' :: 'x' :: bytesHex data)

/-- `_hex_to_bytes`. -/
def hexToBytes (value : Json) (fieldName : String) (maxBytes : Option ℕ) : Py Bytes :=
  match value with
  | .str text =>
      match text.toList with
      | '0' :: 'x' :: body => do
          raiseIf (body.length % 2 ≠ 0) (fieldName ++ " has odd-length hex body")
          raiseIf (maxBytes.any (body.length / 2 > ·))
            (fieldName ++ " exceeds maximum supported byte length")
          match bytesFromHex body with
          | some data => pure data
          | none => raiseValueError (fieldName ++ " is not valid hex")
      | _ => raiseValueError (fieldName ++ " must start with 0x")
  | _ => raiseValueError (fieldName ++ " must be a hex string")

/-- `_require_len`. -/
def requireLen (value : Bytes) (expected : ℕ) (fieldName : String) : Py Unit :=
  raiseIf (value.length ≠ expected)
    (fieldName ++ " must be " ++ toString expected ++ " bytes, got " ++ toString value.length)

theorem requireLen_eq_ok_iff {value : Bytes} {n : ℕ} {name : String} {u : Unit} :
    requireLen value n name = .ok u ↔ value.length = n := by
  rw [requireLen, raiseIf_eq_ok_iff, not_not]

/-- The loop of width checks passes when every width is right. -/
theorem forM_requireLen_eq_ok_iff {values : List Bytes} {n : ℕ} {name : String} {u : Unit} :
    values.forM (requireLen · n name) = .ok u ↔ ∀ v ∈ values, v.length = n := by
  simp only [requireLen, forM_raiseIf_eq_ok_iff, not_not]

/-- `_u64_hex`. -/
def u64Hex (value : ℤ) : Py String := do
  raiseIf (value < 0 ∨ value > maxU64) "numeric field must fit in u64"
  pure (String.ofList ('0' :: 'x' :: hexInt value.toNat))

/-- `_parse_u64_hex`. -/
def parseU64Hex (value : Json) (fieldName : String) : Py ℤ :=
  match value with
  | .str text =>
      match text.toList with
      | '0' :: 'x' :: body =>
          match intBase16 ('0' :: 'x' :: body) with
          | some parsed => do
              raiseIf (parsed < 0) (fieldName ++ " must be non-negative")
              raiseIf (parsed > maxU64) (fieldName ++ " exceeds u64 range")
              pure parsed
          | none => raiseValueError (fieldName ++ " must be a valid hex integer")
      | _ => raiseValueError (fieldName ++ " must start with 0x")
  | _ => raiseValueError (fieldName ++ " must be a hex string")

/-- `if not isinstance(value, dict): raise ValueError(message)`. -/
def expectDict (value : Json) (message : String) : Py Fields :=
  match value with
  | .dict fields => .ok fields
  | _ => raiseValueError message

/-- `if not isinstance(value, list): raise ValueError(message)`. -/
def expectList (value : Json) (message : String) : Py (List Json) :=
  match value with
  | .list items => .ok items
  | _ => raiseValueError message

/-- The check of the `provider` field: a non-empty string. -/
def expectProvider (value : Json) : Py String :=
  match value with
  | .str provider => do
      raiseIf (provider = "") "provider must be a non-empty string"
      pure provider
  | _ => raiseValueError "provider must be a non-empty string"

/-- `if not isinstance(value, str) or not value: raise ValueError(message)`. -/
def expectText (value : Json) (message : String) : Py String :=
  match value with
  | .str text => do
      raiseIf (text = "") message
      pure text
  | _ => raiseValueError message

theorem expectText_eq_ok_iff {value : Json} {message text : String} :
    expectText value message = .ok text ↔ value = .str text ∧ text ≠ "" := by
  cases value with
  | str text' =>
      simp only [expectText, py_bind_eq_ok_iff, raiseIf_eq_ok_iff, exists_const, pure, Except.pure,
        Except.ok.injEq, Json.str.injEq]
      constructor
      · rintro ⟨hne, rfl⟩
        exact ⟨rfl, hne⟩
      · rintro ⟨rfl, hne⟩
        exact ⟨hne, rfl⟩
  | _ => exact iff_of_false (by simp [expectText, raiseValueError]) (by simp)

/-! ## The envelope -/

/-- `_validate_jsonrpc_id`. -/
def validateJsonrpcId (requestId : Json) (fieldName : String) : Py Unit :=
  match requestId with
  | .null => .ok ()
  | .int _ => .ok ()
  | .str _ => .ok ()
  | _ => raiseValueError (fieldName ++ " must be string, integer, or null")

/-- The text of an integer error code; a `bool` is an `int` for `isinstance`.  The
interpreter's limit on the digits of a number in a text is not modelled. -/
def codeText : Json → Option String
  | .int n => some (toString n)
  | .bool b => some (if b then "True" else "False")
  | _ => none

/-- The `error` branch of `_extract_result_object`, which always raises. -/
def raiseRpcError (error : Json) : Py Json := do
  let fields ← expectDict error "error must be an object"
  match codeText (fields.get "code"), fields.get "message" with
  | none, _ => raiseValueError "error.code must be an integer"
  | some code, .str message =>
      if message = "" then raiseValueError "error.message must be a non-empty string"
      else raiseValueError ("rpc error " ++ code ++ ": " ++ message)
  | some _, _ => raiseValueError "error.message must be a non-empty string"

/-- The JSON-RPC 2.0 envelope path of `_extract_result_object`. -/
def envelopeResult (fields : Fields) : Py Json := do
  raiseIf (¬ (fields.get "jsonrpc").isStr jsonrpcVersion) "jsonrpc must be '2.0'"
  if fields.has "id" then validateJsonrpcId (fields.get "id") "id" else pure ()
  if fields.has "error" then raiseRpcError (fields.get "error")
  else if fields.has "result" then pure (fields.get "result")
  else raiseValueError "result must be present"

/-- The result of `_extract_result_object` before its own checks: that of the envelope, or
the payload itself when no field of an envelope is there. -/
def payloadResult (payload : Json) (fields : Fields) : Py Json :=
  if fields.has "jsonrpc" || fields.has "id" || fields.has "result" || fields.has "error" then
    envelopeResult fields
  else .ok ((fields.lookup "result").getD payload)

/-- `_extract_result_object`. -/
def extractResultObject (payload : Json) (expectedMethod : String) : Py Fields := do
  let fields ← expectDict payload "payload must be an object"
  let result ← payloadResult payload fields
  let resultFields ← expectDict result "result must be an object"
  raiseIf (¬ (resultFields.get "method").isStr expectedMethod) "unexpected method"
  pure resultFields

/-! ## Proofs as JSON -/

/-- `_proof_to_json_dict`. -/
def proofToJsonDict (proof : MerkleProof) : Json :=
  .dict [("key", .str (bytesToHex proof.key)),
    ("value", .str (bytesToHex proof.value)),
    ("stemValues", .list (proof.stemValues.map fun v => .str (bytesToHex v))),
    ("pathSiblings", .list (proof.pathSiblings.map fun s => .str (bytesToHex s))),
    ("pathBits", .list (proof.pathBits.map .int))]

/-- `_proof_from_json_dict`. -/
def proofFromJsonDict (data : Json) : Py MerkleProof := do
  let fields ← expectDict data "proof must be an object"
  let key ← hexToBytes (fields.get "key") "proof.key" none
  let value ← hexToBytes (fields.get "value") "proof.value" none
  requireLen value 32 "proof.value"
  let stemValuesRaw ← expectList (fields.get "stemValues") "proof.stemValues must be a list"
  raiseIf (stemValuesRaw.length ≠ stemSubtreeWidth) "proof.stemValues must contain 256 entries"
  let stemValues ← stemValuesRaw.mapM (hexToBytes · "proof.stemValues[]" none)
  stemValues.forM (requireLen · 32 "proof.stemValues[]")
  let pathSiblingsRaw ← expectList (fields.get "pathSiblings") "proof.pathSiblings must be a list"
  raiseIf (pathSiblingsRaw.length > maxProofPathLength)
    "proof.pathSiblings exceeds maximum supported path length"
  let pathSiblings ← pathSiblingsRaw.mapM (hexToBytes · "proof.pathSiblings[]" none)
  pathSiblings.forM (requireLen · 32 "proof.pathSiblings[]")
  let pathBitsRaw ← expectList (fields.get "pathBits") "proof.pathBits must be a list"
  raiseIf (pathBitsRaw.length > maxProofPathLength)
    "proof.pathBits exceeds maximum supported path length"
  raiseIf (pathBitsRaw.length ≠ pathSiblingsRaw.length)
    "proof.pathBits length must match proof.pathSiblings length"
  raiseIf (pathBitsRaw.any (·.asInt.isNone)) "proof.pathBits entries must be integers"
  raiseIf (∃ bit ∈ pathBitsRaw.filterMap Json.asInt, ¬ (bit = 0 ∨ bit = 1))
    "proof.pathBits entries must be 0 or 1"
  pure {
    key := key
    value := value
    stemValues := stemValues
    pathSiblings := pathSiblings
    pathBits := pathBitsRaw.filterMap Json.asInt }

/-! ## `eth_getVerifiedProof` -/

/-- `LocalVerificationResult`. -/
structure LocalVerificationResult where
  accepted : Bool
  reason : String
  deriving DecidableEq, Repr

/-- `VerifiedProofRpcResult`. -/
structure VerifiedProofRpcResult where
  provider : String
  blockNumber : ℤ
  blockHash : Bytes
  stateRoot : Bytes
  key : Bytes
  value : Bytes
  proof : MerkleProof
  deriving DecidableEq, Repr

/-- `make_eth_getVerifiedProof_result`. -/
def makeEthGetVerifiedProofResult (provider : String) (blockNumber : ℤ)
    (blockHash stateRoot key value : Bytes) (proof : MerkleProof) : Py Json := do
  raiseIf (provider = "") "provider must be a non-empty string"
  requireLen blockHash 32 "block_hash"
  requireLen stateRoot 32 "state_root"
  requireLen value 32 "value"
  let number ← u64Hex blockNumber
  pure (.dict [("version", .str wireVersion),
    ("method", .str methodGetVerifiedProof),
    ("provider", .str provider),
    ("block", .dict [("number", .str number),
      ("hash", .str (bytesToHex blockHash)),
      ("stateRoot", .str (bytesToHex stateRoot))]),
    ("state", .dict [("key", .str (bytesToHex key)),
      ("value", .str (bytesToHex value))]),
    ("proof", proofToJsonDict proof)])

/-- `parse_eth_getVerifiedProof_result`. -/
def parseEthGetVerifiedProofResult (payload : Json) : Py VerifiedProofRpcResult := do
  let result ← extractResultObject payload methodGetVerifiedProof
  raiseIf (¬ (result.get "version").isStr wireVersion) "unsupported version"
  let provider ← expectProvider (result.get "provider")
  let block ← expectDict (result.get "block") "block must be an object"
  let state ← expectDict (result.get "state") "state must be an object"
  let blockNumber ← parseU64Hex (block.get "number") "block.number"
  let blockHash ← hexToBytes (block.get "hash") "block.hash" none
  let stateRoot ← hexToBytes (block.get "stateRoot") "block.stateRoot" none
  let key ← hexToBytes (state.get "key") "state.key" none
  let value ← hexToBytes (state.get "value") "state.value" none
  requireLen blockHash 32 "block.hash"
  requireLen stateRoot 32 "block.stateRoot"
  requireLen value 32 "state.value"
  let proof ← proofFromJsonDict (result.get "proof")
  raiseIf (proof.key ≠ key) "proof.key != state.key"
  raiseIf (proof.value ≠ value) "proof.value != state.value"
  pure {
    provider := provider
    blockNumber := blockNumber
    blockHash := blockHash
    stateRoot := stateRoot
    key := key
    value := value
    proof := proof }

/-- `try: parsed = parse(payload) except ValueError as exc: …`, and the rest of the call. -/
def withParsed {α : Type} (parse : HashPy α) (malformed : String)
    (verify : α → HashPy LocalVerificationResult) : HashPy LocalVerificationResult :=
  ExceptT.mk do
    match (← parse.run) with
    | .ok parsed => (verify parsed).run
    | .error e =>
        if e.exc = .valueError then pure (.ok ⟨false, malformed ++ e.message⟩)
        else pure (.error e)

/-- `verify_eth_getVerifiedProof_result`. -/
def verifyEthGetVerifiedProofResult (H : HashFunction) (payload : Json)
    (expectedStateRoot : Option Bytes) : HashPy LocalVerificationResult :=
  withParsed (.ofPy (parseEthGetVerifiedProofResult payload))
    "malformed verified proof payload: " fun parsed => do
      if expectedStateRoot.any (parsed.stateRoot ≠ ·) then
        pure ⟨false, "state root is not locally trusted"⟩
      else do
        let valid ← HashPy.ofPyHash (verifyProof H parsed.stateRoot parsed.proof)
        if valid then pure ⟨true, "verified proof locally accepted"⟩
        else pure ⟨false, "proof verification failed"⟩

/-! ## `eth_getStemWitness` -/

/-- `StemWitnessRpcResult`. -/
structure StemWitnessRpcResult where
  provider : String
  blockNumber : ℤ
  blockHash : Bytes
  stateRoot : Bytes
  packet : StemWitnessPacket
  deriving DecidableEq, Repr

/-- `make_eth_getStemWitness_result`. -/
def makeEthGetStemWitnessResult (H : HashFunction) (provider : String) (blockHash : Bytes)
    (packet : StemWitnessPacket) : HashPy Json := do
  HashPy.ofPy (raiseIf (provider = "") "provider must be a non-empty string")
  HashPy.ofPy (requireLen blockHash 32 "block_hash")
  let packetWire ← encodeStemWitnessPacketV1 H packet
  HashPy.ofPy (raiseIf (packetWire.length > maxPacketWireBytes)
    "packet wire exceeds maximum supported byte length")
  let number ← HashPy.ofPy (u64Hex packet.blockNumber)
  pure (.dict [("version", .str wireVersion),
    ("method", .str methodGetStemWitness),
    ("provider", .str provider),
    ("block", .dict [("number", .str number),
      ("hash", .str (bytesToHex blockHash)),
      ("stateRoot", .str (bytesToHex packet.blockRoot))]),
    ("stemWitness", .dict [("packetWire", .str (bytesToHex packetWire))])])

/-- The fields of `parse_eth_getStemWitness_result` in front of the packet: provider, block
number, block hash, state root, and the packet's wire form. -/
def parseStemWitnessFields (payload : Json) : Py (String × ℤ × Bytes × Bytes × Bytes) := do
  let result ← extractResultObject payload methodGetStemWitness
  raiseIf (¬ (result.get "version").isStr wireVersion) "unsupported version"
  let provider ← expectProvider (result.get "provider")
  let block ← expectDict (result.get "block") "block must be an object"
  let stemWitness ← expectDict (result.get "stemWitness") "stemWitness must be an object"
  let blockNumber ← parseU64Hex (block.get "number") "block.number"
  let blockHash ← hexToBytes (block.get "hash") "block.hash" none
  let stateRoot ← hexToBytes (block.get "stateRoot") "block.stateRoot" none
  let packetWire ← hexToBytes (stemWitness.get "packetWire") "stemWitness.packetWire"
    (some maxPacketWireBytes)
  requireLen blockHash 32 "block.hash"
  requireLen stateRoot 32 "block.stateRoot"
  pure (provider, blockNumber, blockHash, stateRoot, packetWire)

/-- `parse_eth_getStemWitness_result`. -/
def parseEthGetStemWitnessResult (H : HashFunction) (payload : Json) :
    HashPy StemWitnessRpcResult := do
  let (provider, blockNumber, blockHash, stateRoot, packetWire) ←
    HashPy.ofPy (parseStemWitnessFields payload)
  let packet ← decodeStemWitnessPacketV1 H packetWire
  HashPy.ofPy (raiseIf (packet.blockNumber ≠ blockNumber) "packet.block_number != block.number")
  HashPy.ofPy (raiseIf (packet.blockRoot ≠ stateRoot) "packet.block_root != block.stateRoot")
  pure {
    provider := provider
    blockNumber := blockNumber
    blockHash := blockHash
    stateRoot := stateRoot
    packet := packet }

/-- `verify_eth_getStemWitness_result`. -/
def verifyEthGetStemWitnessResult (H : HashFunction) (payload : Json)
    (expectedStateRoot : Option Bytes) : HashPy LocalVerificationResult :=
  withParsed (parseEthGetStemWitnessResult H payload)
    "malformed stem witness payload: " fun parsed => do
      if expectedStateRoot.any (parsed.stateRoot ≠ ·) then
        pure ⟨false, "state root is not locally trusted"⟩
      else do
        let valid ← verifyWitnessPacket H parsed.packet
        if valid then pure ⟨true, "stem witness locally accepted"⟩
        else pure ⟨false, "stem witness verification failed"⟩

/-! ## `dict(value)` -/

/-- Whether the value can be the key of a `dict`. -/
def Json.hashable : Json → Bool
  | .list _ => false
  | .dict _ => false
  | _ => true

/-- `type(value).__name__`. -/
def Json.typeName : Json → String
  | .null => "NoneType"
  | .bool _ => "bool"
  | .int _ => "int"
  | .float _ => "float"
  | .str _ => "str"
  | .list _ => "list"
  | .dict _ => "dict"

/-- What iterating over a value gives: characters, items or keys. -/
def Json.iterate : Json → Option (List Json)
  | .str text => some (text.toList.map fun c => .str (String.singleton c))
  | .list items => some items
  | .dict fields => some (fields.map fun entry => .str entry.1)
  | _ => none

/-- `fields[name] = value`: overwritten where the name stands, or added at the end. -/
def Fields.setItem (fields : Fields) (name : String) (value : Json) : Fields :=
  if fields.has name then
    fields.map fun entry => if entry.1 = name then (name, value) else entry
  else fields ++ [(name, value)]

/-- One item of the iterable that `dict` is called with: a key and its value. -/
def dictItem (index : ℕ) (item : Json) : Py (Json × Json) :=
  match item.iterate with
  | none => raiseTypeError ("cannot convert dictionary update sequence element #" ++
      toString index ++ " to a sequence")
  | some [key, value] =>
      if key.hashable then .ok (key, value)
      else raiseTypeError ("unhashable type: '" ++ key.typeName ++ "'")
  | some parts => raiseValueError ("dictionary update sequence element #" ++ toString index ++
      " has length " ++ toString parts.length ++ "; 2 is required")

/-- The items that `dict` is called with, from `index` on.  A key that is no string is never
looked up, and not kept. -/
def dictItems : ℕ → Fields → List Json → Py Fields
  | _, fields, [] => .ok fields
  | index, fields, item :: items => do
      let (key, value) ← dictItem index item
      match key with
      | .str name => dictItems (index + 1) (fields.setItem name value) items
      | _ => dictItems (index + 1) fields items

/-- `dict(value)`. -/
def pyDict (value : Json) : Py Fields :=
  match value with
  | .dict fields => .ok fields
  | value =>
      match value.iterate with
      | none => raiseTypeError ("'" ++ value.typeName ++ "' object is not iterable")
      | some items => dictItems 0 [] items

/-! ## Aliases -/

/-- The payload of an alias endpoint under the given method, as its `parse` and its `verify`
build it. -/
def aliasPayload (payload : Json) (method : String) : Py Json := do
  let copied ← pyDict payload
  match (copied.lookup "result").getD (.dict copied) with
  | .dict resultObj =>
      let copiedResult := Fields.setItem resultObj "method" (.str method)
      if copied.has "result" then pure (.dict (copied.setItem "result" (.dict copiedResult)))
      else pure (.dict copiedResult)
  | _ => pure (.dict copied)

/-- `parse_eth_getVerifiedState_result`. -/
def parseEthGetVerifiedStateResult (payload : Json) : Py VerifiedProofRpcResult := do
  let copied ← aliasPayload payload methodGetVerifiedProof
  parseEthGetVerifiedProofResult copied

/-- `verify_eth_getVerifiedState_result`. -/
def verifyEthGetVerifiedStateResult (H : HashFunction) (payload : Json)
    (expectedStateRoot : Option Bytes) : HashPy LocalVerificationResult := do
  let copied ← HashPy.ofPy (aliasPayload payload methodGetVerifiedProof)
  verifyEthGetVerifiedProofResult H copied expectedStateRoot

/-- `parse_eth_getStemProof_result`. -/
def parseEthGetStemProofResult (H : HashFunction) (payload : Json) :
    HashPy StemWitnessRpcResult := do
  let copied ← HashPy.ofPy (aliasPayload payload methodGetStemWitness)
  parseEthGetStemWitnessResult H copied

/-- `verify_eth_getStemProof_result`. -/
def verifyEthGetStemProofResult (H : HashFunction) (payload : Json)
    (expectedStateRoot : Option Bytes) : HashPy LocalVerificationResult := do
  let copied ← HashPy.ofPy (aliasPayload payload methodGetStemWitness)
  verifyEthGetStemWitnessResult H copied expectedStateRoot

/-! ## What a verification has done -/

/-- A call whose payload parses goes on to verify it. -/
theorem withParsed_returns {α : Type} {parse : HashPy α} {malformed : String}
    {verify : α → HashPy LocalVerificationResult} {parsed : α} {res : LocalVerificationResult}
    {qs₁ qs₂ : List Bytes} (hparse : parse.Returns parsed qs₁)
    (hverify : (verify parsed).Returns res qs₂) :
    (withParsed parse malformed verify).Returns res (qs₁ ++ qs₂) := by
  unfold HashPy.Returns at hparse hverify
  unfold withParsed HashPy.Returns
  rw [ExceptT.run_mk, hparse]
  show Logged.mk (verify parsed).run.val (qs₁ ++ (verify parsed).run.queries) = _
  rw [hverify]

/-- An accepted call has parsed its payload and verified what it parsed. -/
theorem returns_withParsed {α : Type} {parse : HashPy α} {malformed : String}
    {verify : α → HashPy LocalVerificationResult} {res : LocalVerificationResult}
    {qs : List Bytes} (h : (withParsed parse malformed verify).Returns res qs)
    (hacc : res.accepted = true) :
    ∃ parsed qs₁ qs₂, parse.Returns parsed qs₁ ∧ (verify parsed).Returns res qs₂ ∧
      qs = qs₁ ++ qs₂ := by
  unfold withParsed HashPy.Returns at h
  simp only [ExceptT.run_mk] at h
  rcases hparse : parse.run with ⟨outcome, qs₁⟩
  rw [hparse] at h
  cases outcome with
  | ok parsed =>
      refine ⟨parsed, qs₁, (verify parsed).run.queries, hparse, ?_, ?_⟩
      · have hval : (verify parsed).run.val = .ok res := congrArg Logged.val h
        rw [HashPy.Returns, ← hval]
      · exact (congrArg Logged.queries h).symm
  | error e =>
      have hval := congrArg Logged.val h
      simp only [Logged.val_bind] at hval
      split_ifs at hval
      cases hval
      cases hacc

/-- An accepted verification has found the expected root, and its check returned `True`. -/
theorem returns_check_of_accepted {root expected : Bytes} {check : HashPy Bool}
    {untrusted passed failed : String} {res : LocalVerificationResult} {qs : List Bytes}
    (h : (if (some expected).any (root ≠ ·) then pure ⟨false, untrusted⟩
      else do
        let valid ← check
        if valid then pure ⟨true, passed⟩ else pure ⟨false, failed⟩ :
          HashPy LocalVerificationResult).Returns res qs)
    (hacc : res.accepted = true) : root = expected ∧ check.Returns true qs := by
  split_ifs at h with hroot
  · -- another root than the expected one is refused
    obtain ⟨rfl, -⟩ := HashPy.returns_pure_iff.mp h
    cases hacc
  · obtain ⟨valid, qs₁, qs₂, hvalid, hpure, rfl⟩ := HashPy.returns_bind_iff.mp h
    split_ifs at hpure with htrue
    · obtain ⟨-, rfl⟩ := HashPy.returns_pure_iff.mp hpure
      rw [htrue] at hvalid
      rw [List.append_nil]
      exact ⟨by simpa using hroot, hvalid⟩
    · obtain ⟨rfl, -⟩ := HashPy.returns_pure_iff.mp hpure
      cases hacc

end Pbt
