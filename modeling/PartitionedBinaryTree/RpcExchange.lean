/-
# Requests and responses of the verified RPC (`pbt/verified_rpc.py`)

The makers of JSON-RPC requests, responses and errors, and of the results of the
alias endpoints.  A result that no field makes an envelope is answered alike by all
endpoints when it is wrapped in one, whatever its id (`successResponse_transparent`);
what the makers write is read alike on every route (`routes_agree`); and an error
response is refused with the text of the error on all of them (`errorResponse_refused`).
Nothing compares the id of a response with that of a request.
-/
import PartitionedBinaryTree.AliasEndpoints

namespace Pbt

/-! ## JSON-RPC objects -/

/-- `make_jsonrpc_request`. -/
def makeJsonrpcRequest (method params requestId : Json) : Py Fields := do
  let methodName ← expectText method "method must be a non-empty string"
  let paramFields ← expectDict params "params must be an object"
  validateJsonrpcId requestId "id"
  pure [("jsonrpc", .str jsonrpcVersion),
    ("id", requestId),
    ("method", .str methodName),
    ("params", .dict paramFields)]

/-- `make_jsonrpc_success_response`. -/
def makeJsonrpcSuccessResponse (result requestId : Json) : Py Fields := do
  let resultFields ← expectDict result "result must be an object"
  validateJsonrpcId requestId "id"
  pure [("jsonrpc", .str jsonrpcVersion),
    ("id", requestId),
    ("result", .dict resultFields)]

/-- The `data` entry of an error object, which `None` leaves out. -/
def dataEntry (data : Json) : Py Fields :=
  match data with
  | .null => .ok []
  | .dict dataFields => .ok [("data", .dict dataFields)]
  | _ => raiseValueError "data must be an object when provided"

/-- `make_jsonrpc_error_response`; no data is `null`. -/
def makeJsonrpcErrorResponse (code message requestId data : Json) : Py Fields := do
  raiseIf ((codeText code).isNone) "code must be an integer"
  let text ← expectText message "message must be a non-empty string"
  let entry ← dataEntry data
  validateJsonrpcId requestId "id"
  pure [("jsonrpc", .str jsonrpcVersion),
    ("id", requestId),
    ("error", .dict ([("code", code), ("message", .str text)] ++ entry))]

/-! ## Requests -/

/-- A request for the object that `data` names, at the given block. -/
def makeDataRequest (method field : String) (data : Bytes) (blockTag requestId : Json) :
    Py Fields := do
  let _ ← expectText blockTag "block_tag must be a non-empty string"
  makeJsonrpcRequest (.str method)
    (.dict [(field, .str (bytesToHex data)), ("blockTag", blockTag)]) requestId

/-- `make_eth_getVerifiedProof_request`. -/
def makeEthGetVerifiedProofRequest (key : Bytes) (blockTag requestId : Json) : Py Fields :=
  makeDataRequest methodGetVerifiedProof "key" key blockTag requestId

/-- `make_eth_getStemWitness_request`. -/
def makeEthGetStemWitnessRequest (stemPrefix : Bytes) (blockTag requestId : Json) : Py Fields :=
  makeDataRequest methodGetStemWitness "stemPrefix" stemPrefix blockTag requestId

/-- `make_eth_getStemProof_request`. -/
def makeEthGetStemProofRequest (stemPrefix : Bytes) (blockTag requestId : Json) : Py Fields := do
  let request ← makeEthGetStemWitnessRequest stemPrefix blockTag requestId
  pure (request.setItem "method" (.str methodGetStemProof))

/-- `make_eth_getVerifiedState_request`. -/
def makeEthGetVerifiedStateRequest (key : Bytes) (blockTag requestId : Json) : Py Fields := do
  let request ← makeEthGetVerifiedProofRequest key blockTag requestId
  pure (request.setItem "method" (.str methodGetVerifiedState))

/-! ## Results and responses -/

/-- `value[name] = item` for a `dict`. -/
def Json.setItem (value : Json) (name : String) (item : Json) : Json :=
  match value with
  | .dict fields => .dict (Fields.setItem fields name item)
  | other => other

/-- `make_eth_getVerifiedState_result`. -/
def makeEthGetVerifiedStateResult (provider : String) (blockNumber : ℤ)
    (blockHash stateRoot key value : Bytes) (proof : MerkleProof) : Py Json := do
  let result ← makeEthGetVerifiedProofResult provider blockNumber blockHash stateRoot key value
    proof
  pure (result.setItem "method" (.str methodGetVerifiedState))

/-- `make_eth_getStemProof_result`. -/
def makeEthGetStemProofResult (H : HashFunction) (provider : String) (blockHash : Bytes)
    (packet : StemWitnessPacket) : HashPy Json := do
  let result ← makeEthGetStemWitnessResult H provider blockHash packet
  pure (result.setItem "method" (.str methodGetStemProof))

/-- `make_eth_getVerifiedProof_response`. -/
def makeEthGetVerifiedProofResponse (requestId : Json) (provider : String) (blockNumber : ℤ)
    (blockHash stateRoot key value : Bytes) (proof : MerkleProof) : Py Fields := do
  let result ← makeEthGetVerifiedProofResult provider blockNumber blockHash stateRoot key value
    proof
  makeJsonrpcSuccessResponse result requestId

/-- `make_eth_getStemWitness_response`. -/
def makeEthGetStemWitnessResponse (H : HashFunction) (requestId : Json) (provider : String)
    (blockHash : Bytes) (packet : StemWitnessPacket) : HashPy Fields := do
  let result ← makeEthGetStemWitnessResult H provider blockHash packet
  HashPy.ofPy (makeJsonrpcSuccessResponse result requestId)

/-! ## What the makers return -/

/-- The ids that the makers and the readers take. -/
def ValidId (requestId : Json) : Prop := validateJsonrpcId requestId "id" = .ok ()

theorem expectDict_eq_ok_iff {value : Json} {message : String} {fields : Fields} :
    expectDict value message = .ok fields ↔ value = .dict fields := by
  cases value with
  | dict fields' => simp [expectDict]
  | _ => exact iff_of_false (by simp [expectDict, raiseValueError]) (by simp)

/-- **The envelope of a result.** -/
theorem makeJsonrpcSuccessResponse_eq_ok_iff {result requestId : Json} {response : Fields} :
    makeJsonrpcSuccessResponse result requestId = .ok response ↔ ValidId requestId ∧
      ∃ fields, result = .dict fields ∧ response = [("jsonrpc", .str jsonrpcVersion),
        ("id", requestId), ("result", .dict fields)] := by
  simp only [makeJsonrpcSuccessResponse, py_bind_eq_ok_iff, expectDict_eq_ok_iff, pure,
    Except.pure, Except.ok.injEq]
  constructor
  · rintro ⟨fields, rfl, _, hid, rfl⟩
    exact ⟨hid, fields, rfl, rfl⟩
  · rintro ⟨hid, fields, rfl, rfl⟩
    exact ⟨fields, rfl, (), hid, rfl⟩

/-- **The envelope of an error** holds the code and the message that the error texts show. -/
theorem makeJsonrpcErrorResponse_eq_ok {code message requestId data : Json} {response : Fields}
    (h : makeJsonrpcErrorResponse code message requestId data = .ok response) :
    ValidId requestId ∧ ∃ codeShown text entry, codeText code = some codeShown ∧
      message = .str text ∧ text ≠ "" ∧ response = [("jsonrpc", .str jsonrpcVersion),
        ("id", requestId),
        ("error", .dict ([("code", code), ("message", .str text)] ++ entry))] := by
  simp only [makeJsonrpcErrorResponse, py_bind_eq_ok_iff, raiseIf_eq_ok_iff, exists_const,
    expectText_eq_ok_iff, pure, Except.pure, Except.ok.injEq] at h
  obtain ⟨hcode, text, ⟨hmessage, hne⟩, entry, -, _, hid, rfl⟩ := h
  obtain ⟨codeShown, hshown⟩ := Option.ne_none_iff_exists'.mp (by simpa using hcode)
  exact ⟨hid, codeShown, text, entry, hshown, hmessage, hne, rfl⟩

/-! ## What a request asks for -/

theorem bytesToHex_injective {data data' : Bytes} (h : bytesToHex data = bytesToHex data') :
    data = data' := by
  have hread : hexToBytes (.str (bytesToHex data)) "" none = .ok data :=
    hexToBytes_bytesToHex data "" (by simp)
  rw [h, hexToBytes_bytesToHex data' "" (by simp)] at hread
  exact (Except.ok.inj hread).symm

/-- **A request for data**: what it looks like, and for which tags and ids it is made. -/
theorem makeDataRequest_eq_ok_iff {method field : String} {data : Bytes} {blockTag requestId : Json}
    (hmethod : method ≠ "") {request : Fields} :
    makeDataRequest method field data blockTag requestId = .ok request ↔
      (∃ tag, blockTag = .str tag ∧ tag ≠ "") ∧ ValidId requestId ∧
        request = [("jsonrpc", .str jsonrpcVersion), ("id", requestId), ("method", .str method),
          ("params", .dict [(field, .str (bytesToHex data)), ("blockTag", blockTag)])] := by
  simp only [makeDataRequest, makeJsonrpcRequest, py_bind_eq_ok_iff, expectText_eq_ok_iff,
    expectDict_eq_ok_iff, pure, Except.pure, Except.ok.injEq]
  constructor
  · rintro ⟨tag, ⟨rfl, htag⟩, name, ⟨hname, -⟩, params, hparams, _, hid, rfl⟩
    cases hname
    cases hparams
    exact ⟨⟨tag, rfl, htag⟩, hid, rfl⟩
  · rintro ⟨⟨tag, rfl, htag⟩, hid, rfl⟩
    exact ⟨tag, ⟨rfl, htag⟩, method, ⟨rfl, hmethod⟩, _, rfl, (), hid, rfl⟩

/-- The four methods that a client asks for. -/
inductive RpcMethod
  | verifiedProof
  | stemWitness
  | stemProof
  | verifiedState
  deriving DecidableEq, Repr

/-- The request for a method. -/
def makeRequest : RpcMethod → Bytes → Json → Json → Py Fields
  | .verifiedProof => makeEthGetVerifiedProofRequest
  | .stemWitness => makeEthGetStemWitnessRequest
  | .stemProof => makeEthGetStemProofRequest
  | .verifiedState => makeEthGetVerifiedStateRequest

/-- The name of a method, and of the parameter that it takes. -/
def RpcMethod.names : RpcMethod → String × String
  | .verifiedProof => (methodGetVerifiedProof, "key")
  | .stemWitness => (methodGetStemWitness, "stemPrefix")
  | .stemProof => (methodGetStemProof, "stemPrefix")
  | .verifiedState => (methodGetVerifiedState, "key")

/-- What the four makers return, and when: an alias differs in the name of the method only. -/
theorem makeRequest_eq_ok_iff {method : RpcMethod} {data : Bytes} {blockTag requestId : Json}
    {request : Fields} :
    makeRequest method data blockTag requestId = .ok request ↔
      (∃ tag, blockTag = .str tag ∧ tag ≠ "") ∧ ValidId requestId ∧
        request = [("jsonrpc", .str jsonrpcVersion), ("id", requestId),
          ("method", .str method.names.1),
          ("params", .dict [(method.names.2, .str (bytesToHex data)), ("blockTag", blockTag)])] := by
  have hproof : methodGetVerifiedProof ≠ "" := by decide
  have hwitness : methodGetStemWitness ≠ "" := by decide
  cases method with
  | verifiedProof => exact makeDataRequest_eq_ok_iff hproof
  | stemWitness => exact makeDataRequest_eq_ok_iff hwitness
  | stemProof =>
      simp only [makeRequest, makeEthGetStemProofRequest, makeEthGetStemWitnessRequest,
        py_bind_eq_ok_iff, makeDataRequest_eq_ok_iff hwitness, pure, Except.pure, Except.ok.injEq]
      constructor
      · rintro ⟨_, ⟨htag, hid, rfl⟩, rfl⟩
        exact ⟨htag, hid, rfl⟩
      · rintro ⟨htag, hid, rfl⟩
        exact ⟨_, ⟨htag, hid, rfl⟩, rfl⟩
  | verifiedState =>
      simp only [makeRequest, makeEthGetVerifiedStateRequest, makeEthGetVerifiedProofRequest,
        py_bind_eq_ok_iff, makeDataRequest_eq_ok_iff hproof, pure, Except.pure, Except.ok.injEq]
      constructor
      · rintro ⟨_, ⟨htag, hid, rfl⟩, rfl⟩
        exact ⟨htag, hid, rfl⟩
      · rintro ⟨htag, hid, rfl⟩
        exact ⟨_, ⟨htag, hid, rfl⟩, rfl⟩

/-- **A request determines what it asks for**: the method, the key or the stem prefix, the block
and the id. -/
theorem makeRequest_inj {method method' : RpcMethod} {data data' : Bytes}
    {blockTag blockTag' requestId requestId' : Json} {request : Fields}
    (h : makeRequest method data blockTag requestId = .ok request)
    (h' : makeRequest method' data' blockTag' requestId' = .ok request) :
    method = method' ∧ data = data' ∧ blockTag = blockTag' ∧ requestId = requestId' := by
  obtain ⟨-, -, hrequest⟩ := makeRequest_eq_ok_iff.mp h
  obtain ⟨-, -, hrequest'⟩ := makeRequest_eq_ok_iff.mp h'
  rw [hrequest] at hrequest'
  simp only [List.cons.injEq, Prod.mk.injEq, Json.str.injEq, Json.dict.injEq, true_and,
    and_true] at hrequest'
  obtain ⟨hid, hname, ⟨hfield, hdata⟩, htag⟩ := hrequest'
  refine ⟨?_, bytesToHex_injective hdata, htag, hid⟩
  -- the names of the methods are apart
  revert hname
  cases method <;> cases method' <;> decide

/-! ## Endpoints that answer alike -/

/-- The four endpoints read two payloads alike: they parse to the same or raise the same, and
the local verifications return the same after hashing the same. -/
structure AnsweredAlike (H : HashFunction) (payload payload' : Json) : Prop where
  parseVerifiedProof :
    parseEthGetVerifiedProofResult payload = parseEthGetVerifiedProofResult payload'
  parseStemWitness :
    parseEthGetStemWitnessResult H payload = parseEthGetStemWitnessResult H payload'
  parseVerifiedState :
    parseEthGetVerifiedStateResult payload = parseEthGetVerifiedStateResult payload'
  parseStemProof :
    parseEthGetStemProofResult H payload = parseEthGetStemProofResult H payload'
  verifyVerifiedProof : ∀ root,
    verifyEthGetVerifiedProofResult H payload root =
      verifyEthGetVerifiedProofResult H payload' root
  verifyStemWitness : ∀ root,
    verifyEthGetStemWitnessResult H payload root = verifyEthGetStemWitnessResult H payload' root
  verifyVerifiedState : ∀ root,
    verifyEthGetVerifiedStateResult H payload root =
      verifyEthGetVerifiedStateResult H payload' root
  verifyStemProof : ∀ root,
    verifyEthGetStemProofResult H payload root = verifyEthGetStemProofResult H payload' root

variable {H : HashFunction}

/-- The primary endpoints look at the result object of a payload only. -/
theorem parseVerifiedProof_congr {payload payload' : Json}
    (h : extractResultObject payload methodGetVerifiedProof =
      extractResultObject payload' methodGetVerifiedProof) :
    parseEthGetVerifiedProofResult payload = parseEthGetVerifiedProofResult payload' := by
  rw [parseEthGetVerifiedProofResult, parseEthGetVerifiedProofResult, h]

theorem parseStemWitness_congr {payload payload' : Json}
    (h : extractResultObject payload methodGetStemWitness =
      extractResultObject payload' methodGetStemWitness) :
    parseEthGetStemWitnessResult H payload = parseEthGetStemWitnessResult H payload' := by
  rw [parseEthGetStemWitnessResult, parseEthGetStemWitnessResult, parseStemWitnessFields,
    parseStemWitnessFields, h]

/-- A step that returns hands its value on. -/
theorem ofPy_ok_bind {α β : Type} (a : α) (f : α → HashPy β) :
    (HashPy.ofPy (.ok a) >>= f) = f a := rfl

/-- The alias endpoints look at the result object of what they hand on. -/
theorem verifiedState_eq (payload : Fields) (payload' : Json)
    (h : extractResultObject (.dict (payload.replaceMethod methodGetVerifiedProof))
      methodGetVerifiedProof = extractResultObject payload' methodGetVerifiedProof) :
    parseEthGetVerifiedStateResult (.dict payload) = parseEthGetVerifiedProofResult payload' ∧
      ∀ root, verifyEthGetVerifiedStateResult H (.dict payload) root =
        verifyEthGetVerifiedProofResult H payload' root := by
  obtain ⟨copied, halias, hextract⟩ :=
    extractResultObject_aliasPayload payload methodGetVerifiedProof methodGetVerifiedProof
  have hparse := parseVerifiedProof_congr (hextract.trans h)
  rw [parseEthGetVerifiedStateResult, halias, py_ok_bind]
  refine ⟨hparse, fun root => ?_⟩
  rw [verifyEthGetVerifiedStateResult, halias, ofPy_ok_bind, verifyEthGetVerifiedProofResult,
    hparse]
  rfl

theorem stemProof_eq (payload : Fields) (payload' : Json)
    (h : extractResultObject (.dict (payload.replaceMethod methodGetStemWitness))
      methodGetStemWitness = extractResultObject payload' methodGetStemWitness) :
    parseEthGetStemProofResult H (.dict payload) = parseEthGetStemWitnessResult H payload' ∧
      ∀ root, verifyEthGetStemProofResult H (.dict payload) root =
        verifyEthGetStemWitnessResult H payload' root := by
  obtain ⟨copied, halias, hextract⟩ :=
    extractResultObject_aliasPayload payload methodGetStemWitness methodGetStemWitness
  have hparse := parseStemWitness_congr (H := H) (hextract.trans h)
  rw [parseEthGetStemProofResult, halias, ofPy_ok_bind]
  refine ⟨hparse, fun root => ?_⟩
  rw [verifyEthGetStemProofResult, halias, ofPy_ok_bind, verifyEthGetStemWitnessResult, hparse]
  rfl

/-- Payloads with one result object, also after a change of its method, are answered alike. -/
theorem answeredAlike_of_extract {payload payload' : Fields}
    (hsame : ∀ method, extractResultObject (.dict payload) method =
      extractResultObject (.dict payload') method)
    (halias : ∀ method, extractResultObject (.dict (payload.replaceMethod method)) method =
      extractResultObject (.dict (payload'.replaceMethod method)) method) :
    AnsweredAlike H (.dict payload) (.dict payload') := by
  have hproof := parseVerifiedProof_congr (hsame methodGetVerifiedProof)
  have hwitness := parseStemWitness_congr (H := H) (hsame methodGetStemWitness)
  have hstate := verifiedState_eq (H := H) payload _ (halias methodGetVerifiedProof)
  have hstate' := verifiedState_eq (H := H) payload' _ rfl
  have hstem := stemProof_eq (H := H) payload _ (halias methodGetStemWitness)
  have hstem' := stemProof_eq (H := H) payload' _ rfl
  refine ⟨hproof, hwitness, hstate.1.trans hstate'.1.symm, hstem.1.trans hstem'.1.symm,
    fun root => ?_, fun root => ?_, fun root => (hstate.2 root).trans (hstate'.2 root).symm,
    fun root => (hstem.2 root).trans (hstem'.2 root).symm⟩
  · rw [verifyEthGetVerifiedProofResult, verifyEthGetVerifiedProofResult, hproof]
  · rw [verifyEthGetStemWitnessResult, verifyEthGetStemWitnessResult, hwitness]

/-! ## Results in envelopes -/

/-- A result with no field of an envelope is read as it is, and as it is out of the envelope. -/
theorem extractResultObject_envelope {result : Fields} {requestId : Json} (hid : ValidId requestId)
    (hraw : result.isEnvelope = false) (method : String) :
    extractResultObject (.dict [("jsonrpc", .str jsonrpcVersion), ("id", requestId),
      ("result", .dict result)]) method = extractResultObject (.dict result) method := by
  have hwrapped : payloadResult (.dict [("jsonrpc", .str jsonrpcVersion), ("id", requestId),
      ("result", .dict result)]) [("jsonrpc", .str jsonrpcVersion), ("id", requestId),
      ("result", .dict result)] = .ok (.dict result) := by
    have hversion : ¬ ¬ (Json.str jsonrpcVersion).isStr jsonrpcVersion = true :=
      not_not.mpr (isStr_self _)
    show (raiseIf (¬ (Json.str jsonrpcVersion).isStr jsonrpcVersion) _ >>= fun _ =>
      validateJsonrpcId requestId "id" >>= fun _ => .ok (Json.dict result)) =
        (.ok (Json.dict result) : Py Json)
    rw [raiseIf, if_neg hversion, py_ok_bind, hid, py_ok_bind]
  have hplain : payloadResult (.dict result) result = .ok (.dict result) := by
    have hnone : result.lookup "result" = none := by
      simp only [Fields.isEnvelope, Bool.or_eq_false_iff] at hraw
      simpa [Fields.has] using hraw.1.2
    rw [Fields.isEnvelope] at hraw
    rw [payloadResult, hraw, hnone]
    rfl
  rw [extractResultObject, extractResultObject]
  show (payloadResult _ _ >>= _) = (payloadResult _ _ >>= _)
  rw [hwrapped, hplain]

/-- Setting the method leaves a raw result raw. -/
theorem isEnvelope_setMethod (result : Fields) (value : Json) :
    Fields.isEnvelope (Fields.setItem result "method" value) = result.isEnvelope := by
  have hhas : ∀ name, name ≠ "method" →
      Fields.has (Fields.setItem result "method" value) name = result.has name :=
    fun name hname => Fields.has_setItem_of_ne hname
  rw [Fields.isEnvelope, Fields.isEnvelope, hhas "jsonrpc" (by decide), hhas "id" (by decide),
    hhas "result" (by decide), hhas "error" (by decide)]

/-- A raw result is answered alike in the success response that is made of it. -/
theorem answeredAlike_envelope {result : Fields} {requestId : Json} {response : Fields}
    (hraw : result.isEnvelope = false)
    (hmake : makeJsonrpcSuccessResponse (.dict result) requestId = .ok response) :
    AnsweredAlike H (.dict response) (.dict result) := by
  obtain ⟨hid, fields, hfields, rfl⟩ := makeJsonrpcSuccessResponse_eq_ok_iff.mp hmake
  cases hfields
  refine answeredAlike_of_extract (extractResultObject_envelope hid hraw) fun method => ?_
  -- an alias sets the method inside the envelope, and of the raw result
  have hset := isEnvelope_setMethod result (.str method)
  rw [hraw] at hset
  have hreplace : result.replaceMethod method = Fields.setItem result "method" (.str method) := by
    rw [Fields.replaceMethod, hraw]
    rfl
  rw [hreplace]
  exact extractResultObject_envelope hid hset method

/-- **An envelope changes nothing.**  A result that has no field of an envelope itself is
answered alike by the four endpoints, by parsing and by verifying, as it is and in the success
response that is made of it, for every id that a response can have. -/
theorem successResponse_transparent (H : HashFunction) (result : Fields) (requestId : Json)
    (response : Fields) (hraw : result.isEnvelope = false)
    (hmake : makeJsonrpcSuccessResponse (.dict result) requestId = .ok response) :
    AnsweredAlike H (.dict response) (.dict result) :=
  answeredAlike_envelope hraw hmake

/-- The verified-proof result of a lone stem's provider. -/
theorem successResponse_transparent_lone :
    ∃ fields response,
      makeEthGetVerifiedProofResult "provider" 7 (zeroBytes 32) (zeroBytes 32)
        (loneProof [7] 0 onesDigest).key onesDigest.val (loneProof [7] 0 onesDigest) =
          .ok (.dict fields) ∧
      makeJsonrpcSuccessResponse (.dict fields) (.str "a") = .ok response ∧
      AnsweredAlike (fun _ => emptyValue) (.dict response) (.dict fields) :=
  ⟨_, _, rfl, rfl, successResponse_transparent _ _ (.str "a") _ rfl rfl⟩

/-! ## The routes of a result -/

/-- A result object with the given method that is no envelope, and gets its method back. -/
structure OwnResult (method : String) (fields : Fields) : Prop where
  raw : fields.isEnvelope = false
  method_restored : ∀ other : String,
    Fields.setItem (Fields.setItem fields "method" (.str other)) "method" (.str method) = fields

theorem ownResult_verifiedProof {provider : String} {blockNumber : ℤ}
    {blockHash stateRoot key value : Bytes} {proof : MerkleProof} {result : Json}
    (h : makeEthGetVerifiedProofResult provider blockNumber blockHash stateRoot key value proof =
      .ok result) : ∃ fields, result = .dict fields ∧ OwnResult methodGetVerifiedProof fields := by
  simp only [makeEthGetVerifiedProofResult, py_bind_eq_ok_iff, pure, Except.pure,
    Except.ok.injEq] at h
  obtain ⟨-, -, -, -, -, -, -, -, number, -, rfl⟩ := h
  exact ⟨_, rfl, rfl, fun _ => rfl⟩

theorem ownResult_stemWitness {provider : String} {blockHash : Bytes}
    {packet : StemWitnessPacket} {result : Json} {qs : List Bytes}
    (h : (makeEthGetStemWitnessResult H provider blockHash packet).Returns result qs) :
    ∃ fields, result = .dict fields ∧ OwnResult methodGetStemWitness fields := by
  obtain ⟨-, -, -, -, rfl, -⟩ := makeEthGetStemWitnessResult_returns_iff.mp h
  exact ⟨_, rfl, rfl, fun _ => rfl⟩

/-- A result, the response around it, the result of the alias and a response around that are
read alike, each by the endpoint it is for. -/
structure SameOnRoutes {α : Type} (parse parseAlias : Json → α)
    (verify verifyAlias : Json → Option Bytes → HashPy LocalVerificationResult)
    (result response aliasResult aliasResponse : Json) : Prop where
  parse_response : parse response = parse result
  parse_alias : parseAlias aliasResult = parse result
  parse_aliasResponse : parseAlias aliasResponse = parse result
  verify_response : ∀ root, verify response root = verify result root
  verify_alias : ∀ root, verifyAlias aliasResult root = verify result root
  verify_aliasResponse : ∀ root, verifyAlias aliasResponse root = verify result root

/-- The result of an alias, read by the alias, is the primary result. -/
theorem OwnResult.replaceMethod_alias {method : String} {fields : Fields}
    (h : OwnResult method fields) (other : String) :
    Fields.replaceMethod (Fields.setItem fields "method" (.str other)) method = fields := by
  have hraw := isEnvelope_setMethod fields (.str other)
  rw [h.raw] at hraw
  rw [Fields.replaceMethod, hraw]
  exact h.method_restored other

/-- The four routes of a result, for a primary endpoint and its alias that read alike what all
endpoints answer alike, when the alias reads its own result as the primary one. -/
theorem OwnResult.sameOnRoutes {method other : String} {fields : Fields}
    (h : OwnResult method fields) {requestId : Json} (hid : ValidId requestId) {α : Type}
    {parse parseAlias : Json → α}
    {verify verifyAlias : Json → Option Bytes → HashPy LocalVerificationResult}
    (hprimary : ∀ payload payload', AnsweredAlike H payload payload' →
      parse payload = parse payload' ∧ ∀ root, verify payload root = verify payload' root)
    (halias : ∀ payload payload', AnsweredAlike H payload payload' →
      parseAlias payload = parseAlias payload' ∧
        ∀ root, verifyAlias payload root = verifyAlias payload' root)
    (hown : parseAlias (.dict (Fields.setItem fields "method" (.str other))) =
        parse (.dict fields) ∧
      ∀ root, verifyAlias (.dict (Fields.setItem fields "method" (.str other))) root =
        verify (.dict fields) root) :
    ∃ response aliasResponse,
      makeJsonrpcSuccessResponse (.dict fields) requestId = .ok response ∧
      makeJsonrpcSuccessResponse (.dict (Fields.setItem fields "method" (.str other))) requestId =
        .ok aliasResponse ∧
      SameOnRoutes parse parseAlias verify verifyAlias (.dict fields) (.dict response)
        (.dict (Fields.setItem fields "method" (.str other))) (.dict aliasResponse) := by
  have hraw := isEnvelope_setMethod fields (.str other)
  rw [h.raw] at hraw
  have hresponse := makeJsonrpcSuccessResponse_eq_ok_iff.mpr ⟨hid, fields, rfl, rfl⟩
  have haliasResponse := makeJsonrpcSuccessResponse_eq_ok_iff.mpr
    ⟨hid, Fields.setItem fields "method" (.str other), rfl, rfl⟩
  obtain ⟨hparse, hverify⟩ := hprimary _ _ (answeredAlike_envelope h.raw hresponse)
  obtain ⟨hparseAlias, hverifyAlias⟩ := halias _ _ (answeredAlike_envelope hraw haliasResponse)
  exact ⟨_, _, hresponse, haliasResponse, hparse, hown.1, hparseAlias.trans hown.1, hverify,
    hown.2, fun root => (hverifyAlias root).trans (hown.2 root)⟩

/-- **What the makers write is read alike on every route.**  Whenever a primary result is made,
the response around it, the result of the alias and a response around that are made too, for
every id that a response can have; and the endpoint that each is for parses and verifies it as
the primary endpoint does the primary result. -/
theorem routes_agree (H : HashFunction) (requestId : Json) (hid : ValidId requestId)
    (provider : String) (blockHash : Bytes) :
    (∀ (blockNumber : ℤ) (stateRoot key value : Bytes) (proof : MerkleProof) (result : Json),
      makeEthGetVerifiedProofResult provider blockNumber blockHash stateRoot key value proof =
        .ok result →
      ∃ response aliasResult aliasResponse,
        makeEthGetVerifiedProofResponse requestId provider blockNumber blockHash stateRoot key
          value proof = .ok response ∧
        makeEthGetVerifiedStateResult provider blockNumber blockHash stateRoot key value proof =
          .ok aliasResult ∧
        makeJsonrpcSuccessResponse aliasResult requestId = .ok aliasResponse ∧
        SameOnRoutes parseEthGetVerifiedProofResult parseEthGetVerifiedStateResult
          (verifyEthGetVerifiedProofResult H) (verifyEthGetVerifiedStateResult H) result
          (.dict response) aliasResult (.dict aliasResponse)) ∧
    (∀ (packet : StemWitnessPacket) (result : Json) (qs : List Bytes),
      (makeEthGetStemWitnessResult H provider blockHash packet).Returns result qs →
      ∃ response aliasResult aliasResponse,
        (makeEthGetStemWitnessResponse H requestId provider blockHash packet).Returns response
          qs ∧
        (makeEthGetStemProofResult H provider blockHash packet).Returns aliasResult qs ∧
        makeJsonrpcSuccessResponse aliasResult requestId = .ok aliasResponse ∧
        SameOnRoutes (parseEthGetStemWitnessResult H) (parseEthGetStemProofResult H)
          (verifyEthGetStemWitnessResult H) (verifyEthGetStemProofResult H) result
          (.dict response) aliasResult (.dict aliasResponse)) := by
  constructor
  · intro blockNumber stateRoot key value proof result hmake
    obtain ⟨fields, rfl, hown⟩ := ownResult_verifiedProof hmake
    have hread := verifiedState_eq (H := H) _ (.dict fields)
      (congrArg (fun payload => extractResultObject (.dict payload) methodGetVerifiedProof)
        (hown.replaceMethod_alias methodGetVerifiedState))
    obtain ⟨response, aliasResponse, hresponse, haliasResponse, hroutes⟩ :=
      hown.sameOnRoutes hid (fun _ _ h => ⟨h.parseVerifiedProof, h.verifyVerifiedProof⟩)
        (fun _ _ h => ⟨h.parseVerifiedState, h.verifyVerifiedState⟩) hread
    refine ⟨response, _, aliasResponse, ?_, ?_, haliasResponse, hroutes⟩
    · rw [makeEthGetVerifiedProofResponse, hmake, py_ok_bind, hresponse]
    · rw [makeEthGetVerifiedStateResult, hmake, py_ok_bind]
      rfl
  · intro packet result qs hmake
    obtain ⟨fields, rfl, hown⟩ := ownResult_stemWitness hmake
    have hread := stemProof_eq (H := H) _ (.dict fields)
      (congrArg (fun payload => extractResultObject (.dict payload) methodGetStemWitness)
        (hown.replaceMethod_alias methodGetStemProof))
    obtain ⟨response, aliasResponse, hresponse, haliasResponse, hroutes⟩ :=
      hown.sameOnRoutes hid (fun _ _ h => ⟨h.parseStemWitness, h.verifyStemWitness⟩)
        (fun _ _ h => ⟨h.parseStemProof, h.verifyStemProof⟩) hread
    refine ⟨response, _, aliasResponse, ?_, ?_, haliasResponse, hroutes⟩
    · have hreturns : (makeEthGetStemWitnessResponse H requestId provider blockHash
          packet).Returns response (qs ++ []) := hmake.bind (.ofPy hresponse)
      rwa [List.append_nil] at hreturns
    · have hreturns : (makeEthGetStemProofResult H provider blockHash packet).Returns
          (.dict (Fields.setItem fields "method" (.str methodGetStemProof))) (qs ++ []) :=
        hmake.bind (.pure _)
      rwa [List.append_nil] at hreturns

/-- The results of a lone stem's provider. -/
theorem routes_agree_lone :
    (∃ result response,
      makeEthGetVerifiedProofResult "provider" 7 (zeroBytes 32) (zeroBytes 32)
        (loneProof [7] 0 onesDigest).key onesDigest.val (loneProof [7] 0 onesDigest) =
          .ok result ∧
      makeEthGetVerifiedProofResponse (.str "a") "provider" 7 (zeroBytes 32) (zeroBytes 32)
        (loneProof [7] 0 onesDigest).key onesDigest.val (loneProof [7] 0 onesDigest) =
          .ok response ∧
      parseEthGetVerifiedProofResult (.dict response) = parseEthGetVerifiedProofResult result) ∧
    (∃ result qs aliasResult,
      (makeEthGetStemWitnessResult (fun _ => emptyValue) "provider" (zeroBytes 32)
        (lonePacket (fun _ => emptyValue) [7])).Returns result qs ∧
      (makeEthGetStemProofResult (fun _ => emptyValue) "provider" (zeroBytes 32)
        (lonePacket (fun _ => emptyValue) [7])).Returns aliasResult qs ∧
      parseEthGetStemProofResult (fun _ => emptyValue) aliasResult =
        parseEthGetStemWitnessResult (fun _ => emptyValue) result) := by
  obtain ⟨hproofs, hwitnesses⟩ :=
    routes_agree (fun _ => emptyValue) (.str "a") rfl "provider" (zeroBytes 32)
  constructor
  · obtain ⟨response, _, _, hresponse, -, -, hroutes⟩ := hproofs 7 (zeroBytes 32)
      (loneProof [7] 0 onesDigest).key onesDigest.val (loneProof [7] 0 onesDigest) _ rfl
    exact ⟨_, response, rfl, hresponse, hroutes.parse_response⟩
  · obtain ⟨henc, hlen⟩ :=
      encodable_lonePacket (H := fun _ => emptyValue) (s := [7]) (by simp)
    have hmake := (makeEthGetStemWitnessResult_returns_iff (H := fun _ => emptyValue)).mpr
      ⟨(by decide : "provider" ≠ ""), length_zeroBytes 32, henc, hlen, rfl, rfl⟩
    obtain ⟨_, aliasResult, _, -, haliasResult, -, hroutes⟩ := hwitnesses _ _ _ hmake
    exact ⟨_, _, aliasResult, hmake, haliasResult, hroutes.parse_alias⟩

/-! ## Error responses -/

/-- The four endpoints refuse the payload: the parsers raise `ValueError` with the reason, and the
local verifications return it in a rejection, with nothing hashed. -/
structure RefusedWith (H : HashFunction) (payload : Json) (reason : String) : Prop where
  parseVerifiedProof : parseEthGetVerifiedProofResult payload = raiseValueError reason
  parseStemWitness : parseEthGetStemWitnessResult H payload = .ofPy (raiseValueError reason)
  parseVerifiedState : parseEthGetVerifiedStateResult payload = raiseValueError reason
  parseStemProof : parseEthGetStemProofResult H payload = .ofPy (raiseValueError reason)
  verifyVerifiedProof : ∀ root, (verifyEthGetVerifiedProofResult H payload root).Returns
    ⟨false, "malformed verified proof payload: " ++ reason⟩ []
  verifyStemWitness : ∀ root, (verifyEthGetStemWitnessResult H payload root).Returns
    ⟨false, "malformed stem witness payload: " ++ reason⟩ []
  verifyVerifiedState : ∀ root, (verifyEthGetVerifiedStateResult H payload root).Returns
    ⟨false, "malformed verified proof payload: " ++ reason⟩ []
  verifyStemProof : ∀ root, (verifyEthGetStemProofResult H payload root).Returns
    ⟨false, "malformed stem witness payload: " ++ reason⟩ []

/-- A payload that has no result object is refused by all endpoints with the same text. -/
theorem refusedWith_of_extract {payload : Fields} {reason : String}
    (hraise : ∀ method, extractResultObject (.dict payload) method = raiseValueError reason)
    (hreplace : ∀ method, payload.replaceMethod method = payload) :
    RefusedWith H (.dict payload) reason := by
  have hproof : parseEthGetVerifiedProofResult (.dict payload) = raiseValueError reason := by
    rw [parseEthGetVerifiedProofResult, hraise]
    rfl
  have hwitness : parseEthGetStemWitnessResult H (.dict payload) =
      .ofPy (raiseValueError reason) := by
    rw [parseEthGetStemWitnessResult, parseStemWitnessFields, hraise]
    rfl
  have hverifyProof : ∀ root, (verifyEthGetVerifiedProofResult H (.dict payload) root).Returns
      ⟨false, "malformed verified proof payload: " ++ reason⟩ [] := by
    intro root
    rw [verifyEthGetVerifiedProofResult, hproof]
    rfl
  have hverifyWitness : ∀ root, (verifyEthGetStemWitnessResult H (.dict payload) root).Returns
      ⟨false, "malformed stem witness payload: " ++ reason⟩ [] := by
    intro root
    rw [verifyEthGetStemWitnessResult, hwitness]
    rfl
  -- the aliases hand on what is refused
  have hstate := verifiedState_eq (H := H) payload (.dict payload) (by rw [hreplace])
  have hstem := stemProof_eq (H := H) payload (.dict payload) (by rw [hreplace])
  refine ⟨hproof, hwitness, hstate.1.trans hproof, hstem.1.trans hwitness, hverifyProof,
    hverifyWitness, fun root => ?_, fun root => ?_⟩
  · rw [hstate.2 root]
    exact hverifyProof root
  · rw [hstem.2 root]
    exact hverifyWitness root

/-- The reader raises the error of an error response, whatever method it expects. -/
theorem extractResultObject_error {requestId code : Json} {text codeShown : String}
    {entry : Fields} (hid : ValidId requestId) (hcode : codeText code = some codeShown)
    (htext : text ≠ "") (method : String) :
    extractResultObject (.dict [("jsonrpc", .str jsonrpcVersion), ("id", requestId),
      ("error", .dict ([("code", code), ("message", .str text)] ++ entry))]) method =
      raiseValueError ("rpc error " ++ codeShown ++ ": " ++ text) := by
  have hversion : ¬ ¬ (Json.str jsonrpcVersion).isStr jsonrpcVersion = true :=
    not_not.mpr (isStr_self _)
  have herror : raiseRpcError (.dict ([("code", code), ("message", .str text)] ++ entry)) =
      raiseValueError ("rpc error " ++ codeShown ++ ": " ++ text) := by
    have hget : Fields.get ([("code", code), ("message", .str text)] ++ entry) "code" = code := rfl
    have hget' : Fields.get ([("code", code), ("message", .str text)] ++ entry) "message" =
      .str text := rfl
    have hdict : expectDict (.dict ([("code", code), ("message", .str text)] ++ entry))
      "error must be an object" = .ok ([("code", code), ("message", .str text)] ++ entry) := rfl
    rw [raiseRpcError, hdict, py_ok_bind, hget, hget', hcode]
    exact if_neg htext
  show ((raiseIf (¬ (Json.str jsonrpcVersion).isStr jsonrpcVersion) _ >>= fun _ =>
    validateJsonrpcId requestId "id" >>= fun _ =>
      raiseRpcError (.dict ([("code", code), ("message", .str text)] ++ entry))) >>= _) = _
  rw [raiseIf, if_neg hversion, py_ok_bind, hid, py_ok_bind, herror]
  rfl

/-- **An error response is never taken for a result.**  Whatever its code, message, id and data,
each parser raises `ValueError` with the code and the message, and each local verification
rejects it with them, for every expected root and without hashing anything. -/
theorem errorResponse_refused (H : HashFunction) (code message requestId data : Json)
    (response : Fields)
    (hmake : makeJsonrpcErrorResponse code message requestId data = .ok response) :
    ∃ codeShown text, codeText code = some codeShown ∧ message = .str text ∧
      RefusedWith H (.dict response) ("rpc error " ++ codeShown ++ ": " ++ text) := by
  obtain ⟨hid, codeShown, text, entry, hcode, hmessage, htext, rfl⟩ :=
    makeJsonrpcErrorResponse_eq_ok hmake
  exact ⟨codeShown, text, hcode, hmessage, refusedWith_of_extract
    (extractResultObject_error hid hcode htext) fun _ => rfl⟩

/-- `ERR_VERIFICATION_FAILED`, without data. -/
theorem errorResponse_refused_verificationFailed :
    ∃ codeShown text, codeText (.int (-32012)) = some codeShown ∧
      Json.str "verification failed" = .str text ∧
      RefusedWith (fun _ => emptyValue) (.dict [("jsonrpc", .str jsonrpcVersion), ("id", .int 7),
        ("error", .dict [("code", .int (-32012)), ("message", .str "verification failed")])])
        ("rpc error " ++ codeShown ++ ": " ++ text) :=
  errorResponse_refused _ (.int (-32012)) (.str "verification failed") (.int 7) .null _ rfl

end Pbt
