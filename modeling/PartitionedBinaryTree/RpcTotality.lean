/-
# What the verifying endpoints answer

The `verify_eth_…` functions turn each `ValueError` of their parser into a result.  The
parsers raise nothing else on any JSON value, so that what remains is what is called
outside the guarded parse: `split_key` on the key of a payload that has parsed, and, in
the aliases, `dict` on the payload.  `verify_answers_iff` says when each of the four
returns a result, and `not_answers_shortKey` shows payloads on which it raises.
-/
import PartitionedBinaryTree.EndpointLimits

namespace Pbt

/-! ## The parsers raise `ValueError` only -/

theorem onlyValueErrors_hexToBytes (value : Json) (name : String) (maxBytes : Option ℕ) :
    OnlyValueErrors (hexToBytes value name maxBytes) := by
  unfold hexToBytes
  split
  · split
    · refine .check (.check ?_)
      split
      · exact .ok _
      · exact .raise _
    · exact .raise _
  · exact .raise _

theorem onlyValueErrors_requireLen (value : Bytes) (n : ℕ) (name : String) :
    OnlyValueErrors (requireLen value n name) := .raiseIf _ _

theorem onlyValueErrors_parseU64Hex (value : Json) (name : String) :
    OnlyValueErrors (parseU64Hex value name) := by
  unfold parseU64Hex
  split
  · split
    · split
      · exact .check (.check (.ok _))
      · exact .raise _
    · exact .raise _
  · exact .raise _

theorem onlyValueErrors_expectDict (value : Json) (message : String) :
    OnlyValueErrors (expectDict value message) := by
  unfold expectDict
  split
  · exact .ok _
  · exact .raise _

theorem onlyValueErrors_expectList (value : Json) (message : String) :
    OnlyValueErrors (expectList value message) := by
  unfold expectList
  split
  · exact .ok _
  · exact .raise _

theorem onlyValueErrors_expectProvider (value : Json) : OnlyValueErrors (expectProvider value) := by
  unfold expectProvider
  split
  · exact .check (.ok _)
  · exact .raise _

theorem onlyValueErrors_validateJsonrpcId (value : Json) (name : String) :
    OnlyValueErrors (validateJsonrpcId value name) := by
  unfold validateJsonrpcId
  split
  · exact .ok _
  · exact .ok _
  · exact .ok _
  · exact .raise _

theorem onlyValueErrors_raiseRpcError (error : Json) : OnlyValueErrors (raiseRpcError error) := by
  unfold raiseRpcError
  refine (onlyValueErrors_expectDict error _).bind fun fields => ?_
  split
  · exact .raise _
  · split_ifs
    · exact .raise _
    · exact .raise _
  · exact .raise _

theorem onlyValueErrors_envelopeResult (fields : Fields) :
    OnlyValueErrors (envelopeResult fields) := by
  unfold envelopeResult
  refine .check ?_
  have hrest : OnlyValueErrors
      (if fields.has "error" then raiseRpcError (fields.get "error")
      else if fields.has "result" then pure (fields.get "result")
      else raiseValueError "result must be present") := by
    split_ifs
    · exact onlyValueErrors_raiseRpcError _
    · exact .ok _
    · exact .raise _
  dsimp only
  by_cases hid : fields.has "id" = true
  · rw [if_pos hid]
    exact (onlyValueErrors_validateJsonrpcId _ _).bind fun _ => hrest
  · rw [if_neg hid]
    exact hrest

theorem onlyValueErrors_extractResultObject (payload : Json) (method : String) :
    OnlyValueErrors (extractResultObject payload method) := by
  unfold extractResultObject
  refine (onlyValueErrors_expectDict payload _).bind fun fields => ?_
  have hresult : OnlyValueErrors (payloadResult payload fields) := by
    unfold payloadResult
    split_ifs
    · exact onlyValueErrors_envelopeResult fields
    · exact .ok _
  refine hresult.bind fun result => ?_
  exact (onlyValueErrors_expectDict result _).bind fun _ => .check (.ok _)

theorem onlyValueErrors_proofFromJsonDict (data : Json) :
    OnlyValueErrors (proofFromJsonDict data) := by
  unfold proofFromJsonDict
  refine (onlyValueErrors_expectDict data _).bind fun fields => ?_
  refine (onlyValueErrors_hexToBytes _ _ _).bind fun key => ?_
  refine (onlyValueErrors_hexToBytes _ _ _).bind fun value => ?_
  refine (onlyValueErrors_requireLen value _ _).bind fun _ => ?_
  refine (onlyValueErrors_expectList _ _).bind fun stemValuesRaw => .check ?_
  refine (OnlyValueErrors.mapM (fun _ => onlyValueErrors_hexToBytes _ _ _) _).bind
    fun stemValues => ?_
  refine (OnlyValueErrors.forM (fun _ => onlyValueErrors_requireLen _ _ _) _).bind fun _ => ?_
  refine (onlyValueErrors_expectList _ _).bind fun pathSiblingsRaw => .check ?_
  refine (OnlyValueErrors.mapM (fun _ => onlyValueErrors_hexToBytes _ _ _) _).bind
    fun pathSiblings => ?_
  refine (OnlyValueErrors.forM (fun _ => onlyValueErrors_requireLen _ _ _) _).bind fun _ => ?_
  refine (onlyValueErrors_expectList _ _).bind fun pathBitsRaw => ?_
  exact .check (.check (.check (.check (.ok _))))

/-- `parse_eth_getVerifiedProof_result` raises `ValueError` only. -/
theorem onlyValueErrors_parseEthGetVerifiedProofResult (payload : Json) :
    OnlyValueErrors (parseEthGetVerifiedProofResult payload) := by
  unfold parseEthGetVerifiedProofResult
  refine (onlyValueErrors_extractResultObject payload _).bind fun result => .check ?_
  refine (onlyValueErrors_expectProvider _).bind fun provider => ?_
  refine (onlyValueErrors_expectDict _ _).bind fun block => ?_
  refine (onlyValueErrors_expectDict _ _).bind fun state => ?_
  refine (onlyValueErrors_parseU64Hex _ _).bind fun blockNumber => ?_
  refine (onlyValueErrors_hexToBytes _ _ _).bind fun blockHash => ?_
  refine (onlyValueErrors_hexToBytes _ _ _).bind fun stateRoot => ?_
  refine (onlyValueErrors_hexToBytes _ _ _).bind fun key => ?_
  refine (onlyValueErrors_hexToBytes _ _ _).bind fun value => ?_
  refine (onlyValueErrors_requireLen _ _ _).bind fun _ => ?_
  refine (onlyValueErrors_requireLen _ _ _).bind fun _ => ?_
  refine (onlyValueErrors_requireLen _ _ _).bind fun _ => ?_
  refine (onlyValueErrors_proofFromJsonDict _).bind fun proof => ?_
  exact .check (.check (.ok _))

theorem onlyValueErrors_parseStemWitnessFields (payload : Json) :
    OnlyValueErrors (parseStemWitnessFields payload) := by
  unfold parseStemWitnessFields
  refine (onlyValueErrors_extractResultObject payload _).bind fun result => .check ?_
  refine (onlyValueErrors_expectProvider _).bind fun provider => ?_
  refine (onlyValueErrors_expectDict _ _).bind fun block => ?_
  refine (onlyValueErrors_expectDict _ _).bind fun stemWitness => ?_
  refine (onlyValueErrors_parseU64Hex _ _).bind fun blockNumber => ?_
  refine (onlyValueErrors_hexToBytes _ _ _).bind fun blockHash => ?_
  refine (onlyValueErrors_hexToBytes _ _ _).bind fun stateRoot => ?_
  refine (onlyValueErrors_hexToBytes _ _ _).bind fun packetWire => ?_
  refine (onlyValueErrors_requireLen _ _ _).bind fun _ => ?_
  exact (onlyValueErrors_requireLen _ _ _).bind fun _ => .ok _

variable {H : HashFunction}

/-- `parse_eth_getStemWitness_result` raises `ValueError` only. -/
theorem onlyValueErrors_parseEthGetStemWitnessResult (payload : Json) :
    OnlyValueErrors (parseEthGetStemWitnessResult H payload).outcome := by
  unfold parseEthGetStemWitnessResult
  rw [HashPy.outcome_bind, HashPy.outcome_ofPy]
  refine (onlyValueErrors_parseStemWitnessFields payload).bind fun fields => ?_
  obtain ⟨provider, blockNumber, blockHash, stateRoot, packetWire⟩ := fields
  dsimp only
  rw [HashPy.outcome_bind]
  refine (onlyValueErrors_decodeStemWitnessPacketV1 packetWire).bind fun packet => ?_
  rw [HashPy.outcome_bind, HashPy.outcome_ofPy]
  refine .check ?_
  rw [HashPy.outcome_bind, HashPy.outcome_ofPy]
  exact .check (.ok _)

/-! ## What is called outside the parse -/

/-- The call returns a result. -/
def Answers {α : Type} (call : HashPy α) : Prop := ∃ result, call.outcome = .ok result

/-- With a parser that raises `ValueError` only, the rest of the call decides. -/
theorem withParsed_answers_iff {α : Type} {parse : HashPy α} {malformed : String}
    {verify : α → HashPy LocalVerificationResult} (hparse : OnlyValueErrors parse.outcome) :
    Answers (withParsed parse malformed verify) ↔
      ∀ parsed, parse.outcome = .ok parsed → Answers (verify parsed) := by
  have houtcome : (withParsed parse malformed verify).outcome =
      match parse.outcome with
      | .ok parsed => (verify parsed).outcome
      | .error e =>
        if e.exc = .valueError then .ok ⟨false, malformed ++ e.message⟩ else .error e := by
    unfold withParsed HashPy.outcome
    rw [ExceptT.run_mk]
    obtain ⟨val, queries⟩ := parse.run
    cases val with
    | error e =>
        show Logged.val (ite _ _ _) = ite _ _ _
        split_ifs <;> rfl
    | ok parsed => rfl
  rw [Answers, houtcome]
  cases hcase : parse.outcome with
  | error e =>
      dsimp only
      rw [if_pos (hparse e hcase)]
      exact iff_of_true ⟨_, rfl⟩ fun parsed h => absurd h (by simp)
  | ok parsed =>
      constructor
      · rintro h parsed' heq
        cases heq
        exact h
      · intro h
        exact h parsed rfl

/-- A check that is made of a trusted root decides the rest. -/
theorem check_answers_iff {root : Bytes} {expected : Option Bytes} {check : HashPy Bool}
    {untrusted passed failed : String} :
    Answers (if expected.any (root ≠ ·) then pure ⟨false, untrusted⟩
      else do
        let valid ← check
        if valid then pure ⟨true, passed⟩ else pure ⟨false, failed⟩ :
          HashPy LocalVerificationResult) ↔
      ((∀ trusted ∈ expected, root = trusted) → Answers check) := by
  have htrusted : expected.any (root ≠ ·) = true ↔ ¬ ∀ trusted ∈ expected, root = trusted := by
    cases expected with
    | none => simp
    | some trusted => simp
  split_ifs with hroot
  · exact iff_of_true ⟨_, rfl⟩ fun h => absurd h (htrusted.mp hroot)
  · have hroot := not_not.mp fun h => hroot (htrusted.mpr h)
    rw [forall_prop_of_true hroot, Answers, Answers, HashPy.outcome_bind]
    cases check.outcome with
    | error e => simp [bind, Except.bind]
    | ok valid => cases valid <;> simp [bind, Except.bind]

/-- The payload has parsed to a result under a trusted root, with a key that cannot be split. -/
def ShortKey {α : Type} (stateRoot key : α → Bytes) (expectedStateRoot : Option Bytes)
    (parse : Py α) : Prop :=
  ∃ parsed, parse = .ok parsed ∧ (∀ trusted ∈ expectedStateRoot, stateRoot parsed = trusted) ∧
    (key parsed).length < 2

/-- An endpoint answers unless the key is short, when its check raises on short keys only. -/
theorem endpoint_answers_iff {α : Type} {parse : HashPy α} {stateRoot key : α → Bytes}
    {malformed untrusted passed failed : String} {check : α → HashPy Bool}
    {expectedStateRoot : Option Bytes} (hparse : OnlyValueErrors parse.outcome)
    (hcheck : ∀ parsed, Answers (check parsed) ↔ 2 ≤ (key parsed).length) :
    Answers (withParsed parse malformed fun parsed =>
      if expectedStateRoot.any (stateRoot parsed ≠ ·) then pure ⟨false, untrusted⟩
      else do
        let valid ← check parsed
        if valid then pure ⟨true, passed⟩ else pure ⟨false, failed⟩) ↔
      ¬ ShortKey stateRoot key expectedStateRoot parse.outcome := by
  rw [withParsed_answers_iff hparse]
  simp only [check_answers_iff, hcheck, ShortKey, not_exists, not_and, not_lt]

theorem verifyProof_answers_iff {rh : Bytes} {proof : MerkleProof} :
    Answers (HashPy.ofPyHash (verifyProof H rh proof)) ↔ 2 ≤ proof.key.length := by
  rw [← not_lt, ← @verifyProof_fails_iff H rh, Answers, HashPy.outcome_ofPyHash]
  cases verifyProof H rh proof with
  | error e => simp [Except.map]
  | ok verdict => simp [Except.map]

theorem verifyWitnessPacket_answers_iff {packet : StemWitnessPacket} :
    Answers (verifyWitnessPacket H packet) ↔ 2 ≤ packet.key.length := by
  rw [← not_lt, ← verifyWitnessPacket_fails_iff (H := H), Answers]
  cases (verifyWitnessPacket H packet).outcome with
  | error e => simp
  | ok verdict => simp

/-! ## What `dict` takes -/

/-- Two things to iterate over, the first of which can be a key. -/
def Json.IsPair (item : Json) : Prop :=
  ∃ key value, item.iterate = some [key, value] ∧ key.hashable = true

/-- What `dict` takes: an object, or something to iterate over whose items are pairs. -/
def Json.DictLike : Json → Prop
  | .dict _ => True
  | value => ∃ items, value.iterate = some items ∧ ∀ item ∈ items, item.IsPair

/-- The characters of a text are no pairs, so that only the empty text is taken. -/
theorem dictLike_str_iff {text : String} : (Json.str text).DictLike ↔ text = "" := by
  constructor
  · rintro ⟨items, hitems, hpairs⟩
    obtain rfl := Option.some.inj hitems
    cases hchars : text.toList with
    | nil => exact String.toList_eq_nil_iff.mp hchars
    | cons c rest =>
        obtain ⟨key, value, hpair, -⟩ := hpairs (.str (String.singleton c)) (by simp [hchars])
        simp [Json.iterate] at hpair
  · rintro rfl
    exact ⟨[], rfl, fun item hitem => absurd hitem List.not_mem_nil⟩

theorem dictItem_returns_iff {index : ℕ} {item : Json} :
    (∃ entry, dictItem index item = .ok entry) ↔ item.IsPair := by
  unfold dictItem Json.IsPair
  cases item.iterate with
  | none => simp [raiseTypeError]
  | some parts =>
      rcases parts with _ | ⟨key, _ | ⟨value, _ | ⟨more, rest⟩⟩⟩
      · simp [raiseValueError]
      · simp [raiseValueError]
      · -- two parts, and it depends on the first
        by_cases hkey : key.hashable = true
        · simp [hkey]
        · simp [hkey, raiseTypeError]
      · simp [raiseValueError]

theorem dictItems_returns_iff {index : ℕ} {fields : Fields} {items : List Json} :
    (∃ copied, dictItems index fields items = .ok copied) ↔ ∀ item ∈ items, item.IsPair := by
  induction items generalizing index fields with
  | nil => simp [dictItems]
  | cons item items ih =>
      rw [List.forall_mem_cons, ← @dictItem_returns_iff index]
      simp only [dictItems, py_bind_eq_ok_iff]
      constructor
      · rintro ⟨copied, ⟨key, value⟩, hentry, hcopied⟩
        refine ⟨⟨(key, value), hentry⟩, ?_⟩
        -- a key that is no string is skipped
        cases key with
        | str name => exact ih.mp ⟨copied, hcopied⟩
        | _ => exact ih.mp ⟨copied, hcopied⟩
      · rintro ⟨⟨⟨key, value⟩, hentry⟩, hitems⟩
        cases key with
        | str name =>
            obtain ⟨copied, hcopied⟩ := ih.mpr hitems
            exact ⟨copied, (.str name, value), hentry, hcopied⟩
        | _ =>
            obtain ⟨copied, hcopied⟩ := ih.mpr hitems
            exact ⟨copied, _, hentry, hcopied⟩

/-- **`dict`** returns on exactly these values. -/
theorem pyDict_returns_iff {value : Json} :
    (∃ copied, pyDict value = .ok copied) ↔ value.DictLike := by
  cases value with
  | dict fields => exact iff_of_true ⟨fields, rfl⟩ trivial
  | str text =>
      refine dictItems_returns_iff.trans ?_
      simp [Json.DictLike, Json.iterate]
  | list items =>
      refine dictItems_returns_iff.trans ?_
      simp [Json.DictLike, Json.iterate]
  | _ => simp [pyDict, Json.DictLike, Json.iterate, raiseTypeError]

/-- The payload of an alias is built when `dict` takes the payload. -/
theorem aliasPayload_returns_iff {payload : Json} {method : String} :
    (∃ copied, aliasPayload payload method = .ok copied) ↔ payload.DictLike := by
  rw [← pyDict_returns_iff, aliasPayload]
  cases pyDict payload with
  | error e => simp [bind, Except.bind]
  | ok copied =>
      refine iff_of_true ?_ ⟨copied, rfl⟩
      show ∃ renamed, (match (copied.lookup "result").getD (.dict copied) with
        | .dict resultObj => _
        | _ => _) = Except.ok renamed
      split
      · split_ifs
        · exact ⟨_, rfl⟩
        · exact ⟨_, rfl⟩
      · exact ⟨_, rfl⟩

/-! ## The endpoints -/

/-- An alias answers when `dict` takes the payload and the renamed payload is answered. -/
theorem alias_answers_iff {α : Type} {payload : Json} {method : String} {parse : Json → Py α}
    {stateRoot key : α → Bytes} {expectedStateRoot : Option Bytes}
    {verify : Json → HashPy LocalVerificationResult}
    (hverify : ∀ copied, Answers (verify copied) ↔
      ¬ ShortKey stateRoot key expectedStateRoot (parse copied)) :
    Answers (HashPy.ofPy (aliasPayload payload method) >>= verify) ↔
      payload.DictLike ∧
        ¬ ShortKey stateRoot key expectedStateRoot (aliasPayload payload method >>= parse) := by
  rw [← @aliasPayload_returns_iff payload method, Answers, HashPy.outcome_bind,
    HashPy.outcome_ofPy]
  cases aliasPayload payload method with
  | error e => simp [bind, Except.bind]
  | ok copied =>
      have hbind : ((Except.ok copied : Py Json) >>= parse) = parse copied := rfl
      rw [hbind, ← hverify copied]
      exact (and_iff_right ⟨copied, rfl⟩).symm

theorem verifyEthGetVerifiedProofResult_answers_iff {expectedStateRoot : Option Bytes}
    (payload : Json) : Answers (verifyEthGetVerifiedProofResult H payload expectedStateRoot) ↔
      ¬ ShortKey (·.stateRoot) (·.proof.key) expectedStateRoot
        (parseEthGetVerifiedProofResult payload) :=
  endpoint_answers_iff (onlyValueErrors_parseEthGetVerifiedProofResult payload)
    fun _ => verifyProof_answers_iff

theorem verifyEthGetStemWitnessResult_answers_iff {expectedStateRoot : Option Bytes}
    (payload : Json) : Answers (verifyEthGetStemWitnessResult H payload expectedStateRoot) ↔
      ¬ ShortKey (·.stateRoot) (·.packet.key) expectedStateRoot
        (parseEthGetStemWitnessResult H payload).outcome :=
  endpoint_answers_iff (onlyValueErrors_parseEthGetStemWitnessResult payload)
    fun _ => verifyWitnessPacket_answers_iff

/-- **What the endpoints answer.**  The two endpoints return a result on every payload but one
that parses under a trusted root and has a key of fewer than two bytes.  Their aliases
return one exactly when, besides, `dict` takes the payload. -/
theorem verify_answers_iff (H : HashFunction) (payload : Json) (expectedStateRoot : Option Bytes) :
    (Answers (verifyEthGetVerifiedProofResult H payload expectedStateRoot) ↔
      ¬ ShortKey (·.stateRoot) (·.proof.key) expectedStateRoot
        (parseEthGetVerifiedProofResult payload)) ∧
    (Answers (verifyEthGetStemWitnessResult H payload expectedStateRoot) ↔
      ¬ ShortKey (·.stateRoot) (·.packet.key) expectedStateRoot
        (parseEthGetStemWitnessResult H payload).outcome) ∧
    (Answers (verifyEthGetVerifiedStateResult H payload expectedStateRoot) ↔
      payload.DictLike ∧ ¬ ShortKey (·.stateRoot) (·.proof.key) expectedStateRoot
        (parseEthGetVerifiedStateResult payload)) ∧
    (Answers (verifyEthGetStemProofResult H payload expectedStateRoot) ↔
      payload.DictLike ∧ ¬ ShortKey (·.stateRoot) (·.packet.key) expectedStateRoot
        (parseEthGetStemProofResult H payload).outcome) := by
  refine ⟨verifyEthGetVerifiedProofResult_answers_iff payload,
    verifyEthGetStemWitnessResult_answers_iff payload,
    alias_answers_iff verifyEthGetVerifiedProofResult_answers_iff, ?_⟩
  unfold parseEthGetStemProofResult
  rw [HashPy.outcome_bind, HashPy.outcome_ofPy]
  exact alias_answers_iff verifyEthGetStemWitnessResult_answers_iff

/-! ## Payloads that are not answered -/

/-- The proof of a lone stem under an empty key. -/
def emptyKeyProof : MerkleProof := { loneProof [7] 0 onesDigest with key := [] }

theorem proofEncodable_emptyKeyProof : ProofEncodable emptyKeyProof :=
  ⟨rfl, length_stemBytes _, rfl, fun _ hb => absurd hb List.not_mem_nil, length_of_mem_stemBytes,
    fun _ hs => absurd hs List.not_mem_nil, Nat.zero_le _, Nat.zero_lt_succ _⟩

/-- The payload that carries an empty key and its proof raises, and so does `null` under an
alias. -/
theorem not_answers_shortKey :
    (∃ payload, makeEthGetVerifiedProofResult "provider" 0 (zeroBytes 32) (zeroBytes 32)
        emptyKeyProof.key emptyKeyProof.value emptyKeyProof = .ok payload ∧
      ¬ Answers (verifyEthGetVerifiedProofResult (fun _ => emptyValue) payload none)) ∧
    (verifyEthGetVerifiedStateResult (fun _ => emptyValue) .null none).outcome =
      .error ⟨.typeError, "'NoneType' object is not iterable"⟩ := by
  refine ⟨?_, rfl⟩
  have hprovider : "provider" ≠ "" := by decide
  obtain ⟨payload, hmake, hparse⟩ := parse_makeEthGetVerifiedProofResult hprovider (le_refl 0)
    (by decide) (length_zeroBytes 32) (length_zeroBytes 32) proofEncodable_emptyKeyProof
    (Nat.zero_le _)
  refine ⟨payload, hmake, ?_⟩
  rw [verifyEthGetVerifiedProofResult_answers_iff, not_not]
  exact ⟨_, hparse, fun trusted htrusted => absurd htrusted (by simp), Nat.zero_lt_two⟩

end Pbt
