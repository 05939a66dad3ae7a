/-
# Alias endpoints (`pbt/verified_rpc.py`)

`eth_getVerifiedState` and `eth_getStemProof` have results of their own method.  Their parsers
write the method of the primary endpoint into the result object and hand the payload to the
primary parser, for raw results and for envelopes of every shape
(`parseEthGetVerifiedStateResult_eq`, `parseEthGetStemProofResult_eq`).

So the primary parser's check of the method passes always, and no other looks at the method
that the payload came with: `aliasEndpoints_iff` says when it does no harm.
-/
import PartitionedBinaryTree.RpcTotality

namespace Pbt

/-! ## The result object of a payload -/

/-- `METHOD_GET_VERIFIED_STATE`. -/
def methodGetVerifiedState : String := "eth_getVerifiedState"

/-- `METHOD_GET_STEM_PROOF`. -/
def methodGetStemProof : String := "eth_getStemProof"

namespace Fields

/-- The payload has a field of a JSON-RPC envelope. -/
def isEnvelope (payload : Fields) : Bool :=
  payload.has "jsonrpc" || payload.has "id" || payload.has "result" || payload.has "error"

/-- The result object: the object under `result` in an envelope, or else the payload itself. -/
def resultObject (payload : Fields) : Option Fields :=
  if payload.isEnvelope then
    match payload.lookup "result" with
    | some (.dict result) => some result
    | _ => none
  else some payload

/-- The payload's result object has this method. -/
def HasMethod (payload : Fields) (method : String) : Prop :=
  ∃ result ∈ payload.resultObject, (result.get "method").isStr method = true

/-- The payload with the method of its result object replaced. -/
def replaceMethod (payload : Fields) (method : String) : Fields :=
  if payload.isEnvelope then
    match payload.lookup "result" with
    | some (.dict result) =>
        payload.setItem "result" (.dict (Fields.setItem result "method" (.str method)))
    | _ => payload
  else payload.setItem "method" (.str method)

/-! ## Replacing a field -/

theorem lookup_overwrite (fields : Fields) (name name' : String) (value : Json) :
    (fields.map fun entry => if entry.1 = name then (name, value) else entry).lookup name' =
      if name' = name then (fields.lookup name).map fun _ => value else fields.lookup name' := by
  induction fields with
  | nil => simp
  | cons entry fields ih =>
      obtain ⟨key, old⟩ := entry
      rw [List.map_cons]
      by_cases hkey : key = name
      · rw [if_pos hkey, hkey]
        by_cases hname : name' = name
        · rw [hname, List.lookup_cons_self, List.lookup_cons_self, if_pos rfl, Option.map_some]
        · have hne : (name' == name) = false := beq_false_of_ne hname
          rw [List.lookup_cons, hne, ih, if_neg hname, if_neg hname, List.lookup_cons, hne]
      · rw [if_neg hkey, List.lookup_cons, ih]
        by_cases hname : name' = name
        · have hne : (name == key) = false := beq_false_of_ne fun h => hkey h.symm
          rw [hname, hne, if_pos rfl, if_pos rfl, List.lookup_cons, hne]
        · rw [if_neg hname, if_neg hname, List.lookup_cons]

theorem lookup_setItem (fields : Fields) (name name' : String) (value : Json) :
    (fields.setItem name value).lookup name' =
      if name' = name then some value else fields.lookup name' := by
  unfold setItem
  split_ifs with hhas hname hname
  · obtain ⟨old, hold⟩ := Option.isSome_iff_exists.mp hhas
    rw [lookup_overwrite, if_pos hname, hold, Option.map_some]
  · rw [lookup_overwrite, if_neg hname]
  · have hnone : fields.lookup name' = none := by
      rw [hname]
      exact Option.not_isSome_iff_eq_none.mp hhas
    rw [List.lookup_append, hnone, Option.none_or, hname, List.lookup_cons_self]
  · have hne : (name' == name) = false := beq_false_of_ne hname
    rw [List.lookup_append, List.lookup_cons, hne, List.lookup_nil, Option.or_none]

theorem lookup_setItem_of_ne {fields : Fields} {name name' : String} {value : Json}
    (h : name' ≠ name) : (fields.setItem name value).lookup name' = fields.lookup name' := by
  rw [lookup_setItem, if_neg h]

theorem has_setItem_of_ne {fields : Fields} {name name' : String} {value : Json}
    (h : name' ≠ name) : (fields.setItem name value).has name' = fields.has name' := by
  rw [has, has, lookup_setItem_of_ne h]

theorem get_setItem_of_ne {fields : Fields} {name name' : String} {value : Json}
    (h : name' ≠ name) : (fields.setItem name value).get name' = fields.get name' := by
  rw [get, get, lookup_setItem_of_ne h]

end Fields

/-! ## The payload of an alias -/

/-- An envelope is read without a look at a `method` next to its fields. -/
theorem extractResultObject_setMethod {payload : Fields} {expected : String} {value : Json}
    (henvelope : payload.isEnvelope = true) :
    extractResultObject (.dict (payload.setItem "method" value)) expected =
      extractResultObject (.dict payload) expected := by
  have hhas : ∀ name, name ≠ "method" →
      (payload.setItem "method" value).has name = payload.has name :=
    fun name hname => Fields.has_setItem_of_ne hname
  have hget : ∀ name, name ≠ "method" →
      (payload.setItem "method" value).get name = payload.get name :=
    fun name hname => Fields.get_setItem_of_ne hname
  have hsame : payloadResult (.dict (payload.setItem "method" value))
      (payload.setItem "method" value) = payloadResult (.dict payload) payload := by
    unfold Fields.isEnvelope at henvelope
    rw [payloadResult, payloadResult, envelopeResult, envelopeResult, hhas "jsonrpc" (by decide),
      hhas "id" (by decide), hhas "result" (by decide), hhas "error" (by decide),
      hget "jsonrpc" (by decide), hget "id" (by decide), hget "result" (by decide),
      hget "error" (by decide), if_pos henvelope, if_pos henvelope]
  rw [extractResultObject, extractResultObject]
  show (payloadResult _ _ >>= _) = (payloadResult _ _ >>= _)
  rw [hsame]

/-- What an alias hands on, by the field `result` of the payload. -/
theorem aliasPayload_dict (payload : Fields) (method : String) :
    aliasPayload (.dict payload) method = .ok (.dict (match payload.lookup "result" with
      | some (.dict result) =>
          payload.setItem "result" (.dict (Fields.setItem result "method" (.str method)))
      | some _ => payload
      | none => payload.setItem "method" (.str method))) := by
  have hcopied : pyDict (.dict payload) = .ok payload := rfl
  rw [aliasPayload, hcopied, py_ok_bind]
  cases hresult : payload.lookup "result" with
  | some result =>
      have hhas : payload.has "result" = true := by rw [Fields.has, hresult]; rfl
      cases result with
      | dict result =>
          dsimp only [Option.getD_some]
          rw [if_pos hhas]
          rfl
      | _ => rfl
  | none =>
      have hhas : ¬ payload.has "result" = true := by
        rw [Fields.has, hresult]
        exact Bool.false_ne_true
      dsimp only [Option.getD_none]
      rw [if_neg hhas]
      rfl

/-- **What an alias hands on** is read as the payload with its method replaced. -/
theorem extractResultObject_aliasPayload (payload : Fields) (method expected : String) :
    ∃ copied, aliasPayload (.dict payload) method = .ok copied ∧
      extractResultObject copied expected =
        extractResultObject (.dict (payload.replaceMethod method)) expected := by
  refine ⟨_, aliasPayload_dict payload method, ?_⟩
  rw [Fields.replaceMethod]
  cases hresult : payload.lookup "result" with
  | some result =>
      have henvelope : payload.isEnvelope = true := by simp [Fields.isEnvelope, Fields.has, hresult]
      rw [if_pos henvelope]
      cases result <;> rfl
  | none =>
      dsimp only
      split_ifs with henvelope
      · exact extractResultObject_setMethod henvelope
      · rfl

/-- **Aliases are the primary endpoints** on the payload with its method replaced, also when
they raise. -/
theorem parseEthGetVerifiedStateResult_eq (payload : Fields) :
    parseEthGetVerifiedStateResult (.dict payload) =
      parseEthGetVerifiedProofResult (.dict (payload.replaceMethod methodGetVerifiedProof)) := by
  obtain ⟨copied, halias, hextract⟩ :=
    extractResultObject_aliasPayload payload methodGetVerifiedProof methodGetVerifiedProof
  rw [parseEthGetVerifiedStateResult, halias, py_ok_bind, parseEthGetVerifiedProofResult, hextract]
  rfl

theorem parseEthGetStemProofResult_eq (H : HashFunction) (payload : Fields) :
    (parseEthGetStemProofResult H (.dict payload)).outcome =
      (parseEthGetStemWitnessResult H
        (.dict (payload.replaceMethod methodGetStemWitness))).outcome := by
  obtain ⟨copied, halias, hextract⟩ :=
    extractResultObject_aliasPayload payload methodGetStemWitness methodGetStemWitness
  rw [parseEthGetStemProofResult, halias, HashPy.outcome_bind, HashPy.outcome_ofPy, py_ok_bind,
    parseEthGetStemWitnessResult, parseStemWitnessFields, hextract]
  rfl

/-! ## The method of the payload -/

/-- The alias accepts the payloads of its own method that the primary endpoint accepts with the
method replaced, and returns the same result. -/
def AcceptsOwnMethod {α : Type} (payload : Fields) (method : String)
    (parseAlias parsePrimary : Py α) : Prop :=
  ∀ result, parseAlias = .ok result ↔ payload.HasMethod method ∧ parsePrimary = .ok result

/-- An alias that returns what the primary endpoint returns has to be called with its own
method, or with a payload that is not accepted at all. -/
theorem acceptsOwnMethod_iff {α : Type} {payload : Fields} {method : String}
    {parseAlias parsePrimary : Py α} (h : parseAlias = parsePrimary) :
    AcceptsOwnMethod payload method parseAlias parsePrimary ↔
      payload.HasMethod method ∨ ∀ result, parsePrimary ≠ .ok result := by
  rw [AcceptsOwnMethod, h]
  constructor
  · intro hown
    by_cases hmethod : payload.HasMethod method
    · exact Or.inl hmethod
    · exact Or.inr fun result hresult => hmethod ((hown result).mp hresult).1
  · rintro (hmethod | hrefused) result
    · exact (and_iff_right hmethod).symm
    · exact iff_of_false (hrefused result) fun hown => hrefused result hown.2

/-- **When the aliases accept their own method only**: for every payload, exactly when its result
object has that method, or the primary endpoint does not accept it with the method replaced. -/
theorem aliasEndpoints_iff (H : HashFunction) (payload : Fields) :
    (AcceptsOwnMethod payload methodGetVerifiedState
        (parseEthGetVerifiedStateResult (.dict payload))
        (parseEthGetVerifiedProofResult (.dict (payload.replaceMethod methodGetVerifiedProof))) ↔
      payload.HasMethod methodGetVerifiedState ∨ ∀ result, parseEthGetVerifiedProofResult
        (.dict (payload.replaceMethod methodGetVerifiedProof)) ≠ .ok result) ∧
    (AcceptsOwnMethod payload methodGetStemProof
        (parseEthGetStemProofResult H (.dict payload)).outcome
        (parseEthGetStemWitnessResult H
          (.dict (payload.replaceMethod methodGetStemWitness))).outcome ↔
      payload.HasMethod methodGetStemProof ∨ ∀ result, (parseEthGetStemWitnessResult H
        (.dict (payload.replaceMethod methodGetStemWitness))).outcome ≠ .ok result) :=
  ⟨acceptsOwnMethod_iff (parseEthGetVerifiedStateResult_eq payload),
    acceptsOwnMethod_iff (parseEthGetStemProofResult_eq H payload)⟩

/-- A result of `eth_getVerifiedProof` is accepted by the alias `eth_getVerifiedState`. -/
theorem not_acceptsOwnMethod_verifiedProof :
    ∃ payload, ¬ AcceptsOwnMethod payload methodGetVerifiedState
      (parseEthGetVerifiedStateResult (.dict payload))
      (parseEthGetVerifiedProofResult (.dict (payload.replaceMethod methodGetVerifiedProof))) := by
  have hprovider : "provider" ≠ "" := by decide
  obtain ⟨payload, hmake, hparse⟩ := parse_makeEthGetVerifiedProofResult hprovider (le_refl 0)
    (by decide) (length_zeroBytes 32) (length_zeroBytes 32) proofEncodable_emptyKeyProof
    (Nat.zero_le _)
  simp only [makeEthGetVerifiedProofResult, u64Hex, py_bind_eq_ok_iff, raiseIf_eq_ok_iff,
    requireLen_eq_ok_iff, exists_const, pure, Except.pure, Except.ok.injEq] at hmake
  obtain ⟨-, -, -, -, number, ⟨-, -⟩, rfl⟩ := hmake
  have hown : ∀ {payload : Fields} {parsed : VerifiedProofRpcResult},
      parseEthGetVerifiedProofResult (.dict payload) = .ok parsed →
      payload.replaceMethod methodGetVerifiedProof = payload →
      AcceptsOwnMethod payload methodGetVerifiedState
        (parseEthGetVerifiedStateResult (.dict payload))
        (parseEthGetVerifiedProofResult (.dict (payload.replaceMethod methodGetVerifiedProof))) →
      payload.HasMethod methodGetVerifiedState := by
    intro payload parsed hparsed hsame hown
    rw [parseEthGetVerifiedStateResult_eq, hsame] at hown
    exact ((hown parsed).mp hparsed).1
  refine ⟨_, mt (hown hparse rfl) ?_⟩
  rintro ⟨result, hresult, hmethod⟩
  cases hresult
  have hother : (methodGetVerifiedProof == methodGetVerifiedState) = true := hmethod
  exact absurd hother (by decide)

end Pbt
