/-
# The query service of a wallet (`pbt/wallet.py`)

`PrivacyQueryService` answers from the redundant engine in its default mode and from a
private backend in the others, whose answers nothing verifies.  For the redundant mode:
when answers come without a proof or with one of the queried key and of the value they
show, a query has one outcome that the committed value and the number of verified answers
fix (`redundantMode_outcome`), and as many honest providers as the engine asks for are
enough (`redundantQuery_honest`).
-/
import PartitionedBinaryTree.ProofCompleteness
import PartitionedBinaryTree.RedundantQuery

namespace Pbt

/-! ## The service -/

/-- `LocalVerificationPolicy.require_verified` of the policy with the given `root_hash`. -/
def requireVerified (H : HashFunction) (policyRoot : Bytes) (response : RpcStateResponse) :
    HashPy VerifiedStateView := do
  let view ← HashPy.ofPyHash (classify H policyRoot response)
  if view.status ≠ .verified then
    HashPy.ofPy (.error ⟨.unverifiedResponseError,
      "response is unverified; wallet/client must remain in explicit unverified mode"⟩)
  else pure view

/-- `PrivateQueryBackend`: an answer or an exception for each address. -/
structure PrivateQueryBackend where
  queryBalance : Bytes → Py Bytes
  queryHistory : Bytes → Py (List Bytes)

/-- `PrivacyMode`. -/
inductive PrivacyMode
  | redundant
  | pir
  | oram
  deriving DecidableEq, Repr

/-- `PrivacyQueryService`, with the `root_hash` of its policy. -/
structure PrivacyQueryService where
  redundantEngine : RedundantQueryEngine
  policyRoot : Bytes
  mode : PrivacyMode
  backend : Option PrivateQueryBackend

namespace PrivacyQueryService

/-- `_require_backend`. -/
def requireBackend (service : PrivacyQueryService) : Py PrivateQueryBackend :=
  match service.backend with
  | none => raiseValueError "selected privacy mode requires a backend"
  | some backend => .ok backend

/-- `query_state_key`. -/
def queryStateKey (H : HashFunction) (service : PrivacyQueryService) (key : Bytes) :
    HashPy RedundantQueryResult :=
  service.redundantEngine.queryVerifiedValue H key service.policyRoot

/-- `query_balance`. -/
def queryBalance (H : HashFunction) (service : PrivacyQueryService) (address key : Bytes) :
    HashPy Bytes :=
  if service.mode = .redundant then do
    let result ← service.queryStateKey H key
    pure result.value
  else do
    let backend ← HashPy.ofPy service.requireBackend
    HashPy.ofPy (backend.queryBalance address)

/-- `query_history`. -/
def queryHistory (H : HashFunction) (service : PrivacyQueryService) (address key : Bytes) :
    HashPy (List Bytes) :=
  if service.mode = .redundant then do
    let result ← service.queryStateKey H key
    pure [result.value]
  else do
    let backend ← HashPy.ofPy service.requireBackend
    HashPy.ofPy (backend.queryHistory address)

end PrivacyQueryService

variable {H : HashFunction}

/-- `require_verified` returns the view of `classify` when it is verified. -/
theorem requireVerified_returns_iff {policyRoot : Bytes} {response : RpcStateResponse}
    {view : VerifiedStateView} {qs : List Bytes} :
    (requireVerified H policyRoot response).Returns view qs ↔
      classify H policyRoot response = .ok ⟨view, qs⟩ ∧ view.status = .verified := by
  simp only [requireVerified, HashPy.returns_bind_iff, HashPy.returns_ofPyHash_iff]
  constructor
  · rintro ⟨seen, qs₁, qs₂, hseen, hreturn, rfl⟩
    split_ifs at hreturn with hstatus
    · cases (HashPy.returns_ofPy_iff.mp hreturn).1
    · obtain ⟨rfl, rfl⟩ := HashPy.returns_pure_iff.mp hreturn
      rw [List.append_nil]
      exact ⟨hseen, not_not.mp hstatus⟩
  · rintro ⟨hseen, hstatus⟩
    refine ⟨view, qs, [], hseen, ?_, (List.append_nil qs).symm⟩
    rw [if_neg (not_not.mpr hstatus)]
    exact HashPy.returns_pure_iff.mpr ⟨rfl, rfl⟩

/-- **What `require_verified` lets through** came with a proof that `verify_proof` accepts, and
shows the key and the value of the response. -/
theorem requireVerified_sound {policyRoot : Bytes} {response : RpcStateResponse}
    {view : VerifiedStateView} {qs : List Bytes}
    (h : (requireVerified H policyRoot response).Returns view qs) :
    view.key = response.key ∧ view.value = response.value ∧ view.uiMode = .normal ∧
      ∃ proof, response.proof = some proof ∧
        verifyProof H policyRoot proof = .ok ⟨true, qs⟩ := by
  obtain ⟨hview, hstatus⟩ := requireVerified_returns_iff.mp h
  obtain ⟨-, hkey, hvalue, hmode, hproof⟩ := classify_spec hview
  obtain ⟨proof, ⟨verdict, queries⟩, hsome, hverify, haccepted, hqueries⟩ := hproof.mp hstatus
  cases haccepted
  cases hqueries
  exact ⟨hkey, hvalue, hmode.mpr hstatus, proof, hsome, hverify⟩

/-- In the private modes the backend's answer is returned as it is, and a service without a
backend raises: the providers, the policy and the key play no part. -/
theorem privateModes_outcome {service : PrivacyQueryService} (hmode : service.mode ≠ .redundant)
    (address key : Bytes) :
    (service.queryBalance H address key).outcome =
        service.requireBackend >>= (·.queryBalance address) ∧
      (service.queryHistory H address key).outcome =
        service.requireBackend >>= (·.queryHistory address) := by
  rw [PrivacyQueryService.queryBalance, PrivacyQueryService.queryHistory, if_neg hmode,
    if_neg hmode, HashPy.outcome_bind, HashPy.outcome_bind]
  exact ⟨rfl, rfl⟩

/-! ## Answers that carry what they show -/

/-- The provider answers the query, and its answer carries no proof, or one of the queried key
and of the value that it shows, in the widths of the proof formats. -/
def CarriesProof (key : Bytes) (provider : QueryProvider) : Prop :=
  ∃ response, provider.query key = .ok response ∧ ∀ proof, response.proof = some proof →
    proof.key = key ∧ proof.value = response.value ∧ (∀ v ∈ proof.stemValues, v.length = 32) ∧
      ∀ σ ∈ proof.pathSiblings, σ.length < 8172

section Queries

variable {t : Node} {key : Bytes} {v : Value}

/-- `get` answers keys of at least two bytes only. -/
theorem two_le_length_of_get (hget : get t key = .ok v) : 2 ≤ key.length := by
  by_contra hlen
  rw [get, splitKey_of_short (not_le.mp hlen)] at hget
  cases hget

/-- One round of the loop hashes what `classify` hashes. -/
theorem checkProvider_returns {policyRoot : Bytes} {response : RpcStateResponse}
    {view : Logged Bytes VerifiedStateView} {provider : QueryProvider} (tally : Tally)
    (hquery : provider.query key = .ok response)
    (hview : classify H policyRoot response = .ok view) :
    ∃ after, (RedundantQueryEngine.checkProvider H policyRoot key tally provider).Returns after
      view.queries := by
  obtain ⟨after, hafter⟩ : ∃ after, HashPy.Returns (if view.val.status = .verified then
      pure { buckets := OrderedDict.pushItem view.val.value provider.name tally.buckets
             checked := tally.checked ++ [provider.name] }
      else pure { tally with checked := tally.checked ++ [provider.name] } : HashPy Tally)
        after [] := by
    split_ifs
    · exact ⟨_, .pure _⟩
    · exact ⟨_, .pure _⟩
  have hreturns : (RedundantQueryEngine.checkProvider H policyRoot key tally provider).Returns
      after ([] ++ (view.queries ++ [])) :=
    (HashPy.Returns.ofPy hquery).bind ((HashPy.returns_ofPyHash_iff.mpr hview).bind hafter)
  rw [List.nil_append, List.append_nil] at hreturns
  exact ⟨after, hreturns⟩

/-- A vote is the value of the response, when its view is verified. -/
theorem verifiedValue_of_classify {policyRoot : Bytes} {response : RpcStateResponse}
    {view : Logged Bytes VerifiedStateView} {provider : QueryProvider}
    (hquery : provider.query key = .ok response)
    (hview : classify H policyRoot response = .ok view) :
    verifiedValue H policyRoot key provider =
      .ok (if view.val.status = .verified then some response.value else none) := by
  rw [verifiedValue, hquery, py_ok_bind, hview, py_ok_bind, (classify_spec hview).2.2.1]
  rfl

/-- The policy classifies such an answer, whatever it carries: its key can be split. -/
theorem classify_carriesProof (policyRoot : Bytes) {response : RpcStateResponse}
    (hlen : 2 ≤ key.length) (hkey : ∀ proof, response.proof = some proof → proof.key = key) :
    ∃ view, classify H policyRoot response = .ok view := by
  cases hproof : response.proof with
  | none => exact ⟨_, classify_none H policyRoot hproof⟩
  | some proof =>
      rw [classify_some H policyRoot hproof]
      cases hverify : verifyProof H policyRoot proof with
      | error e =>
          have hshort := verifyProof_fails_iff.mp ⟨e, hverify⟩
          rw [hkey proof hproof] at hshort
          exact absurd hlen (not_le.mpr hshort)
      | ok w => exact ⟨_, rfl⟩

/-- **One round of the loop** on such an answer returns, and a verified answer shows the committed
value, unless two strings hashed for the root or in the round collide. -/
theorem checkProvider_carriesProof (ht : Reachable t) (hget : get t key = .ok v) (tally : Tally)
    {provider : QueryProvider} (h : CarriesProof key provider) :
    ∃ after qs, (RedundantQueryEngine.checkProvider H (rootHash H t).val.val key tally
        provider).Returns after qs ∧
      ((∀ value, verifiedValue H (rootHash H t).val.val key provider = .ok (some value) →
        value = v.val) ∨ Collision H ((rootHash H t).queries ++ qs)) := by
  obtain ⟨response, hquery, hcarried⟩ := h
  obtain ⟨view, hview⟩ := classify_carriesProof (H := H) (rootHash H t).val.val
    (two_le_length_of_get hget) fun proof hproof => (hcarried proof hproof).1
  obtain ⟨after, hreturns⟩ := checkProvider_returns tally hquery hview
  refine ⟨after, view.queries, hreturns, ?_⟩
  rw [verifiedValue_of_classify hquery hview]
  by_cases hstatus : view.val.status = .verified
  · obtain ⟨proof, w, hproof, hverify, hacc, hqueries⟩ :=
      (classify_spec hview).2.2.2.2.mp hstatus
    obtain ⟨hkey, hvalue, hvalues, hsiblings⟩ := hcarried proof hproof
    rw [← hqueries]
    -- the proof is sound, and it is about the queried key and the shown value
    rcases soundAt_of_widths ht hvalues hsiblings w hverify hacc with hholds | hcol
    · refine Or.inl fun value hshows => ?_
      rw [if_pos hstatus, ← hvalue] at hshows
      rw [Holds, hkey, hget] at hholds
      rw [← Option.some.inj (Except.ok.inj hshows)]
      exact (Except.ok.inj hholds).symm
    · exact Or.inr hcol
  · refine Or.inl fun value hshows => ?_
    rw [if_neg hstatus] at hshows
    cases hshows

/-- **The loop** returns, and the verified answers all show the committed value, unless two strings
hashed for the root or in the loop collide. -/
theorem checkProviders_carriesProof (ht : Reachable t) (hget : get t key = .ok v)
    {providers : List QueryProvider} (h : ∀ provider ∈ providers, CarriesProof key provider)
    (tally : Tally) :
    ∃ after qs, (providers.foldlM (RedundantQueryEngine.checkProvider H (rootHash H t).val.val key)
        tally).Returns after qs ∧
      ((∀ provider ∈ providers, ∀ value, verifiedValue H (rootHash H t).val.val key provider =
        .ok (some value) → value = v.val) ∨ Collision H ((rootHash H t).queries ++ qs)) := by
  induction providers generalizing tally with
  | nil => exact ⟨tally, [], .pure tally, Or.inl fun _ hprovider => by cases hprovider⟩
  | cons provider providers ih =>
      obtain ⟨hprovider, hproviders⟩ := List.forall_mem_cons.mp h
      obtain ⟨next, qs, hround, hfirst⟩ :=
        checkProvider_carriesProof (H := H) ht hget tally hprovider
      obtain ⟨after, qs', hloop, hrest⟩ := ih hproviders next
      refine ⟨after, qs ++ qs', ?_, ?_⟩
      · rw [List.foldlM_cons]
        exact hround.bind hloop
      · rcases hfirst with hfirst | hcol
        · rcases hrest with hrest | hcol
          · exact Or.inl (List.forall_mem_cons.mpr ⟨hfirst, hrest⟩)
          · exact Or.inr (hcol.mono_append (List.Subset.refl _) (List.subset_append_right _ _))
        · exact Or.inr (hcol.mono_append (List.Subset.refl _) (List.subset_append_left _ _))

end Queries

/-! ## Counting the verified answers -/

/-- What a query comes to when the verified answers all show one value: it is returned when there
are enough of them. -/
def counted (engine : RedundantQueryEngine) (value : Bytes) (verified : List (Bytes × String)) :
    Py RedundantQueryResult :=
  if verified = [] then
    .error ⟨.unverifiedResponseError, "no provider returned a locally verified response"⟩
  else if verified.length < engine.minAgreement then
    .error ⟨.unverifiedResponseError,
      "insufficient cross-provider agreement among locally verified responses"⟩
  else .ok {
    value := value
    agreedProviders := sortedNames (verified.map Prod.snd)
    checkedProviders := sortedNames (engine.providers.map QueryProvider.name) }

/-- Votes for one value are one group. -/
theorem argmax_group_of_forall {verified : List (Bytes × String)} {value : Bytes}
    (h : ∀ vote ∈ verified, vote.1 = value) :
    (OrderedDict.items (OrderedDict.group verified)).argmax (fun pair => pair.2.length) =
      if verified = [] then none else some (value, verified.map Prod.snd) := by
  split_ifs with hnone
  · rw [hnone]
    rfl
  · have hvalues : verified.map Prod.fst = List.replicate verified.length value := by
      refine List.eq_replicate_iff.mpr ⟨List.length_map _, fun x hx => ?_⟩
      obtain ⟨vote, hvote, rfl⟩ := List.mem_map.mp hx
      exact h vote hvote
    have hall : verified.filter (·.1 = value) = verified := by
      rw [List.filter_eq_self]
      exact fun vote hvote => decide_eq_true (h vote hvote)
    have hlength : verified.length ≠ 0 := mt List.length_eq_zero_iff.mp hnone
    refine (OrderedDict.argmax_group _ _ _).mpr ⟨?_, by rw [hall]⟩
    rw [hvalues]
    exact (OrderedDict.leads_replicate hlength value).1

/-- **Votes for one value** decide a query by their number. -/
theorem outcome_queryVerifiedValue_of_forall {engine : RedundantQueryEngine}
    {policyRoot key value : Bytes} (hall : AllAnswer H policyRoot key engine.providers)
    (h : ∀ vote ∈ votes H policyRoot key engine.providers, vote.1 = value) :
    (engine.queryVerifiedValue H key policyRoot).outcome =
      counted engine value (votes H policyRoot key engine.providers) := by
  have hloop : (engine.providers.foldlM (RedundantQueryEngine.checkProvider H policyRoot key)
      ⟨∅, []⟩).outcome = .ok ⟨OrderedDict.group (votes H policyRoot key engine.providers),
        engine.providers.map QueryProvider.name⟩ :=
    (outcome_checkProviders _ _).mpr ⟨hall, rfl, rfl⟩
  rw [RedundantQueryEngine.queryVerifiedValue, HashPy.outcome_bind, hloop, py_ok_bind, counted]
  dsimp only
  rw [argmax_group_of_forall h]
  split_ifs with hnone hfew
  · rfl
  · dsimp only
    rw [List.length_map, if_pos hfew]
    rfl
  · dsimp only
    rw [List.length_map, if_neg hfew]
    rfl

/-! ## The redundant mode -/

/-- What a call hashes after another one has returned. -/
theorem HashPy.queries_bind_of_returns {α β : Type} {x : HashPy α} {f : α → HashPy β} {a : α}
    {qs : List Bytes} (h : x.Returns a qs) :
    (x >>= f).run.queries = qs ++ (f a).run.queries := by
  rw [ExceptT.run_bind, h]
  rfl

/-- **The outcome of a redundant query** when answers carry what they show. -/
theorem outcome_queryVerifiedValue_of_carriesProof {t : Node} (ht : Reachable t)
    (engine : RedundantQueryEngine) {key : Bytes} {v : Value} (hget : get t key = .ok v)
    (hcarry : ∀ provider ∈ engine.providers, CarriesProof key provider) :
    (engine.queryVerifiedValue H key (rootHash H t).val.val).outcome =
        counted engine v.val (votes H (rootHash H t).val.val key engine.providers) ∨
      Collision H ((rootHash H t).queries ++
        (engine.queryVerifiedValue H key (rootHash H t).val.val).run.queries) := by
  obtain ⟨after, qs, hloop, hvalues⟩ :=
    checkProviders_carriesProof (H := H) ht hget hcarry ⟨∅, []⟩
  rcases hvalues with hvalues | hcol
  · left
    obtain ⟨hall, -, -⟩ := (outcome_checkProviders _ _).mp (HashPy.outcome_eq_ok_iff.mpr ⟨qs, hloop⟩)
    refine outcome_queryVerifiedValue_of_forall hall fun vote hvote => ?_
    obtain ⟨provider, hprovider, hshown, -⟩ := mem_votes.mp hvote
    exact hvalues provider hprovider vote.1 hshown
  · right
    refine hcol.mono_append (List.Subset.refl _) ?_
    rw [RedundantQueryEngine.queryVerifiedValue, HashPy.queries_bind_of_returns hloop]
    exact List.subset_append_left _ _

/-- **What the redundant mode answers.**  Let the policy trust the root of a reachable tree, and
let every provider answer the key without a proof, or with one of this key and of the value that
it shows.  Then the committed value is answered by all three queries when enough answers are
verified, and otherwise they raise that no answer, or not enough of them, could be verified;
unless two strings hashed for the root or by the query collide. -/
theorem redundantMode_outcome (H : HashFunction) (t : Node) (ht : Reachable t)
    (service : PrivacyQueryService) (hmode : service.mode = .redundant)
    (hroot : service.policyRoot = (rootHash H t).val.val) (address key : Bytes) (v : Value)
    (hget : get t key = .ok v)
    (hcarry : ∀ provider ∈ service.redundantEngine.providers, CarriesProof key provider) :
    ((service.queryStateKey H key).outcome = counted service.redundantEngine v.val
        (votes H service.policyRoot key service.redundantEngine.providers) ∧
      (service.queryBalance H address key).outcome = (counted service.redundantEngine v.val
        (votes H service.policyRoot key service.redundantEngine.providers)).map (·.value) ∧
      (service.queryHistory H address key).outcome = (counted service.redundantEngine v.val
        (votes H service.policyRoot key service.redundantEngine.providers)).map
          fun result => [result.value]) ∨
      Collision H ((rootHash H t).queries ++ (service.queryStateKey H key).run.queries) := by
  rw [PrivacyQueryService.queryBalance, PrivacyQueryService.queryHistory, if_pos hmode,
    if_pos hmode, HashPy.outcome_bind, HashPy.outcome_bind, PrivacyQueryService.queryStateKey, hroot]
  rcases outcome_queryVerifiedValue_of_carriesProof (H := H) ht _ hget hcarry with houtcome | hcol
  · left
    rw [houtcome]
    cases counted service.redundantEngine v.val
      (votes H (rootHash H t).val.val key service.redundantEngine.providers) with
    | error e => exact ⟨rfl, rfl, rfl⟩
    | ok result => exact ⟨rfl, rfl, rfl⟩
  · exact Or.inr hcol

/-- The key of a lone stem is answered from the stem. -/
theorem get_lone {s : Bytes} (hs : s ≠ []) (i : Fin stemSubtreeWidth) (v : Value) :
    get (.stemNode s (emptyStem.set i v i.isLt)) (joinKey s i) = .ok v := by
  rw [get_joinKey hs, storedStem, BitTrie.lookup, if_pos rfl, Option.getD_some, getElem_set_slot,
    if_pos rfl]

/-- A provider of a lone stem carries what it shows. -/
theorem carriesProof_loneProvider (name : String) :
    CarriesProof (joinKey [7] 0) (loneProvider name) := by
  refine ⟨_, query_loneProvider name _, fun proof hproof => ?_⟩
  cases hproof
  exact ⟨rfl, rfl, length_of_mem_stemBytes, fun _ hσ => absurd hσ List.not_mem_nil⟩

/-- Two providers of a lone stem, asked for its value. -/
theorem redundantMode_outcome_lone :
    ((PrivacyQueryService.queryBalance (fun _ => emptyValue) ⟨⟨[loneProvider "a",
        loneProvider "b"], 2⟩, emptyValue.val, .redundant, none⟩ [] (joinKey [7] 0)).outcome =
      (counted ⟨[loneProvider "a", loneProvider "b"], 2⟩ onesDigest.val
        (votes (fun _ => emptyValue) emptyValue.val (joinKey [7] 0)
          [loneProvider "a", loneProvider "b"])).map (·.value)) ∨
      Collision (fun _ => emptyValue) ((rootHash (fun _ => emptyValue)
        (.stemNode [7] (emptyStem.set 0 onesDigest))).queries ++
        (PrivacyQueryService.queryStateKey (fun _ => emptyValue) ⟨⟨[loneProvider "a",
          loneProvider "b"], 2⟩, emptyValue.val, .redundant, none⟩
            (joinKey [7] 0)).run.queries) := by
  have hcarry : ∀ provider ∈ [loneProvider "a", loneProvider "b"],
      CarriesProof (joinKey [7] 0) provider := by
    intro provider hprovider
    rcases List.mem_pair.mp hprovider with rfl | rfl
    · exact carriesProof_loneProvider "a"
    · exact carriesProof_loneProvider "b"
  rcases redundantMode_outcome (fun _ => emptyValue) _ (reachable_stemNode (by simp) 0 onesDigest)
    ⟨⟨[loneProvider "a", loneProvider "b"], 2⟩, emptyValue.val, .redundant, none⟩ rfl rfl []
    (joinKey [7] 0) onesDigest (get_lone (by simp) 0 onesDigest) hcarry with houtcome | hcol
  · exact Or.inl houtcome.2.1
  · exact Or.inr hcol

/-! ## Honest providers -/

/-- The provider answers with the proof of the key that `get_proof` generates. -/
def AnswersHonestly (H : HashFunction) (t : Node) (key : Bytes) (provider : QueryProvider) : Prop :=
  ∃ p name, getProof H t key = .ok p ∧
    provider.query key = .ok ⟨name, key, p.val.value, some p.val⟩

theorem AnswersHonestly.carriesProof {t : Node} {key : Bytes} {provider : QueryProvider}
    (h : AnswersHonestly H t key provider) : CarriesProof key provider := by
  obtain ⟨p, name, hp, hquery⟩ := h
  obtain ⟨hkey, -, hvalues, -, -, hsiblings, -⟩ := getProof_widths hp
  refine ⟨_, hquery, fun proof hproof => ?_⟩
  cases hproof
  exact ⟨hkey, rfl, hvalues, fun σ hσ => by rw [hsiblings σ hσ]; norm_num⟩

/-- The provider of a tree. -/
def honestProvider (H : HashFunction) (t : Node) (name : String) : QueryProvider where
  name := name
  query key := (getProof H t key).map fun p => ⟨name, key, p.val.value, some p.val⟩

theorem answersHonestly_honestProvider {t : Node} {key : Bytes} (hkey : 2 ≤ key.length)
    (name : String) : AnswersHonestly H t key (honestProvider H t name) := by
  obtain ⟨s, i, hsplit, rfl⟩ := exists_splitKey hkey
  obtain ⟨p, hp, -⟩ := getProof_spec (H := H) t hsplit
  refine ⟨p, name, hp, ?_⟩
  show (getProof H t (joinKey s i)).map _ = _
  rw [hp]
  rfl

/-- For a key of a stored stem such an answer is verified, and shows the committed value. -/
theorem AnswersHonestly.verifiedValue_eq {t : Node} {key : Bytes} {v : Value}
    {provider : QueryProvider} (h : AnswersHonestly H t key provider) (hget : get t key = .ok v)
    (hstem : storedStem t key.dropLast ≠ none) :
    verifiedValue H (rootHash H t).val.val key provider = .ok (some v.val) := by
  obtain ⟨p, name, hp, hquery⟩ := h
  obtain ⟨s, i, hsplit, rfl⟩ := exists_splitKey (two_le_length_of_get hget)
  rw [dropLast_joinKey] at hstem
  obtain ⟨vs, hvs⟩ := Option.ne_none_iff_exists'.mp hstem
  obtain ⟨q, hq, hholds, w, hw, hacc⟩ := completeAt_of_storedStem (H := H) hsplit hvs
  rw [hp] at hq
  cases hq
  rw [Holds, hget] at hholds
  have hview := classify_some H (rootHash H t).val.val
    (rfl : (⟨name, joinKey s i, p.val.value, some p.val⟩ : RpcStateResponse).proof = some p.val)
  rw [hw] at hview
  rw [verifiedValue_of_classify hquery hview]
  show Except.ok (if (if w.val = true then VerificationStatus.verified
    else VerificationStatus.unverified) = .verified then some p.val.value else none) = _
  rw [if_pos hacc, if_pos rfl, ← Except.ok.inj hholds]

/-- Honest answers are counted. -/
theorem length_le_votes {t : Node} {key : Bytes} {v : Value} (hget : get t key = .ok v)
    (hstem : storedStem t key.dropLast ≠ none) {honest providers : List QueryProvider}
    (hsub : honest.Sublist providers)
    (hhonest : ∀ provider ∈ honest, AnswersHonestly H t key provider) :
    honest.length ≤ (votes H (rootHash H t).val.val key providers).length := by
  have hvotes : votes H (rootHash H t).val.val key honest =
      honest.map fun provider => (v.val, provider.name) := by
    rw [votes, ← List.filterMap_eq_map']
    refine List.filterMap_congr fun provider hprovider => ?_
    rw [(hhonest provider hprovider).verifiedValue_eq hget hstem]
  have hle : (votes H (rootHash H t).val.val key honest).length ≤
      (votes H (rootHash H t).val.val key providers).length :=
    (List.Sublist.filterMap _ hsub).length_le
  rw [hvotes, List.length_map] at hle
  exact hle

/-- **Honest providers are enough.**  For an engine that the constructor accepts and a key of a
stored stem: when `min_agreement` of its providers answer with the proof that `get_proof`
generates, the redundant mode returns the committed value, whatever values the others show
without a proof or with proofs of them; unless two hashed strings collide. -/
theorem redundantQuery_honest (H : HashFunction) (t : Node) (ht : Reachable t)
    (providers honest : List QueryProvider) (minAgreement : ℤ) (engine : RedundantQueryEngine)
    (hnew : RedundantQueryEngine.new providers minAgreement = .ok engine) (key : Bytes) (v : Value)
    (hget : get t key = .ok v) (hstem : storedStem t key.dropLast ≠ none)
    (hcarry : ∀ provider ∈ providers, CarriesProof key provider)
    (hsub : honest.Sublist providers)
    (hhonest : ∀ provider ∈ honest, AnswersHonestly H t key provider)
    (henough : minAgreement ≤ honest.length) :
    (∃ result, (engine.queryVerifiedValue H key (rootHash H t).val.val).outcome = .ok result ∧
      result.value = v.val) ∨
    Collision H ((rootHash H t).queries ++
      (engine.queryVerifiedValue H key (rootHash H t).val.val).run.queries) := by
  simp only [RedundantQueryEngine.new, py_bind_eq_ok_iff, raiseIf_eq_ok_iff, exists_const, pure,
    Except.pure, Except.ok.injEq, not_lt] at hnew
  obtain ⟨-, hmin, rfl⟩ := hnew
  have hcount := length_le_votes hget hstem hsub hhonest
  rcases outcome_queryVerifiedValue_of_carriesProof (H := H) ht ⟨providers, minAgreement⟩ hget
    hcarry with houtcome | hcol
  · left
    have hvotes : ¬ votes H (rootHash H t).val.val key providers = [] := by
      intro hnil
      rw [hnil, List.length_nil] at hcount
      omega
    have hmany : ¬ ((votes H (rootHash H t).val.val key providers).length : ℤ) < minAgreement := by
      omega
    rw [houtcome, counted, if_neg hvotes, if_neg hmany]
    exact ⟨_, rfl, rfl⟩
  · exact Or.inr hcol

/-- A provider that shows a value of its own, without a proof. -/
def unprovenProvider (name : String) (value : Bytes) : QueryProvider where
  name := name
  query key := .ok ⟨name, key, value, none⟩

/-- Two honest providers of a lone stem outvote one without a proof. -/
theorem redundantQuery_honest_two_of_three :
    (∃ result, (RedundantQueryEngine.queryVerifiedValue (fun _ => emptyValue)
        ⟨[unprovenProvider "c" [1],
          honestProvider (fun _ => emptyValue) (.stemNode [7] (emptyStem.set 0 onesDigest)) "a",
          honestProvider (fun _ => emptyValue) (.stemNode [7] (emptyStem.set 0 onesDigest)) "b"],
          2⟩ (joinKey [7] 0) emptyValue.val).outcome = .ok result ∧
      result.value = onesDigest.val) ∨
    Collision (fun _ => emptyValue) ((rootHash (fun _ => emptyValue)
      (.stemNode [7] (emptyStem.set 0 onesDigest))).queries ++
      (RedundantQueryEngine.queryVerifiedValue (fun _ => emptyValue)
        ⟨[unprovenProvider "c" [1],
          honestProvider (fun _ => emptyValue) (.stemNode [7] (emptyStem.set 0 onesDigest)) "a",
          honestProvider (fun _ => emptyValue) (.stemNode [7] (emptyStem.set 0 onesDigest)) "b"],
          2⟩ (joinKey [7] 0) emptyValue.val).run.queries) := by
  have hlen : 2 ≤ (joinKey [7] 0).length := by decide
  have hanswers := fun name => answersHonestly_honestProvider (H := fun _ => emptyValue)
    (t := .stemNode [7] (emptyStem.set 0 onesDigest)) hlen name
  have hstem : storedStem (.stemNode [7] (emptyStem.set 0 onesDigest))
      (joinKey [7] 0).dropLast ≠ none := by
    rw [dropLast_joinKey, storedStem, BitTrie.lookup, if_pos rfl]
    exact Option.some_ne_none _
  refine redundantQuery_honest (fun _ => emptyValue) _
    (reachable_stemNode (by simp) 0 onesDigest) _
    [honestProvider (fun _ => emptyValue) (.stemNode [7] (emptyStem.set 0 onesDigest)) "a",
      honestProvider (fun _ => emptyValue) (.stemNode [7] (emptyStem.set 0 onesDigest)) "b"] 2 _ rfl
    (joinKey [7] 0) onesDigest (get_lone (by simp) 0 onesDigest) hstem ?_
    (List.sublist_cons_self _ _) ?_ (by decide)
  · intro provider hprovider
    rcases List.mem_cons.mp hprovider with rfl | hprovider
    · exact ⟨_, rfl, fun proof hproof => by cases hproof⟩
    · rcases List.mem_pair.mp hprovider with rfl | rfl
      · exact (hanswers "a").carriesProof
      · exact (hanswers "b").carriesProof
  · intro provider hprovider
    rcases List.mem_pair.mp hprovider with rfl | rfl
    · exact hanswers "a"
    · exact hanswers "b"

end Pbt
