/-
# The fetch policy of a light client (`pbt/stem_subscription.py`)

A `StemFetchPolicy` accepts a response when enough providers sent fresh packets that
verify and agree.  The loop of `verify_redundant_packet_set` counts ballots until there
is a quorum (`outcome_countAgreeing`), so that `accepts_iff` can say what is accepted
without it, and `redundantPacketSet_iff` what the count returns in any order.

A packet whose key cannot be split makes the count raise, where every other bad packet
is skipped: `accepts_inserted_iff` says which packets an accepted response can have
inserted, and `not_accepts_shortKey` shows one that it cannot.
-/
import PartitionedBinaryTree.Lib.Quorum
import PartitionedBinaryTree.EndpointLimits

namespace Pbt

/-! ## The policy -/

/-- `StemFetchPolicy`, as `__post_init__` lets it be built. -/
structure StemFetchPolicy where
  bucketCount : ℤ
  coverCount : ℤ
  requiredProviderMatches : ℤ
  providerRedundancy : ℤ
  maxEpochLag : ℤ
  maxFutureEpochSkew : ℤ
  bucketCount_pos : 0 < bucketCount
  coverCount_nonneg : 0 ≤ coverCount
  requiredProviderMatches_pos : 0 < requiredProviderMatches
  providerRedundancy_nonneg : 0 ≤ providerRedundancy
  maxEpochLag_nonneg : 0 ≤ maxEpochLag
  maxFutureEpochSkew_nonneg : 0 ≤ maxFutureEpochSkew
  deriving DecidableEq

/-- `StemFetchPolicy(bucket_count, cover_count, …)`, with the checks of `__post_init__`. -/
def StemFetchPolicy.new (bucketCount : ℤ := 64) (coverCount : ℤ := 2)
    (requiredProviderMatches : ℤ := 2) (providerRedundancy : ℤ := 1) (maxEpochLag : ℤ := 2)
    (maxFutureEpochSkew : ℤ := 0) : Py StemFetchPolicy :=
  if hbucket : bucketCount ≤ 0 then raiseValueError "bucket_count must be positive"
  else if hcover : coverCount < 0 then raiseValueError "cover_count must be non-negative"
  else if hrequired : requiredProviderMatches ≤ 0 then
    raiseValueError "required_provider_matches must be positive"
  else if hredundancy : providerRedundancy < 0 then
    raiseValueError "provider_redundancy must be non-negative"
  else if hlag : maxEpochLag < 0 then raiseValueError "max_epoch_lag must be non-negative"
  else if hskew : maxFutureEpochSkew < 0 then
    raiseValueError "max_future_epoch_skew must be non-negative"
  else .ok {
    bucketCount := bucketCount
    coverCount := coverCount
    requiredProviderMatches := requiredProviderMatches
    providerRedundancy := providerRedundancy
    maxEpochLag := maxEpochLag
    maxFutureEpochSkew := maxFutureEpochSkew
    bucketCount_pos := not_le.mp hbucket
    coverCount_nonneg := nonneg_of_not_neg hcover
    requiredProviderMatches_pos := not_le.mp hrequired
    providerRedundancy_nonneg := nonneg_of_not_neg hredundancy
    maxEpochLag_nonneg := nonneg_of_not_neg hlag
    maxFutureEpochSkew_nonneg := nonneg_of_not_neg hskew }

/-! ## The response -/

/-- `verify_packet_freshness`. -/
def verifyPacketFreshness (packet : StemWitnessPacket) (currentEpoch : ℤ) (maxEpochLag : ℤ := 2)
    (maxFutureEpochSkew : ℤ := 0) : Bool :=
  if currentEpoch < 0 then false
  else if maxEpochLag < 0 then false
  else if maxFutureEpochSkew < 0 then false
  else if packet.epoch > currentEpoch + maxFutureEpochSkew then false
  else if currentEpoch - packet.epoch > maxEpochLag then false
  else true

/-- The key, value and block root that packets agree on. -/
abbrev Fingerprint := Bytes × Bytes × Bytes

/-- `(packet.key, packet.value, packet.block_root)`. -/
def StemWitnessPacket.fingerprint (packet : StemWitnessPacket) : Fingerprint :=
  (packet.key, packet.value, packet.blockRoot)

/-- The loop of `verify_redundant_packet_set`. -/
def countAgreeing (H : HashFunction) (requiredMatches : ℤ) (expectedBlockRoot : Bytes) :
    OrderedDict Fingerprint (Finset Bytes) → List (StemWitnessPacket × Bytes) → HashPy Bool
  | _, [] => pure false
  | agreeing, (packet, providerId) :: pairs =>
      if packet.blockRoot ≠ expectedBlockRoot then
        countAgreeing H requiredMatches expectedBlockRoot agreeing pairs
      else do
        let valid ← verifyWitnessPacket H packet
        if ¬ valid then countAgreeing H requiredMatches expectedBlockRoot agreeing pairs
        else
          let providers := Insert.insert providerId ((agreeing.lookup packet.fingerprint).getD ∅)
          let agreeing := OrderedDict.setItem packet.fingerprint providers agreeing
          if requiredMatches ≤ providers.card then pure true
          else countAgreeing H requiredMatches expectedBlockRoot agreeing pairs

/-- `verify_redundant_packet_set`. -/
def verifyRedundantPacketSet (H : HashFunction) (packets : List StemWitnessPacket)
    (providerIds : List Bytes) (requiredMatches : ℤ) (expectedBlockRoot : Bytes) :
    HashPy Bool := do
  HashPy.ofPy (raiseIf (requiredMatches ≤ 0) "required_matches must be positive")
  HashPy.ofPy (raiseIf (packets.length ≠ providerIds.length)
    "packets/provider_ids length mismatch")
  countAgreeing H requiredMatches expectedBlockRoot ∅ (packets.zip providerIds)

namespace StemFetchPolicy

/-- The policy's call of `verify_packet_freshness`. -/
def fresh (policy : StemFetchPolicy) (currentEpoch : ℤ) (packet : StemWitnessPacket) : Bool :=
  verifyPacketFreshness packet currentEpoch policy.maxEpochLag policy.maxFutureEpochSkew

/-- `evaluate_response`. -/
def evaluateResponse (H : HashFunction) (policy : StemFetchPolicy)
    (packets : List StemWitnessPacket) (providerIds : List Bytes) (expectedBlockRoot : Bytes)
    (currentEpoch : ℤ) : HashPy LocalVerificationResult := do
  let freshPairs := (packets.zip providerIds).filter fun pair => policy.fresh currentEpoch pair.1
  if freshPairs.length < policy.requiredProviderMatches then
    pure ⟨false, "insufficient fresh packets for quorum"⟩
  else do
    let ok ← verifyRedundantPacketSet H (freshPairs.map Prod.fst) (freshPairs.map Prod.snd)
      policy.requiredProviderMatches expectedBlockRoot
    if ¬ ok then pure ⟨false, "redundant provider agreement failed"⟩
    else pure ⟨true, "fresh redundant quorum locally verified"⟩

end StemFetchPolicy

/-! ## Packets as ballots -/

/-- A packet under the expected root that verifies is its provider's vote for what it shows. -/
def packetBallot (H : HashFunction) (expectedBlockRoot : Bytes)
    (pair : StemWitnessPacket × Bytes) : Py (Option (Fingerprint × Bytes)) :=
  if pair.1.blockRoot ≠ expectedBlockRoot then .ok none
  else (verifyWitnessPacket H pair.1).outcome.map fun valid =>
    if valid then some (pair.1.fingerprint, pair.2) else none

variable {H : HashFunction} {expectedBlockRoot : Bytes} {pair : StemWitnessPacket × Bytes}

theorem packetBallot_fails_iff : Quorum.Fails (packetBallot H expectedBlockRoot) pair ↔
    pair.1.blockRoot = expectedBlockRoot ∧ pair.1.key.length < 2 := by
  rw [Quorum.Fails, packetBallot, ← verifyWitnessPacket_fails_iff (H := H)]
  by_cases hroot : pair.1.blockRoot = expectedBlockRoot
  · rw [if_neg (not_not.mpr hroot)]
    cases (verifyWitnessPacket H pair.1).outcome with
    | error e => simp [Except.map, hroot]
    | ok valid => simp [Except.map]
  · simp [hroot]

theorem packetBallot_eq_some_iff {vote : Fingerprint × Bytes} :
    packetBallot H expectedBlockRoot pair = .ok (some vote) ↔
      pair.1.blockRoot = expectedBlockRoot ∧ (verifyWitnessPacket H pair.1).outcome = .ok true ∧
        (pair.1.fingerprint, pair.2) = vote := by
  rw [packetBallot]
  by_cases hroot : pair.1.blockRoot = expectedBlockRoot
  · rw [if_neg (not_not.mpr hroot)]
    cases (verifyWitnessPacket H pair.1).outcome with
    | error e => simp [Except.map]
    | ok valid => cases valid <;> simp [Except.map, hroot]
  · simp [hroot]

/-- **The loop** counts the packets as ballots until there is a quorum. -/
theorem outcome_countAgreeing (requiredMatches : ℤ)
    (agreeing : OrderedDict Fingerprint (Finset Bytes)) (pairs : List (StemWitnessPacket × Bytes)) :
    (countAgreeing H requiredMatches expectedBlockRoot agreeing pairs).outcome =
      Quorum.countUntil (packetBallot H expectedBlockRoot) requiredMatches agreeing pairs := by
  induction pairs generalizing agreeing with
  | nil => rfl
  | cons pair pairs ih =>
      obtain ⟨packet, providerId⟩ := pair
      rw [countAgreeing, Quorum.countUntil, packetBallot]
      by_cases hroot : packet.blockRoot = expectedBlockRoot
      · rw [if_neg (not_not.mpr hroot), if_neg (not_not.mpr hroot), HashPy.outcome_bind]
        cases (verifyWitnessPacket H packet).outcome with
        | error e => rfl
        | ok valid =>
            cases valid with
            | false => exact ih agreeing
            | true =>
                -- the set that is stored is the one that is looked up again
                have hlookup : ((Quorum.addVote packet.fingerprint providerId agreeing).lookup
                    packet.fingerprint).getD ∅ =
                      Insert.insert providerId ((agreeing.lookup packet.fingerprint).getD ∅) := by
                  rw [Quorum.addVote, OrderedDict.lookup_setItem, if_pos rfl, Option.getD_some]
                simp only [bind, Except.bind, Except.map, if_true, hlookup, not_true, if_false]
                split_ifs
                · rfl
                · exact ih _
      · rw [if_pos hroot, if_pos hroot]
        exact ih agreeing

/-- `verify_redundant_packet_set` on its own arguments. -/
theorem outcome_verifyRedundantPacketSet {packets : List StemWitnessPacket}
    {providerIds : List Bytes} {requiredMatches : ℤ} (hrequired : 0 < requiredMatches)
    (hlength : packets.length = providerIds.length) :
    (verifyRedundantPacketSet H packets providerIds requiredMatches expectedBlockRoot).outcome =
      Quorum.countUntil (packetBallot H expectedBlockRoot) requiredMatches ∅
        (packets.zip providerIds) := by
  rw [verifyRedundantPacketSet, raiseIf, if_neg (not_le.mpr hrequired), raiseIf,
    if_neg (not_not.mpr hlength), ← outcome_countAgreeing]
  rfl

/-! ## What is accepted -/

namespace StemFetchPolicy

/-- The ballots of a response: packets that are not fresh are set aside. -/
def responseBallot (H : HashFunction) (policy : StemFetchPolicy) (expectedBlockRoot : Bytes)
    (currentEpoch : ℤ) (pair : StemWitnessPacket × Bytes) : Py (Option (Fingerprint × Bytes)) :=
  if policy.fresh currentEpoch pair.1 then packetBallot H expectedBlockRoot pair else .ok none

/-- Enough providers sent a fresh packet under the expected root that verifies and shows
one and the same value of a key. -/
def FreshQuorum (H : HashFunction) (policy : StemFetchPolicy) (expectedBlockRoot : Bytes)
    (currentEpoch : ℤ) (pairs : List (StemWitnessPacket × Bytes)) : Prop :=
  Quorum.HasQuorum policy.requiredProviderMatches
    (Quorum.votesOf (policy.responseBallot H expectedBlockRoot currentEpoch) pairs)

/-- A fresh packet under the expected root with a key that cannot be split. -/
def Malformed (policy : StemFetchPolicy) (expectedBlockRoot : Bytes) (currentEpoch : ℤ)
    (packet : StemWitnessPacket) : Prop :=
  policy.fresh currentEpoch packet = true ∧ packet.blockRoot = expectedBlockRoot ∧
    packet.key.length < 2

/-- The response is accepted. -/
def Accepts (H : HashFunction) (policy : StemFetchPolicy) (expectedBlockRoot : Bytes)
    (currentEpoch : ℤ) (packets : List StemWitnessPacket) (providerIds : List Bytes) : Prop :=
  ∃ result, (policy.evaluateResponse H packets providerIds expectedBlockRoot
    currentEpoch).outcome = .ok result ∧ result.accepted = true

variable {policy : StemFetchPolicy} {currentEpoch : ℤ}

theorem responseBallot_fails_iff :
    Quorum.Fails (policy.responseBallot H expectedBlockRoot currentEpoch) pair ↔
      policy.Malformed expectedBlockRoot currentEpoch pair.1 := by
  rw [Malformed, ← packetBallot_fails_iff (H := H), Quorum.Fails, responseBallot]
  split_ifs with hfresh
  · simp [hfresh, Quorum.Fails]
  · simp [hfresh]

theorem responseBallot_eq_some_iff {vote : Fingerprint × Bytes} :
    policy.responseBallot H expectedBlockRoot currentEpoch pair = .ok (some vote) ↔
      policy.fresh currentEpoch pair.1 = true ∧ pair.1.blockRoot = expectedBlockRoot ∧
        (verifyWitnessPacket H pair.1).outcome = .ok true ∧
          (pair.1.fingerprint, pair.2) = vote := by
  rw [← packetBallot_eq_some_iff, responseBallot]
  split_ifs with hfresh
  · simp [hfresh]
  · simp [hfresh]

/-- A quorum needs as many fresh packets. -/
theorem FreshQuorum.le_length {pairs : List (StemWitnessPacket × Bytes)}
    (h : policy.FreshQuorum H expectedBlockRoot currentEpoch pairs) :
    policy.requiredProviderMatches ≤
      (pairs.filter fun pair => policy.fresh currentEpoch pair.1).length := by
  refine (Quorum.HasQuorum.le_length h).trans ?_
  rw [Quorum.votesOf, ← List.countP_eq_length_filter, List.length_filterMap_eq_countP]
  norm_cast
  apply List.countP_mono_left
  intro pair _ hvote
  obtain ⟨vote, hvote⟩ := Option.isSome_iff_exists.mp hvote
  by_contra hstale
  rw [Quorum.voteOf, responseBallot, if_neg hstale] at hvote
  cases hvote

/-- A response is accepted when the count of its ballots finds a quorum. -/
theorem accepts_iff_countUntil {packets : List StemWitnessPacket} {providerIds : List Bytes} :
    policy.Accepts H expectedBlockRoot currentEpoch packets providerIds ↔
      Quorum.countUntil (policy.responseBallot H expectedBlockRoot currentEpoch)
        policy.requiredProviderMatches ∅ (packets.zip providerIds) = .ok true := by
  have hpos := policy.requiredProviderMatches_pos
  have hcount : Quorum.countUntil (packetBallot H expectedBlockRoot) policy.requiredProviderMatches
      ∅ ((packets.zip providerIds).filter fun pair => policy.fresh currentEpoch pair.1) =
        Quorum.countUntil (policy.responseBallot H expectedBlockRoot currentEpoch)
          policy.requiredProviderMatches ∅ (packets.zip providerIds) :=
    Quorum.countUntil_filter _ _ _
  unfold Accepts evaluateResponse
  dsimp only
  split_ifs with hfew
  · refine iff_of_false ?_ fun h => ?_
    · rintro ⟨result, hresult, hacc⟩
      cases hresult
      cases hacc
    · -- a quorum that is found needs the fresh packets that are missing
      obtain ⟨pre, suf, hsplit, -, hquorum⟩ := (Quorum.countUntil_eq_true_iff hpos _).mp h
      have hall : policy.FreshQuorum H expectedBlockRoot currentEpoch (packets.zip providerIds) := by
        rw [hsplit]
        exact Quorum.HasQuorum.append_ballots hquorum suf
      exact absurd hall.le_length (not_le.mpr hfew)
  · rw [HashPy.outcome_bind, outcome_verifyRedundantPacketSet hpos (by simp),
      ← List.zip_of_prod rfl rfl, hcount]
    rcases Quorum.countUntil _ _ _ _ with e | ok
    · simp [bind, Except.bind]
    · cases ok <;> simp [bind, Except.bind]

/-- **What is accepted**: a response that begins with packets none of which is malformed, and
that hold a quorum of fresh ones. -/
theorem accepts_iff {packets : List StemWitnessPacket} {providerIds : List Bytes} :
    policy.Accepts H expectedBlockRoot currentEpoch packets providerIds ↔
      ∃ pre suf, packets.zip providerIds = pre ++ suf ∧
        (∀ pair ∈ pre, ¬ policy.Malformed expectedBlockRoot currentEpoch pair.1) ∧
        policy.FreshQuorum H expectedBlockRoot currentEpoch pre := by
  rw [accepts_iff_countUntil, Quorum.countUntil_eq_true_iff policy.requiredProviderMatches_pos]
  simp only [responseBallot_fails_iff, FreshQuorum]

/-- An accepted response holds a quorum. -/
theorem Accepts.freshQuorum {packets : List StemWitnessPacket} {providerIds : List Bytes}
    (h : policy.Accepts H expectedBlockRoot currentEpoch packets providerIds) :
    policy.FreshQuorum H expectedBlockRoot currentEpoch (packets.zip providerIds) := by
  obtain ⟨pre, suf, hsplit, -, hquorum⟩ := accepts_iff.mp h
  rw [hsplit]
  exact Quorum.HasQuorum.append_ballots hquorum suf

/-! ## Inserted packets -/

/-- The response of a list of packets with their providers is accepted. -/
def AcceptsPairs (H : HashFunction) (policy : StemFetchPolicy) (expectedBlockRoot : Bytes)
    (currentEpoch : ℤ) (pairs : List (StemWitnessPacket × Bytes)) : Prop :=
  policy.Accepts H expectedBlockRoot currentEpoch (pairs.map Prod.fst) (pairs.map Prod.snd)

/-- **What an accepted response withstands.**  It stays accepted when packets are inserted,
exactly if each malformed one among them stands behind a quorum. -/
theorem accepts_inserted_iff (H : HashFunction) (policy : StemFetchPolicy)
    (expectedBlockRoot : Bytes) (currentEpoch : ℤ) (pairs pairs' : List (StemWitnessPacket × Bytes))
    (haccepts : policy.AcceptsPairs H expectedBlockRoot currentEpoch pairs)
    (hinserted : pairs.Sublist pairs') :
    policy.AcceptsPairs H expectedBlockRoot currentEpoch pairs' ↔
      ∀ pre pair suf, pairs' = pre ++ pair :: suf →
        policy.Malformed expectedBlockRoot currentEpoch pair.1 →
          policy.FreshQuorum H expectedBlockRoot currentEpoch pre := by
  have hquorum : policy.FreshQuorum H expectedBlockRoot currentEpoch pairs' := by
    have hpairs := Accepts.freshQuorum haccepts
    rw [← List.zip_of_prod rfl rfl] at hpairs
    exact Quorum.HasQuorum.mono hpairs (Quorum.votesOf_subset hinserted.subset)
  rw [AcceptsPairs, accepts_iff_countUntil, ← List.zip_of_prod rfl rfl,
    Quorum.countUntil_of_hasQuorum policy.requiredProviderMatches_pos hquorum]
  simp only [responseBallot_fails_iff, FreshQuorum]

end StemFetchPolicy

/-! ## A packet with a short key -/

/-- The default policy. -/
def StemFetchPolicy.default : StemFetchPolicy where
  bucketCount := 64
  coverCount := 2
  requiredProviderMatches := 2
  providerRedundancy := 1
  maxEpochLag := 2
  maxFutureEpochSkew := 0
  bucketCount_pos := by decide
  coverCount_nonneg := by decide
  requiredProviderMatches_pos := by decide
  providerRedundancy_nonneg := by decide
  maxEpochLag_nonneg := by decide
  maxFutureEpochSkew_nonneg := by decide

theorem new_default : StemFetchPolicy.new = .ok StemFetchPolicy.default := rfl

/-- The packet of a lone stem from two providers. -/
def lonePair (H : HashFunction) : List (StemWitnessPacket × Bytes) :=
  [(lonePacket H [7], [1]), (lonePacket H [7], [2])]

/-- A packet with an empty key under the same root. -/
def shortKeyPacket (H : HashFunction) : StemWitnessPacket := { lonePacket H [7] with key := [] }

/-- The packet is a vote, whoever is said to have sent it. -/
theorem responseBallot_lonePacket {policy : StemFetchPolicy} {providerId : Bytes}
    (hfresh : policy.fresh 0 (lonePacket H [7]) = true) :
    policy.responseBallot H (lonePacket H [7]).blockRoot 0 (lonePacket H [7], providerId) =
      .ok (some ((lonePacket H [7]).fingerprint, providerId)) :=
  StemFetchPolicy.responseBallot_eq_some_iff.mpr
    ⟨hfresh, rfl, verify_lonePacket (List.cons_ne_nil _ _), rfl⟩

/-- Two providers are a quorum. -/
theorem freshQuorum_lonePair (H : HashFunction) :
    StemFetchPolicy.default.FreshQuorum H (lonePacket H [7]).blockRoot 0 (lonePair H) := by
  have helectors : (2 : ℤ) ≤ ({[1], [2]} : Finset Bytes).card := by decide
  apply Quorum.hasQuorum_of_forall_mem (k := (lonePacket H [7]).fingerprint) helectors
  intro providerId hmem
  refine Quorum.mem_votesOf.mpr ⟨(lonePacket H [7], providerId), ?_, responseBallot_lonePacket rfl⟩
  rcases Finset.mem_insert.mp hmem with rfl | hmem
  · exact List.mem_cons_self
  · rw [Finset.mem_singleton.mp hmem]
    exact List.mem_cons_of_mem _ List.mem_cons_self

theorem not_malformed_lonePair {H : HashFunction} {root : Bytes} {pair : StemWitnessPacket × Bytes}
    (hpair : pair ∈ lonePair H) : ¬ StemFetchPolicy.default.Malformed root 0 pair.1 := by
  rintro ⟨-, -, hshort⟩
  have hkey : pair.1.key.length = 2 := by
    rcases List.mem_pair.mp hpair with rfl | rfl
    · rfl
    · rfl
  omega

theorem accepts_lonePair (H : HashFunction) :
    StemFetchPolicy.default.AcceptsPairs H (lonePacket H [7]).blockRoot 0 (lonePair H) :=
  StemFetchPolicy.accepts_iff.mpr ⟨lonePair H, [], rfl, fun _ hpair => not_malformed_lonePair hpair,
    freshQuorum_lonePair H⟩

/-- Behind the quorum a packet with an empty key does no harm. -/
theorem accepts_shortKey_behind :
    StemFetchPolicy.default.AcceptsPairs (fun _ => emptyValue)
      (lonePacket (fun _ => emptyValue) [7]).blockRoot 0
      (lonePair (fun _ => emptyValue) ++ [(shortKeyPacket fun _ => emptyValue, [3])]) := by
  refine (StemFetchPolicy.accepts_inserted_iff _ _ _ _ _ _ (accepts_lonePair _)
    (List.sublist_append_left _ _)).mpr ?_
  intro pre pair suf hsplit hmalformed
  rcases List.append_eq_append_iff.mp hsplit with ⟨mid, rfl, -⟩ | ⟨mid, hpair, hmid⟩
  · exact Quorum.HasQuorum.append_ballots (freshQuorum_lonePair _) mid
  · cases mid with
    | nil =>
        rw [List.append_nil] at hpair
        rw [← hpair]
        exact freshQuorum_lonePair _
    | cons first mid =>
        -- the malformed packet would be one of the pair
        obtain ⟨rfl, -⟩ := List.cons.inj hmid
        have hmem : pair ∈ lonePair fun _ => emptyValue := by
          rw [hpair]
          simp
        exact absurd hmalformed (not_malformed_lonePair hmem)

/-- **A packet with a short key breaks a quorum.**  Two providers agree, a third sends a
packet with an empty key ahead of them, and the evaluation raises. -/
theorem not_accepts_shortKey :
    StemFetchPolicy.default.AcceptsPairs (fun _ => emptyValue)
      (lonePacket (fun _ => emptyValue) [7]).blockRoot 0 (lonePair fun _ => emptyValue) ∧
    (lonePair fun _ => emptyValue).Sublist
      ((shortKeyPacket fun _ => emptyValue, [3]) :: lonePair fun _ => emptyValue) ∧
    ¬ StemFetchPolicy.default.AcceptsPairs (fun _ => emptyValue)
      (lonePacket (fun _ => emptyValue) [7]).blockRoot 0
      ((shortKeyPacket fun _ => emptyValue, [3]) :: lonePair fun _ => emptyValue) := by
  refine ⟨accepts_lonePair _, List.sublist_cons_self _ _, ?_⟩
  rintro ⟨result, hresult, -⟩
  -- `split_key` raises before any vote is counted
  have hraises : (StemFetchPolicy.default.evaluateResponse (fun _ => emptyValue)
      (((shortKeyPacket fun _ => emptyValue, [3]) :: lonePair fun _ => emptyValue).map Prod.fst)
      (((shortKeyPacket fun _ => emptyValue, [3]) :: lonePair fun _ => emptyValue).map Prod.snd)
      (lonePacket (fun _ => emptyValue) [7]).blockRoot 0).outcome =
        .error ⟨.valueError, "Key too short: b''"⟩ := rfl
  rw [hraises] at hresult
  cases hresult

/-! ## The redundant packet set -/

/-- The providers of the packets under the expected root that verify and show the value of
the key. -/
def agreeingProviders (H : HashFunction) (expectedBlockRoot key value : Bytes)
    (pairs : List (StemWitnessPacket × Bytes)) : Finset Bytes :=
  ((pairs.filter fun pair => pair.1.blockRoot = expectedBlockRoot ∧ pair.1.key = key ∧
    pair.1.value = value ∧ (verifyWitnessPacket H pair.1).outcome = .ok true).map
      Prod.snd).toFinset

/-- They are those who have voted for the fingerprint. -/
theorem voters_packetBallot {key value : Bytes} {pairs : List (StemWitnessPacket × Bytes)} :
    Quorum.voters (Quorum.votesOf (packetBallot H expectedBlockRoot) pairs)
      (key, value, expectedBlockRoot) = agreeingProviders H expectedBlockRoot key value pairs := by
  ext providerId
  rw [Quorum.mem_voters, Quorum.mem_votesOf, agreeingProviders, List.mem_toFinset, List.mem_map]
  constructor
  · rintro ⟨pair, hmem, hballot⟩
    obtain ⟨hroot, hvalid, hvote⟩ := packetBallot_eq_some_iff.mp hballot
    cases hvote
    exact ⟨pair, List.mem_filter.mpr ⟨hmem, decide_eq_true ⟨hroot, rfl, rfl, hvalid⟩⟩, rfl⟩
  · rintro ⟨pair, hmem, rfl⟩
    obtain ⟨hpair, hshows⟩ := List.mem_filter.mp hmem
    obtain ⟨hroot, rfl, rfl, hvalid⟩ := of_decide_eq_true hshows
    refine ⟨pair, hpair, packetBallot_eq_some_iff.mpr ⟨hroot, hvalid, ?_⟩⟩
    rw [StemWitnessPacket.fingerprint, hroot]

/-- A quorum is one for a value under the expected root. -/
theorem hasQuorum_packetBallot_iff {requiredMatches : ℤ} (hrequired : 0 < requiredMatches)
    {pairs : List (StemWitnessPacket × Bytes)} :
    Quorum.HasQuorum requiredMatches
        (Quorum.votesOf (packetBallot H expectedBlockRoot) pairs) ↔
      ∃ key value,
        requiredMatches ≤ (agreeingProviders H expectedBlockRoot key value pairs).card := by
  constructor
  · rintro ⟨⟨key, value, root⟩, hcard⟩
    -- a voter for a fingerprint has sent a packet under the expected root
    have hpos : 0 < (Quorum.voters (Quorum.votesOf (packetBallot H expectedBlockRoot) pairs)
        (key, value, root)).card := by
      exact_mod_cast hrequired.trans_le hcard
    obtain ⟨providerId, hvoter⟩ := Finset.card_pos.mp hpos
    obtain ⟨pair, -, hballot⟩ := Quorum.mem_votesOf.mp (Quorum.mem_voters.mp hvoter)
    obtain ⟨hroot, -, hvote⟩ := packetBallot_eq_some_iff.mp hballot
    cases hvote
    rw [hroot, voters_packetBallot] at hcard
    exact ⟨_, _, hcard⟩
  · rintro ⟨key, value, hcard⟩
    rw [← voters_packetBallot] at hcard
    exact ⟨_, hcard⟩

/-- Whenever it returns, `verify_redundant_packet_set` says whether there is a quorum. -/
theorem verifyRedundantPacketSet_eq_ok {packets : List StemWitnessPacket}
    {providerIds : List Bytes} {requiredMatches : ℤ} (hrequired : 0 < requiredMatches)
    (hlength : packets.length = providerIds.length) {ok : Bool}
    (h : (verifyRedundantPacketSet H packets providerIds requiredMatches
      expectedBlockRoot).outcome = .ok ok) :
    ok = true ↔ Quorum.HasQuorum requiredMatches
      (Quorum.votesOf (packetBallot H expectedBlockRoot) (packets.zip providerIds)) := by
  rw [outcome_verifyRedundantPacketSet hrequired hlength] at h
  cases ok with
  | true =>
      obtain ⟨pre, suf, hsplit, -, hquorum⟩ := (Quorum.countUntil_eq_true_iff hrequired _).mp h
      rw [hsplit]
      exact iff_of_true rfl (hquorum.append_ballots suf)
  | false =>
      obtain ⟨-, hnone⟩ := (Quorum.countUntil_eq_false_iff hrequired _).mp h
      exact iff_of_false Bool.false_ne_true hnone

/-- **The redundant packet set.**  Whenever `verify_redundant_packet_set` returns, it says
whether enough distinct providers have sent packets under the expected root that verify and
agree on one value of one key; so it says the same of every order of the pairs. -/
theorem redundantPacketSet_iff (H : HashFunction) (packets : List StemWitnessPacket)
    (providerIds : List Bytes) (requiredMatches : ℤ) (expectedBlockRoot : Bytes)
    (hlength : packets.length = providerIds.length) (hrequired : 1 ≤ requiredMatches) :
    (∀ ok, (verifyRedundantPacketSet H packets providerIds requiredMatches
        expectedBlockRoot).outcome = .ok ok →
      (ok = true ↔ ∃ key value, requiredMatches ≤
        (agreeingProviders H expectedBlockRoot key value (packets.zip providerIds)).card)) ∧
    ∀ packets' providerIds', packets'.length = providerIds'.length →
      (packets'.zip providerIds').Perm (packets.zip providerIds) →
      ∀ ok ok', (verifyRedundantPacketSet H packets providerIds requiredMatches
          expectedBlockRoot).outcome = .ok ok →
        (verifyRedundantPacketSet H packets' providerIds' requiredMatches
          expectedBlockRoot).outcome = .ok ok' → ok = ok' := by
  have hpos : 0 < requiredMatches := hrequired
  constructor
  · intro ok hreturns
    rw [verifyRedundantPacketSet_eq_ok hpos hlength hreturns, hasQuorum_packetBallot_iff hpos]
  · intro packets' providerIds' hlength' hperm ok ok' hreturns hreturns'
    rw [Bool.eq_iff_iff, verifyRedundantPacketSet_eq_ok hpos hlength hreturns,
      verifyRedundantPacketSet_eq_ok hpos hlength' hreturns']
    constructor
    · intro hquorum
      exact hquorum.mono (Quorum.votesOf_subset hperm.symm.subset)
    · intro hquorum
      exact hquorum.mono (Quorum.votesOf_subset hperm.subset)

/-- Two providers of one packet agree. -/
theorem redundantPacketSet_iff_pair :
    ∃ key value, (2 : ℤ) ≤ (agreeingProviders (fun _ => emptyValue)
      (lonePacket (fun _ => emptyValue) [7]).blockRoot key value
      ([lonePacket (fun _ => emptyValue) [7], lonePacket (fun _ => emptyValue) [7]].zip
        [[1], [2]])).card := by
  have hvote : ∀ providerId, packetBallot (fun _ => emptyValue)
      (lonePacket (fun _ => emptyValue) [7]).blockRoot
        (lonePacket (fun _ => emptyValue) [7], providerId) =
      .ok (some ((lonePacket (fun _ => emptyValue) [7]).fingerprint, providerId)) := by
    intro providerId
    exact packetBallot_eq_some_iff.mpr ⟨rfl, verify_lonePacket (by decide), rfl⟩
  have hreturns : (verifyRedundantPacketSet (fun _ => emptyValue)
      [lonePacket (fun _ => emptyValue) [7], lonePacket (fun _ => emptyValue) [7]] [[1], [2]] 2
      (lonePacket (fun _ => emptyValue) [7]).blockRoot).outcome = .ok true := by
    rw [outcome_verifyRedundantPacketSet (by decide) rfl]
    simp [Quorum.countUntil, hvote, Quorum.addVote, OrderedDict.lookup_setItem]
  exact ((redundantPacketSet_iff _ _ _ _ _ rfl (by decide)).1 true hreturns).mp rfl

end Pbt
