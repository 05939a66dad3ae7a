/-
# What a client derives for an epoch (`pbt/stem_subscription.py`)

From long-lived secrets a client derives ephemeral keys, nullifiers and short-lived interest
commitments, beside the subscription commitments, lenses and bundles of the other modules.  Each
derivation hashes a string that starts with a tag of its own.

No tag of the module is a prefix of another one (`domains_prefixFree`).  So a digest that was
derived for one purpose is not one for another purpose, and within a purpose the digest tells
what was hashed (`derivations_apart`).  Fields of free length that stand side by side are told
apart by nothing, and the numbers behind the secret of a lens only by the length of the secret.
-/
import PartitionedBinaryTree.FetchPlan
import PartitionedBinaryTree.InterestDigest
import PartitionedBinaryTree.Lib.PrefixFree
import PartitionedBinaryTree.Registration

namespace Pbt

/-! ## The functions of the source -/

/-- `b"pbt-ephemeral-k-v1"`. -/
def ephemeralKeyDomain : Bytes :=
  [112, 98, 116, 45, 101, 112, 104, 101, 109, 101, 114, 97, 108, 45, 107, 45, 118, 49]

/-- `b"pbt-interest-commit-v1"`. -/
def interestCommitDomain : Bytes :=
  [112, 98, 116, 45, 105, 110, 116, 101, 114, 101, 115, 116, 45, 99, 111, 109, 109, 105, 116, 45,
    118, 49]

/-- `b"pbt-nullifier-v1"`. -/
def nullifierDomain : Bytes :=
  [112, 98, 116, 45, 110, 117, 108, 108, 105, 102, 105, 101, 114, 45, 118, 49]

/-- `rotate_ephemeral_key`. -/
def rotateEphemeralKey (H : HashFunction) (seed : Bytes) (epoch : ℤ) : HashPy Digest := do
  HashPy.ofPy (raiseIf (epoch < 0) "epoch must be non-negative")
  let epochBytes ← HashPy.ofPy (intToBytes epoch 8)
  HashPy.ofHash (treeHash H (ephemeralKeyDomain ++ seed ++ epochBytes))

/-- `derive_epoch_nullifier`. -/
def deriveEpochNullifier (H : HashFunction) (secretSeed : Bytes) (epoch : ℤ) : HashPy Digest := do
  HashPy.ofPy (raiseIf (epoch < 0) "epoch must be non-negative")
  let epochBytes ← HashPy.ofPy (intToBytes epoch 8)
  HashPy.ofHash (treeHash H (nullifierDomain ++ secretSeed ++ epochBytes))

/-- `InterestCommitment`. -/
structure InterestCommitment where
  commitment : Bytes
  scheme : String
  keyEpoch : ℤ
  validFromEpoch : ℤ
  validUntilEpoch : ℤ
  deriving DecidableEq, Repr

/-- `{"keyed_bloom", "keyed_accumulator"}`. -/
def interestSchemes : List String := ["keyed_bloom", "keyed_accumulator"]

/-- `text.encode("ascii")`, of an ASCII text. -/
def asciiBytes (text : String) : Bytes := text.toList.map fun c => UInt8.ofNat c.toNat

/-- `make_interest_commitment`. -/
def makeInterestCommitment (H : HashFunction) (keyedInterestDigest ephemeralPubkey : Bytes)
    (scheme : String) (keyEpoch validFromEpoch validUntilEpoch : ℤ) :
    HashPy InterestCommitment := do
  HashPy.ofPy (raiseIf (validUntilEpoch < validFromEpoch)
    "valid_until_epoch must be >= valid_from_epoch")
  HashPy.ofPy (raiseIf (¬ (1 ≤ validUntilEpoch - validFromEpoch + 1 ∧
    validUntilEpoch - validFromEpoch + 1 ≤ 7)) "commitment window must be 1-7 epochs")
  HashPy.ofPy (raiseIf (keyEpoch < 0) "key_epoch must be non-negative")
  HashPy.ofPy (raiseIf (scheme ∉ interestSchemes) "unsupported interest scheme")
  let keyEpochBytes ← HashPy.ofPy (intToBytes keyEpoch 8)
  let validFromBytes ← HashPy.ofPy (intToBytes validFromEpoch 8)
  let validUntilBytes ← HashPy.ofPy (intToBytes validUntilEpoch 8)
  let commitment ← HashPy.ofHash (treeHash H (interestCommitDomain ++ asciiBytes scheme ++
    keyEpochBytes ++ validFromBytes ++ validUntilBytes ++ ephemeralPubkey ++ keyedInterestDigest))
  pure {
    commitment := commitment.val
    scheme := scheme
    keyEpoch := keyEpoch
    validFromEpoch := validFromEpoch
    validUntilEpoch := validUntilEpoch }

/-- The numbers of an interest commitment that can be made. -/
structure InterestNumbers (scheme : String) (keyEpoch validFromEpoch validUntilEpoch : ℤ) :
    Prop where
  window : validFromEpoch ≤ validUntilEpoch
  window_short : validUntilEpoch ≤ validFromEpoch + 6
  keyEpoch_nonneg : 0 ≤ keyEpoch
  keyEpoch_lt : keyEpoch < 256 ^ 8
  validFrom_nonneg : 0 ≤ validFromEpoch
  validUntil_lt : validUntilEpoch < 256 ^ 8
  scheme_mem : scheme ∈ interestSchemes

section InterestCommitments

variable {H : HashFunction} {digest pubkey : Bytes} {scheme : String}
  {keyEpoch validFrom validUntil : ℤ}

/-- The string that an interest commitment is the hash of. -/
def interestPayload (keyedInterestDigest ephemeralPubkey : Bytes) (scheme : String)
    (keyEpoch validFromEpoch validUntilEpoch : ℤ) : Bytes :=
  interestCommitDomain ++ asciiBytes scheme ++ natToBE 8 keyEpoch.toNat ++
    natToBE 8 validFromEpoch.toNat ++ natToBE 8 validUntilEpoch.toNat ++ ephemeralPubkey ++
    keyedInterestDigest

/-- **`make_interest_commitment`** hashes its payload, and nothing else. -/
theorem makeInterestCommitment_returns_iff {commitment : InterestCommitment} {qs : List Bytes} :
    (makeInterestCommitment H digest pubkey scheme keyEpoch validFrom validUntil).Returns
        commitment qs ↔
      InterestNumbers scheme keyEpoch validFrom validUntil ∧
        InterestCommitment.mk
            (H (interestPayload digest pubkey scheme keyEpoch validFrom validUntil)).val
            scheme keyEpoch validFrom validUntil = commitment ∧
        qs = [interestPayload digest pubkey scheme keyEpoch validFrom validUntil] := by
  simp only [makeInterestCommitment, HashPy.returns_ofPy_bind_iff, HashPy.returns_ofHash_bind_iff,
    HashPy.returns_pure_iff, raiseIf_eq_ok_iff, intToBytes_eq_ok_iff, exists_const, not_lt,
    not_not, val_treeHash, queries_treeHash]
  constructor
  · rintro ⟨hwindow, ⟨-, hshort⟩, hkey, hscheme, keyBytes, ⟨-, hkeyLt, rfl⟩, fromBytes,
      ⟨hfrom, -, rfl⟩, untilBytes, ⟨-, huntil, rfl⟩, rest, ⟨rfl, rfl⟩, rfl⟩
    exact ⟨⟨hwindow, by omega, hkey, hkeyLt, hfrom, huntil, hscheme⟩, rfl, rfl⟩
  · rintro ⟨h, rfl, rfl⟩
    have hwindow := h.window
    have hshort := h.window_short
    exact ⟨hwindow, ⟨by omega, by omega⟩, h.keyEpoch_nonneg, h.scheme_mem, _,
      ⟨h.keyEpoch_nonneg, h.keyEpoch_lt, rfl⟩, _,
      ⟨h.validFrom_nonneg, lt_of_le_of_lt hwindow h.validUntil_lt, rfl⟩, _,
      ⟨le_trans h.validFrom_nonneg hwindow, h.validUntil_lt, rfl⟩, _, ⟨rfl, rfl⟩, rfl⟩

end InterestCommitments

/-! ## Purposes -/

/-- What the module hashes tagged strings for. -/
inductive Purpose
  | subscription
  | ephemeralKey
  | interestCommitment
  | nullifier
  | lens
  | bundle
  | bloomBit
  | accumulatorEntry
  | bucket
  | cover
  | providerSelection
  deriving DecidableEq, Repr

/-- All purposes. -/
def Purpose.all : List Purpose :=
  [.subscription, .ephemeralKey, .interestCommitment, .nullifier, .lens, .bundle, .bloomBit,
    .accumulatorEntry, .bucket, .cover, .providerSelection]

/-- The tag of a purpose. -/
def Purpose.domain : Purpose → Bytes
  | .subscription => subscriptionDomain
  | .ephemeralKey => ephemeralKeyDomain
  | .interestCommitment => interestCommitDomain
  | .nullifier => nullifierDomain
  | .lens => lensDomain
  | .bundle => bundleDomain
  | .bloomBit => bloomDomain
  | .accumulatorEntry => accEntryDomain
  | .bucket => bucketDomain
  | .cover => coverDomain
  | .providerSelection => providerSelectDomain

theorem Purpose.mem_all (purpose : Purpose) : purpose ∈ Purpose.all := by
  cases purpose <;> decide

/-- No tag is a prefix of another one. -/
theorem domains_prefixFree : PrefixFree Purpose.all Purpose.domain := by decide

/-- Neither is the name of an interest scheme of another name. -/
theorem schemes_prefixFree : PrefixFree interestSchemes asciiBytes := by decide

/-! ## Derivations -/

/-- A call that derives a digest for a purpose. -/
inductive Derivation
  | subscription (secretSeed walletPubkey : Bytes)
      (windowStartEpoch windowEndEpoch maxBucketsPerEpoch : ℤ)
  | ephemeralKey (seed : Bytes) (epoch : ℤ)
  | interestCommitment (keyedInterestDigest ephemeralPubkey : Bytes) (scheme : String)
      (keyEpoch validFromEpoch validUntilEpoch : ℤ)
  | nullifier (secretSeed : Bytes) (epoch : ℤ)
  | lens (a : LensArguments)
  | bundle (bundle : WitnessBundle)

namespace Derivation

/-- The digest that the call derives. -/
def derive (H : HashFunction) : Derivation → HashPy Bytes
  | .subscription seed pubkey start stop buckets => do
      let digest ← makeSubscriptionCommitment H seed pubkey start stop buckets
      pure digest.val
  | .ephemeralKey seed epoch => do
      let digest ← rotateEphemeralKey H seed epoch
      pure digest.val
  | .interestCommitment digest pubkey scheme keyEpoch validFrom validUntil => do
      let commitment ←
        makeInterestCommitment H digest pubkey scheme keyEpoch validFrom validUntil
      pure commitment.commitment
  | .nullifier seed epoch => do
      let digest ← deriveEpochNullifier H seed epoch
      pure digest.val
  | .lens a => do
      let lens ← a.derive H
      pure lens.lensCommitment
  | .bundle b => do
      let built ← buildWitnessBundle H b.epoch b.blockNumber b.blockRoot b.providerId
        b.encryptedBlobHash b.packetCommitments b.storageLocatorHash
      pure built.bundleCommitment

/-- What the call is for. -/
def purpose : Derivation → Purpose
  | .subscription .. => .subscription
  | .ephemeralKey .. => .ephemeralKey
  | .interestCommitment .. => .interestCommitment
  | .nullifier .. => .nullifier
  | .lens .. => .lens
  | .bundle .. => .bundle

/-- What follows the tag in the string that is hashed last. -/
def body (H : HashFunction) : Derivation → Bytes
  | .subscription seed pubkey start stop buckets =>
      (seed ++ pubkey) ++ (natToBE 8 start.toNat ++ natToBE 8 stop.toNat ++
        natToBE 4 buckets.toNat)
  | .ephemeralKey seed epoch => seed ++ natToBE 8 epoch.toNat
  | .interestCommitment digest pubkey scheme keyEpoch validFrom validUntil =>
      asciiBytes scheme ++ ((natToBE 8 keyEpoch.toNat ++ natToBE 8 validFrom.toNat ++
        natToBE 8 validUntil.toNat) ++ (pubkey ++ digest))
  | .nullifier seed epoch => seed ++ natToBE 8 epoch.toNat
  | .lens a => a.walletSecret ++ natToBE 8 a.currentEpoch.toNat ++ natToBE 4 a.ttlEpochs.toNat ++
      natToBE 4 (a.maxUses.getD 0).toNat ++ a.scopeTag ++ a.stems.flatten
  | .bundle b => natToBE 8 b.epoch.toNat ++ natToBE 8 b.blockNumber.toNat ++ b.blockRoot ++
      b.providerId ++ b.encryptedBlobHash ++ (b.packetsRoot H).val ++ b.storageLocatorHash

/-- The strings that the call hashes, in order. -/
def queries (H : HashFunction) (d : Derivation) : List Bytes :=
  match d with
  | .bundle b => (hashConcat H b.sortedPackets).queries ++ [d.purpose.domain ++ d.body H]
  | _ => [d.purpose.domain ++ d.body H]

/-- The calls that do not raise. -/
def Accepted : Derivation → Prop
  | .subscription _ _ start stop buckets => SubscriptionNumbers start stop buckets
  | .ephemeralKey _ epoch => 0 ≤ epoch ∧ epoch < 256 ^ 8
  | .interestCommitment _ _ scheme keyEpoch validFrom validUntil =>
      InterestNumbers scheme keyEpoch validFrom validUntil
  | .nullifier _ epoch => 0 ≤ epoch ∧ epoch < 256 ^ 8
  | .lens a => a.Accepted
  | .bundle b => BundleNumbers b

/-- Calls for one purpose with the same numbers and schemes, and the same fields of free length
where these stand side by side as one string.  Two lenses may also have secrets of different
lengths; then nothing but the whole string tells where their numbers stand. -/
inductive Same (H : HashFunction) : Derivation → Derivation → Prop
  | subscription {seed pubkey seed' pubkey' : Bytes} (start stop buckets : ℤ)
      (h : seed ++ pubkey = seed' ++ pubkey') :
      Same H (.subscription seed pubkey start stop buckets)
        (.subscription seed' pubkey' start stop buckets)
  | ephemeralKey (seed : Bytes) (epoch : ℤ) :
      Same H (.ephemeralKey seed epoch) (.ephemeralKey seed epoch)
  | interestCommitment {digest pubkey digest' pubkey' : Bytes} (scheme : String)
      (keyEpoch validFrom validUntil : ℤ) (h : pubkey ++ digest = pubkey' ++ digest') :
      Same H (.interestCommitment digest pubkey scheme keyEpoch validFrom validUntil)
        (.interestCommitment digest' pubkey' scheme keyEpoch validFrom validUntil)
  | nullifier (seed : Bytes) (epoch : ℤ) :
      Same H (.nullifier seed epoch) (.nullifier seed epoch)
  | lens {a a' : LensArguments} (hsecret : a.walletSecret = a'.walletSecret)
      (hepoch : a.currentEpoch = a'.currentEpoch) (httl : a.ttlEpochs = a'.ttlEpochs)
      (huses : a.maxUses = a'.maxUses)
      (hrest : a.scopeTag ++ a.stems.flatten = a'.scopeTag ++ a'.stems.flatten) :
      Same H (.lens a) (.lens a')
  | shiftedLens {a a' : LensArguments} (hlength : a.walletSecret.length ≠ a'.walletSecret.length)
      (h : a.preimage = a'.preimage) : Same H (.lens a) (.lens a')
  | bundle {b b' : WitnessBundle} (hepoch : b.epoch = b'.epoch)
      (hnumber : b.blockNumber = b'.blockNumber)
      (hrest : b.blockRoot ++ b.providerId ++ b.encryptedBlobHash ++ (b.packetsRoot H).val ++
        b.storageLocatorHash = b'.blockRoot ++ b'.providerId ++ b'.encryptedBlobHash ++
        (b'.packetsRoot H).val ++ b'.storageLocatorHash) :
      Same H (.bundle b) (.bundle b')

/-! ## What a derivation hashes -/

variable {H : HashFunction} {d d' : Derivation} {c c' : Bytes} {qs qs' : List Bytes}

/-- The two derivations from a seed and an epoch. -/
theorem returns_seed_epoch_iff {tag seed : Bytes} {epoch : ℤ} {digest : Digest} :
    HashPy.Returns (do
        HashPy.ofPy (raiseIf (epoch < 0) "epoch must be non-negative")
        let epochBytes ← HashPy.ofPy (intToBytes epoch 8)
        HashPy.ofHash (treeHash H (tag ++ seed ++ epochBytes))) digest qs ↔
      (0 ≤ epoch ∧ epoch < 256 ^ 8) ∧ H (tag ++ (seed ++ natToBE 8 epoch.toNat)) = digest ∧
        qs = [tag ++ (seed ++ natToBE 8 epoch.toNat)] := by
  simp only [HashPy.returns_ofPy_bind_iff, HashPy.returns_ofHash_iff, raiseIf_eq_ok_iff,
    intToBytes_eq_ok_iff, exists_const, not_lt, val_treeHash, queries_treeHash,
    List.append_assoc]
  constructor
  · rintro ⟨hepoch, epochBytes, ⟨-, hlt, rfl⟩, rfl, rfl⟩
    exact ⟨⟨hepoch, hlt⟩, rfl, rfl⟩
  · rintro ⟨⟨hepoch, hlt⟩, rfl, rfl⟩
    exact ⟨hepoch, _, ⟨hepoch, hlt, rfl⟩, rfl, rfl⟩

/-- **A derivation** returns on accepted arguments; its digest is the hash of its tag and its
body, which it hashes last. -/
theorem derive_returns_iff :
    (d.derive H).Returns c qs ↔
      d.Accepted ∧ (H (d.purpose.domain ++ d.body H)).val = c ∧ qs = d.queries H := by
  cases d with
  | subscription seed pubkey start stop buckets =>
      have hpayload : subscriptionPayload seed pubkey start stop buckets =
          subscriptionDomain ++ body H (.subscription seed pubkey start stop buckets) := by
        simp [subscriptionPayload, body]
      show HashPy.Returns (makeSubscriptionCommitment H seed pubkey start stop buckets >>=
        fun digest => pure digest.val) c qs ↔ _
      simp only [HashPy.returns_bind_pure_iff, makeSubscriptionCommitment_returns_iff, hpayload]
      constructor
      · rintro ⟨_, ⟨h, rfl, rfl⟩, rfl⟩
        exact ⟨h, rfl, rfl⟩
      · rintro ⟨h, rfl, rfl⟩
        exact ⟨_, ⟨h, rfl, rfl⟩, rfl⟩
  | ephemeralKey seed epoch =>
      show HashPy.Returns (rotateEphemeralKey H seed epoch >>= fun digest => pure digest.val) c qs
        ↔ _
      simp only [HashPy.returns_bind_pure_iff, rotateEphemeralKey, returns_seed_epoch_iff]
      constructor
      · rintro ⟨_, ⟨h, rfl, rfl⟩, rfl⟩
        exact ⟨h, rfl, rfl⟩
      · rintro ⟨h, rfl, rfl⟩
        exact ⟨_, ⟨h, rfl, rfl⟩, rfl⟩
  | interestCommitment digest pubkey scheme keyEpoch validFrom validUntil =>
      have hpayload : interestPayload digest pubkey scheme keyEpoch validFrom validUntil =
          interestCommitDomain ++
            body H (.interestCommitment digest pubkey scheme keyEpoch validFrom validUntil) := by
        simp [interestPayload, body]
      show HashPy.Returns (makeInterestCommitment H digest pubkey scheme keyEpoch validFrom
        validUntil >>= fun commitment => pure commitment.commitment) c qs ↔ _
      simp only [HashPy.returns_bind_pure_iff, makeInterestCommitment_returns_iff, hpayload]
      constructor
      · rintro ⟨_, ⟨h, rfl, rfl⟩, rfl⟩
        exact ⟨h, rfl, rfl⟩
      · rintro ⟨h, rfl, rfl⟩
        exact ⟨_, ⟨h, rfl, rfl⟩, rfl⟩
  | nullifier seed epoch =>
      show HashPy.Returns (deriveEpochNullifier H seed epoch >>= fun digest => pure digest.val) c
        qs ↔ _
      simp only [HashPy.returns_bind_pure_iff, deriveEpochNullifier, returns_seed_epoch_iff]
      constructor
      · rintro ⟨_, ⟨h, rfl, rfl⟩, rfl⟩
        exact ⟨h, rfl, rfl⟩
      · rintro ⟨h, rfl, rfl⟩
        exact ⟨_, ⟨h, rfl, rfl⟩, rfl⟩
  | lens a =>
      have hpreimage : a.preimage = lensDomain ++ body H (.lens a) := by
        simp [LensArguments.preimage, body]
      show HashPy.Returns (a.derive H >>= fun lens => pure lens.lensCommitment) c qs ↔ _
      simp only [HashPy.returns_bind_pure_iff, Pbt.derive_returns_iff, hpreimage]
      constructor
      · rintro ⟨_, ⟨h, rfl, rfl⟩, rfl⟩
        exact ⟨h, congrArg (fun x => (H x).val) hpreimage.symm, rfl⟩
      · rintro ⟨h, rfl, rfl⟩
        exact ⟨_, ⟨h, rfl, rfl⟩, congrArg (fun x => (H x).val) hpreimage⟩
  | bundle b =>
      have hpreimage : b.preimage H = bundleDomain ++ body H (.bundle b) := by
        simp [WitnessBundle.preimage, body]
      show HashPy.Returns (buildWitnessBundle H b.epoch b.blockNumber b.blockRoot b.providerId
        b.encryptedBlobHash b.packetCommitments b.storageLocatorHash >>=
          fun built => pure built.bundleCommitment) c qs ↔ _
      have hqueries : queries H (.bundle b) =
          (hashConcat H b.sortedPackets).queries ++ [b.preimage H] := by
        rw [hpreimage]
        rfl
      simp only [buildWitnessBundle, bind_assoc, pure_bind, HashPy.returns_ofPy_bind_iff,
        HashPy.returns_ofHash_bind_iff, HashPy.returns_pure_iff, intToBytes_eq_ok_iff,
        val_treeHash, queries_treeHash]
      rw [hqueries]
      constructor
      · rintro ⟨epoch, ⟨hepoch, hepochLt, rfl⟩, number, ⟨hnumber, hnumberLt, rfl⟩, rest,
          ⟨rest', ⟨rfl, rfl⟩, rfl⟩, rfl⟩
        exact ⟨⟨hepoch, hepochLt, hnumber, hnumberLt⟩,
          congrArg (fun x => (H x).val) hpreimage.symm, rfl⟩
      · rintro ⟨h, rfl, rfl⟩
        exact ⟨_, ⟨h.epoch_nonneg, h.epoch_lt, rfl⟩, _, ⟨h.blockNumber_nonneg, h.blockNumber_lt,
          rfl⟩, _, ⟨_, ⟨congrArg (fun x => (H x).val) hpreimage, rfl⟩, rfl⟩, rfl⟩

theorem mem_queries (d : Derivation) : d.purpose.domain ++ d.body H ∈ d.queries H := by
  cases d with
  | bundle b => exact List.mem_append_right _ (List.mem_singleton_self _)
  | _ => exact List.mem_singleton_self _

/-- The same calls have the same purpose and the same body. -/
theorem Same.purpose_body (h : d.Same H d') : d.purpose = d'.purpose ∧ d.body H = d'.body H := by
  cases h with
  | subscription start stop buckets h => exact ⟨rfl, by rw [body, body, h]⟩
  | ephemeralKey seed epoch => exact ⟨rfl, rfl⟩
  | interestCommitment scheme keyEpoch validFrom validUntil h =>
      exact ⟨rfl, by rw [body, body, h]⟩
  | nullifier seed epoch => exact ⟨rfl, rfl⟩
  | lens hsecret hepoch httl huses hrest =>
      refine ⟨rfl, ?_⟩
      rw [body, body, hsecret, hepoch, httl, huses, List.append_assoc _ _ (List.flatten _), hrest,
        ← List.append_assoc]
  | shiftedLens hlength h =>
      refine ⟨rfl, (List.append_right_inj lensDomain).mp ?_⟩
      simpa [LensArguments.preimage, body] using h
  | bundle hepoch hnumber hrest =>
      refine ⟨rfl, ?_⟩
      simp only [List.append_assoc] at hrest
      simp only [body, hepoch, hnumber, hrest, List.append_assoc]

/-- A seed and an epoch are told apart by the width of the epoch. -/
theorem seed_epoch_eq_of_append_eq {seed seed' : Bytes} {epoch epoch' : ℤ}
    (h : 0 ≤ epoch ∧ epoch < 256 ^ 8) (h' : 0 ≤ epoch' ∧ epoch' < 256 ^ 8)
    (heq : seed ++ natToBE 8 epoch.toNat = seed' ++ natToBE 8 epoch'.toNat) :
    seed = seed' ∧ epoch = epoch' := by
  obtain ⟨hseed, hepoch⟩ := List.append_inj' heq (by simp)
  exact ⟨hseed, natToBE_toNat_inj h.1 h.2 h'.1 h'.2 hepoch⟩

/-- **Equal bodies** of accepted calls for one purpose are those of the same call. -/
theorem same_of_body_eq (h : d.Accepted) (h' : d'.Accepted) (hpurpose : d.purpose = d'.purpose)
    (hbody : d.body H = d'.body H) : d.Same H d' := by
  cases d with
  | subscription seed pubkey start stop buckets =>
      cases d' with
      | subscription seed' pubkey' start' stop' buckets' =>
          obtain ⟨hsecret, hnumbers⟩ := List.append_inj' hbody (by simp)
          obtain ⟨hwindow, hbuckets⟩ := List.append_inj' hnumbers (by simp)
          obtain ⟨hstart, hstop⟩ := List.append_inj' hwindow (by simp)
          obtain rfl := natToBE_toNat_inj h.windowStart_nonneg
            (lt_of_le_of_lt h.window h.windowEnd_lt) h'.windowStart_nonneg
            (lt_of_le_of_lt h'.window h'.windowEnd_lt) hstart
          obtain rfl := natToBE_toNat_inj (le_trans h.windowStart_nonneg h.window) h.windowEnd_lt
            (le_trans h'.windowStart_nonneg h'.window) h'.windowEnd_lt hstop
          obtain rfl := natToBE_toNat_inj h.maxBuckets_pos.le h.maxBuckets_lt
            h'.maxBuckets_pos.le h'.maxBuckets_lt hbuckets
          exact .subscription start stop buckets hsecret
      | _ => cases hpurpose
  | ephemeralKey seed epoch =>
      cases d' with
      | ephemeralKey seed' epoch' =>
          obtain ⟨rfl, rfl⟩ := seed_epoch_eq_of_append_eq h h' hbody
          exact .ephemeralKey seed epoch
      | _ => cases hpurpose
  | interestCommitment digest pubkey scheme keyEpoch validFrom validUntil =>
      cases d' with
      | interestCommitment digest' pubkey' scheme' keyEpoch' validFrom' validUntil' =>
          -- the scheme is told by its name, the epochs by their widths
          obtain ⟨rfl, hrest⟩ := schemes_prefixFree.eq_of_append_eq h.scheme_mem h'.scheme_mem hbody
          obtain ⟨hepochs, hkeys⟩ := List.append_inj hrest (by simp)
          obtain ⟨hfirst, huntil⟩ := List.append_inj' hepochs (by simp)
          obtain ⟨hkey, hfrom⟩ := List.append_inj' hfirst (by simp)
          obtain rfl := natToBE_toNat_inj h.keyEpoch_nonneg h.keyEpoch_lt h'.keyEpoch_nonneg
            h'.keyEpoch_lt hkey
          obtain rfl := natToBE_toNat_inj h.validFrom_nonneg
            (lt_of_le_of_lt h.window h.validUntil_lt) h'.validFrom_nonneg
            (lt_of_le_of_lt h'.window h'.validUntil_lt) hfrom
          obtain rfl := natToBE_toNat_inj (le_trans h.validFrom_nonneg h.window) h.validUntil_lt
            (le_trans h'.validFrom_nonneg h'.window) h'.validUntil_lt huntil
          exact .interestCommitment scheme keyEpoch validFrom validUntil hkeys
      | _ => cases hpurpose
  | nullifier seed epoch =>
      cases d' with
      | nullifier seed' epoch' =>
          obtain ⟨rfl, rfl⟩ := seed_epoch_eq_of_append_eq h h' hbody
          exact .nullifier seed epoch
      | _ => cases hpurpose
  | lens a =>
      cases d' with
      | lens a' =>
          by_cases hlength : a.walletSecret.length = a'.walletSecret.length
          · simp only [body, List.append_assoc] at hbody
            obtain ⟨hsecret, hrest⟩ := List.append_inj hbody hlength
            obtain ⟨hepoch, hrest⟩ := List.append_inj hrest (by simp)
            obtain ⟨httl, hrest⟩ := List.append_inj hrest (by simp)
            obtain ⟨huses, hrest⟩ := List.append_inj hrest (by simp)
            refine .lens hsecret ?_ ?_ (maxUses_inj h h' ?_) hrest
            · exact natToBE_toNat_inj h.epoch_nonneg h.epoch_lt h'.epoch_nonneg h'.epoch_lt hepoch
            · exact natToBE_toNat_inj h.ttl_pos.le h.ttl_lt h'.ttl_pos.le h'.ttl_lt httl
            · exact natToBE_toNat_inj (uses_bounds h).1 (uses_bounds h).2 (uses_bounds h').1
                (uses_bounds h').2 huses
          · have hpreimage := congrArg (lensDomain ++ ·) hbody
            exact .shiftedLens hlength (by simpa [LensArguments.preimage, body] using hpreimage)
      | _ => cases hpurpose
  | bundle b =>
      cases d' with
      | bundle b' =>
          simp only [body, List.append_assoc] at hbody
          obtain ⟨hepoch, hrest⟩ := List.append_inj hbody (by simp)
          obtain ⟨hnumber, hrest⟩ := List.append_inj hrest (by simp)
          refine .bundle ?_ ?_ (by simpa using hrest)
          · exact natToBE_toNat_inj h.epoch_nonneg h.epoch_lt h'.epoch_nonneg h'.epoch_lt hepoch
          · exact natToBE_toNat_inj h.blockNumber_nonneg h.blockNumber_lt h'.blockNumber_nonneg
              h'.blockNumber_lt hnumber
      | _ => cases hpurpose

/-- **Derivations are kept apart.**  Two calls derive one digest exactly when they are the same
call in the sense of `Same`, up to collisions among what the two calls hash. -/
theorem derivations_apart (h : (d.derive H).Returns c qs) (h' : (d'.derive H).Returns c' qs') :
    c = c' ∨ Collision H (qs ++ qs') ↔ d.Same H d' ∨ Collision H (qs ++ qs') := by
  obtain ⟨haccepted, rfl, rfl⟩ := derive_returns_iff.mp h
  obtain ⟨haccepted', rfl, rfl⟩ := derive_returns_iff.mp h'
  refine (or_collision_congr (fun hsame => ?_) fun hdigest => ?_).symm
  · obtain ⟨hpurpose, hbody⟩ := hsame.purpose_body
    rw [hpurpose, hbody]
  · rcases domains_prefixFree.tag_eq_or_collision d.purpose.mem_all d'.purpose.mem_all
      (List.mem_append_left _ d.mem_queries) (List.mem_append_right _ d'.mem_queries)
      (Subtype.val_injective hdigest) with ⟨hpurpose, hbody⟩ | hcol
    · exact Or.inl (same_of_body_eq haccepted haccepted' hpurpose hbody)
    · exact Or.inr hcol

/-- A nullifier and an ephemeral key of one seed and epoch. -/
theorem derivations_apart_seven : ∃ c c' qs qs',
    ((nullifier [7] 5).derive lengthHash).Returns c qs ∧
      ((ephemeralKey [7] 5).derive lengthHash).Returns c' qs' ∧
      (c = c' ∨ Collision lengthHash (qs ++ qs') ↔
        (nullifier [7] 5).Same lengthHash (ephemeralKey [7] 5) ∨
          Collision lengthHash (qs ++ qs')) := by
  have hnullifier : (nullifier [7] 5).Accepted := ⟨by norm_num, by norm_num⟩
  have hkey : (ephemeralKey [7] 5).Accepted := ⟨by norm_num, by norm_num⟩
  have h := derive_returns_iff (H := lengthHash).mpr ⟨hnullifier, rfl, rfl⟩
  have h' := derive_returns_iff (H := lengthHash).mpr ⟨hkey, rfl, rfl⟩
  exact ⟨_, _, _, _, h, h', derivations_apart h h'⟩

end Derivation

end Pbt
