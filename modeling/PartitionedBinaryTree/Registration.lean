/-
# Subscription registrations (`pbt/stem_subscription.py`)

The record `SUB_REG_V1` that a client registers on chain: a commitment, an epoch window, a
quota and a key.  Writer and reader name the same format: the writer emits one byte string for
each record it accepts, and the reader accepts exactly these strings.

The commitment hides the secret seed of the client behind one hash.  Its preimage puts two
byte strings of free length side by side, and `subscriptionCommitment_binds_iff` says what the
commitment binds.
-/
import PartitionedBinaryTree.StemPacket

namespace Pbt

/-! ## The record and its codec -/

/-- `SubscriptionRegistration`. -/
structure SubscriptionRegistration where
  commitment : Bytes
  windowStartEpoch : ℤ
  windowEndEpoch : ℤ
  maxBucketsPerEpoch : ℤ
  encryptionPubkey : Bytes
  deriving DecidableEq, Repr

/-- `encode_subscription_registration_v1`. -/
def encodeSubscriptionRegistrationV1 (registration : SubscriptionRegistration) : Py Bytes := do
  raiseIf (registration.commitment.length ≠ 32) "commitment must be 32 bytes"
  raiseIf (registration.windowEndEpoch < registration.windowStartEpoch)
    "window_end_epoch must be >= window_start_epoch"
  raiseIf (¬ (0 ≤ registration.maxBucketsPerEpoch ∧ registration.maxBucketsPerEpoch ≤ 0xFFFFFFFF))
    "max_buckets_per_epoch out of range"
  let windowStart ← intToBytes registration.windowStartEpoch 8
  let windowEnd ← intToBytes registration.windowEndEpoch 8
  let maxBuckets ← intToBytes registration.maxBucketsPerEpoch 4
  let encryptionPubkey ← packU16Len registration.encryptionPubkey
  pure ([wireVersionV1] ++ registration.commitment ++ windowStart ++ windowEnd ++ maxBuckets ++
    encryptionPubkey)

/-- `decode_subscription_registration_v1`. -/
def decodeSubscriptionRegistrationV1 (blob : Bytes) : Py SubscriptionRegistration := do
  let (versionRaw, offset) ← readExact blob 0 1
  raiseIf (versionRaw.head? ≠ some wireVersionV1) "unknown version"
  let (commitment, offset) ← readExact blob offset 32
  let (windowStartRaw, offset) ← readExact blob offset 8
  let (windowEndRaw, offset) ← readExact blob offset 8
  let (maxBucketsRaw, offset) ← readExact blob offset 4
  let (encryptionPubkey, offset) ← readU16Len blob offset none
  raiseIf (offset ≠ blob.length) "truncated payload"
  let windowStartEpoch := intFromBytes windowStartRaw
  let windowEndEpoch := intFromBytes windowEndRaw
  let maxBucketsPerEpoch := intFromBytes maxBucketsRaw
  raiseIf (windowEndEpoch < windowStartEpoch) "window_end_epoch must be >= window_start_epoch"
  pure {
    commitment := commitment
    windowStartEpoch := windowStartEpoch
    windowEndEpoch := windowEndEpoch
    maxBucketsPerEpoch := maxBucketsPerEpoch
    encryptionPubkey := encryptionPubkey }

/-! ## The format -/

/-- The registrations that have a wire form. -/
structure RegistrationEncodable (r : SubscriptionRegistration) : Prop where
  commitment_width : r.commitment.length = 32
  window : r.windowStartEpoch ≤ r.windowEndEpoch
  windowStart_nonneg : 0 ≤ r.windowStartEpoch
  windowEnd_lt : r.windowEndEpoch < 256 ^ 8
  maxBuckets_nonneg : 0 ≤ r.maxBucketsPerEpoch
  maxBuckets_lt : r.maxBucketsPerEpoch < 256 ^ 4
  pubkey_length : r.encryptionPubkey.length ≤ 0xFFFF

/-- The wire form of a registration. -/
def registrationBytes (r : SubscriptionRegistration) : Bytes :=
  [wireVersionV1] ++ r.commitment ++ natToBE 8 r.windowStartEpoch.toNat ++
    natToBE 8 r.windowEndEpoch.toNat ++ natToBE 4 r.maxBucketsPerEpoch.toNat ++
    (natToBE 2 r.encryptionPubkey.length ++ r.encryptionPubkey)

/-- **The registration writer** accepts the encodable records and writes their wire form. -/
theorem encodeSubscriptionRegistrationV1_eq_ok_iff {r : SubscriptionRegistration} {blob : Bytes} :
    encodeSubscriptionRegistrationV1 r = .ok blob ↔
      RegistrationEncodable r ∧ blob = registrationBytes r := by
  have h16 : 0xFFFF < 256 ^ 2 := by norm_num
  simp only [encodeSubscriptionRegistrationV1, py_bind_eq_ok_iff, raiseIf_eq_ok_iff, exists_const,
    packU16Len, packLen_eq_ok_iff h16, intToBytes_eq_ok_iff, not_not, not_lt, pure, Except.pure,
    Except.ok.injEq]
  constructor
  · rintro ⟨hcommitment, hwindow, -, start, ⟨hstart, -, rfl⟩, stop, ⟨-, hstop, rfl⟩, buckets,
      ⟨hbuckets, hbucketsLt, rfl⟩, field, ⟨hpubkey, rfl⟩, rfl⟩
    exact ⟨⟨hcommitment, hwindow, hstart, hstop, hbuckets, hbucketsLt, hpubkey⟩, rfl⟩
  · rintro ⟨h, rfl⟩
    have hbuckets : r.maxBucketsPerEpoch ≤ 0xFFFFFFFF := by
      have := h.maxBuckets_lt
      omega
    exact ⟨h.commitment_width, h.window, ⟨h.maxBuckets_nonneg, hbuckets⟩, _,
      ⟨h.windowStart_nonneg, lt_of_le_of_lt h.window h.windowEnd_lt, rfl⟩, _,
      ⟨le_trans h.windowStart_nonneg h.window, h.windowEnd_lt, rfl⟩, _,
      ⟨h.maxBuckets_nonneg, h.maxBuckets_lt, rfl⟩, _, ⟨h.pubkey_length, rfl⟩, rfl⟩

/-- **The registration reader** accepts exactly the wire forms of encodable records. -/
theorem decodeSubscriptionRegistrationV1_eq_ok_iff {r : SubscriptionRegistration} {blob : Bytes} :
    decodeSubscriptionRegistrationV1 blob = .ok r ↔
      RegistrationEncodable r ∧ blob = registrationBytes r := by
  simp only [decodeSubscriptionRegistrationV1, py_bind_eq_ok_iff, raiseIf_eq_ok_iff, exists_const,
    Prod.exists, readU16Len, readLen_eq_ok_iff, readExact_eq_ok_iff, not_lt, not_not, pure,
    Except.pure, Except.ok.injEq]
  constructor
  · rintro ⟨version, o₁, ⟨hversionLen, hversion⟩, hv1, commitment, o₂,
      ⟨hcommitmentLen, hcommitment⟩, start, o₃, ⟨hstartLen, hstart⟩, stop, o₄,
      ⟨hstopLen, hstop⟩, buckets, o₅, ⟨hbucketsLen, hbuckets⟩, pubkey, o₆, ⟨-, hpubkeyLt, hpubkey⟩,
      rfl, hwindow, rfl⟩
    have hwhole := ((((hversion.append hcommitment).append hstart).append hstop).append
      hbuckets).append hpubkey
    rw [eq_singleton_of_head? hversionLen hv1] at hwhole
    have hbytes := spans_zero_iff.mp hwhole
    refine ⟨⟨hcommitmentLen, hwindow, intFromBytes_nonneg _, intFromBytes_lt hstopLen,
      intFromBytes_nonneg _, intFromBytes_lt hbucketsLen, ?_⟩, ?_⟩
    · show pubkey.length ≤ 0xFFFF
      omega
    · -- the three numbers are written back as the bytes they were read from
      rw [registrationBytes, natToBE_intFromBytes hstartLen, natToBE_intFromBytes hstopLen,
        natToBE_intFromBytes hbucketsLen]
      exact hbytes.symm
  · rintro ⟨h, rfl⟩
    -- cut the wire form at the fields, from the last one back
    have hwhole := spans_zero_iff.mpr (rfl : registrationBytes r = registrationBytes r)
    obtain ⟨o₅, hspan, hpubkey⟩ := Spans.append_iff.mp hwhole
    obtain ⟨o₄, hspan, hbuckets⟩ := Spans.append_iff.mp hspan
    obtain ⟨o₃, hspan, hstop⟩ := Spans.append_iff.mp hspan
    obtain ⟨o₂, hspan, hstart⟩ := Spans.append_iff.mp hspan
    obtain ⟨o₁, hversion, hcommitment⟩ := Spans.append_iff.mp hspan
    have hpubkeyLt : r.encryptionPubkey.length < 256 ^ 2 := by
      have := h.pubkey_length
      omega
    have hstartVal := intFromBytes_natToBE h.windowStart_nonneg
      (lt_of_le_of_lt h.window h.windowEnd_lt)
    have hstopVal := intFromBytes_natToBE (le_trans h.windowStart_nonneg h.window) h.windowEnd_lt
    have hbucketsVal := intFromBytes_natToBE h.maxBuckets_nonneg h.maxBuckets_lt
    refine ⟨[wireVersionV1], o₁, ⟨rfl, hversion⟩, rfl, _, o₂, ⟨h.commitment_width, hcommitment⟩, _,
      o₃, ⟨length_natToBE _ _, hstart⟩, _, o₄, ⟨length_natToBE _ _, hstop⟩, _, o₅,
      ⟨length_natToBE _ _, hbuckets⟩, _, _, ⟨?_, hpubkeyLt, hpubkey⟩, rfl, ?_, ?_⟩
    · simp
    · rw [hstartVal, hstopVal]
      exact h.window
    · rw [hstartVal, hstopVal, hbucketsVal]

/-- Reader and writer agree on the format. -/
theorem decodeSubscriptionRegistrationV1_iff_encode {r : SubscriptionRegistration} {blob : Bytes} :
    decodeSubscriptionRegistrationV1 blob = .ok r ↔
      encodeSubscriptionRegistrationV1 r = .ok blob :=
  decodeSubscriptionRegistrationV1_eq_ok_iff.trans
    encodeSubscriptionRegistrationV1_eq_ok_iff.symm

/-! ## The commitment of a subscription -/

/-- `b"pbt-sub-v1"`. -/
def subscriptionDomain : Bytes := [112, 98, 116, 45, 115, 117, 98, 45, 118, 49]

/-- `make_subscription_commitment`. -/
def makeSubscriptionCommitment (H : HashFunction) (secretSeed walletPubkey : Bytes)
    (windowStartEpoch windowEndEpoch maxBucketsPerEpoch : ℤ) : HashPy Digest := do
  HashPy.ofPy (raiseIf (windowEndEpoch < windowStartEpoch)
    "window_end_epoch must be >= window_start_epoch")
  HashPy.ofPy (raiseIf (maxBucketsPerEpoch ≤ 0) "max_buckets_per_epoch must be positive")
  let windowStart ← HashPy.ofPy (intToBytes windowStartEpoch 8)
  let windowEnd ← HashPy.ofPy (intToBytes windowEndEpoch 8)
  let maxBuckets ← HashPy.ofPy (intToBytes maxBucketsPerEpoch 4)
  let payload := subscriptionDomain ++ secretSeed ++ walletPubkey ++ windowStart ++ windowEnd ++
    maxBuckets
  HashPy.ofHash (treeHash H payload)

/-- The numbers of a subscription that can be committed to. -/
structure SubscriptionNumbers (windowStartEpoch windowEndEpoch maxBucketsPerEpoch : ℤ) :
    Prop where
  window : windowStartEpoch ≤ windowEndEpoch
  windowStart_nonneg : 0 ≤ windowStartEpoch
  windowEnd_lt : windowEndEpoch < 256 ^ 8
  maxBuckets_pos : 0 < maxBucketsPerEpoch
  maxBuckets_lt : maxBucketsPerEpoch < 256 ^ 4

/-- The string that a subscription commitment is the hash of. -/
def subscriptionPayload (secretSeed walletPubkey : Bytes)
    (windowStartEpoch windowEndEpoch maxBucketsPerEpoch : ℤ) : Bytes :=
  subscriptionDomain ++ secretSeed ++ walletPubkey ++ natToBE 8 windowStartEpoch.toNat ++
    natToBE 8 windowEndEpoch.toNat ++ natToBE 4 maxBucketsPerEpoch.toNat

section Subscription

variable {H : HashFunction} {seed pubkey seed' pubkey' : Bytes}
  {start stop buckets start' stop' buckets' : ℤ} {d d' : Digest} {qs qs' : List Bytes}

/-- **`make_subscription_commitment`** hashes its payload, and nothing else. -/
theorem makeSubscriptionCommitment_returns_iff :
    (makeSubscriptionCommitment H seed pubkey start stop buckets).Returns d qs ↔
      SubscriptionNumbers start stop buckets ∧
        d = H (subscriptionPayload seed pubkey start stop buckets) ∧
        qs = [subscriptionPayload seed pubkey start stop buckets] := by
  simp only [makeSubscriptionCommitment, HashPy.returns_ofPy_bind_iff, HashPy.returns_ofHash_iff,
    raiseIf_eq_ok_iff, intToBytes_eq_ok_iff, exists_const, not_lt, not_le, val_treeHash,
    queries_treeHash]
  constructor
  · rintro ⟨hwindow, hbuckets, startBytes, ⟨hstart, -, rfl⟩, stopBytes, ⟨-, hstop, rfl⟩,
      bucketBytes, ⟨-, hbucketsLt, rfl⟩, rfl, rfl⟩
    exact ⟨⟨hwindow, hstart, hstop, hbuckets, hbucketsLt⟩, rfl, rfl⟩
  · rintro ⟨h, rfl, rfl⟩
    exact ⟨h.window, h.maxBuckets_pos, _,
      ⟨h.windowStart_nonneg, lt_of_le_of_lt h.window h.windowEnd_lt, rfl⟩, _,
      ⟨le_trans h.windowStart_nonneg h.window, h.windowEnd_lt, rfl⟩, _,
      ⟨h.maxBuckets_pos.le, h.maxBuckets_lt, rfl⟩, rfl, rfl⟩

/-- The payload cut into its fields. -/
theorem subscriptionPayload_eq_flatten (seed pubkey : Bytes) (start stop buckets : ℤ) :
    subscriptionPayload seed pubkey start stop buckets =
      ([subscriptionDomain, seed] ++ pubkey :: [natToBE 8 start.toNat, natToBE 8 stop.toNat,
        natToBE 4 buckets.toNat]).flatten := by
  simp [subscriptionPayload]

/-- **Equal payloads** are made of the same fields when the seeds have equal lengths. -/
theorem subscription_eq_of_payload_eq (h : SubscriptionNumbers start stop buckets)
    (h' : SubscriptionNumbers start' stop' buckets')
    (hpayload : subscriptionPayload seed pubkey start stop buckets =
      subscriptionPayload seed' pubkey' start' stop' buckets')
    (hseed : seed.length = seed'.length) :
    seed = seed' ∧ pubkey = pubkey' ∧ start = start' ∧ stop = stop' ∧ buckets = buckets' := by
  rw [subscriptionPayload_eq_flatten, subscriptionPayload_eq_flatten] at hpayload
  have hfields := pieces_eq_of_flatten_eq hpayload (by simp [hseed]) (by simp)
  simp only [List.cons_append, List.nil_append, List.cons.injEq, and_true, true_and] at hfields
  obtain ⟨hseedEq, hpubkey, hstart, hstop, hbuckets⟩ := hfields
  refine ⟨hseedEq, hpubkey, ?_, ?_, ?_⟩
  · exact natToBE_toNat_inj h.windowStart_nonneg (lt_of_le_of_lt h.window h.windowEnd_lt)
      h'.windowStart_nonneg (lt_of_le_of_lt h'.window h'.windowEnd_lt) hstart
  · exact natToBE_toNat_inj (le_trans h.windowStart_nonneg h.window) h.windowEnd_lt
      (le_trans h'.windowStart_nonneg h'.window) h'.windowEnd_lt hstop
  · exact natToBE_toNat_inj h.maxBuckets_pos.le h.maxBuckets_lt h'.maxBuckets_pos.le
      h'.maxBuckets_lt hbuckets

/-- **What a subscription commitment binds**: equal commitments come from equal inputs, or the
two payloads collide, exactly when the seeds have equal lengths, or the payloads collide. -/
theorem subscriptionCommitment_binds_iff
    (h : (makeSubscriptionCommitment H seed pubkey start stop buckets).Returns d qs)
    (h' : (makeSubscriptionCommitment H seed' pubkey' start' stop' buckets').Returns d' qs')
    (hcommitment : d = d') :
    ((seed = seed' ∧ pubkey = pubkey' ∧ start = start' ∧ stop = stop' ∧ buckets = buckets') ∨
        Collision H (qs ++ qs')) ↔
      seed.length = seed'.length ∨ Collision H (qs ++ qs') := by
  obtain ⟨hnumbers, rfl, rfl⟩ := makeSubscriptionCommitment_returns_iff.mp h
  obtain ⟨hnumbers', rfl, rfl⟩ := makeSubscriptionCommitment_returns_iff.mp h'
  apply or_collision_congr
  · rintro ⟨hseed, -⟩
    exact congrArg List.length hseed
  · intro hseed
    rcases eq_or_collision_pair hcommitment with hpayload | hcol
    · exact Or.inl (subscription_eq_of_payload_eq hnumbers hnumbers' hpayload hseed)
    · exact Or.inr hcol

end Subscription

end Pbt
