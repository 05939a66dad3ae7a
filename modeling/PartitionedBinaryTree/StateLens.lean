/-
# Ephemeral state lenses (`pbt/stem_subscription.py`)

A lens is a short-lived view of a wallet on some stems.  Deriving one hashes the wallet secret,
the lifetime, the quota, a tag and the stems, put side by side without their lengths.
`lensCommitment_binds_iff` says what the commitment binds, and `commitments_bind_iff` says so of
both commitments that hide a secret.
-/
import PartitionedBinaryTree.Registration
import Mathlib.Data.Finset.Sort

namespace Pbt

/-! ## The functions of the source -/

/-- `EphemeralStateLens`. -/
structure EphemeralStateLens where
  stemPrefixes : List Bytes
  createdEpoch : ℤ
  expiresAtEpoch : ℤ
  lensCommitment : Bytes
  remainingUses : Option ℤ := none
  disposed : Bool := false
  deriving DecidableEq, Repr

/-- `b"pbt-ephemeral-lens-v1"`. -/
def lensDomain : Bytes :=
  [112, 98, 116, 45, 101, 112, 104, 101, 109, 101, 114, 97, 108, 45, 108, 101, 110, 115, 45, 118,
    49]

/-- `derive_ephemeral_state_lens`. -/
def deriveEphemeralStateLens (H : HashFunction) (targetStems : List Bytes) (walletSecret : Bytes)
    (currentEpoch : ℤ) (ttlEpochs : ℤ := 1) (scopeTag : Bytes := [])
    (maxUses : Option ℤ := none) : HashPy EphemeralStateLens := do
  HashPy.ofPy (raiseIf (currentEpoch < 0) "current_epoch must be non-negative")
  HashPy.ofPy (raiseIf (ttlEpochs ≤ 0) "ttl_epochs must be positive")
  HashPy.ofPy (raiseIf (∃ uses ∈ maxUses, uses ≤ 0) "max_uses must be positive when provided")
  let stems := targetStems.toFinset.sort
  let expiresAtEpoch := currentEpoch + ttlEpochs - 1
  let epochBytes ← HashPy.ofPy (intToBytes currentEpoch 8)
  let ttlBytes ← HashPy.ofPy (intToBytes ttlEpochs 4)
  let usesBytes ← HashPy.ofPy (intToBytes (maxUses.getD 0) 4)
  let commitment ← HashPy.ofHash (treeHash H (lensDomain ++ walletSecret ++ epochBytes ++
    ttlBytes ++ usesBytes ++ scopeTag ++ stems.flatten))
  pure {
    stemPrefixes := stems
    createdEpoch := currentEpoch
    expiresAtEpoch := expiresAtEpoch
    lensCommitment := commitment.val
    remainingUses := maxUses }

/-! ## The preimage of a lens commitment -/

/-- The arguments of `derive_ephemeral_state_lens`. -/
structure LensArguments where
  targetStems : List Bytes
  walletSecret : Bytes
  currentEpoch : ℤ
  ttlEpochs : ℤ
  scopeTag : Bytes
  maxUses : Option ℤ

namespace LensArguments

/-- The call with these arguments. -/
def derive (H : HashFunction) (a : LensArguments) : HashPy EphemeralStateLens :=
  deriveEphemeralStateLens H a.targetStems a.walletSecret a.currentEpoch a.ttlEpochs a.scopeTag
    a.maxUses

/-- `tuple(sorted(set(target_stems)))`. -/
def stems (a : LensArguments) : List Bytes := a.targetStems.toFinset.sort

/-- The string that a lens commitment is the hash of. -/
def preimage (a : LensArguments) : Bytes :=
  lensDomain ++ a.walletSecret ++ natToBE 8 a.currentEpoch.toNat ++ natToBE 4 a.ttlEpochs.toNat ++
    natToBE 4 (a.maxUses.getD 0).toNat ++ a.scopeTag ++ a.stems.flatten

/-- The lens that the arguments derive. -/
def lens (H : HashFunction) (a : LensArguments) : EphemeralStateLens where
  stemPrefixes := a.stems
  createdEpoch := a.currentEpoch
  expiresAtEpoch := a.currentEpoch + a.ttlEpochs - 1
  lensCommitment := (H a.preimage).val
  remainingUses := a.maxUses

/-- The arguments that are accepted. -/
structure Accepted (a : LensArguments) : Prop where
  epoch_nonneg : 0 ≤ a.currentEpoch
  epoch_lt : a.currentEpoch < 256 ^ 8
  ttl_pos : 0 < a.ttlEpochs
  ttl_lt : a.ttlEpochs < 256 ^ 4
  uses_pos : ∀ uses ∈ a.maxUses, 0 < uses
  uses_lt : ∀ uses ∈ a.maxUses, uses < 256 ^ 4

end LensArguments

variable {H : HashFunction} {a a' : LensArguments}

/-- The quota as it is hashed. -/
theorem uses_bounds (h : a.Accepted) : 0 ≤ a.maxUses.getD 0 ∧ a.maxUses.getD 0 < 256 ^ 4 := by
  cases huses : a.maxUses with
  | none => exact ⟨le_refl 0, by norm_num⟩
  | some uses => exact ⟨(h.uses_pos uses huses).le, h.uses_lt uses huses⟩

/-- **`derive_ephemeral_state_lens`** returns on accepted arguments, and hashes their preimage
and nothing else. -/
theorem derive_returns_iff {l : EphemeralStateLens} {qs : List Bytes} :
    (a.derive H).Returns l qs ↔ a.Accepted ∧ a.lens H = l ∧ qs = [a.preimage] := by
  simp only [LensArguments.derive, deriveEphemeralStateLens, HashPy.returns_ofPy_bind_iff,
    HashPy.returns_ofHash_bind_iff, HashPy.returns_pure_iff, raiseIf_eq_ok_iff,
    intToBytes_eq_ok_iff, exists_const, not_lt, not_le, not_exists, not_and, val_treeHash,
    queries_treeHash]
  constructor
  · rintro ⟨hepoch, httl, huses, epochBytes, ⟨-, hepochLt, rfl⟩, ttlBytes, ⟨-, httlLt, rfl⟩,
      usesBytes, ⟨-, husesLt, rfl⟩, rest, ⟨rfl, rfl⟩, rfl⟩
    refine ⟨⟨hepoch, hepochLt, httl, httlLt, huses, ?_⟩, rfl, rfl⟩
    intro uses hmem
    rw [Option.mem_def.mp hmem] at husesLt
    exact husesLt
  · rintro ⟨h, rfl, rfl⟩
    exact ⟨h.epoch_nonneg, h.ttl_pos, h.uses_pos, _, ⟨h.epoch_nonneg, h.epoch_lt, rfl⟩, _,
      ⟨h.ttl_pos.le, h.ttl_lt, rfl⟩, _, ⟨(uses_bounds h).1, (uses_bounds h).2, rfl⟩, [],
      ⟨rfl, rfl⟩, rfl⟩

/-- The preimage cut into its fields. -/
theorem lensPreimage_eq_flatten (a : LensArguments) :
    a.preimage = ([lensDomain, a.walletSecret, natToBE 8 a.currentEpoch.toNat,
      natToBE 4 a.ttlEpochs.toNat, natToBE 4 (a.maxUses.getD 0).toNat] ++
      a.scopeTag :: a.stems).flatten := by
  simp [LensArguments.preimage]

/-- The quota that is hashed says which quota was given, since none is hashed as zero. -/
theorem maxUses_inj (h : a.Accepted) (h' : a'.Accepted)
    (huses : a.maxUses.getD 0 = a'.maxUses.getD 0) : a.maxUses = a'.maxUses := by
  cases hm : a.maxUses with
  | none =>
      cases hm' : a'.maxUses with
      | none => rfl
      | some uses' =>
          rw [hm, hm'] at huses
          have hpos := h'.uses_pos uses' hm'
          exact absurd huses hpos.ne
  | some uses =>
      cases hm' : a'.maxUses with
      | none =>
          rw [hm, hm'] at huses
          have hpos := h.uses_pos uses hm
          exact absurd huses hpos.ne'
      | some uses' =>
          rw [hm, hm'] at huses
          exact congrArg some huses

/-- **Equal preimages** are made of the same arguments when the secrets, and the stems one by
one, have equal lengths. -/
theorem arguments_eq_of_preimage_eq (h : a.Accepted) (h' : a'.Accepted)
    (hpreimage : a.preimage = a'.preimage)
    (hsecret : a.walletSecret.length = a'.walletSecret.length)
    (hstems : a.stems.map List.length = a'.stems.map List.length) :
    a.walletSecret = a'.walletSecret ∧ a.currentEpoch = a'.currentEpoch ∧
      a.ttlEpochs = a'.ttlEpochs ∧ a.maxUses = a'.maxUses ∧ a.scopeTag = a'.scopeTag ∧
      a.stems = a'.stems := by
  rw [lensPreimage_eq_flatten, lensPreimage_eq_flatten] at hpreimage
  have hfields := pieces_eq_of_flatten_eq hpreimage (by simp [hsecret]) hstems
  simp only [List.cons_append, List.nil_append, List.cons.injEq, true_and] at hfields
  obtain ⟨hsecretEq, hepoch, httl, huses, hscope, hstemsEq⟩ := hfields
  refine ⟨hsecretEq, ?_, ?_, ?_, hscope, hstemsEq⟩
  · exact natToBE_toNat_inj h.epoch_nonneg h.epoch_lt h'.epoch_nonneg h'.epoch_lt hepoch
  · exact natToBE_toNat_inj h.ttl_pos.le h.ttl_lt h'.ttl_pos.le h'.ttl_lt httl
  · apply maxUses_inj h h'
    exact natToBE_toNat_inj (uses_bounds h).1 (uses_bounds h).2 (uses_bounds h').1
      (uses_bounds h').2 huses

/-- The sorted stems and the set of stems say the same. -/
theorem stems_eq_iff : a.stems = a'.stems ↔
    a.targetStems.toFinset = a'.targetStems.toFinset := by
  constructor
  · intro h
    rw [← Finset.sort_toFinset a.targetStems.toFinset (· ≤ ·),
      ← Finset.sort_toFinset a'.targetStems.toFinset (· ≤ ·)]
    exact congrArg List.toFinset h
  · intro h
    exact congrArg (fun s : Finset Bytes => s.sort) h

/-- **What a lens commitment binds**: equal commitments come from equal arguments, up to the order
and the repetitions of the stems, or the two preimages collide, exactly when the secrets, and the
sorted stems one by one, have equal lengths, or the preimages collide. -/
theorem lensCommitment_binds_iff {l l' : EphemeralStateLens} {qs qs' : List Bytes}
    (h : (a.derive H).Returns l qs) (h' : (a'.derive H).Returns l' qs')
    (hcommitment : l.lensCommitment = l'.lensCommitment) :
    ((a.walletSecret = a'.walletSecret ∧ a.currentEpoch = a'.currentEpoch ∧
        a.ttlEpochs = a'.ttlEpochs ∧ a.maxUses = a'.maxUses ∧ a.scopeTag = a'.scopeTag ∧
        a.targetStems.toFinset = a'.targetStems.toFinset) ∨ Collision H (qs ++ qs')) ↔
      (a.walletSecret.length = a'.walletSecret.length ∧
        a.stems.map List.length = a'.stems.map List.length) ∨ Collision H (qs ++ qs') := by
  obtain ⟨haccepted, rfl, rfl⟩ := derive_returns_iff.mp h
  obtain ⟨haccepted', rfl, rfl⟩ := derive_returns_iff.mp h'
  apply or_collision_congr
  · rintro ⟨hsecret, -, -, -, -, hstems⟩
    exact ⟨congrArg List.length hsecret, congrArg (List.map List.length) (stems_eq_iff.mpr hstems)⟩
  · rintro ⟨hsecret, hstems⟩
    have hhash : H a.preimage = H a'.preimage := Subtype.val_injective hcommitment
    rcases eq_or_collision_pair hhash with hpreimage | hcol
    · obtain ⟨hsecretEq, hepoch, httl, huses, hscope, hstemsEq⟩ :=
        arguments_eq_of_preimage_eq haccepted haccepted' hpreimage hsecret hstems
      exact Or.inl ⟨hsecretEq, hepoch, httl, huses, hscope, stems_eq_iff.mp hstemsEq⟩
    · exact Or.inr hcol

/-- **What the commitments of a client bind**: a subscription commitment binds its inputs exactly
among seeds of one length, and a lens commitment exactly among secrets of one length and stems
of the same lengths, unless the preimages collide. -/
theorem commitments_bind_iff (H : HashFunction) :
    (∀ seed pubkey seed' pubkey' start stop buckets start' stop' buckets' d qs qs',
      (makeSubscriptionCommitment H seed pubkey start stop buckets).Returns d qs →
      (makeSubscriptionCommitment H seed' pubkey' start' stop' buckets').Returns d qs' →
      (((seed = seed' ∧ pubkey = pubkey' ∧ start = start' ∧ stop = stop' ∧ buckets = buckets') ∨
          Collision H (qs ++ qs')) ↔
        seed.length = seed'.length ∨ Collision H (qs ++ qs'))) ∧
    ∀ (a a' : LensArguments) l l' qs qs', (a.derive H).Returns l qs → (a'.derive H).Returns l' qs' →
      l.lensCommitment = l'.lensCommitment →
      (((a.walletSecret = a'.walletSecret ∧ a.currentEpoch = a'.currentEpoch ∧
          a.ttlEpochs = a'.ttlEpochs ∧ a.maxUses = a'.maxUses ∧ a.scopeTag = a'.scopeTag ∧
          a.targetStems.toFinset = a'.targetStems.toFinset) ∨ Collision H (qs ++ qs')) ↔
        (a.walletSecret.length = a'.walletSecret.length ∧
          a.stems.map List.length = a'.stems.map List.length) ∨ Collision H (qs ++ qs')) := by
  constructor
  · intro seed pubkey seed' pubkey' start stop buckets start' stop' buckets' d qs qs' h h'
    exact subscriptionCommitment_binds_iff h h' rfl
  · intro a a' l l' qs qs' h h' hcommitment
    exact lensCommitment_binds_iff h h' hcommitment

/-- The arguments of a lens of the first epoch on some stems. -/
def firstLens (targetStems : List Bytes) : LensArguments where
  targetStems := targetStems
  walletSecret := [1]
  currentEpoch := 0
  ttlEpochs := 1
  scopeTag := []
  maxUses := none

theorem accepted_firstLens (targetStems : List Bytes) : (firstLens targetStems).Accepted where
  epoch_nonneg := le_refl 0
  epoch_lt := by norm_num [firstLens]
  ttl_pos := one_pos
  ttl_lt := by norm_num [firstLens]
  uses_pos := fun _ h => absurd h (Option.not_mem_none _)
  uses_lt := fun _ h => absurd h (Option.not_mem_none _)

/-- **Inputs with one commitment**: the seed `seed` with the key `wallet-pk` and the seed `see`
with the key `dwallet-pk`; the stem `ab` and the stems `a` and `b`.  In both cases the two
preimages are one string. -/
theorem commitments_not_bound :
    (∃ d qs qs', (makeSubscriptionCommitment (fun _ => emptyValue) [115, 101, 101, 100]
        [119, 97, 108, 108, 101, 116, 45, 112, 107] 1 2 1).Returns d qs ∧
      (makeSubscriptionCommitment (fun _ => emptyValue) [115, 101, 101]
        [100, 119, 97, 108, 108, 101, 116, 45, 112, 107] 1 2 1).Returns d qs' ∧
      ¬ Collision (fun _ : Bytes => emptyValue) (qs ++ qs')) ∧
    ∃ l l' qs qs', ((firstLens [[97, 98]]).derive fun _ => emptyValue).Returns l qs ∧
      ((firstLens [[97], [98]]).derive fun _ => emptyValue).Returns l' qs' ∧
      l.lensCommitment = l'.lensCommitment ∧
      (firstLens [[97, 98]]).targetStems.toFinset ≠ (firstLens [[97], [98]]).targetStems.toFinset ∧
      ¬ Collision (fun _ : Bytes => emptyValue) (qs ++ qs') := by
  constructor
  · have hnumbers : SubscriptionNumbers 1 2 1 := by constructor <;> norm_num
    have hpayload : subscriptionPayload [115, 101, 101]
        [100, 119, 97, 108, 108, 101, 116, 45, 112, 107] 1 2 1 =
        subscriptionPayload [115, 101, 101, 100] [119, 97, 108, 108, 101, 116, 45, 112, 107] 1 2 1 :=
      rfl
    refine ⟨_, _, _, makeSubscriptionCommitment_returns_iff.mpr ⟨hnumbers, rfl, rfl⟩,
      makeSubscriptionCommitment_returns_iff.mpr ⟨hnumbers, rfl, rfl⟩, ?_⟩
    rw [hpayload]
    exact not_collision_pair _
  · have hstems : (firstLens [[97], [98]]).stems = [[97], [98]] :=
      (List.toFinset_sort _ (by decide)).mpr (by decide)
    have hstem : (firstLens [[97, 98]]).stems = [[97, 98]] :=
      (List.toFinset_sort _ (by decide)).mpr (by decide)
    have hpreimage : (firstLens [[97], [98]]).preimage = (firstLens [[97, 98]]).preimage := by
      rw [LensArguments.preimage, LensArguments.preimage, hstems, hstem]
      rfl
    refine ⟨_, _, _, _, derive_returns_iff.mpr ⟨accepted_firstLens _, rfl, rfl⟩,
      derive_returns_iff.mpr ⟨accepted_firstLens _, rfl, rfl⟩, rfl, by decide, ?_⟩
    rw [hpreimage]
    exact not_collision_pair _

end Pbt
