/-
# Metadata records in the tree (`pbt/metadata.py`)

Four leaves of the header stem hold the lifecycle data of an account: the epoch it expires in,
whether it is hot, its archival tier and its flags.  Each has an encoder that checks its range and
a decoder that checks the width of the leaf.

A record that is stored in its four leaves is read back from them after any changes before it,
and any changes after it that are not about its leaves (`record_readsBack`).  An account of which
no leaf was ever written reads as the record of zeros, so that this record cannot be told from
none (`readRecord_of_untouched`).
-/
import PartitionedBinaryTree.StateStore

namespace Pbt

/-! ## The functions of the source -/

/-- `encode_expiry_epoch`. -/
def encodeExpiryEpoch (epoch : ℤ) : Py Bytes := do
  raiseIf (¬ (0 ≤ epoch ∧ epoch < 2 ^ 64)) ("expiry epoch out of range: " ++ toString epoch)
  intToBytes epoch 32

/-- `decode_expiry_epoch`. -/
def decodeExpiryEpoch (value : Bytes) : Py ℤ := do
  raiseIf (value.length ≠ 32) "expiry metadata leaf must be 32 bytes"
  pure (intFromBytes value)

/-- `encode_hot_cold`. -/
def encodeHotCold (isHot : Bool) : Bytes := (if isHot then [1] else [0]) ++ zeroBytes 31

/-- `decode_hot_cold`. -/
def decodeHotCold (value : Bytes) : Py Bool := do
  raiseIf (value.length ≠ 32) "hot/cold metadata leaf must be 32 bytes"
  pure (value.headD 0 != 0)

/-- `encode_archival_tier`. -/
def encodeArchivalTier (tier : ℤ) : Py Bytes := do
  raiseIf (¬ (0 ≤ tier ∧ tier ≤ 255)) ("archival tier out of range: " ++ toString tier)
  pure ([UInt8.ofNat tier.toNat] ++ zeroBytes 31)

/-- `decode_archival_tier`. -/
def decodeArchivalTier (value : Bytes) : Py ℤ := do
  raiseIf (value.length ≠ 32) "archival-tier metadata leaf must be 32 bytes"
  pure ((value.headD 0).toNat : ℤ)

/-- `encode_flags`. -/
def encodeFlags (flags : ℤ) : Py Bytes := do
  raiseIf (¬ (0 ≤ flags ∧ flags < 2 ^ 256)) "flags out of range for 32-byte value"
  intToBytes flags 32

/-- `decode_flags`. -/
def decodeFlags (value : Bytes) : Py ℤ := do
  raiseIf (value.length ≠ 32) "flags metadata leaf must be 32 bytes"
  pure (intFromBytes value)

/-- `MetadataRecord`. -/
structure MetadataRecord where
  expiryEpoch : ℤ
  isHot : Bool
  archivalTier : ℤ
  flags : ℤ := 0
  deriving DecidableEq, Repr

/-- `METADATA_SUBTREE`. -/
def metadataSubtree : ℤ := 254

/-- `metadata_partition_key`. -/
def metadataPartitionKey (treePosition : Bytes) (subindex : ℤ) : Py Bytes :=
  getTreeKey metadataSubtree treePosition subindex

/-! ## Storing and reading a record -/

/-- The changes that store a record: each field, encoded, in its leaf. -/
def recordChanges (address : Address32) (record : MetadataRecord) : Py (List ItemChange) := do
  let expiryEpoch ← encodeExpiryEpoch record.expiryEpoch
  let archivalTier ← encodeArchivalTier record.archivalTier
  let flags ← encodeFlags record.flags
  pure [
    .write address (.metadata .expiryEpoch) expiryEpoch,
    .write address (.metadata .hotCold) (encodeHotCold record.isHot),
    .write address (.metadata .archivalTier) archivalTier,
    .write address (.metadata .flags) flags]

/-- A record read from its leaves: `get` at the four keys, then the decoders. -/
def readRecord (H : HashFunction) (layout : MetadataLayout) (address : Bytes) (root : Node) :
    HashPy MetadataRecord := do
  let keys ← metadataKeysForAddress H address layout
  let expiryEpoch ← HashPy.ofPy (get root keys.expiryEpoch)
  let hotCold ← HashPy.ofPy (get root keys.hotCold)
  let archivalTier ← HashPy.ofPy (get root keys.archivalTier)
  let flags ← HashPy.ofPy (get root keys.flags)
  HashPy.ofPy do
    pure {
      expiryEpoch := ← decodeExpiryEpoch expiryEpoch.val
      isHot := ← decodeHotCold hotCold.val
      archivalTier := ← decodeArchivalTier archivalTier.val
      flags := ← decodeFlags flags.val }

/-! ## Leaves of a record -/

/-- Every field is in the range of its encoder. -/
structure MetadataRecord.InRange (record : MetadataRecord) : Prop where
  expiryEpoch : 0 ≤ record.expiryEpoch ∧ record.expiryEpoch < 2 ^ 64
  archivalTier : 0 ≤ record.archivalTier ∧ record.archivalTier ≤ 255
  flags : 0 ≤ record.flags ∧ record.flags < 2 ^ 256

/-- Numbers that an encoder writes to a whole leaf fit it. -/
theorem lt_of_lt_two_pow {n : ℤ} {bits : ℕ} (h : n < 2 ^ bits) (hbits : bits ≤ 256) :
    n < 256 ^ 32 := by
  have h256 : (2 : ℤ) ^ 256 = 256 ^ 32 := by norm_num
  exact lt_of_lt_of_le h (h256 ▸ pow_le_pow_right₀ (by norm_num) hbits)

/-- What an encoder of a whole leaf accepts. -/
theorem encode_eq_ok_iff {n : ℤ} {bits : ℕ} (hbits : bits ≤ 256) {message : String}
    {leaf : Bytes} :
    (do raiseIf (¬ (0 ≤ n ∧ n < 2 ^ bits)) message; intToBytes n 32) = .ok leaf ↔
      (0 ≤ n ∧ n < 2 ^ bits) ∧ leaf = natToBE 32 n.toNat := by
  simp only [py_bind_eq_ok_iff, raiseIf_eq_ok_iff, intToBytes_eq_ok_iff, exists_const, not_not]
  refine and_congr_right fun h => ?_
  exact ⟨fun hleaf => hleaf.2.2, fun hleaf => ⟨h.1, lt_of_lt_two_pow h.2 hbits, hleaf⟩⟩

theorem encodeExpiryEpoch_eq_ok_iff {epoch : ℤ} {leaf : Bytes} :
    encodeExpiryEpoch epoch = .ok leaf ↔
      (0 ≤ epoch ∧ epoch < 2 ^ 64) ∧ leaf = natToBE 32 epoch.toNat :=
  encode_eq_ok_iff (by norm_num)

theorem encodeFlags_eq_ok_iff {flags : ℤ} {leaf : Bytes} :
    encodeFlags flags = .ok leaf ↔
      (0 ≤ flags ∧ flags < 2 ^ 256) ∧ leaf = natToBE 32 flags.toNat :=
  encode_eq_ok_iff (le_refl 256)

theorem encodeArchivalTier_eq_ok_iff {tier : ℤ} {leaf : Bytes} :
    encodeArchivalTier tier = .ok leaf ↔
      (0 ≤ tier ∧ tier ≤ 255) ∧ [UInt8.ofNat tier.toNat] ++ zeroBytes 31 = leaf := by
  simp only [encodeArchivalTier, py_bind_eq_ok_iff, raiseIf_eq_ok_iff, exists_const, not_not,
    pure, Except.pure, Except.ok.injEq]

/-- The leaf of a field. -/
def MetadataRecord.leafBytes (record : MetadataRecord) : MetadataField → Bytes
  | .expiryEpoch => natToBE 32 record.expiryEpoch.toNat
  | .hotCold => encodeHotCold record.isHot
  | .archivalTier => [UInt8.ofNat record.archivalTier.toNat] ++ zeroBytes 31
  | .flags => natToBE 32 record.flags.toNat

theorem MetadataRecord.length_leafBytes (record : MetadataRecord) (field : MetadataField) :
    (record.leafBytes field).length = 32 := by
  cases field with
  | expiryEpoch => exact length_natToBE 32 _
  | hotCold => cases h : record.isHot <;> simp [leafBytes, encodeHotCold, h]
  | archivalTier => simp [leafBytes]
  | flags => exact length_natToBE 32 _

/-- The fields of four leaves. -/
def recordOfLeaves (leaf : MetadataField → Bytes) : MetadataRecord where
  expiryEpoch := intFromBytes (leaf .expiryEpoch)
  isHot := (leaf .hotCold).headD 0 != 0
  archivalTier := ((leaf .archivalTier).headD 0).toNat
  flags := intFromBytes (leaf .flags)

/-- **The decoders undo the encoders.** -/
theorem recordOfLeaves_leafBytes {record : MetadataRecord} (h : record.InRange) :
    recordOfLeaves record.leafBytes = record := by
  have hexpiry : intFromBytes (natToBE 32 record.expiryEpoch.toNat) = record.expiryEpoch :=
    intFromBytes_natToBE h.expiryEpoch.1
      (lt_of_lt_two_pow h.expiryEpoch.2 (by norm_num))
  have hflags : intFromBytes (natToBE 32 record.flags.toNat) = record.flags :=
    intFromBytes_natToBE h.flags.1 (lt_of_lt_two_pow h.flags.2 (le_refl 256))
  have htier : ((UInt8.ofNat record.archivalTier.toNat).toNat : ℤ) = record.archivalTier := by
    have hrange := h.archivalTier
    rw [UInt8.toNat_ofNat_of_lt' (by show _ < 256; omega), Int.toNat_of_nonneg hrange.1]
  have hhot : ((encodeHotCold record.isHot).headD 0 != 0) = record.isHot := by
    cases record.isHot <;> rfl
  show MetadataRecord.mk _ _ _ _ = record
  rw [MetadataRecord.leafBytes, MetadataRecord.leafBytes, MetadataRecord.leafBytes,
    MetadataRecord.leafBytes, hexpiry, hflags, hhot, List.singleton_append, List.headD_cons, htier]

/-- The four fields. -/
def MetadataField.all : List MetadataField := [.expiryEpoch, .hotCold, .archivalTier, .flags]

/-- **`recordChanges`** writes the leaves of a record in range. -/
theorem recordChanges_eq_ok_iff {address : Address32} {record : MetadataRecord}
    {changes : List ItemChange} :
    recordChanges address record = .ok changes ↔ record.InRange ∧
      changes = MetadataField.all.map fun field =>
        .write address (.metadata field) (record.leafBytes field) := by
  simp only [recordChanges, py_bind_eq_ok_iff, encodeExpiryEpoch_eq_ok_iff,
    encodeArchivalTier_eq_ok_iff, encodeFlags_eq_ok_iff, pure, Except.pure, Except.ok.injEq,
    MetadataField.all, List.map_cons, List.map_nil, MetadataRecord.leafBytes]
  constructor
  · rintro ⟨expiry, ⟨hexpiry, hexpiryLeaf⟩, tier, ⟨htier, htierLeaf⟩, flags,
      ⟨hflags, hflagsLeaf⟩, hchanges⟩
    refine ⟨⟨hexpiry, htier, hflags⟩, ?_⟩
    rw [← hchanges, hexpiryLeaf, ← htierLeaf, hflagsLeaf]
  · rintro ⟨h, hchanges⟩
    exact ⟨_, ⟨h.expiryEpoch, rfl⟩, _, ⟨h.archivalTier, rfl⟩, _, ⟨h.flags, rfl⟩, hchanges.symm⟩

variable {H : HashFunction} {layout : MetadataLayout}

/-- A record is read off the leaves at its keys. -/
theorem readRecord_returns {address : Bytes} {root : Node} (hlayout : layout.Accepted)
    {leaf : MetadataField → Value}
    (hleaf : ∀ field, get root ((headerKey address (layout.subindex field).toNat).bytes H) =
      .ok (leaf field)) :
    (readRecord H layout address root).Returns (recordOfLeaves fun field => (leaf field).val)
      [address] := by
  obtain ⟨keys, hkeys⟩ := exists_metadataKeysForAddress (H := H) hlayout address
  have hget : ∀ field, get root (keys.get field) = .ok (leaf field) := by
    intro field
    rw [(metadataKeysForAddress_returns hkeys).2.2 field]
    exact hleaf field
  have hlength : ∀ field, ¬ (leaf field).val.length ≠ 32 := fun field =>
    not_not.mpr (leaf field).property
  refine HashPy.returns_bind_iff.mpr ⟨keys, [address], [], hkeys, ?_, (List.append_nil _).symm⟩
  simp only [HashPy.returns_ofPy_bind_iff, HashPy.returns_ofPy_iff]
  refine ⟨_, hget .expiryEpoch, _, hget .hotCold, _, hget .archivalTier, _, hget .flags, ?_, trivial⟩
  simp only [decodeExpiryEpoch, decodeHotCold, decodeArchivalTier, decodeFlags, raiseIf,
    if_neg (hlength _)]
  rfl

/-- No item is in the metadata partition. -/
theorem partition_hashedKey_ne (address : Bytes) (item : StateItem) :
    (item.hashedKey layout address).partition ≠ 254 := by
  have hheader : (0 : UInt8) ≠ 254 := by decide
  have hcode : (1 : UInt8) ≠ 254 := by decide
  have hstorage : (255 : UInt8) ≠ 254 := by decide
  cases item with
  | basicData => exact hheader
  | codeHash => exact hheader
  | codeChunk chunkId =>
      show (codeChunkKey address _).partition ≠ 254
      unfold codeChunkKey
      split_ifs
      · exact hheader
      · exact hcode
  | storageSlot storageKey =>
      show (storageSlotKey address _).partition ≠ 254
      unfold storageSlotKey
      split_ifs
      · exact hheader
      · exact hstorage
  | metadata field => exact hheader

/-- The keys of the metadata partition are kept for later: no item has one of them. -/
theorem metadataPartitionKey_ne {treePosition key key' address : Bytes} {subindex : ℤ}
    {item : StateItem} {qs : List Bytes} (h : metadataPartitionKey treePosition subindex = .ok key)
    (hitem : (item.key H layout address).Returns key' qs) : key ≠ key' := by
  obtain ⟨-, -, rfl⟩ := getTreeKey_eq_ok_iff.mp h
  obtain ⟨-, rfl, -⟩ := StateItem.key_returns hitem
  intro heq
  exact partition_hashedKey_ne address item (List.cons.inj heq).1.symm

/-! ## Records after a run -/

/-- The leaves of a record that was stored. -/
theorem finalState_record (before : List ItemChange) (hlayout : layout.Accepted)
    (address : Address32) (record : MetadataRecord) (field : MetadataField) :
    (finalState layout (before ++ MetadataField.all.map fun field =>
      .write address (.metadata field) (record.leafBytes field))
        (address, .metadata field)).val = record.leafBytes field := by
  have hnodup : ((MetadataField.all.map fun field => ItemChange.write address (.metadata field)
      (record.leafBytes field)).map ItemChange.place).Nodup := by
    rw [List.map_map]
    refine List.Nodup.map (fun field field' h => ?_) (by decide)
    exact StateItem.metadata.inj (Prod.mk.inj h).2
  have hmem : ItemChange.write address (.metadata field) (record.leafBytes field) ∈
      MetadataField.all.map fun field =>
        ItemChange.write address (.metadata field) (record.leafBytes field) :=
    List.mem_map_of_mem (by cases field <;> decide)
  exact congrArg Subtype.val
    (finalState_of_mem before hnodup hmem hlayout (dif_pos (record.length_leafBytes field)))

/-- **A run reads as the map in mind**: the record of an account, unless keys collide. -/
theorem readRecord_runChanges (changes : List ItemChange) (hlayout : layout.Accepted)
    (address : Address32) :
    (readRecord H layout address.val (runChanges H layout changes)).Returns
        (recordOfLeaves fun field => (finalState layout changes (address, .metadata field)).val)
        [address.val] ∨
      Collision H (hashedByChanges H layout changes ++ [address.val]) := by
  rcases Classical.em (Collision H (hashedByChanges H layout changes ++ [address.val])) with
    hcol | hno
  · exact Or.inr hcol
  · left
    apply readRecord_returns hlayout
    intro field
    have hitem : (StateItem.metadata field).HasKey layout := hlayout
    rw [runChanges_eq_run, get_run_eq_finalMap _ (HashedKey.two_le_length_bytes H _)]
    exact congrArg Except.ok ((finalMap_eq_or_collision changes hitem).resolve_right hno)

/-- **A stored record is read back**, whatever was changed before, and after any later changes
that are not about its leaves, unless keys collide. -/
theorem record_readsBack {address : Address32} {record : MetadataRecord}
    {stored : List ItemChange} (hlayout : layout.Accepted)
    (hstored : recordChanges address record = .ok stored) (before : List ItemChange)
    {later : List ItemChange} (hlater : ∀ change ∈ later, ∀ field,
      change.place ≠ (address, StateItem.metadata field)) :
    (readRecord H layout address.val
        (runChanges H layout (before ++ stored ++ later))).Returns record [address.val] ∨
      Collision H (hashedByChanges H layout (before ++ stored ++ later) ++ [address.val]) := by
  obtain ⟨hrange, rfl⟩ := recordChanges_eq_ok_iff.mp hstored
  have hleaves : (recordOfLeaves fun field => (finalState layout
      (before ++ (MetadataField.all.map fun field =>
        .write address (.metadata field) (record.leafBytes field)) ++ later)
        (address, .metadata field)).val) = record := by
    refine Eq.trans (congrArg recordOfLeaves (funext fun field => ?_))
      (recordOfLeaves_leafBytes hrange)
    rw [finalState_append_of_ne _ fun change hmem => hlater change hmem field]
    exact finalState_record before hlayout address record field
  rcases readRecord_runChanges (H := H) _ hlayout address with hread | hcol
  · left
    rw [hleaves] at hread
    exact hread
  · exact Or.inr hcol

/-- A record of a hot account, after its basic data were written. -/
theorem record_readsBack_hot :
    (readRecord (fun _ => emptyValue) {} (BytesN.zero 32).val
        (runChanges (fun _ => emptyValue) {} ([] ++
          (MetadataField.all.map fun field => .write (BytesN.zero 32) (.metadata field)
            (MetadataRecord.leafBytes ⟨7, true, 2, 1⟩ field)) ++
          [.write (BytesN.zero 32) .basicData (zeroBytes 32)]))).Returns
        ⟨7, true, 2, 1⟩ [(BytesN.zero 32).val] ∨
      Collision (fun _ => emptyValue) (hashedByChanges (fun _ => emptyValue) {} ([] ++
        (MetadataField.all.map fun field => .write (BytesN.zero 32) (.metadata field)
          (MetadataRecord.leafBytes ⟨7, true, 2, 1⟩ field)) ++
        [.write (BytesN.zero 32) .basicData (zeroBytes 32)]) ++ [(BytesN.zero 32).val]) := by
  have hrange : MetadataRecord.InRange ⟨7, true, 2, 1⟩ :=
    ⟨⟨by norm_num, by norm_num⟩, ⟨by norm_num, by norm_num⟩, ⟨by norm_num, by norm_num⟩⟩
  refine record_readsBack (validateMetadataLayout_eq_ok_iff.mp (by decide))
    (recordChanges_eq_ok_iff.mpr ⟨hrange, rfl⟩) [] ?_
  intro change hmem field hplace
  rw [List.mem_singleton.mp hmem] at hplace
  cases (Prod.mk.inj hplace).2

/-- An account of which no leaf was changed reads as the record of zeros. -/
theorem readRecord_of_untouched {address : Address32} {changes : List ItemChange}
    (hlayout : layout.Accepted) (h : ∀ change ∈ changes, ∀ field,
      change.place ≠ (address, StateItem.metadata field)) :
    (readRecord H layout address.val (runChanges H layout changes)).Returns
        { expiryEpoch := 0, isHot := false, archivalTier := 0 } [address.val] ∨
      Collision H (hashedByChanges H layout changes ++ [address.val]) := by
  have hleaves : (fun field => (finalState layout changes (address, .metadata field)).val) =
      fun _ => emptyValue.val := by
    funext field
    have happend : finalState layout ([] ++ changes) (address, .metadata field) =
        finalState layout [] (address, .metadata field) :=
      finalState_append_of_ne [] fun change hmem => h change hmem field
    rw [List.nil_append] at happend
    rw [happend, finalState_nil]
  rcases readRecord_runChanges (H := H) changes hlayout address with hread | hcol
  · left
    rw [hleaves] at hread
    exact hread
  · exact Or.inr hcol

end Pbt
