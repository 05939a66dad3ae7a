/-
# Packets of metadata leaves (`pbt/stem_subscription.py`)

`is_reserved_metadata_packet` looks at the subindex of a packet's key and not at its stem.
The reserved subindices are kept off the other slots of the header stem, so there the
answer is right.  The pages of code and storage use all 256 subindices: a chunk or a slot
that is at a reserved one is taken for metadata (`isReservedMetadataPacket_iff`).
-/
import Mathlib.Data.Finset.Insert
import PartitionedBinaryTree.PageLocality
import PartitionedBinaryTree.EndpointLimits

namespace Pbt

/-! ## The classifier -/

/-- `METADATA_EXPIRY_EPOCH_SUBINDEX`. -/
def metadataExpiryEpochSubindex : ℤ := 240

/-- `METADATA_HOT_COLD_SUBINDEX`. -/
def metadataHotColdSubindex : ℤ := 241

/-- `METADATA_ARCHIVAL_TIER_SUBINDEX`. -/
def metadataArchivalTierSubindex : ℤ := 242

/-- `METADATA_FLAGS_SUBINDEX`. -/
def metadataFlagsSubindex : ℤ := 243

/-- `_metadata_subindices`. -/
def metadataSubindices : Finset ℤ :=
  {metadataExpiryEpochSubindex, metadataHotColdSubindex, metadataArchivalTierSubindex,
    metadataFlagsSubindex}

/-- `is_reserved_metadata_packet`. -/
def isReservedMetadataPacket (packet : StemWitnessPacket) : Py Bool := do
  let (_, subindex) ← splitKey packet.key
  pure (decide (((subindex : ℕ) : ℤ) ∈ metadataSubindices))

/-! ## Leaves of the state items -/

theorem mem_metadataSubindices {i : ℤ} : i ∈ metadataSubindices ↔ 240 ≤ i ∧ i < 244 := by
  simp only [metadataSubindices, metadataExpiryEpochSubindex, metadataHotColdSubindex,
    metadataArchivalTierSubindex, metadataFlagsSubindex, Finset.mem_insert, Finset.mem_singleton]
  omega

/-- They are the subindices of the default layout. -/
theorem mem_metadataSubindices_iff {i : ℤ} :
    i ∈ metadataSubindices ↔ ∃ f, ({} : MetadataLayout).subindex f = i := by
  rw [mem_metadataSubindices]
  constructor
  · intro h
    obtain rfl | rfl | rfl | rfl : i = 240 ∨ i = 241 ∨ i = 242 ∨ i = 243 := by omega
    · exact ⟨.expiryEpoch, rfl⟩
    · exact ⟨.hotCold, rfl⟩
    · exact ⟨.archivalTier, rfl⟩
    · exact ⟨.flags, rfl⟩
  · rintro ⟨f, rfl⟩
    cases f <;> decide

namespace StateItem

/-- The item is a metadata entry. -/
def isMetadata : StateItem → Bool
  | metadata _ => true
  | _ => false

/-- The leaf of a chunk or a slot on its page, when it is not in the header stem. -/
def pageLeaf : StateItem → Option ℤ
  | codeChunk chunkId =>
      if chunkId < codeChunksInHeader then none
      else some ((chunkId - codeChunksInHeader) % stemSubtreeWidth)
  | storageSlot storageKey =>
      if storageKey < storageChunksInHeader then none
      else some ((storageKey - storageChunksInHeader) % stemSubtreeWidth)
  | _ => none

/-- A chunk or a slot that is behind the header stem, on a leaf with a reserved subindex. -/
def OnReservedLeaf (item : StateItem) : Prop := ∃ leaf ∈ item.pageLeaf, leaf ∈ metadataSubindices

variable {item : StateItem} {p : ℕ}

/-- In the header stem the reserved subindices are those of the metadata. -/
theorem mem_metadataSubindices_headerSlot (hkey : item.HasKey {})
    (h : item.headerSlot {} = some p) :
    ((p : ℤ) ∈ metadataSubindices ↔ item.isMetadata = true) ∧ item.pageLeaf = none := by
  obtain ⟨rfl, rfl⟩ | ⟨rfl, rfl⟩ | ⟨i, rfl, hi, rfl⟩ | ⟨i, rfl, hi, rfl⟩ | ⟨f, rfl, -, hf, -, -⟩ :=
    headerSlot_cases hkey h
  · exact ⟨by decide, rfl⟩
  · exact ⟨by decide, rfl⟩
  · refine ⟨?_, if_pos (by rw [codeChunksInHeader]; omega)⟩
    rw [mem_metadataSubindices]
    exact iff_of_false (by omega) Bool.false_ne_true
  · refine ⟨?_, if_pos (by rw [storageChunksInHeader]; omega)⟩
    rw [mem_metadataSubindices]
    exact iff_of_false (by omega) Bool.false_ne_true
  · refine ⟨?_, rfl⟩
    rw [mem_metadataSubindices_iff]
    exact iff_of_true ⟨f, hf⟩ rfl

/-- **The leaf of an item**: its slot in the header stem, or its leaf on a page. -/
theorem slot_hashedKey (hkey : item.HasKey {}) (address : Bytes) :
    (∃ p : ℕ, item.headerSlot {} = some p ∧ (item.hashedKey {} address).slot.toNat = p) ∨
      item.isMetadata = false ∧
        item.pageLeaf = some ((item.hashedKey {} address).slot.toNat : ℤ) := by
  cases hp : item.headerSlot {} with
  | some p =>
      refine Or.inl ⟨p, rfl, ?_⟩
      rw [hashedKey_of_headerSlot hkey hp, headerKey]
      exact UInt8.toNat_ofNat_of_lt' (headerSlot_lt hkey hp)
  | none =>
      right
      obtain ⟨m, -, ⟨rfl, hparts⟩ | ⟨rfl, hparts⟩⟩ := exists_page hkey hp
      · have hslot : (UInt8.ofNat (m % 256)).toNat = m % 256 :=
          UInt8.toNat_ofNat_of_lt' (Nat.mod_lt m (by decide))
        rw [hparts, hslot, pageLeaf, codeChunksInHeader, stemSubtreeWidth, if_neg (by omega)]
        exact ⟨rfl, congrArg some (by omega)⟩
      · have hslot : (UInt8.ofNat (m % 256)).toNat = m % 256 :=
          UInt8.toNat_ofNat_of_lt' (Nat.mod_lt m (by decide))
        rw [hparts, hslot, pageLeaf, storageChunksInHeader, stemSubtreeWidth, if_neg (by omega)]
        exact ⟨rfl, congrArg some (by omega)⟩

end StateItem

/-! ## When the classification is right -/

/-- **When `is_reserved_metadata_packet` agrees with the layout**: for the key of an item, it
says whether the item is metadata, exactly unless the item is a chunk or a slot behind the
header stem on a leaf with a reserved subindex. -/
theorem isReservedMetadataPacket_iff (H : HashFunction) (address : Address32) (item : StateItem)
    (packet : StemWitnessPacket) (qs : List Bytes)
    (h : (item.key H {} address.val).Returns packet.key qs) :
    isReservedMetadataPacket packet = .ok item.isMetadata ↔ ¬ item.OnReservedLeaf := by
  obtain ⟨hkey, hbytes, -⟩ := StateItem.key_returns h
  have hclass : isReservedMetadataPacket packet = .ok
      (decide (((item.hashedKey {} address.val).slot.toNat : ℤ) ∈ metadataSubindices)) := by
    rw [isReservedMetadataPacket, hbytes, splitKey_hashedKey]
    rfl
  rw [hclass, Except.ok.injEq]
  obtain ⟨p, hp, hslot⟩ | ⟨hmetadata, hleaf⟩ := StateItem.slot_hashedKey hkey address.val
  · obtain ⟨hmem, hpage⟩ := StateItem.mem_metadataSubindices_headerSlot hkey hp
    rw [hslot]
    refine iff_of_true (Bool.eq_iff_iff.mpr (decide_eq_true_iff.trans hmem)) ?_
    rintro ⟨leaf, hleaf, -⟩
    rw [hpage] at hleaf
    cases hleaf
  · rw [hmetadata, decide_eq_false_iff_not, not_iff_not, StateItem.OnReservedLeaf, hleaf]
    constructor
    · intro hmem
      exact ⟨_, rfl, hmem⟩
    · rintro ⟨leaf, hsome, hmem⟩
      rw [Option.mem_def, Option.some.injEq] at hsome
      rwa [hsome]

/-- A packet with some key. -/
def keyPacket (key : Bytes) : StemWitnessPacket :=
  { lonePacket (fun _ => emptyValue) [7] with key := key }

/-- The first storage slot of a page is not metadata. -/
theorem isReservedMetadataPacket_storageSlot :
    isReservedMetadataPacket (keyPacket (((StateItem.storageSlot 4).hashedKey {}
      (BytesN.zero 32).val).bytes fun _ => emptyValue)) = .ok false := by
  refine (isReservedMetadataPacket_iff (fun _ => emptyValue) (BytesN.zero 32) (.storageSlot 4) _ _
    (getTreeKeyForStorageSlot_returns_iff.mpr ⟨by decide, by decide, rfl, rfl⟩)).mpr ?_
  rintro ⟨leaf, hleaf, hmem⟩
  cases hleaf
  exact absurd hmem (by decide)

/-- The code chunk 256 is at leaf 240 of its page, and is taken for metadata. -/
theorem not_isReservedMetadataPacket_codeChunk :
    ∃ packet qs, ((StateItem.codeChunk 256).key (fun _ => emptyValue) {}
        (BytesN.zero 32).val).Returns packet.key qs ∧
      isReservedMetadataPacket packet = .ok true := by
  refine ⟨keyPacket (((StateItem.codeChunk 256).hashedKey {} (BytesN.zero 32).val).bytes
    fun _ => emptyValue), _,
    getTreeKeyForCodeChunk_returns_iff.mpr ⟨by decide, by decide, rfl, rfl⟩, ?_⟩
  rw [isReservedMetadataPacket, keyPacket, splitKey_hashedKey]
  rfl

end Pbt
