/-
# Keys of the Rust client (`pbt-rs/src/ethereum.rs`)

The Rust client derives the keys of basic data, code chunks and storage slots as the
reference client does, with the same partitions, pages and slots, but it hashes
preimages that start with a domain of their own.  So the two clients agree on a key
exactly when the hash of each preimage with the domain is the hash of the preimage
without it (`keys_agree_iff`).

The `blake3` crate is a parameter, and `usize` has 64 bits.
-/
import PartitionedBinaryTree.Embedding
import PartitionedBinaryTree.RustTree

open Pbt (stemSubtreeWidth)

namespace PbtRs

/-- `usize`. -/
abbrev Usize := UInt64

/-! ## Constants -/

/-- `HEADER_SUBTREE`. -/
def headerSubtree : UInt8 := 0

/-- `CODE_SUBTREE`. -/
def codeSubtree : UInt8 := 1

/-- `STORAGE_SUBTREE`. -/
def storageSubtree : UInt8 := 255

/-- `BASIC_DATA_LEAF_KEY`. -/
def basicDataLeafKey : UInt8 := 0

/-- `CODE_OFFSET`. -/
def codeOffset : Usize := 4

/-- `HEADER_STORAGE_OFFSET`. -/
def headerStorageOffset : Usize := 20

/-- `CODE_CHUNKS_IN_HEADER`. -/
def codeChunksInHeader : Usize := 16

/-- `STORAGE_CHUNKS_IN_HEADER`. -/
def storageChunksInHeader : Usize := 4

/-- `b"PBT:HEADER:v1"`. -/
def headerDomain : Bytes := [80, 66, 84, 58, 72, 69, 65, 68, 69, 82, 58, 118, 49]

/-- `b"PBT:CODE:v1"`. -/
def codeDomain : Bytes := [80, 66, 84, 58, 67, 79, 68, 69, 58, 118, 49]

/-- `b"PBT:STORAGE:v1"`. -/
def storageDomain : Bytes := [80, 66, 84, 58, 83, 84, 79, 82, 65, 71, 69, 58, 118, 49]

/-! ## Key derivation -/

/-- `int_to_bytes32`. -/
def intToBytes32 (value : Usize) : Bytes := zeroBytes (32 - 8) ++ natToBE 8 value.toNat

/-- `get_tree_key`. -/
def getTreeKey (storageType : UInt8) (treePosition : Bytes) (subindex : UInt8) : Bytes :=
  [storageType] ++ treePosition ++ [subindex]

/-- `blake3_32`, with the function of the `blake3` crate. -/
def blake3Of (blake3 : Pbt.HashFunction) (data : Bytes) : Logged Bytes (BytesN 32) :=
  Logged.query blake3 data

/-- `get_tree_key_for_basic_data`. -/
def getTreeKeyForBasicData (blake3 : Pbt.HashFunction) (address : BytesN 32) :
    Logged Bytes Bytes := do
  let preimage := headerDomain ++ address.val
  let position ← blake3Of blake3 preimage
  pure (getTreeKey headerSubtree position.val basicDataLeafKey)

/-- `get_tree_key_for_code_chunk`. -/
def getTreeKeyForCodeChunk (blake3 : Pbt.HashFunction) (address : BytesN 32) (chunkId : Usize) :
    Logged Bytes Bytes := do
  let headerPreimage := headerDomain ++ address.val
  let headerPosition ← blake3Of blake3 headerPreimage
  if chunkId < codeChunksInHeader then
    pure (getTreeKey headerSubtree headerPosition.val (codeOffset + chunkId).toUInt8)
  else
    let overflow := chunkId - codeChunksInHeader
    let high := overflow / UInt64.ofNat stemSubtreeWidth
    let low := overflow % UInt64.ofNat stemSubtreeWidth
    let preimage := codeDomain ++ address.val ++ intToBytes32 high
    let codePosition ← blake3Of blake3 preimage
    pure (getTreeKey codeSubtree codePosition.val low.toUInt8)

/-- `get_tree_key_for_storage_slot`. -/
def getTreeKeyForStorageSlot (blake3 : Pbt.HashFunction) (address : BytesN 32)
    (storageKey : Usize) : Logged Bytes Bytes := do
  let headerPreimage := headerDomain ++ address.val
  let headerPosition ← blake3Of blake3 headerPreimage
  if storageKey < storageChunksInHeader then
    pure (getTreeKey headerSubtree headerPosition.val (headerStorageOffset + storageKey).toUInt8)
  else
    let overflow := storageKey - storageChunksInHeader
    let high := overflow / UInt64.ofNat stemSubtreeWidth
    let low := overflow % UInt64.ofNat stemSubtreeWidth
    let partA := storageDomain ++ address.val
    let partB := storageDomain ++ address.val ++ intToBytes32 high
    let positionA ← blake3Of blake3 partA
    let positionB ← blake3Of blake3 partB
    pure (getTreeKey storageSubtree (positionA.val ++ positionB.val) low.toUInt8)

/-! ## The keys that are derived -/

/-- A key of the header stem. -/
def headerKey (address : BytesN 32) (subindex : ℕ) : HashedKey :=
  ⟨0, [headerDomain ++ address.val], UInt8.ofNat subindex⟩

/-- The key of a code chunk. -/
def codeChunkKey (address : BytesN 32) (chunkId : ℕ) : HashedKey :=
  if chunkId < 16 then headerKey address (4 + chunkId)
  else ⟨1, [codeDomain ++ address.val ++ natToBE 32 ((chunkId - 16) / 256)],
    UInt8.ofNat ((chunkId - 16) % 256)⟩

/-- The key of a storage slot. -/
def storageSlotKey (address : BytesN 32) (storageKey : ℕ) : HashedKey :=
  if storageKey < 4 then headerKey address (20 + storageKey)
  else ⟨255, [storageDomain ++ address.val,
      storageDomain ++ address.val ++ natToBE 32 ((storageKey - 4) / 256)],
    UInt8.ofNat ((storageKey - 4) % 256)⟩

theorem intToBytes32_eq (value : Usize) : intToBytes32 value = natToBE 32 value.toNat :=
  (natToBE_add 24 value.toNat_lt).symm

/-- The page and the slot of an item behind the header. -/
theorem overflow_toNat {index offset : Usize} {n : ℕ} (hn : offset.toNat = n)
    (h : ¬ index < offset) :
    ((index - offset) / UInt64.ofNat stemSubtreeWidth).toNat = (index.toNat - n) / 256 ∧
      ((index - offset) % UInt64.ofNat stemSubtreeWidth).toUInt8 =
        UInt8.ofNat ((index.toNat - n) % 256) := by
  have hle : offset ≤ index := UInt64.not_lt.mp h
  have hsub : (index - offset).toNat = index.toNat - n := by
    rw [UInt64.toNat_sub_of_le _ _ hle, hn]
  refine ⟨by rw [UInt64.toNat_div, hsub]; rfl, ?_⟩
  apply UInt8.toNat_inj.mp
  rw [UInt64.toNat_toUInt8, UInt64.toNat_mod, hsub, UInt8.toNat_ofNat']
  rfl

/-- The slot of an item in the header stem. -/
theorem add_toUInt8 {index offset bound : Usize} {n : ℕ} (hn : offset.toNat = n)
    (hbound : n + bound.toNat ≤ 256) (h : index < bound) :
    (offset + index).toUInt8 = UInt8.ofNat (n + index.toNat) := by
  have hlt : index.toNat < bound.toNat := UInt64.lt_iff_toNat_lt.mp h
  apply UInt8.toNat_inj.mp
  rw [UInt64.toNat_toUInt8, UInt64.toNat_add, hn, UInt8.toNat_ofNat',
    Nat.mod_eq_of_lt (b := 2 ^ 64) (by omega)]

variable {blake3 : Pbt.HashFunction} {address : BytesN 32}

/-- **`get_tree_key_for_basic_data`.** -/
theorem getTreeKeyForBasicData_eq :
    getTreeKeyForBasicData blake3 address =
      ⟨(headerKey address 0).bytes blake3, (headerKey address 0).preimages⟩ := by
  rw [headerKey, HashedKey.bytes_singleton]
  rfl

/-- **`get_tree_key_for_code_chunk`.** -/
theorem getTreeKeyForCodeChunk_eq (chunkId : Usize) :
    (getTreeKeyForCodeChunk blake3 address chunkId).val =
        (codeChunkKey address chunkId.toNat).bytes blake3 ∧
      (codeChunkKey address chunkId.toNat).preimages ⊆
        (getTreeKeyForCodeChunk blake3 address chunkId).queries := by
  have hoffset : codeChunksInHeader.toNat = 16 := rfl
  unfold getTreeKeyForCodeChunk codeChunkKey
  simp only [Logged.val_bind, Logged.queries_bind]
  by_cases hheader : chunkId < codeChunksInHeader
  · have hlt : chunkId.toNat < 16 := UInt64.lt_iff_toNat_lt.mp hheader
    have hslot : (codeOffset + chunkId).toUInt8 = UInt8.ofNat (4 + chunkId.toNat) :=
      add_toUInt8 rfl (by decide) hheader
    rw [if_pos hheader, if_pos hlt, hslot, headerKey, HashedKey.bytes_singleton]
    exact ⟨rfl, List.Subset.refl _⟩
  · have hlt : ¬ chunkId.toNat < 16 := fun h => hheader (UInt64.lt_iff_toNat_lt.mpr h)
    obtain ⟨hpage, hslot⟩ := overflow_toNat hoffset hheader
    rw [if_neg hheader, if_neg hlt, HashedKey.bytes_singleton]
    simp only [Logged.val_bind, Logged.queries_bind, intToBytes32_eq, hpage, hslot]
    exact ⟨rfl, List.subset_append_right _ _⟩

/-- **`get_tree_key_for_storage_slot`.** -/
theorem getTreeKeyForStorageSlot_eq (storageKey : Usize) :
    (getTreeKeyForStorageSlot blake3 address storageKey).val =
        (storageSlotKey address storageKey.toNat).bytes blake3 ∧
      (storageSlotKey address storageKey.toNat).preimages ⊆
        (getTreeKeyForStorageSlot blake3 address storageKey).queries := by
  have hoffset : storageChunksInHeader.toNat = 4 := rfl
  unfold getTreeKeyForStorageSlot storageSlotKey
  simp only [Logged.val_bind, Logged.queries_bind]
  by_cases hheader : storageKey < storageChunksInHeader
  · have hlt : storageKey.toNat < 4 := UInt64.lt_iff_toNat_lt.mp hheader
    have hslot : (headerStorageOffset + storageKey).toUInt8 =
        UInt8.ofNat (20 + storageKey.toNat) := add_toUInt8 rfl (by decide) hheader
    rw [if_pos hheader, if_pos hlt, hslot, headerKey, HashedKey.bytes_singleton]
    exact ⟨rfl, List.Subset.refl _⟩
  · have hlt : ¬ storageKey.toNat < 4 := fun h => hheader (UInt64.lt_iff_toNat_lt.mpr h)
    obtain ⟨hpage, hslot⟩ := overflow_toNat hoffset hheader
    rw [if_neg hheader, if_neg hlt, HashedKey.bytes_pair]
    simp only [Logged.val_bind, Logged.queries_bind, intToBytes32_eq, hpage, hslot]
    exact ⟨rfl, List.subset_append_right _ _⟩

/-! ## The same parts with domains -/

/-- The domain of the preimages of a partition. -/
def domainOf (storageType : UInt8) : Bytes :=
  if storageType = headerSubtree then headerDomain
  else if storageType = codeSubtree then codeDomain
  else storageDomain

/-- A key of the reference client with the domain in front of its preimages. -/
def withDomain (k : HashedKey) : HashedKey :=
  { k with preimages := k.preimages.map (domainOf k.partition ++ ·) }

theorem withDomain_injective : Function.Injective withDomain := by
  rintro ⟨p, ps, i⟩ ⟨p', ps', i'⟩ h
  obtain ⟨hp, hps, hi⟩ := HashedKey.mk.inj h
  dsimp only at hp hps hi
  subst hp hi
  rw [List.map_injective_iff.mpr (fun _ _ h => List.append_cancel_left h) hps]

theorem headerKey_eq (address : BytesN 32) (subindex : ℕ) :
    headerKey address subindex = withDomain (Pbt.headerKey address.val subindex) := rfl

theorem codeChunkKey_eq (address : BytesN 32) (chunkId : ℕ) :
    codeChunkKey address chunkId = withDomain (Pbt.codeChunkKey address.val chunkId) := by
  unfold codeChunkKey Pbt.codeChunkKey
  split_ifs
  · exact headerKey_eq _ _
  · rw [List.append_assoc]
    rfl

theorem storageSlotKey_eq (address : BytesN 32) (storageKey : ℕ) :
    storageSlotKey address storageKey = withDomain (Pbt.storageSlotKey address.val storageKey) := by
  unfold storageSlotKey Pbt.storageSlotKey
  split_ifs
  · exact headerKey_eq _ _
  · rw [List.append_assoc]
    rfl

/-! ## Agreement with the reference client -/

variable {H : Pbt.HashFunction}

theorem outcome_basicData_eq_iff {key : Bytes} :
    (Pbt.getTreeKeyForBasicData H address.val).outcome = .ok key ↔
      key = (Pbt.headerKey address.val 0).bytes H := by
  rw [Pbt.HashPy.outcome_eq_ok_iff]
  simp only [Pbt.getTreeKeyForBasicData_returns_iff]
  exact ⟨fun ⟨_, hkey, _⟩ => hkey, fun hkey => ⟨_, hkey, rfl⟩⟩

/-- The page number of an index of 64 bits is in range. -/
theorem page_lt (index : Usize) (n : ℤ) (h : 0 ≤ n) :
    ((index.toNat : ℤ) - n) / 256 < 256 ^ 32 := by
  have hlt : (index.toNat : ℤ) < 2 ^ 64 := by exact_mod_cast index.toNat_lt
  have hwide : (2 : ℤ) ^ 64 ≤ 256 ^ 32 := by norm_num
  omega

theorem outcome_codeChunk_eq_iff {chunkId : Usize} {key : Bytes} :
    (Pbt.getTreeKeyForCodeChunk H address.val chunkId.toNat).outcome = .ok key ↔
      key = (Pbt.codeChunkKey address.val chunkId.toNat).bytes H := by
  rw [Pbt.HashPy.outcome_eq_ok_iff]
  simp only [Pbt.getTreeKeyForCodeChunk_returns_iff, Int.toNat_natCast]
  exact ⟨fun ⟨_, _, _, hkey, _⟩ => hkey,
    fun hkey => ⟨_, Int.natCast_nonneg _, page_lt chunkId 16 (by decide), hkey, rfl⟩⟩

theorem outcome_storageSlot_eq_iff {storageKey : Usize} {key : Bytes} :
    (Pbt.getTreeKeyForStorageSlot H address.val storageKey.toNat).outcome = .ok key ↔
      key = (Pbt.storageSlotKey address.val storageKey.toNat).bytes H := by
  rw [Pbt.HashPy.outcome_eq_ok_iff]
  simp only [Pbt.getTreeKeyForStorageSlot_returns_iff, Int.toNat_natCast]
  exact ⟨fun ⟨_, _, _, hkey, _⟩ => hkey,
    fun hkey => ⟨_, Int.natCast_nonneg _, page_lt storageKey 4 (by decide), hkey, rfl⟩⟩

/-- Keys of the header stem. -/
theorem headerKey_bytes_eq_iff {subindex : ℕ} :
    (headerKey address subindex).bytes H = (Pbt.headerKey address.val subindex).bytes H ↔
      H (headerDomain ++ address.val) = H address.val := by
  rw [HashedKey.bytes_eq_iff (by decide)]
  simp [headerKey, Pbt.headerKey]

/-- **When the two clients agree on keys.**  For every address, chunk, slot and hash function
in place of BLAKE3, each of the three keys is the same exactly when the preimages of its
position have the same hash with the domain of the Rust client and without it. -/
theorem keys_agree_iff (H : Pbt.HashFunction) (address : BytesN 32) (chunkId storageKey : Usize) :
    ((Pbt.getTreeKeyForBasicData H address.val).outcome =
        .ok (getTreeKeyForBasicData H address).val ↔
      H (headerDomain ++ address.val) = H address.val) ∧
    ((Pbt.getTreeKeyForCodeChunk H address.val chunkId.toNat).outcome =
        .ok (getTreeKeyForCodeChunk H address chunkId).val ↔
      if chunkId.toNat < 16 then H (headerDomain ++ address.val) = H address.val
      else
        H (codeDomain ++ address.val ++ natToBE 32 ((chunkId.toNat - 16) / 256)) =
          H (address.val ++ natToBE 32 ((chunkId.toNat - 16) / 256))) ∧
    ((Pbt.getTreeKeyForStorageSlot H address.val storageKey.toNat).outcome =
        .ok (getTreeKeyForStorageSlot H address storageKey).val ↔
      if storageKey.toNat < 4 then H (headerDomain ++ address.val) = H address.val
      else
        H (storageDomain ++ address.val) = H address.val ∧
        H (storageDomain ++ address.val ++ natToBE 32 ((storageKey.toNat - 4) / 256)) =
          H (address.val ++ natToBE 32 ((storageKey.toNat - 4) / 256))) := by
  refine ⟨?_, ?_, ?_⟩
  · rw [outcome_basicData_eq_iff, getTreeKeyForBasicData_eq, headerKey_bytes_eq_iff]
  · rw [outcome_codeChunk_eq_iff, (getTreeKeyForCodeChunk_eq chunkId).1, codeChunkKey,
      Pbt.codeChunkKey]
    split_ifs with hheader
    · exact headerKey_bytes_eq_iff
    · rw [HashedKey.bytes_eq_iff (by decide)]
      simp
  · rw [outcome_storageSlot_eq_iff, (getTreeKeyForStorageSlot_eq storageKey).1, storageSlotKey,
      Pbt.storageSlotKey]
    split_ifs with hheader
    · exact headerKey_bytes_eq_iff
    · rw [HashedKey.bytes_eq_iff (by decide)]
      simp

/-- A hash that keeps the first 32 bytes tells the domain from the address: the clients have
different keys for the basic data of the zero address. -/
theorem basicData_keys_differ :
    (Pbt.getTreeKeyForBasicData (BytesN.copyFrom 32) (zeroBytes 32)).outcome ≠
      .ok (getTreeKeyForBasicData (BytesN.copyFrom 32) (BytesN.zero 32)).val := by
  decide

end PbtRs
