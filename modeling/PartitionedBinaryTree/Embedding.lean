/-
# Keys of the account state (`pbt/embedding.py`)

The key of every state item of an account: its basic data and code hash, its code
chunks and its storage slots.  The first chunks and slots share the header stem of
the account with the basic data; the others are numbered through pages of 256, and
each page has a stem of its own.

Each key is a `HashedKey`: `header`, `codeChunkKey` and `storageSlotKey` say of
which partition, preimages and slot, and the `returns_iff` lemmas say that the
functions of the source return the bytes of these keys and hash these preimages.
-/
import PartitionedBinaryTree.Lib.HashedKey
import PartitionedBinaryTree.Nodes

namespace Pbt

/-- `Address32`, an address in its zero-padded form of 32 bytes. -/
abbrev Address32 := BytesN 32

/-! ## Constants -/

/-- `HEADER_SUBTREE`. -/
def headerSubtree : ℤ := 0

/-- `CODE_SUBTREE`. -/
def codeSubtree : ℤ := 1

/-- `STORAGE_SUBTREE`. -/
def storageSubtree : ℤ := 255

/-- `BASIC_DATA_LEAF_KEY`. -/
def basicDataLeafKey : ℤ := 0

/-- `CODE_HASH_LEAF_KEY`. -/
def codeHashLeafKey : ℤ := 1

/-- `HEADER_STORAGE_OFFSET`. -/
def headerStorageOffset : ℤ := 20

/-- `CODE_OFFSET`. -/
def codeOffset : ℤ := 4

/-- `CODE_CHUNKS_IN_HEADER`. -/
def codeChunksInHeader : ℤ := 16

/-- `STORAGE_CHUNKS_IN_HEADER`. -/
def storageChunksInHeader : ℤ := 4

/-! ## Key derivation -/

/-- `int_to_bytes32`. -/
def intToBytes32 (n : ℤ) : Py Bytes := do
  raiseIf (n < 0) ("int_to_bytes32 requires a non-negative integer, got " ++ toString n)
  intToBytes n 32

/-- `get_tree_key`. -/
def getTreeKey (storageType : ℤ) (treePosition : Bytes) (subindex : ℤ) : Py Bytes := do
  raiseIf (¬ (0 ≤ storageType ∧ storageType ≤ 255))
    ("storage_type must be 0–255, got " ++ toString storageType)
  raiseIf (¬ (0 ≤ subindex ∧ subindex < stemSubtreeWidth))
    ("subindex must be 0–255, got " ++ toString subindex)
  pure ([UInt8.ofNat storageType.toNat] ++ treePosition ++ [UInt8.ofNat subindex.toNat])

/-- `get_tree_key_for_basic_data`. -/
def getTreeKeyForBasicData (H : HashFunction) (address : Bytes) : HashPy Bytes := do
  let position ← HashPy.ofHash (treeHash H address)
  HashPy.ofPy (getTreeKey headerSubtree position.val basicDataLeafKey)

/-- `get_tree_key_for_code_hash`. -/
def getTreeKeyForCodeHash (H : HashFunction) (address : Bytes) : HashPy Bytes := do
  let position ← HashPy.ofHash (treeHash H address)
  HashPy.ofPy (getTreeKey headerSubtree position.val codeHashLeafKey)

/-- `get_tree_key_for_code_chunk`. -/
def getTreeKeyForCodeChunk (H : HashFunction) (address : Bytes) (chunkId : ℤ) : HashPy Bytes := do
  HashPy.ofPy (raiseIf (chunkId < 0) ("chunk_id must be non-negative, got " ++ toString chunkId))
  if chunkId < codeChunksInHeader then do
    let position ← HashPy.ofHash (treeHash H address)
    HashPy.ofPy (getTreeKey headerSubtree position.val (codeOffset + chunkId))
  else do
    let overflow := chunkId - codeChunksInHeader
    let high := overflow / stemSubtreeWidth
    let low := overflow % stemSubtreeWidth
    let page ← HashPy.ofPy (intToBytes32 high)
    let position ← HashPy.ofHash (treeHash H (address ++ page))
    HashPy.ofPy (getTreeKey codeSubtree position.val low)

/-- `get_tree_key_for_storage_slot`. -/
def getTreeKeyForStorageSlot (H : HashFunction) (address : Bytes) (storageKey : ℤ) :
    HashPy Bytes := do
  HashPy.ofPy
    (raiseIf (storageKey < 0) ("storage_key must be non-negative, got " ++ toString storageKey))
  if storageKey < storageChunksInHeader then do
    let position ← HashPy.ofHash (treeHash H address)
    HashPy.ofPy (getTreeKey headerSubtree position.val (headerStorageOffset + storageKey))
  else do
    let overflow := storageKey - storageChunksInHeader
    let high := overflow / stemSubtreeWidth
    let low := overflow % stemSubtreeWidth
    let account ← HashPy.ofHash (treeHash H address)
    let page ← HashPy.ofPy (intToBytes32 high)
    let pagePosition ← HashPy.ofHash (treeHash H (address ++ page))
    HashPy.ofPy (getTreeKey storageSubtree (account.val ++ pagePosition.val) low)

/-! ## The keys that are derived -/

/-- A key of the header stem. -/
def headerKey (address : Bytes) (subindex : ℕ) : HashedKey := ⟨0, [address], UInt8.ofNat subindex⟩

/-- The key of a code chunk. -/
def codeChunkKey (address : Bytes) (chunkId : ℕ) : HashedKey :=
  if chunkId < 16 then headerKey address (4 + chunkId)
  else ⟨1, [address ++ natToBE 32 ((chunkId - 16) / 256)], UInt8.ofNat ((chunkId - 16) % 256)⟩

/-- The key of a storage slot. -/
def storageSlotKey (address : Bytes) (storageKey : ℕ) : HashedKey :=
  if storageKey < 4 then headerKey address (20 + storageKey)
  else ⟨255, [address, address ++ natToBE 32 ((storageKey - 4) / 256)],
    UInt8.ofNat ((storageKey - 4) % 256)⟩

theorem intToBytes32_eq_ok_iff {n : ℤ} {data : Bytes} :
    intToBytes32 n = .ok data ↔ 0 ≤ n ∧ n < 256 ^ 32 ∧ data = natToBE 32 n.toNat := by
  simp only [intToBytes32, py_bind_eq_ok_iff, raiseIf_eq_ok_iff, exists_const, not_lt,
    intToBytes_eq_ok_iff]
  exact ⟨fun h => h.2, fun h => ⟨h.1, h⟩⟩

/-- Within its ranges `get_tree_key` puts the three parts side by side. -/
theorem getTreeKey_eq_ok_iff {storageType subindex : ℤ} {treePosition key : Bytes} :
    getTreeKey storageType treePosition subindex = .ok key ↔
      (0 ≤ storageType ∧ storageType ≤ 255) ∧ (0 ≤ subindex ∧ subindex < 256) ∧
      key = [UInt8.ofNat storageType.toNat] ++ treePosition ++ [UInt8.ofNat subindex.toNat] := by
  simp only [getTreeKey, py_bind_eq_ok_iff, raiseIf_eq_ok_iff, exists_const, not_not, pure,
    Except.pure, Except.ok.injEq, stemSubtreeWidth]
  constructor
  · rintro ⟨htype, hindex, rfl⟩
    exact ⟨htype, hindex, rfl⟩
  · rintro ⟨htype, hindex, rfl⟩
    exact ⟨htype, hindex, rfl⟩

variable {H : HashFunction} {address key : Bytes} {qs : List Bytes}

/-- Within the ranges of its arguments `get_tree_key` returns. -/
theorem returns_getTreeKey_iff {storageType subindex : ℤ} {position : Bytes} {t i : ℕ}
    (ht : storageType = t) (ht' : t < 256) (hi : subindex = i) (hi' : i < 256) :
    (HashPy.ofPy (getTreeKey storageType position subindex)).Returns key qs ↔
      key = [UInt8.ofNat t] ++ position ++ [UInt8.ofNat i] ∧ qs = [] := by
  rw [HashPy.returns_ofPy_iff, getTreeKey_eq_ok_iff, ht, hi]
  simp only [Int.toNat_natCast]
  constructor
  · rintro ⟨⟨-, -, rfl⟩, rfl⟩
    exact ⟨rfl, rfl⟩
  · rintro ⟨rfl, rfl⟩
    exact ⟨⟨by omega, by omega, rfl⟩, rfl⟩

/-- Writing a page number, and the rest of the call. -/
theorem returns_intToBytes32_iff {n : ℕ} {f : Bytes → HashPy Bytes} :
    (HashPy.ofPy (intToBytes32 n) >>= f).Returns key qs ↔
      n < 256 ^ 32 ∧ (f (natToBE 32 n)).Returns key qs := by
  rw [HashPy.returns_ofPy_bind_iff]
  constructor
  · rintro ⟨page, hpage, hf⟩
    have hwritten := intToBytes32_eq_ok_iff.mp hpage
    rw [hwritten.2.2] at hf
    exact ⟨by exact_mod_cast hwritten.2.1, hf⟩
  · rintro ⟨hlt, hf⟩
    exact ⟨_, intToBytes32_eq_ok_iff.mpr ⟨Int.natCast_nonneg n, by exact_mod_cast hlt, rfl⟩, hf⟩

/-- A hash, and the rest of the call. -/
theorem returns_treeHash_iff {data : Bytes} {f : Digest → HashPy Bytes} :
    (HashPy.ofHash (treeHash H data) >>= f).Returns key qs ↔
      ∃ qs', (f (H data)).Returns key qs' ∧ qs = data :: qs' :=
  HashPy.returns_ofHash_bind_iff

/-- A key of the header stem: one hash of the address. -/
theorem returns_headerKey_iff {subindex : ℤ} {n : ℕ} (hn : subindex = n) (h : n < 256) :
    (do
      let position ← HashPy.ofHash (treeHash H address)
      HashPy.ofPy (getTreeKey headerSubtree position.val subindex) : HashPy Bytes).Returns key qs ↔
      key = (headerKey address n).bytes H ∧ qs = (headerKey address n).preimages := by
  rw [headerKey, HashedKey.bytes_singleton, returns_treeHash_iff]
  have hzero : headerSubtree = (0 : ℕ) := rfl
  simp only [returns_getTreeKey_iff hzero (by decide) hn h]
  constructor
  · rintro ⟨_, ⟨rfl, rfl⟩, rfl⟩
    exact ⟨rfl, rfl⟩
  · rintro ⟨rfl, rfl⟩
    exact ⟨[], ⟨rfl, rfl⟩, rfl⟩

/-- **`get_tree_key_for_basic_data`.** -/
theorem getTreeKeyForBasicData_returns_iff :
    (getTreeKeyForBasicData H address).Returns key qs ↔
      key = (headerKey address 0).bytes H ∧ qs = (headerKey address 0).preimages :=
  returns_headerKey_iff rfl (by decide)

/-- **`get_tree_key_for_code_hash`.** -/
theorem getTreeKeyForCodeHash_returns_iff :
    (getTreeKeyForCodeHash H address).Returns key qs ↔
      key = (headerKey address 1).bytes H ∧ qs = (headerKey address 1).preimages :=
  returns_headerKey_iff rfl (by decide)

/-- The page and the slot of an item behind the header. -/
theorem overflow_eq {n header : ℤ} {m : ℕ} (h : n = m + header) :
    (n - header) / (stemSubtreeWidth : ℤ) = (m / 256 : ℕ) ∧
      (n - header) % (stemSubtreeWidth : ℤ) = (m % 256 : ℕ) := by
  rw [h, add_sub_cancel_right]
  exact ⟨rfl, rfl⟩

/-- **`get_tree_key_for_code_chunk`** returns the key of every chunk whose page number has
32 bytes. -/
theorem getTreeKeyForCodeChunk_returns_iff {chunkId : ℤ} :
    (getTreeKeyForCodeChunk H address chunkId).Returns key qs ↔
      0 ≤ chunkId ∧ (chunkId - 16) / 256 < 256 ^ 32 ∧
      key = (codeChunkKey address chunkId.toNat).bytes H ∧
      qs = (codeChunkKey address chunkId.toNat).preimages := by
  unfold getTreeKeyForCodeChunk codeChunkKey
  rw [HashPy.returns_check_iff, raiseIf_eq_ok_iff, not_lt]
  refine and_congr_right fun h0 => ?_
  by_cases hheader : chunkId < codeChunksInHeader
  · have hlt : chunkId < 16 := hheader
    have hindex : codeOffset + chunkId = (4 + chunkId.toNat : ℕ) := by
      rw [codeOffset]
      omega
    rw [if_pos hheader, if_pos (by omega), and_iff_right (by omega),
      returns_headerKey_iff hindex (by omega)]
  · obtain ⟨m, hm⟩ : ∃ m : ℕ, chunkId = m + codeChunksInHeader :=
      ⟨(chunkId - codeChunksInHeader).toNat, by omega⟩
    have hnat : chunkId.toNat = m + 16 := by
      rw [codeChunksInHeader] at hm
      omega
    obtain ⟨hpage, hslot⟩ := overflow_eq hm
    have hone : codeSubtree = (1 : ℕ) := rfl
    rw [if_neg hheader, if_neg (by omega), HashedKey.bytes_singleton, hnat, Nat.add_sub_cancel]
    simp only [hpage, hslot, returns_intToBytes32_iff, returns_treeHash_iff,
      returns_getTreeKey_iff hone (by decide) rfl (Nat.mod_lt m (by decide))]
    have hfits : (chunkId - 16) / 256 = (m / 256 : ℕ) := hpage
    rw [hfits]
    refine and_congr (by exact_mod_cast Iff.rfl) ?_
    constructor
    · rintro ⟨_, ⟨rfl, rfl⟩, rfl⟩
      exact ⟨rfl, rfl⟩
    · rintro ⟨rfl, rfl⟩
      exact ⟨[], ⟨rfl, rfl⟩, rfl⟩

/-- **`get_tree_key_for_storage_slot`** returns the key of every slot whose page number has
32 bytes. -/
theorem getTreeKeyForStorageSlot_returns_iff {storageKey : ℤ} :
    (getTreeKeyForStorageSlot H address storageKey).Returns key qs ↔
      0 ≤ storageKey ∧ (storageKey - 4) / 256 < 256 ^ 32 ∧
      key = (storageSlotKey address storageKey.toNat).bytes H ∧
      qs = (storageSlotKey address storageKey.toNat).preimages := by
  unfold getTreeKeyForStorageSlot storageSlotKey
  rw [HashPy.returns_check_iff, raiseIf_eq_ok_iff, not_lt]
  refine and_congr_right fun h0 => ?_
  by_cases hheader : storageKey < storageChunksInHeader
  · have hlt : storageKey < 4 := hheader
    have hindex : headerStorageOffset + storageKey = (20 + storageKey.toNat : ℕ) := by
      rw [headerStorageOffset]
      omega
    rw [if_pos hheader, if_pos (by omega), and_iff_right (by omega),
      returns_headerKey_iff hindex (by omega)]
  · obtain ⟨m, hm⟩ : ∃ m : ℕ, storageKey = m + storageChunksInHeader :=
      ⟨(storageKey - storageChunksInHeader).toNat, by omega⟩
    have hnat : storageKey.toNat = m + 4 := by
      rw [storageChunksInHeader] at hm
      omega
    obtain ⟨hpage, hslot⟩ := overflow_eq hm
    have htype : storageSubtree = (255 : ℕ) := rfl
    rw [if_neg hheader, if_neg (by omega), HashedKey.bytes_pair, hnat, Nat.add_sub_cancel]
    simp only [hpage, hslot, returns_intToBytes32_iff, returns_treeHash_iff,
      returns_getTreeKey_iff htype (by decide) rfl (Nat.mod_lt m (by decide))]
    have hfits : (storageKey - 4) / 256 = (m / 256 : ℕ) := hpage
    rw [hfits]
    constructor
    · rintro ⟨_, ⟨hlt, _, ⟨rfl, rfl⟩, rfl⟩, rfl⟩
      exact ⟨by exact_mod_cast hlt, rfl, rfl⟩
    · rintro ⟨hlt, rfl, rfl⟩
      exact ⟨_, ⟨by exact_mod_cast hlt, _, ⟨rfl, rfl⟩, rfl⟩, rfl⟩

end Pbt
