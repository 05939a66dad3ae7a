/-
# Pages and stems (`pbt/embedding.py`)

`page_index_for_code` and `page_index_for_storage` number the pages of an account, the
header stem first.  They compute the page of a chunk or slot without its key, for the
accounting of gas and of witnesses, so this number must say which keys share a stem:
`pages_share_stems` compares the two, for every pair of chunks and every pair of slots.
-/
import PartitionedBinaryTree.StateItems
import PartitionedBinaryTree.TreeRuns

namespace Pbt

/-! ## The functions of the source -/

/-- `page_index_for_code` and `page_index_for_storage`, with the name of their argument and the
number of items in the header stem. -/
def pageIndex (name : String) (itemsInHeader index : ℤ) : Py ℤ := do
  raiseIf (index < 0) (name ++ " must be non-negative, got " ++ toString index)
  if index < itemsInHeader then pure 0
  else pure (1 + (index - itemsInHeader) / stemSubtreeWidth)

/-- `page_index_for_code`. -/
def pageIndexForCode (chunkId : ℤ) : Py ℤ := pageIndex "chunk_id" codeChunksInHeader chunkId

/-- `page_index_for_storage`. -/
def pageIndexForStorage (storageKey : ℤ) : Py ℤ :=
  pageIndex "storage_key" storageChunksInHeader storageKey

/-! ## Stems of keys -/

/-- The keys split into one stem prefix and a subindex each. -/
def SameStem (key key' : Bytes) : Prop :=
  ∃ stemPrefix i i', splitKey key = .ok (stemPrefix, i) ∧ splitKey key' = .ok (stemPrefix, i')

/-- Of two indices below `2^256`, the keys share a stem exactly when the pages are the same,
unless two strings that are hashed for the keys collide. -/
def PagesShareStems (H : HashFunction) (derive : ℤ → HashPy Bytes) (page : ℤ → Py ℤ) : Prop :=
  ∀ i j : ℤ, 0 ≤ i → i < 2 ^ 256 → 0 ≤ j → j < 2 ^ 256 →
    ∃ key key' qs qs' p p', (derive i).Returns key qs ∧ (derive j).Returns key' qs' ∧
      page i = .ok p ∧ page j = .ok p' ∧
      ((SameStem key key' ↔ p = p') ∨ Collision H (qs ++ qs'))

variable {H : HashFunction}

/-- A derived key splits between its position and its slot. -/
theorem splitKey_hashedKey (k : HashedKey) :
    splitKey (k.bytes H) = .ok (k.stem H, ⟨k.slot.toNat, k.slot.toNat_lt⟩) := by
  have hjoin : k.bytes H = joinKey (k.stem H) ⟨k.slot.toNat, k.slot.toNat_lt⟩ := by
    rw [joinKey, UInt8.ofNat_toNat, HashedKey.bytes]
  rw [hjoin, splitKey_joinKey HashedKey.stem_ne_nil]

/-- Derived keys share a stem exactly when partition and digests are the same. -/
theorem sameStem_iff {k k' : HashedKey} :
    SameStem (k.bytes H) (k'.bytes H) ↔
      k.partition = k'.partition ∧ k.preimages.map H = k'.preimages.map H := by
  have hstem : SameStem (k.bytes H) (k'.bytes H) ↔ k.stem H = k'.stem H := by
    simp only [SameStem, splitKey_hashedKey, Except.ok.injEq, Prod.mk.injEq]
    constructor
    · rintro ⟨s, i, i', ⟨rfl, -⟩, hs, -⟩
      exact hs.symm
    · intro h
      exact ⟨_, _, _, ⟨rfl, rfl⟩, h.symm, rfl⟩
  rw [hstem, HashedKey.stem_eq_iff (by decide)]

/-- Up to a collision they share a stem exactly when partition and preimages are the same. -/
theorem sameStem_iff_or_collision (k k' : HashedKey) :
    (SameStem (k.bytes H) (k'.bytes H) ↔
      k.partition = k'.partition ∧ k.preimages = k'.preimages) ∨
      Collision H (k.preimages ++ k'.preimages) := by
  by_cases hcol : Collision H (k.preimages ++ k'.preimages)
  · exact Or.inr hcol
  · left
    rw [sameStem_iff]
    refine and_congr_right fun _ => ⟨fun h => ?_, fun h => congrArg (List.map H) h⟩
    exact (map_eq_or_collision (List.subset_append_left _ _) (List.subset_append_right _ _)
      h).resolve_right hcol

/-! ## Pages -/

/-- The page of an item that is numbered without a sign. -/
def pageNumber (itemsInHeader n : ℕ) : ℕ :=
  if n < itemsInHeader then 0 else 1 + (n - itemsInHeader) / 256

theorem pageIndex_natCast (name : String) (itemsInHeader n : ℕ) :
    pageIndex name itemsInHeader n = .ok (pageNumber itemsInHeader n) := by
  have hcheck : ¬ (n : ℤ) < 0 := by omega
  rw [pageIndex, raiseIf, if_neg hcheck, pageNumber]
  by_cases hheader : n < itemsInHeader
  · rw [if_pos (by exact_mod_cast hheader), if_pos hheader]
    rfl
  · rw [if_neg (by exact_mod_cast hheader), if_neg hheader]
    obtain ⟨m, rfl⟩ := Nat.exists_eq_add_of_le (not_lt.mp hheader)
    rw [Nat.add_sub_cancel_left, Nat.cast_add, add_sub_cancel_left]
    rfl

/-- The page numbers of a 256-bit index have 32 bytes. -/
theorem page_fits {n : ℕ} (h : n < 2 ^ 256) (itemsInHeader : ℕ) :
    (n - itemsInHeader) / 256 < 256 ^ 32 := by
  have hle : (n - itemsInHeader) / 256 ≤ n := (Nat.div_le_self _ _).trans (Nat.sub_le _ _)
  calc (n - itemsInHeader) / 256 ≤ n := hle
    _ < 2 ^ 256 := h
    _ = 256 ^ 32 := by norm_num

section

variable {derive : ℤ → HashPy Bytes} {name : String} {itemsInHeader : ℕ} {key : ℕ → HashedKey}
  {address : Bytes} {partition : UInt8} {lead : List Bytes}

/-- The parts of a key: those of the header stem for the first items, and for each page of
the others a partition and preimages that name the page. -/
structure PagedKeys (itemsInHeader : ℕ) (address : Bytes) (partition : UInt8) (lead : List Bytes)
    (key : ℕ → HashedKey) : Prop where
  partition_ne : partition ≠ 0
  header : ∀ n < itemsInHeader, (key n).partition = 0 ∧ (key n).preimages = [address]
  page : ∀ n, itemsInHeader ≤ n → (key n).partition = partition ∧
    (key n).preimages = lead ++ [address ++ natToBE 32 ((n - itemsInHeader) / 256)]

/-- Two items have one partition and the same preimages exactly when they are on one page. -/
theorem PagedKeys.parts_eq_iff (h : PagedKeys itemsInHeader address partition lead key) {m n : ℕ}
    (hm : m < 2 ^ 256) (hn : n < 2 ^ 256) :
    (key m).partition = (key n).partition ∧ (key m).preimages = (key n).preimages ↔
      pageNumber itemsInHeader m = pageNumber itemsInHeader n := by
  unfold pageNumber
  by_cases hm' : m < itemsInHeader
  · obtain ⟨hpartition, hpreimages⟩ := h.header m hm'
    rw [if_pos hm', hpartition, hpreimages]
    by_cases hn' : n < itemsInHeader
    · obtain ⟨hpartition', hpreimages'⟩ := h.header n hn'
      rw [if_pos hn', hpartition', hpreimages']
      exact iff_of_true ⟨rfl, rfl⟩ rfl
    · obtain ⟨hpartition', -⟩ := h.page n (not_lt.mp hn')
      rw [if_neg hn', hpartition']
      exact iff_of_false (fun heq => h.partition_ne heq.1.symm) (by omega)
  · obtain ⟨hpartition, hpreimages⟩ := h.page m (not_lt.mp hm')
    rw [if_neg hm', hpartition, hpreimages]
    by_cases hn' : n < itemsInHeader
    · obtain ⟨hpartition', -⟩ := h.header n hn'
      rw [if_pos hn', hpartition']
      exact iff_of_false (fun heq => h.partition_ne heq.1) (by omega)
    · obtain ⟨hpartition', hpreimages'⟩ := h.page n (not_lt.mp hn')
      rw [if_neg hn', hpartition', hpreimages', Nat.add_left_cancel_iff]
      constructor
      · rintro ⟨-, heq⟩
        have hpage := List.singleton_inj.mp (List.append_cancel_left heq)
        exact natToBE_inj (page_fits hm _) (page_fits hn _) (List.append_cancel_left hpage)
      · intro heq
        rw [heq]
        exact ⟨rfl, rfl⟩

/-- **Keys by pages** share stems as the page numbers say. -/
theorem PagedKeys.pagesShareStems (h : PagedKeys itemsInHeader address partition lead key)
    (hderive : ∀ n : ℕ, n < 2 ^ 256 → (derive n).Returns ((key n).bytes H) (key n).preimages) :
    PagesShareStems H derive (pageIndex name itemsInHeader) := by
  intro i j hi hi' hj hj'
  obtain ⟨m, rfl⟩ := Int.eq_ofNat_of_zero_le hi
  obtain ⟨n, rfl⟩ := Int.eq_ofNat_of_zero_le hj
  have hm : m < 2 ^ 256 := by exact_mod_cast hi'
  have hn : n < 2 ^ 256 := by exact_mod_cast hj'
  refine ⟨_, _, _, _, _, _, hderive m hm, hderive n hn, pageIndex_natCast name itemsInHeader m,
    pageIndex_natCast name itemsInHeader n, ?_⟩
  rw [Nat.cast_inj, ← h.parts_eq_iff hm hn]
  exact sameStem_iff_or_collision _ _

end

theorem pagedKeys_codeChunkKey (address : Bytes) :
    PagedKeys 16 address 1 [] (codeChunkKey address) where
  partition_ne := by decide
  header n hn := by
    rw [codeChunkKey, if_pos hn]
    exact ⟨rfl, rfl⟩
  page n hn := by
    rw [codeChunkKey, if_neg (not_lt.mpr hn)]
    exact ⟨rfl, rfl⟩

theorem pagedKeys_storageSlotKey (address : Bytes) :
    PagedKeys 4 address 255 [address] (storageSlotKey address) where
  partition_ne := by decide
  header n hn := by
    rw [storageSlotKey, if_pos hn]
    exact ⟨rfl, rfl⟩
  page n hn := by
    rw [storageSlotKey, if_neg (not_lt.mpr hn)]
    exact ⟨rfl, rfl⟩

/-- A 256-bit index is in the range of the key derivations. -/
theorem page_fits_int {n : ℕ} (h : n < 2 ^ 256) (itemsInHeader : ℕ) :
    ((n : ℤ) - itemsInHeader) / 256 < 256 ^ 32 := by
  have hle : ((n : ℤ) - itemsInHeader) / 256 ≤ (n : ℤ) := by omega
  calc ((n : ℤ) - itemsInHeader) / 256 ≤ (n : ℤ) := hle
    _ < 2 ^ 256 := by exact_mod_cast h
    _ = 256 ^ 32 := by norm_num

/-- **Locality matches the page index.**  The keys of two chunks of an account share a stem
exactly when `page_index_for_code` says so, and those of two slots exactly when
`page_index_for_storage` does, unless two of the strings that are hashed collide. -/
theorem pages_share_stems (H : HashFunction) (address : Address32) :
    PagesShareStems H (getTreeKeyForCodeChunk H address.val) pageIndexForCode ∧
      PagesShareStems H (getTreeKeyForStorageSlot H address.val) pageIndexForStorage := by
  constructor
  · apply (pagedKeys_codeChunkKey address.val).pagesShareStems
    intro n hn
    exact getTreeKeyForCodeChunk_returns_iff.mpr
      ⟨Int.natCast_nonneg n, page_fits_int hn 16, rfl, rfl⟩
  · apply (pagedKeys_storageSlotKey address.val).pagesShareStems
    intro n hn
    exact getTreeKeyForStorageSlot_returns_iff.mpr
      ⟨Int.natCast_nonneg n, page_fits_int hn 4, rfl, rfl⟩

end Pbt
