/-
# The items of the account state do not share keys (`pbt/metadata.py`)

`MetadataLayout` reserves four slots of the header stem, and
`validate_metadata_layout` keeps them off the slots that `pbt/embedding.py` uses.
With the metadata there are five kinds of items (`StateItem`); an item of an
address determines its partition, preimages and slot, and these determine the item
and the address (`hashedKey_inj`).  So two items have one key only if two of the
strings that are hashed for them collide.
-/
import PartitionedBinaryTree.Embedding

namespace Pbt

/-! ## Metadata layouts -/

/-- The four metadata entries. -/
inductive MetadataField
  | expiryEpoch
  | hotCold
  | archivalTier
  | flags
  deriving DecidableEq, Repr

/-- `MetadataLayout`. -/
structure MetadataLayout where
  expiryEpochSubindex : ℤ := 240
  hotColdSubindex : ℤ := 241
  archivalTierSubindex : ℤ := 242
  flagsSubindex : ℤ := 243
  deriving DecidableEq, Repr

/-- `MetadataLayout.all_subindices`. -/
def MetadataLayout.allSubindices (layout : MetadataLayout) : List ℤ :=
  [layout.expiryEpochSubindex, layout.hotColdSubindex, layout.archivalTierSubindex,
    layout.flagsSubindex]

/-- The subindex of an entry. -/
def MetadataLayout.subindex (layout : MetadataLayout) : MetadataField → ℤ
  | .expiryEpoch => layout.expiryEpochSubindex
  | .hotCold => layout.hotColdSubindex
  | .archivalTier => layout.archivalTierSubindex
  | .flags => layout.flagsSubindex

/-- `range(start, stop)`. -/
def pyRange (start stop : ℤ) : List ℤ :=
  (List.range (stop - start).toNat).map fun i : ℕ => start + (i : ℤ)

theorem mem_pyRange {start stop i : ℤ} : i ∈ pyRange start stop ↔ start ≤ i ∧ i < stop := by
  rw [pyRange, List.mem_map]
  constructor
  · rintro ⟨n, hn, rfl⟩
    rw [List.mem_range] at hn
    omega
  · rintro ⟨hstart, hstop⟩
    exact ⟨(i - start).toNat, List.mem_range.mpr (by omega), by omega⟩

/-- `_occupied_header_subindices`. -/
def occupiedHeaderSubindices : List ℤ :=
  [0, 1, 2, 3] ++ pyRange codeOffset (codeOffset + codeChunksInHeader) ++
    pyRange headerStorageOffset (headerStorageOffset + storageChunksInHeader)

/-- `str` of a list of integers. -/
def intListText (ns : List ℤ) : String := "[" ++ ", ".intercalate (ns.map toString) ++ "]"

/-- `validate_metadata_layout`. -/
def validateMetadataLayout (layout : MetadataLayout) : Py Unit := do
  let subindices := layout.allSubindices
  raiseIf (¬ subindices.Nodup) "metadata subindices must be unique"
  subindices.forM fun idx =>
    raiseIf (¬ (0 ≤ idx ∧ idx < stemSubtreeWidth))
      ("metadata subindex out of range: " ++ toString idx)
  let conflicts := subindices.filter (· ∈ occupiedHeaderSubindices)
  raiseIf (conflicts ≠ [])
    ("metadata subindices overlap active header ranges: " ++ intListText conflicts)

/-- The dictionary that `metadata_keys_for_address` returns. -/
structure MetadataKeys where
  expiryEpoch : Bytes
  hotCold : Bytes
  archivalTier : Bytes
  flags : Bytes
  deriving DecidableEq, Repr

/-- The key of an entry. -/
def MetadataKeys.get (keys : MetadataKeys) : MetadataField → Bytes
  | .expiryEpoch => keys.expiryEpoch
  | .hotCold => keys.hotCold
  | .archivalTier => keys.archivalTier
  | .flags => keys.flags

/-- `metadata_keys_for_address`. -/
def metadataKeysForAddress (H : HashFunction) (address : Bytes) (layout : MetadataLayout) :
    HashPy MetadataKeys := do
  HashPy.ofPy (validateMetadataLayout layout)
  let stemPosition ← HashPy.ofHash (treeHash H address)
  let expiryEpoch ←
    HashPy.ofPy (getTreeKey headerSubtree stemPosition.val layout.expiryEpochSubindex)
  let hotCold ← HashPy.ofPy (getTreeKey headerSubtree stemPosition.val layout.hotColdSubindex)
  let archivalTier ←
    HashPy.ofPy (getTreeKey headerSubtree stemPosition.val layout.archivalTierSubindex)
  let flags ← HashPy.ofPy (getTreeKey headerSubtree stemPosition.val layout.flagsSubindex)
  pure ⟨expiryEpoch, hotCold, archivalTier, flags⟩

/-! ## What a layout that is accepted reserves -/

/-- The slots of an accepted layout are different, and behind those of the active ranges. -/
structure MetadataLayout.Accepted (layout : MetadataLayout) : Prop where
  free : ∀ f, 24 ≤ layout.subindex f ∧ layout.subindex f < 256
  injective : Function.Injective layout.subindex

theorem mem_occupied {idx : ℤ} : idx ∈ occupiedHeaderSubindices ↔ 0 ≤ idx ∧ idx < 24 := by
  simp only [occupiedHeaderSubindices, List.mem_append, mem_pyRange, List.mem_cons,
    List.not_mem_nil, or_false, codeOffset, codeChunksInHeader, headerStorageOffset, storageChunksInHeader]
  omega

/-- **What `validate_metadata_layout` accepts.** -/
theorem validateMetadataLayout_eq_ok_iff {layout : MetadataLayout} :
    validateMetadataLayout layout = .ok () ↔ layout.Accepted := by
  have hmem : ∀ f, layout.subindex f ∈ layout.allSubindices := by
    intro f
    cases f <;> simp [MetadataLayout.subindex, MetadataLayout.allSubindices]
  have hall : ∀ idx ∈ layout.allSubindices, ∃ f, idx = layout.subindex f := by
    intro idx hidx
    simp only [MetadataLayout.allSubindices, List.mem_cons, List.not_mem_nil, or_false] at hidx
    rcases hidx with rfl | rfl | rfl | rfl
    · exact ⟨.expiryEpoch, rfl⟩
    · exact ⟨.hotCold, rfl⟩
    · exact ⟨.archivalTier, rfl⟩
    · exact ⟨.flags, rfl⟩
  have hnodup : layout.allSubindices.Nodup ↔ Function.Injective layout.subindex := by
    constructor
    · intro h f g hfg
      simp only [MetadataLayout.allSubindices, List.nodup_cons, List.mem_cons, List.not_mem_nil,
        or_false, not_or, List.nodup_nil] at h
      cases f <;> cases g <;> simp only [MetadataLayout.subindex] at hfg <;> first | rfl | omega
    · intro h
      simp only [MetadataLayout.allSubindices, List.nodup_cons, List.mem_cons, List.not_mem_nil,
        or_false, not_or, List.nodup_nil, not_false_eq_true, and_true]
      refine ⟨⟨?_, ?_, ?_⟩, ⟨?_, ?_⟩, ?_⟩
      · exact fun heq => absurd (@h .expiryEpoch .hotCold heq) (by decide)
      · exact fun heq => absurd (@h .expiryEpoch .archivalTier heq) (by decide)
      · exact fun heq => absurd (@h .expiryEpoch .flags heq) (by decide)
      · exact fun heq => absurd (@h .hotCold .archivalTier heq) (by decide)
      · exact fun heq => absurd (@h .hotCold .flags heq) (by decide)
      · exact fun heq => absurd (@h .archivalTier .flags heq) (by decide)
  simp only [validateMetadataLayout, py_bind_eq_ok_iff, raiseIf_eq_ok_iff, exists_const, not_not,
    forM_raiseIf_eq_ok_iff, hnodup, stemSubtreeWidth, List.filter_eq_nil_iff, mem_occupied,
    decide_eq_true_eq]
  constructor
  · rintro ⟨hinj, hrange, hfree⟩
    refine ⟨fun f => ?_, hinj⟩
    have hin := hrange _ (hmem f)
    have hout := hfree _ (hmem f)
    push_cast at hin
    omega
  · rintro ⟨hfree, hinj⟩
    refine ⟨hinj, fun idx hidx => ?_, fun idx hidx => ?_⟩
    · obtain ⟨f, rfl⟩ := hall idx hidx
      have hf := hfree f
      push_cast
      omega
    · obtain ⟨f, rfl⟩ := hall idx hidx
      have hf := hfree f
      omega

/-- The default layout passes its own check. -/
example : validateMetadataLayout {} = .ok () := by decide

/-! ## Items -/

/-- An item of the state of one account. -/
inductive StateItem
  | basicData
  | codeHash
  | codeChunk (chunkId : ℤ)
  | storageSlot (storageKey : ℤ)
  | metadata (field : MetadataField)
  deriving DecidableEq, Repr

namespace StateItem

/-- The key of an item, from the function of the source that derives it. -/
def key (H : HashFunction) (layout : MetadataLayout) (address : Bytes) : StateItem → HashPy Bytes
  | basicData => getTreeKeyForBasicData H address
  | codeHash => getTreeKeyForCodeHash H address
  | codeChunk chunkId => getTreeKeyForCodeChunk H address chunkId
  | storageSlot storageKey => getTreeKeyForStorageSlot H address storageKey
  | metadata field => do
      let keys ← metadataKeysForAddress H address layout
      pure (keys.get field)

/-- The parts of the key of an item. -/
def hashedKey (layout : MetadataLayout) (address : Bytes) : StateItem → HashedKey
  | basicData => headerKey address 0
  | codeHash => headerKey address 1
  | codeChunk chunkId => codeChunkKey address chunkId.toNat
  | storageSlot storageKey => storageSlotKey address storageKey.toNat
  | metadata field => headerKey address (layout.subindex field).toNat

/-- The items that have a key: numbers that are not negative and whose page number has 32
bytes, and the entries of an accepted layout. -/
def HasKey (layout : MetadataLayout) : StateItem → Prop
  | basicData => True
  | codeHash => True
  | codeChunk chunkId => 0 ≤ chunkId ∧ (chunkId - 16) / 256 < 256 ^ 32
  | storageSlot storageKey => 0 ≤ storageKey ∧ (storageKey - 4) / 256 < 256 ^ 32
  | metadata _ => layout.Accepted

end StateItem

variable {H : HashFunction} {layout : MetadataLayout}

/-- **`metadata_keys_for_address`** returns the keys of the four entries of an accepted layout. -/
theorem metadataKeysForAddress_returns {address : Bytes} {keys : MetadataKeys} {qs : List Bytes}
    (h : (metadataKeysForAddress H address layout).Returns keys qs) :
    layout.Accepted ∧ qs = [address] ∧
      ∀ f, keys.get f = (headerKey address (layout.subindex f).toNat).bytes H := by
  simp only [metadataKeysForAddress, HashPy.returns_ofPy_bind_iff,
    HashPy.returns_ofHash_bind_iff, HashPy.returns_pure_iff] at h
  obtain ⟨u, hlayout, rest, ⟨expiryEpoch, hexpiry, hotCold, hhot, archivalTier, htier, flags,
    hflags, rfl, rfl⟩, rfl⟩ := h
  refine ⟨validateMetadataLayout_eq_ok_iff.mp hlayout, rfl, fun f => ?_⟩
  rw [headerKey, HashedKey.bytes_singleton]
  cases f with
  | expiryEpoch => exact (getTreeKey_eq_ok_iff.mp hexpiry).2.2
  | hotCold => exact (getTreeKey_eq_ok_iff.mp hhot).2.2
  | archivalTier => exact (getTreeKey_eq_ok_iff.mp htier).2.2
  | flags => exact (getTreeKey_eq_ok_iff.mp hflags).2.2

namespace StateItem

/-- **The key of an item** is made of its parts. -/
theorem key_returns {address key : Bytes} {item : StateItem} {qs : List Bytes}
    (h : (item.key H layout address).Returns key qs) :
    item.HasKey layout ∧ key = (item.hashedKey layout address).bytes H ∧
      qs = (item.hashedKey layout address).preimages := by
  cases item with
  | basicData => exact ⟨trivial, getTreeKeyForBasicData_returns_iff.mp h⟩
  | codeHash => exact ⟨trivial, getTreeKeyForCodeHash_returns_iff.mp h⟩
  | codeChunk chunkId =>
      obtain ⟨h0, hpage, hkey⟩ := getTreeKeyForCodeChunk_returns_iff.mp h
      exact ⟨⟨h0, hpage⟩, hkey⟩
  | storageSlot storageKey =>
      obtain ⟨h0, hpage, hkey⟩ := getTreeKeyForStorageSlot_returns_iff.mp h
      exact ⟨⟨h0, hpage⟩, hkey⟩
  | metadata field =>
      obtain ⟨keys, qs₁, qs₂, hkeys, hpure, rfl⟩ := HashPy.returns_bind_iff.mp h
      obtain ⟨rfl, rfl⟩ := HashPy.returns_pure_iff.mp hpure
      obtain ⟨hlayout, rfl, hget⟩ := metadataKeysForAddress_returns hkeys
      exact ⟨hlayout, hget field, rfl⟩

/-! ## The parts of a key determine its item -/

/-- The slot of an item that is in the header stem. -/
def headerSlot (layout : MetadataLayout) : StateItem → Option ℕ
  | basicData => some 0
  | codeHash => some 1
  | codeChunk chunkId => if chunkId < 16 then some (4 + chunkId.toNat) else none
  | storageSlot storageKey => if storageKey < 4 then some (20 + storageKey.toNat) else none
  | metadata field => some (layout.subindex field).toNat

variable {a b : Address32} {x y : StateItem} {p q : ℕ}

/-- **The items of the header stem**, with their slots. -/
theorem headerSlot_cases (hx : x.HasKey layout) (h : x.headerSlot layout = some p) :
    (x = basicData ∧ p = 0) ∨ (x = codeHash ∧ p = 1) ∨
    (∃ i : ℕ, x = codeChunk i ∧ i < 16 ∧ p = 4 + i) ∨
    (∃ i : ℕ, x = storageSlot i ∧ i < 4 ∧ p = 20 + i) ∨
    (∃ f, x = metadata f ∧ layout.Accepted ∧ layout.subindex f = p ∧ 24 ≤ p ∧ p < 256) := by
  cases x with
  | basicData =>
      cases h
      exact Or.inl ⟨rfl, rfl⟩
  | codeHash =>
      cases h
      exact Or.inr (Or.inl ⟨rfl, rfl⟩)
  | codeChunk chunkId =>
      simp only [headerSlot] at h
      split_ifs at h with hheader
      cases h
      obtain ⟨i, rfl⟩ := Int.eq_ofNat_of_zero_le hx.1
      exact Or.inr (Or.inr (Or.inl ⟨i, rfl, by omega, rfl⟩))
  | storageSlot storageKey =>
      simp only [headerSlot] at h
      split_ifs at h with hheader
      cases h
      obtain ⟨i, rfl⟩ := Int.eq_ofNat_of_zero_le hx.1
      exact Or.inr (Or.inr (Or.inr (Or.inl ⟨i, rfl, by omega, rfl⟩)))
  | metadata f =>
      cases h
      have hfree := MetadataLayout.Accepted.free hx f
      exact Or.inr (Or.inr (Or.inr (Or.inr ⟨f, rfl, hx, by omega, by omega, by omega⟩)))

/-- The slots of the header stem are numbered by a byte. -/
theorem headerSlot_lt (hx : x.HasKey layout) (h : x.headerSlot layout = some p) : p < 256 := by
  obtain ⟨-, rfl⟩ | ⟨-, rfl⟩ | ⟨i, -, hi, rfl⟩ | ⟨i, -, hi, rfl⟩ | ⟨f, -, -, -, -, hlt⟩ :=
    headerSlot_cases hx h <;> omega

/-- Such an item has the header key of its slot. -/
theorem hashedKey_of_headerSlot (hx : x.HasKey layout) (h : x.headerSlot layout = some p)
    (address : Bytes) : x.hashedKey layout address = headerKey address p := by
  obtain ⟨rfl, rfl⟩ | ⟨rfl, rfl⟩ | ⟨i, rfl, hi, rfl⟩ | ⟨i, rfl, hi, rfl⟩ | ⟨f, rfl, -, hp, -⟩ :=
    headerSlot_cases hx h
  · rfl
  · rfl
  · exact if_pos hi
  · exact if_pos hi
  · rw [hashedKey, hp, Int.toNat_natCast]

/-- **The slots of the header stem are not shared.** -/
theorem headerSlot_inj (hx : x.HasKey layout) (hy : y.HasKey layout)
    (h : x.headerSlot layout = some p) (h' : y.headerSlot layout = some p) : x = y := by
  have hcases := headerSlot_cases hy h'
  obtain ⟨rfl, rfl⟩ | ⟨rfl, rfl⟩ | ⟨i, rfl, hi, rfl⟩ | ⟨i, rfl, hi, rfl⟩ |
    ⟨f, rfl, hlayout, hf, hlow, hhigh⟩ := headerSlot_cases hx h
  -- the ranges of slots of the five kinds do not meet
  all_goals
    obtain ⟨rfl, hq⟩ | ⟨rfl, hq⟩ | ⟨j, rfl, hj, hq⟩ | ⟨j, rfl, hj, hq⟩ |
      ⟨g, rfl, -, hg, hlow', hhigh'⟩ := hcases
  all_goals try omega
  · rfl
  · rfl
  · rw [show i = j by omega]
  · rw [show i = j by omega]
  · rw [hlayout.injective (hf.trans hg.symm)]

/-- The address and the number of a page are read off its preimage. -/
theorem page_inj {m n : ℕ} (hm : m / 256 < 256 ^ 32) (hn : n / 256 < 256 ^ 32)
    (hpage : a.val ++ natToBE 32 (m / 256) = b.val ++ natToBE 32 (n / 256))
    (hslot : UInt8.ofNat (m % 256) = UInt8.ofNat (n % 256)) : a = b ∧ m = n := by
  obtain ⟨haddress, hnumber⟩ := List.append_inj hpage (by rw [a.property, b.property])
  have hhigh : m / 256 = n / 256 := natToBE_inj hm hn hnumber
  have hlow : m % 256 = n % 256 := by
    have hbyte := congrArg UInt8.toNat hslot
    rwa [UInt8.toNat_ofNat_of_lt' (Nat.mod_lt m (by decide)),
      UInt8.toNat_ofNat_of_lt' (Nat.mod_lt n (by decide))] at hbyte
  exact ⟨Subtype.ext haddress, by omega⟩

/-- An item without a slot in the header stem is a code chunk or a storage slot on a page. -/
theorem exists_page (hx : x.HasKey layout) (h : x.headerSlot layout = none) :
    ∃ m : ℕ, m / 256 < 256 ^ 32 ∧
      (x = codeChunk (16 + m : ℕ) ∧ (∀ address, x.hashedKey layout address =
        ⟨1, [address ++ natToBE 32 (m / 256)], UInt8.ofNat (m % 256)⟩) ∨
      x = storageSlot (4 + m : ℕ) ∧ (∀ address, x.hashedKey layout address =
        ⟨255, [address, address ++ natToBE 32 (m / 256)], UInt8.ofNat (m % 256)⟩)) := by
  cases x with
  | basicData => cases h
  | codeHash => cases h
  | metadata f => cases h
  | codeChunk chunkId =>
      simp only [headerSlot] at h
      split_ifs at h with hheader
      obtain ⟨m, rfl⟩ : ∃ m : ℕ, chunkId = (16 + m : ℕ) := ⟨(chunkId - 16).toNat, by omega⟩
      have hfits := hx.2
      refine ⟨m, by omega, Or.inl ⟨rfl, fun address => ?_⟩⟩
      rw [hashedKey, Int.toNat_natCast, codeChunkKey, if_neg (by omega), Nat.add_sub_cancel_left]
  | storageSlot storageKey =>
      simp only [headerSlot] at h
      split_ifs at h with hheader
      obtain ⟨m, rfl⟩ : ∃ m : ℕ, storageKey = (4 + m : ℕ) := ⟨(storageKey - 4).toNat, by omega⟩
      have hfits := hx.2
      refine ⟨m, by omega, Or.inr ⟨rfl, fun address => ?_⟩⟩
      rw [hashedKey, Int.toNat_natCast, storageSlotKey, if_neg (by omega), Nat.add_sub_cancel_left]

/-- **Items of addresses have different parts.** -/
theorem hashedKey_inj (hx : x.HasKey layout) (hy : y.HasKey layout)
    (h : x.hashedKey layout a.val = y.hashedKey layout b.val) : a = b ∧ x = y := by
  cases hp : x.headerSlot layout with
  | some p =>
      rw [hashedKey_of_headerSlot hx hp] at h
      cases hq : y.headerSlot layout with
      | some q =>
          rw [hashedKey_of_headerSlot hy hq, headerKey, headerKey, HashedKey.mk.injEq] at h
          obtain ⟨-, haddress, hslot⟩ := h
          have hbyte := congrArg UInt8.toNat hslot
          rw [UInt8.toNat_ofNat_of_lt' (headerSlot_lt hx hp),
            UInt8.toNat_ofNat_of_lt' (headerSlot_lt hy hq)] at hbyte
          subst hbyte
          exact ⟨Subtype.ext (List.singleton_inj.mp haddress), headerSlot_inj hx hy hp hq⟩
      | none =>
          -- a page is in another partition than the header stem
          obtain ⟨n, -, ⟨-, hkey⟩ | ⟨-, hkey⟩⟩ := exists_page hy hq
          · rw [hkey] at h
            simp [headerKey] at h
          · rw [hkey] at h
            simp [headerKey] at h
  | none =>
      obtain ⟨m, hm, ⟨rfl, hkey⟩ | ⟨rfl, hkey⟩⟩ := exists_page hx hp
      all_goals rw [hkey] at h
      all_goals cases hq : y.headerSlot layout with
      | some q =>
          rw [hashedKey_of_headerSlot hy hq] at h
          simp [headerKey] at h
      | none => ?_
      · obtain ⟨n, hn, ⟨rfl, hkey'⟩ | ⟨rfl, hkey'⟩⟩ := exists_page hy hq
        · rw [hkey', HashedKey.mk.injEq] at h
          obtain ⟨rfl, rfl⟩ := page_inj hm hn (List.singleton_inj.mp h.2.1) h.2.2
          exact ⟨rfl, rfl⟩
        · rw [hkey'] at h
          simp at h
      · obtain ⟨n, hn, ⟨rfl, hkey'⟩ | ⟨rfl, hkey'⟩⟩ := exists_page hy hq
        · rw [hkey'] at h
          simp at h
        · rw [hkey', HashedKey.mk.injEq, List.cons.injEq] at h
          obtain ⟨rfl, rfl⟩ := page_inj hm hn (List.singleton_inj.mp h.2.1.2) h.2.2
          exact ⟨rfl, rfl⟩

end StateItem

/-- **State items never share a key.**  When the functions of the source derive one key for
two items, numbered chunks and slots and the entries of one accepted metadata layout among
them, the addresses and the items are the same, unless two strings hashed by the derivations
collide. -/
theorem stateItem_key_inj (H : HashFunction) (layout : MetadataLayout) (a b : Address32)
    (x y : StateItem) (key : Bytes) (qs qs' : List Bytes)
    (hx : (x.key H layout a.val).Returns key qs) (hy : (y.key H layout b.val).Returns key qs') :
    (a = b ∧ x = y) ∨ Collision H (qs ++ qs') := by
  obtain ⟨hxkey, hbytes, rfl⟩ := StateItem.key_returns hx
  obtain ⟨hykey, hbytes', rfl⟩ := StateItem.key_returns hy
  obtain hparts | hcol := HashedKey.bytes_inj (by decide) (List.subset_append_left _ _)
    (List.subset_append_right _ _) (hbytes.symm.trans hbytes')
  · exact Or.inl (StateItem.hashedKey_inj hxkey hykey hparts)
  · exact Or.inr hcol

/-- A hash function without resistance gives one key to a code chunk of two addresses. -/
theorem stateItem_key_inj_collision :
    (BytesN.zero 32 = BytesN.ofNat 32 1 ∧ StateItem.codeChunk 272 = .codeChunk 272) ∨
      Collision (fun _ => emptyValue)
        ((codeChunkKey (BytesN.zero 32).val 272).preimages ++
          (codeChunkKey (BytesN.ofNat 32 1).val 272).preimages) :=
  stateItem_key_inj (fun _ => emptyValue) {} (BytesN.zero 32) (BytesN.ofNat 32 1)
    (.codeChunk 272) (.codeChunk 272) ([1] ++ emptyValue.val ++ [0]) _ _
    (getTreeKeyForCodeChunk_returns_iff.mpr ⟨by decide, by decide, by decide, rfl⟩)
    (getTreeKeyForCodeChunk_returns_iff.mpr ⟨by decide, by decide, by decide, rfl⟩)

end Pbt
