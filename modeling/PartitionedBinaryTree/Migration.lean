/-
# Migration of accounts into the Rust tree (`pbt-rs/src/migration.rs`)

`migrate_account` inserts the leaves of one account: basic data, code hash, code
chunks and storage slots.  A migration is then a list of writes, each at the key of
one item of one account (`MptAccount.writes`).  Accounts with different addresses write
different keys, so that their order does not matter, and each item of an account has
a key of its own, so that it reads back; both unless two preimages collide.
-/
import Mathlib.Data.List.Dedup
import PartitionedBinaryTree.Lib.LastWrite
import PartitionedBinaryTree.Canonical
import PartitionedBinaryTree.RustEmbedding
import PartitionedBinaryTree.StateItems
import PartitionedBinaryTree.Lib.ByteCursor

open Pbt (StateItem TreeOp Value)

namespace PbtRs

/-! ## The functions of the source -/

/-- `struct MptAccount`; a `Vec` has at most `usize::MAX` items. -/
structure MptAccount where
  address : BytesN 32
  version : UInt32
  balance : UInt64
  nonce : UInt64
  code : Bytes
  codeHash : Value
  storage : List (Usize × Value)
  code_length : code.length < 2 ^ 64

/-- `encode_basic_data`. -/
def encodeBasicData (version : UInt32) (balance nonce : UInt64) (codeSize : Usize) : Value :=
  ⟨natToBE 4 version.toNat ++ natToBE 8 balance.toNat ++ natToBE 8 nonce.toNat ++
      slice (natToBE 16 codeSize.toNat) 4 12, by
    simp [slice]⟩

/-- `chunk_code`. -/
def chunkCode (code : Bytes) : List Value :=
  if code.isEmpty then []
  else (chunks 31 code).map fun piece => BytesN.copyFrom 32 (0 :: piece)

/-- A call that may hash and may fail. -/
abbrev HashRs (α : Type) := ExceptT Failure (Logged Bytes) α

namespace HashRs

variable {α β : Type}

/-- A call that hashes nothing. -/
def ofRs (x : Rs α) : HashRs α := ExceptT.mk ⟨x, []⟩

/-- A call that cannot fail. -/
def ofHash (x : Logged Bytes α) : HashRs α := ExceptT.mk ⟨.ok x.val, x.queries⟩

/-- The call returns `a` and has hashed the strings `qs`. -/
def Returns (x : HashRs α) (a : α) (qs : List Bytes) : Prop := x.run = ⟨.ok a, qs⟩

theorem Returns.ofRs {x : Rs α} {a : α} (h : x = .ok a) : Returns (ofRs x) a [] :=
  congrArg (Logged.mk · []) h

theorem Returns.ofHash (x : Logged Bytes α) : Returns (ofHash x) x.val x.queries := rfl

theorem Returns.bind {x : HashRs α} {f : α → HashRs β} {a : α} {b : β} {qs₁ qs₂ : List Bytes}
    (hx : Returns x a qs₁) (hf : Returns (f a) b qs₂) : Returns (x >>= f) b (qs₁ ++ qs₂) := by
  unfold Returns at *
  rw [ExceptT.run_bind, hx]
  show Logged.mk (f a).run.val (qs₁ ++ (f a).run.queries) = _
  rw [hf]

end HashRs

section Migration

variable {H : Type} [TreeHasher H]

/-- `let key = get_tree_key…; tree.insert(&key, value)?`. -/
def insertAt (tree : Tree H) (derive : Logged Bytes Bytes) (value : Value) : HashRs (Tree H) := do
  let key ← HashRs.ofHash derive
  HashRs.ofRs (tree.insert key value)

/-- The key of the code hash: the basic data key with its last byte set to 1. -/
def codeHashKey (blake3 : Pbt.HashFunction) (address : BytesN 32) : Logged Bytes Bytes := do
  let key ← getTreeKeyForBasicData blake3 address
  let last := key.length - 1
  pure (key.set last 1)

/-- `migrate_account`: the tree after the call. -/
def migrateAccount (blake3 : Pbt.HashFunction) (tree : Tree H) (account : MptAccount) :
    HashRs (Tree H) := do
  let basic := encodeBasicData account.version account.balance account.nonce
    (UInt64.ofNat account.code.length)
  let tree ← insertAt tree (getTreeKeyForBasicData blake3 account.address) basic
  let tree ← insertAt tree (codeHashKey blake3 account.address) account.codeHash
  let tree ← (chunkCode account.code).zipIdx.foldlM (fun tree (chunk, chunkId) =>
    insertAt tree (getTreeKeyForCodeChunk blake3 account.address (UInt64.ofNat chunkId)) chunk) tree
  account.storage.foldlM (fun tree (slot, value) =>
    insertAt tree (getTreeKeyForStorageSlot blake3 account.address slot) value) tree

/-- `migrate_account` over a list of accounts. -/
def migrateAccounts (blake3 : Pbt.HashFunction) (tree : Tree H) (accounts : List MptAccount) :
    HashRs (Tree H) := accounts.foldlM (migrateAccount blake3) tree

/-! ## The writes of an account -/

/-- The leaves of an account, in the order of their insertion. -/
def MptAccount.leaves (account : MptAccount) : List (StateItem × Value) :=
  [(.basicData, encodeBasicData account.version account.balance account.nonce
      (UInt64.ofNat account.code.length)),
    (.codeHash, account.codeHash)] ++
  (chunkCode account.code).zipIdx.map (fun (chunk, chunkId) => (.codeChunk chunkId, chunk)) ++
  account.storage.map fun (slot, value) => (.storageSlot slot.toNat, value)

/-- The key of an item of an account. -/
def itemKey (address : BytesN 32) (item : StateItem) : HashedKey :=
  withDomain (item.hashedKey {} address.val)

/-- The writes of an account. -/
def MptAccount.writes (account : MptAccount) : List (HashedKey × Value) :=
  account.leaves.map fun leaf => (itemKey account.address leaf.1, leaf.2)

/-- The writes one by one, as the loops make them. -/
theorem MptAccount.writes_eq (account : MptAccount) :
    account.writes =
      [(itemKey account.address .basicData, encodeBasicData account.version account.balance
        account.nonce (UInt64.ofNat account.code.length))] ++
      ([(itemKey account.address .codeHash, account.codeHash)] ++
      ((chunkCode account.code).zipIdx.flatMap
        (fun x => [(itemKey account.address (.codeChunk x.2), x.1)]) ++
      account.storage.flatMap
        fun x => [(itemKey account.address (.storageSlot x.1.toNat), x.2)])) := by
  rw [MptAccount.writes, MptAccount.leaves, ← List.map_eq_flatMap, ← List.map_eq_flatMap]
  simp only [List.map_append, List.map_map, List.map_cons, List.cons_append, List.nil_append]
  rfl

variable {blake3 : Pbt.HashFunction} {hasher : H}

/-- The writes with the keys themselves. -/
def keyBytes (blake3 : Pbt.HashFunction) (ws : List (HashedKey × Value)) : List (Bytes × Value) :=
  ws.map fun w => (w.1.bytes blake3, w.2)

/-- The tree holds what the writes have left. -/
def Written (blake3 : Pbt.HashFunction) (hasher : H) (tree : Tree H)
    (ws : List (HashedKey × Value)) : Prop :=
  tree.Represents hasher (Pbt.run (Pbt.insertOps (keyBytes blake3 ws)))

/-- A call that adds writes: it returns, and it has hashed the preimages of their keys. -/
def Writes (blake3 : Pbt.HashFunction) (hasher : H) (x : HashRs (Tree H))
    (before ws : List (HashedKey × Value)) : Prop :=
  ∃ tree qs, x.Returns tree qs ∧ Written blake3 hasher tree (before ++ ws) ∧
    ∀ w ∈ ws, w.1.preimages ⊆ qs

/-- A key has a partition and a slot. -/
theorem two_le_length_bytes (k : HashedKey) : 2 ≤ (k.bytes blake3).length := by
  rw [HashedKey.bytes, HashedKey.stem, List.length_append, List.length_append]
  simp only [List.length_singleton]
  omega

theorem keyBytes_length {ws : List (HashedKey × Value)} :
    ∀ w ∈ keyBytes blake3 ws, 2 ≤ w.1.length := by
  intro w hw
  obtain ⟨⟨k, v⟩, -, rfl⟩ := List.mem_map.mp hw
  exact two_le_length_bytes k

/-- **One insert** at the key that a derivation returns. -/
theorem writes_insertAt {tree : Tree H} {before : List (HashedKey × Value)}
    (h : Written blake3 hasher tree before) {derive : Logged Bytes Bytes} {k : HashedKey}
    (hkey : derive.val = k.bytes blake3) (hqueries : k.preimages ⊆ derive.queries) (v : Value) :
    Writes blake3 hasher (insertAt tree derive v) before [(k, v)] := by
  have hlen : 2 ≤ (k.bytes blake3).length := two_le_length_bytes k
  obtain ⟨s, i, -, hjoin⟩ := Pbt.exists_splitKey hlen
  -- the reference tree takes the insert, and the Rust tree follows it
  obtain ⟨t', hins, -⟩ := Pbt.insertNode_spec (Pbt.wellFormed_run _) s i v
  have happly : (TreeOp.insert (k.bytes blake3) v.val).apply
      (Pbt.run (Pbt.insertOps (keyBytes blake3 before))) = .ok t' := by
    rw [hjoin, Pbt.apply_insert_joinKey (Pbt.two_le_length_joinKey_iff.mp (hjoin ▸ hlen)), hins]
  obtain ⟨tree', hinsert, htree'⟩ := Tree.refines_insert h (k.bytes blake3) v t' happly
  refine ⟨tree', derive.queries ++ [], ?_, ?_, ?_⟩
  · refine (HashRs.Returns.ofHash derive).bind (HashRs.Returns.ofRs ?_)
    rw [hkey, hinsert]
  · have hwrites : keyBytes blake3 (before ++ [(k, v)]) =
        keyBytes blake3 before ++ [(k.bytes blake3, v)] := List.map_append
    rw [Written, hwrites, Pbt.insertOps_concat, Pbt.run_concat, Pbt.step_of_ok happly]
    exact htree'
  · intro w hw
    rw [List.mem_singleton.mp hw, List.append_nil]
    exact hqueries

/-- Calls in sequence. -/
theorem Writes.bind {x : HashRs (Tree H)} {f : Tree H → HashRs (Tree H)}
    {before ws ws' : List (HashedKey × Value)} (hx : Writes blake3 hasher x before ws)
    (hf : ∀ tree, Written blake3 hasher tree (before ++ ws) →
      Writes blake3 hasher (f tree) (before ++ ws) ws') :
    Writes blake3 hasher (x >>= f) before (ws ++ ws') := by
  obtain ⟨tree, qs, hreturns, hwritten, hqs⟩ := hx
  obtain ⟨tree', qs', hreturns', hwritten', hqs'⟩ := hf tree hwritten
  refine ⟨tree', qs ++ qs', hreturns.bind hreturns', ?_, ?_⟩
  · rw [← List.append_assoc]
    exact hwritten'
  · intro w hw
    rcases List.mem_append.mp hw with hw | hw
    · exact List.Subset.trans (hqs w hw) (List.subset_append_left _ _)
    · exact List.Subset.trans (hqs' w hw) (List.subset_append_right _ _)

/-- **A loop of calls** adds the writes of all its rounds. -/
theorem writes_foldlM {ι : Type} {f : Tree H → ι → HashRs (Tree H)}
    {block : ι → List (HashedKey × Value)} {xs : List ι}
    (hf : ∀ x ∈ xs, ∀ tree before, Written blake3 hasher tree before →
      Writes blake3 hasher (f tree x) before (block x)) {tree : Tree H}
    {before : List (HashedKey × Value)} (h : Written blake3 hasher tree before) :
    Writes blake3 hasher (xs.foldlM f tree) before (xs.flatMap block) := by
  induction xs generalizing tree before with
  | nil =>
      refine ⟨tree, [], rfl, ?_, fun w hw => absurd hw List.not_mem_nil⟩
      rw [List.flatMap_nil, List.append_nil]
      exact h
  | cons x xs ih =>
      rw [List.foldlM_cons, List.flatMap_cons]
      exact (hf x List.mem_cons_self tree before h).bind fun tree' h' =>
        ih (fun y hy => hf y (List.mem_cons_of_mem _ hy)) h'

/-! ## What the calls write -/

/-- The key of the code hash is that of slot 1 of the header stem. -/
theorem codeHashKey_eq (address : BytesN 32) :
    codeHashKey blake3 address =
      ⟨(headerKey address 1).bytes blake3, (headerKey address 1).preimages⟩ := by
  have hval : ((headerKey address 0).bytes blake3).set
      (((headerKey address 0).bytes blake3).length - 1) 1 = (headerKey address 1).bytes blake3 := by
    rw [HashedKey.bytes, List.length_append, List.length_singleton, Nat.add_sub_cancel,
      List.set_append_right _ _ (Nat.le_refl _), Nat.sub_self]
    rfl
  show (⟨_, _⟩ : Logged Bytes Bytes) = _
  rw [getTreeKeyForBasicData_eq]
  dsimp only
  rw [hval]
  rfl

/-- A list has fewer chunks than `usize` has values. -/
theorem chunkCode_length (account : MptAccount) : (chunkCode account.code).length < 2 ^ 64 := by
  have hlen := account.code_length
  unfold chunkCode
  split_ifs
  · exact Nat.two_pow_pos 64
  · rw [List.length_map, length_chunks]
    omega

/-- **`migrate_account`** writes the leaves of the account. -/
theorem writes_migrateAccount (account : MptAccount) (tree : Tree H)
    (before : List (HashedKey × Value)) (h : Written blake3 hasher tree before) :
    Writes blake3 hasher (migrateAccount blake3 tree account) before account.writes := by
  have hbasic : ∀ tree before, Written blake3 hasher tree before → ∀ v,
      Writes blake3 hasher (insertAt tree (getTreeKeyForBasicData blake3 account.address) v) before
        [(itemKey account.address .basicData, v)] := by
    intro tree before h v
    refine writes_insertAt h ?_ ?_ v
    · rw [getTreeKeyForBasicData_eq]
      rfl
    · rw [getTreeKeyForBasicData_eq]
      exact List.Subset.refl _
  have hcodeHash : ∀ tree before, Written blake3 hasher tree before →
      Writes blake3 hasher (insertAt tree (codeHashKey blake3 account.address) account.codeHash)
        before [(itemKey account.address .codeHash, account.codeHash)] := by
    intro tree before h
    refine writes_insertAt h ?_ ?_ _
    · rw [codeHashKey_eq]
      rfl
    · rw [codeHashKey_eq]
      exact List.Subset.refl _
  have hchunk : ∀ x ∈ (chunkCode account.code).zipIdx, ∀ tree before,
      Written blake3 hasher tree before →
      Writes blake3 hasher (insertAt tree
        (getTreeKeyForCodeChunk blake3 account.address (UInt64.ofNat x.2)) x.1) before
        [(itemKey account.address (.codeChunk x.2), x.1)] := by
    intro x hx tree before h
    have hlt := List.snd_lt_of_mem_zipIdx hx
    have hcount := chunkCode_length account
    have hindex : (UInt64.ofNat x.2).toNat = x.2 :=
      UInt64.toNat_ofNat_of_lt' (show x.2 < 2 ^ 64 by omega)
    have hderive : _ ∧ _ ⊆ (getTreeKeyForCodeChunk blake3 account.address _).queries :=
      getTreeKeyForCodeChunk_eq (UInt64.ofNat x.2)
    rw [hindex, codeChunkKey_eq] at hderive
    exact writes_insertAt h hderive.1 hderive.2 x.1
  have hslot : ∀ x ∈ account.storage, ∀ tree before, Written blake3 hasher tree before →
      Writes blake3 hasher (insertAt tree
        (getTreeKeyForStorageSlot blake3 account.address x.1) x.2) before
        [(itemKey account.address (.storageSlot x.1.toNat), x.2)] := by
    intro x hx tree before h
    have hderive : _ ∧ _ ⊆ (getTreeKeyForStorageSlot blake3 account.address _).queries :=
      getTreeKeyForStorageSlot_eq x.1
    rw [storageSlotKey_eq] at hderive
    exact writes_insertAt h hderive.1 hderive.2 x.2
  rw [account.writes_eq]
  exact (hbasic tree before h _).bind fun _ h => (hcodeHash _ _ h).bind fun _ h =>
    (writes_foldlM hchunk h).bind fun _ h => writes_foldlM hslot h

/-- **The whole migration** writes the leaves of all accounts. -/
theorem writes_migrateAccounts (accounts : List MptAccount) :
    Writes blake3 hasher (migrateAccounts blake3 (Tree.new hasher) accounts) []
      (accounts.flatMap MptAccount.writes) :=
  writes_foldlM (fun account _ => writes_migrateAccount account) Tree.represents_new

/-! ## Different items have different keys -/

/-- The items of an account have keys: their numbers fit in 64 bits. -/
theorem MptAccount.hasKey_of_mem {account : MptAccount} {item : StateItem}
    (h : item ∈ account.leaves.map Prod.fst) : item.HasKey {} := by
  have hwide : (2 : ℤ) ^ 64 ≤ 256 ^ 32 := by norm_num
  simp only [MptAccount.leaves, List.map_append, List.map_cons, List.map_nil, List.map_map,
    List.mem_append, List.mem_cons, List.not_mem_nil, or_false, List.mem_map] at h
  rcases h with ((rfl | rfl) | ⟨x, hx, rfl⟩) | ⟨x, hx, rfl⟩
  · trivial
  · trivial
  · have hlt := List.snd_lt_of_mem_zipIdx hx
    have hcount := chunkCode_length account
    have hsnd : (x.2 : ℤ) < 2 ^ 64 := by exact_mod_cast (show x.2 < 2 ^ 64 by omega)
    show 0 ≤ (x.2 : ℤ) ∧ ((x.2 : ℤ) - 16) / 256 < 256 ^ 32
    omega
  · have hlt : (x.1.toNat : ℤ) < 2 ^ 64 := by exact_mod_cast x.1.toNat_lt
    show 0 ≤ (x.1.toNat : ℤ) ∧ ((x.1.toNat : ℤ) - 4) / 256 < 256 ^ 32
    omega

/-- **Items of accounts have different keys.** -/
theorem itemKey_inj {a b : BytesN 32} {x y : StateItem} (hx : x.HasKey {}) (hy : y.HasKey {})
    (h : itemKey a x = itemKey b y) : a = b ∧ x = y :=
  StateItem.hashedKey_inj hx hy (withDomain_injective h)

/-- The keys of a migration are different byte strings. -/
def NoCollision (blake3 : Pbt.HashFunction) (accounts : List MptAccount) : Prop :=
  ∀ a ∈ accounts, ∀ b ∈ accounts, ∀ x ∈ a.leaves.map Prod.fst, ∀ y ∈ b.leaves.map Prod.fst,
    (itemKey a.address x).bytes blake3 = (itemKey b.address y).bytes blake3 →
      itemKey a.address x = itemKey b.address y

/-- Keys that are equal without being the same come from a collision. -/
theorem noCollision_or {accounts : List MptAccount} {qs : List Bytes}
    (hqs : ∀ w ∈ accounts.flatMap MptAccount.writes, w.1.preimages ⊆ qs) :
    NoCollision blake3 accounts ∨ Collision blake3 qs := by
  have hsub : ∀ a ∈ accounts, ∀ x ∈ a.leaves.map Prod.fst,
      (itemKey a.address x).preimages ⊆ qs := by
    intro a ha x hx
    obtain ⟨leaf, hleaf, rfl⟩ := List.mem_map.mp hx
    exact hqs (itemKey a.address leaf.1, leaf.2)
      (List.mem_flatMap.mpr ⟨a, ha, List.mem_map_of_mem hleaf⟩)
  by_cases hcol : Collision blake3 qs
  · exact Or.inr hcol
  · refine Or.inl fun a ha b hb x hx y hy hbytes => ?_
    exact (HashedKey.bytes_inj (by decide) (hsub a ha x hx) (hsub b hb y hy) hbytes).resolve_right
      hcol

/-- The writes of an account with the keys themselves. -/
def accountBlock (blake3 : Pbt.HashFunction) (account : MptAccount) : List (Bytes × Value) :=
  keyBytes blake3 account.writes

theorem keyBytes_flatMap (accounts : List MptAccount) :
    keyBytes blake3 (accounts.flatMap MptAccount.writes) =
      accounts.flatMap (accountBlock blake3) := List.map_flatMap

theorem map_fst_accountBlock (account : MptAccount) :
    (accountBlock blake3 account).map Prod.fst =
      (account.leaves.map Prod.fst).map fun x => (itemKey account.address x).bytes blake3 := by
  rw [accountBlock, keyBytes, MptAccount.writes, List.map_map, List.map_map, List.map_map]
  rfl

/-- **Accounts write apart.** -/
theorem pairwise_writeApart {accounts : List MptAccount}
    (hdistinct : (accounts.map MptAccount.address).Nodup) (hno : NoCollision blake3 accounts) :
    accounts.Pairwise (WriteApart (accountBlock blake3)) := by
  have hpairs : accounts.Pairwise fun a b => a.address ≠ b.address := List.pairwise_map.mp hdistinct
  refine hpairs.imp_of_mem fun {a b} ha hb hne k hk hk' => ?_
  rw [map_fst_accountBlock] at hk hk'
  obtain ⟨x, hx, rfl⟩ := List.mem_map.mp hk
  obtain ⟨y, hy, heq⟩ := List.mem_map.mp hk'
  have hkey := hno b hb a ha y hy x hx heq
  exact hne (itemKey_inj (MptAccount.hasKey_of_mem hy) (MptAccount.hasKey_of_mem hx) hkey).1.symm

/-- **A leaf is read as its account alone has left it.** -/
theorem lastWrite_accountBlock {accounts : List MptAccount} (hno : NoCollision blake3 accounts)
    {account : MptAccount} (hmem : account ∈ accounts) {item : StateItem}
    (hitem : item ∈ account.leaves.map Prod.fst) :
    lastWrite (accountBlock blake3 account) ((itemKey account.address item).bytes blake3) =
      lastWrite account.leaves item := by
  have hblock : accountBlock blake3 account = account.leaves.map fun leaf =>
      ((itemKey account.address leaf.1).bytes blake3, leaf.2) := List.map_map
  rw [hblock]
  refine lastWrite_map (f := fun x => (itemKey account.address x).bytes blake3) ?_
  intro leaf hleaf heq
  have hleaf' : leaf.1 ∈ account.leaves.map Prod.fst := List.mem_map_of_mem hleaf
  have hkey := hno account hmem account hmem _ hleaf' _ hitem heq
  exact (itemKey_inj (MptAccount.hasKey_of_mem hleaf') (MptAccount.hasKey_of_mem hitem) hkey).2

/-! ## Reading an account back -/

section Leaves

variable (account : MptAccount)

theorem lastWrite_slots_eq_none {item : StateItem} (h : ∀ i, item ≠ .storageSlot i) :
    lastWrite (account.storage.map fun x => (StateItem.storageSlot x.1.toNat, x.2)) item = none := by
  rw [lastWrite_eq_none_iff, List.map_map]
  intro hmem
  obtain ⟨x, -, heq⟩ := List.mem_map.mp hmem
  exact h _ heq.symm

theorem lastWrite_chunks_eq_none {item : StateItem} (h : ∀ i, item ≠ .codeChunk i) :
    lastWrite ((chunkCode account.code).zipIdx.map fun x =>
      (StateItem.codeChunk x.2, x.1)) item = none := by
  rw [lastWrite_eq_none_iff, List.map_map]
  intro hmem
  obtain ⟨x, -, heq⟩ := List.mem_map.mp hmem
  exact h _ heq.symm

theorem lastWrite_leaves_basicData :
    lastWrite account.leaves .basicData = some (encodeBasicData account.version account.balance
      account.nonce (UInt64.ofNat account.code.length)) := by
  rw [MptAccount.leaves, lastWrite_append, lastWrite_append,
    lastWrite_slots_eq_none account (by simp), lastWrite_chunks_eq_none account (by simp)]
  rfl

theorem lastWrite_leaves_codeHash :
    lastWrite account.leaves .codeHash = some account.codeHash := by
  rw [MptAccount.leaves, lastWrite_append, lastWrite_append,
    lastWrite_slots_eq_none account (by simp), lastWrite_chunks_eq_none account (by simp)]
  rfl

/-- A code chunk is written once. -/
theorem lastWrite_leaves_codeChunk {i : ℕ} {chunk : Value}
    (h : (chunkCode account.code)[i]? = some chunk) :
    lastWrite account.leaves (.codeChunk i) = some chunk := by
  have hmem : (StateItem.codeChunk i, chunk) ∈ (chunkCode account.code).zipIdx.map fun x =>
      (StateItem.codeChunk x.2, x.1) :=
    List.mem_map.mpr ⟨(chunk, i), List.mem_zipIdx_iff_getElem?.mpr h, rfl⟩
  have hnodup : (((chunkCode account.code).zipIdx.map fun x =>
      (StateItem.codeChunk x.2, x.1)).map Prod.fst).Nodup := by
    have hkeys : ((chunkCode account.code).zipIdx.map fun x =>
        (StateItem.codeChunk x.2, x.1)).map Prod.fst =
        ((chunkCode account.code).zipIdx.map Prod.snd).map
          fun n : ℕ => StateItem.codeChunk (n : ℤ) := by
      rw [List.map_map, List.map_map]
      rfl
    rw [hkeys, List.zipIdx_map_snd]
    exact List.Nodup.map (fun m n heq => by simpa using heq) List.nodup_range'
  rw [MptAccount.leaves, lastWrite_append, lastWrite_append,
    lastWrite_slots_eq_none account (by simp), Option.none_or, lastWrite_of_mem hnodup hmem]
  rfl

/-- Of the entries of one slot the last one counts. -/
theorem lastWrite_leaves_storageSlot {slot : Usize} {value : Value}
    (h : lastWrite account.storage slot = some value) :
    lastWrite account.leaves (.storageSlot slot.toNat) = some value := by
  have hslots : lastWrite (account.storage.map fun x => (StateItem.storageSlot x.1.toNat, x.2))
      (StateItem.storageSlot slot.toNat) = lastWrite account.storage slot :=
    lastWrite_map (f := fun s : Usize => StateItem.storageSlot s.toNat) fun w _ heq =>
      UInt64.toNat_inj.mp (by simpa using heq)
  rw [MptAccount.leaves, lastWrite_append, hslots, h]
  rfl

end Leaves

/-- Reading the tree: the last write of the key. -/
theorem Written.get {tree : Tree H} {ws : List (HashedKey × Value)}
    (h : Written blake3 hasher tree ws) (k : HashedKey) :
    tree.get (k.bytes blake3) =
      .ok ((lastWrite (keyBytes blake3 ws) (k.bytes blake3)).getD Pbt.emptyValue) := by
  have hlen : 2 ≤ (k.bytes blake3).length := two_le_length_bytes k
  have hget := Pbt.get_run_eq_finalMap (Pbt.insertOps (keyBytes blake3 ws)) hlen
  obtain ⟨value, hvalue, rfl⟩ := Tree.refines_get h _ _ hget
  rw [hvalue, Pbt.finalMap_insertOps keyBytes_length]

/-- **An item reads back** from the tree of a migration without collisions. -/
theorem get_item {tree : Tree H} {accounts : List MptAccount}
    (h : Written blake3 hasher tree (accounts.flatMap MptAccount.writes))
    (hdistinct : (accounts.map MptAccount.address).Nodup) (hno : NoCollision blake3 accounts)
    {account : MptAccount} (hmem : account ∈ accounts) {item : StateItem} {value : Value}
    (hitem : lastWrite account.leaves item = some value) :
    tree.get ((itemKey account.address item).bytes blake3) = .ok value := by
  have hleaf : item ∈ account.leaves.map Prod.fst := List.mem_map_of_mem (mem_of_lastWrite hitem)
  have hread : lastWrite (accounts.flatMap (accountBlock blake3))
      ((itemKey account.address item).bytes blake3) = some value := by
    rw [lastWrite_flatMap (pairwise_writeApart hdistinct hno)]
    exact ⟨account, hmem, (lastWrite_accountBlock hno hmem hleaf).trans hitem⟩
  rw [h.get, keyBytes_flatMap, hread]
  rfl

/-- What a client that reads an account from the tree finds. -/
structure ReadsBack (blake3 : Pbt.HashFunction) (tree : Tree H) (account : MptAccount) : Prop where
  basicData : tree.get (getTreeKeyForBasicData blake3 account.address).val =
    .ok (encodeBasicData account.version account.balance account.nonce
      (UInt64.ofNat account.code.length))
  codeHash : tree.get (codeHashKey blake3 account.address).val = .ok account.codeHash
  codeChunk : ∀ i chunk, (chunkCode account.code)[i]? = some chunk →
    tree.get (getTreeKeyForCodeChunk blake3 account.address (UInt64.ofNat i)).val = .ok chunk
  storage : ∀ slot value, lastWrite account.storage slot = some value →
    tree.get (getTreeKeyForStorageSlot blake3 account.address slot).val = .ok value

theorem readsBack {tree : Tree H} {accounts : List MptAccount}
    (h : Written blake3 hasher tree (accounts.flatMap MptAccount.writes))
    (hdistinct : (accounts.map MptAccount.address).Nodup) (hno : NoCollision blake3 accounts)
    {account : MptAccount} (hmem : account ∈ accounts) : ReadsBack blake3 tree account := by
  constructor
  · have hread := get_item h hdistinct hno hmem (lastWrite_leaves_basicData account)
    rw [getTreeKeyForBasicData_eq]
    exact hread
  · have hread := get_item h hdistinct hno hmem (lastWrite_leaves_codeHash account)
    rw [codeHashKey_eq]
    exact hread
  · intro i chunk hchunk
    have hlt := (List.getElem?_eq_some_iff.mp hchunk).1
    have hcount := chunkCode_length account
    have hindex : (UInt64.ofNat i).toNat = i :=
      UInt64.toNat_ofNat_of_lt' (show i < 2 ^ 64 by omega)
    have hkey : (codeChunkKey account.address i) = itemKey account.address (.codeChunk i) :=
      codeChunkKey_eq account.address i
    rw [(getTreeKeyForCodeChunk_eq (UInt64.ofNat i)).1, hindex, hkey]
    exact get_item h hdistinct hno hmem (lastWrite_leaves_codeChunk account hchunk)
  · intro slot value hvalue
    have hkey : storageSlotKey account.address slot.toNat =
        itemKey account.address (.storageSlot slot.toNat) :=
      storageSlotKey_eq account.address slot.toNat
    rw [(getTreeKeyForStorageSlot_eq slot).1, hkey]
    exact get_item h hdistinct hno hmem (lastWrite_leaves_storageSlot account hvalue)

/-- **Migration is order-independent and lossless.**  Migrations of accounts with different
addresses return in every order, with the same tree and root hash, and every account reads
back from it; unless two strings that were hashed for the keys collide. -/
theorem migration_order_independent (blake3 : Pbt.HashFunction) (hasher : H)
    (accounts accounts' : List MptAccount) (hperm : accounts.Perm accounts')
    (hdistinct : (accounts.map MptAccount.address).Nodup) :
    ∃ tree tree' qs qs',
      (migrateAccounts blake3 (Tree.new hasher) accounts).Returns tree qs ∧
      (migrateAccounts blake3 (Tree.new hasher) accounts').Returns tree' qs' ∧
      ((tree' = tree ∧ tree'.rootHash = tree.rootHash ∧
        ∀ account ∈ accounts, ReadsBack blake3 tree account) ∨ Collision blake3 qs) := by
  have hwrites : ∀ accounts, Writes blake3 hasher
      (migrateAccounts blake3 (Tree.new hasher) accounts) []
        (accounts.flatMap MptAccount.writes) := writes_migrateAccounts
  obtain ⟨tree, qs, hreturns, hwritten, hqs⟩ := hwrites accounts
  obtain ⟨tree', qs', hreturns', hwritten', -⟩ := hwrites accounts'
  rw [List.nil_append] at hwritten hwritten'
  refine ⟨tree, tree', qs, qs', hreturns, hreturns', ?_⟩
  rcases noCollision_or hqs with hno | hcol
  · left
    -- the last writes are the same, and they decide the tree
    have hlast := lastWrite_flatMap_perm hperm (pairwise_writeApart hdistinct hno)
    rw [← keyBytes_flatMap, ← keyBytes_flatMap] at hlast
    have htree : tree' = tree := by
      unfold Written at hwritten'
      rw [← Pbt.run_insertOps_eq keyBytes_length keyBytes_length hlast] at hwritten'
      exact hwritten'.unique hwritten
    exact ⟨htree, by rw [htree], fun account hmem => readsBack hwritten hdistinct hno hmem⟩
  · exact Or.inr hcol

end Migration

/-- An account with one code chunk, and a slot that is written twice. -/
def smallAccount (address : BytesN 32) : MptAccount where
  address := address
  version := 1
  balance := 10
  nonce := 3
  code := [0x60, 0x00]
  codeHash := BytesN.ofNat 32 7
  storage := [(5, BytesN.ofNat 32 1), (5, BytesN.ofNat 32 2)]
  code_length := by decide

/-- Two of them. -/
def smallAccounts : List MptAccount := [smallAccount (.ofNat 32 1), smallAccount (.ofNat 32 2)]

/-- The preimages that their migration hashes have different digests. -/
theorem nodup_smallAccounts :
    ((migrateAccounts Pbt.placeHash (Tree.new (Blake3Hasher.mk Pbt.placeHash))
      smallAccounts).run.queries.dedup.map Pbt.placeHash).Nodup := by
  decide +kernel

/-- The two accounts in both orders. -/
theorem migration_order_independent_pair :
    ∃ tree qs qs',
      (migrateAccounts Pbt.placeHash (Tree.new (Blake3Hasher.mk Pbt.placeHash))
        smallAccounts).Returns tree qs ∧
      (migrateAccounts Pbt.placeHash (Tree.new (Blake3Hasher.mk Pbt.placeHash))
        smallAccounts.reverse).Returns tree qs' ∧
      ∀ account ∈ smallAccounts, ReadsBack Pbt.placeHash tree account := by
  obtain ⟨tree, tree', qs, qs', hreturns, hreturns', hsame⟩ :=
    migration_order_independent Pbt.placeHash (Blake3Hasher.mk Pbt.placeHash) smallAccounts
      smallAccounts.reverse (List.reverse_perm _).symm (by decide)
  have hqs : (migrateAccounts Pbt.placeHash (Tree.new (Blake3Hasher.mk Pbt.placeHash))
      smallAccounts).run.queries = qs := congrArg Logged.queries hreturns
  obtain ⟨rfl, -, hreads⟩ := hsame.resolve_right
    (not_collision_of_nodup nodup_smallAccounts (hqs ▸ List.subset_dedup _))
  exact ⟨tree', qs, qs', hreturns, hreturns', hreads⟩

end PbtRs
