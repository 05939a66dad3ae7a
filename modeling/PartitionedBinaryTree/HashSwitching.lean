/-
# Switching the hash function (`pbt/hash.py`, `pbt/nodes.py`)

The active hash function is a module variable that a process may switch, and
`_EMPTY_HASH_CACHE` is another one, filled by whatever function is active the
first time an `EmptyNode` is hashed and never reset.  A process is modelled with
both, with the registry of hash functions, and with the trees it holds.

A fresh tree has no cached hashes, so its root depends on the past through the
hash of `EmptyNode` alone (`rootHash_build`); `freshRoot_eq_iff` says when two
processes that have selected one function agree on it.
-/
import PartitionedBinaryTree.SessionRuns
import PartitionedBinaryTree.ProofSoundness

namespace Pbt

/-! ## The hash module -/

/-- A callable that the module is given: a hash function, or one that raises whenever it is
called, as `_poseidon2_hash` does without a backend. -/
abbrev HashCallable := Py HashFunction

/-- What the built-in hash functions are bound to in an installation. -/
structure Backends where
  blake3Hash : HashFunction
  keccakHash : HashFunction
  poseidon2Hash : HashCallable

/-- The module variables of `pbt/hash.py`. -/
structure HashModule where
  hashRegistry : String → Option HashCallable
  activeHashId : String
  activeHash : HashFunction

namespace HashModule

/-- The module at import: `_blake3_hash` is active. -/
def start (backends : Backends) : HashModule where
  hashRegistry hashId :=
    if hashId = "blake3" then some (.ok backends.blake3Hash)
    else if hashId = "keccak256" then some (.ok backends.keccakHash)
    else if hashId = "poseidon2" then some backends.poseidon2Hash
    else none
  activeHashId := "blake3"
  activeHash := backends.blake3Hash

/-- `probe = fn(b"probe")` and the check of its length. -/
def probe (fn : HashCallable) : Py HashFunction := do
  let hash ← fn
  let digest := hash [112, 114, 111, 98, 101]
  raiseIf (digest.val.length ≠ 32)
    ("Hash function must return 32 bytes, got " ++ toString digest.val.length)
  pure hash

/-- `register_hash_function(hash_id, fn)`. -/
def registerHashFunction (module : HashModule) (hashId : String) (fn : HashCallable) :
    Py HashModule := do
  raiseIf (hashId = "") "hash_id must be non-empty"
  let _ ← probe fn
  pure { module with hashRegistry := Function.update module.hashRegistry hashId (some fn) }

/-- `set_hash_function(fn)`. -/
def setHashFunction (module : HashModule) (fn : HashCallable) : Py HashModule := do
  let hash ← probe fn
  pure { module with activeHash := hash, activeHashId := "custom" }

/-- `set_hash_function_by_id(hash_id)`. -/
def setHashFunctionById (module : HashModule) (hashId : String) : Py HashModule :=
  match module.hashRegistry hashId with
  | none => raiseValueError ("Unknown hash function id: " ++ hashId)
  | some fn => do
      let hash ← probe fn
      pure { module with activeHash := hash, activeHashId := hashId }

end HashModule

/-! ## Processes -/

/-- A call of a process: on the hash module, or on one of the trees it holds. -/
inductive ProcessCall
  | registerHashFunction (hashId : String) (fn : HashCallable)
  | setHashFunction (fn : HashCallable)
  | setHashFunctionById (hashId : String)
  | tree (name : ℕ) (call : ClientCall)

/-- A process: its hash module, `_EMPTY_HASH_CACHE`, and the roots its variables hold. -/
structure Process where
  hashModule : HashModule
  emptyHashCache : Option Digest
  roots : ℕ → CachedNode

namespace Process

/-- A new process; all variables hold `EmptyNode()`. -/
def start (backends : Backends) : Process := ⟨.start backends, none, fun _ => .emptyNode⟩

/-- What a tree call sees of the process. -/
def session (process : Process) (name : ℕ) : Session :=
  ⟨process.roots name, process.emptyHashCache⟩

/-- The process with the hash module that a call left, or as it was when the call raised. -/
def withModule (process : Process) (result : Py HashModule) : Process :=
  match result with
  | .ok module => { process with hashModule := module }
  | .error _ => process

/-- One call; a call that raises changes nothing. -/
def step (process : Process) : ProcessCall → Process
  | .registerHashFunction hashId fn =>
      process.withModule (process.hashModule.registerHashFunction hashId fn)
  | .setHashFunction fn => process.withModule (process.hashModule.setHashFunction fn)
  | .setHashFunctionById hashId => process.withModule (process.hashModule.setHashFunctionById hashId)
  | .tree name call =>
      let session := Session.step process.hashModule.activeHash (process.session name) call
      { process with
        emptyHashCache := session.emptyHashCache
        roots := Function.update process.roots name session.root }

/-- A sequence of calls. -/
def run (process : Process) (calls : List ProcessCall) : Process := calls.foldl step process

/-- A process with a history. -/
def after (backends : Backends) (history : List ProcessCall) : Process :=
  (start backends).run history

/-- A fresh tree: `EmptyNode()`, and a sequence of inserts and deletes. -/
def build (process : Process) (name : ℕ) (ops : List TreeOp) : Process :=
  process.run (.tree name .newTree :: ops.map fun op => .tree name (.update op))

/-- What `root_hash` returns for the tree. -/
def rootHash (process : Process) (name : ℕ) : Digest :=
  (process.session name).rootHash process.hashModule.activeHash

/-- What an `EmptyNode` hashes to: `_EMPTY_HASH_CACHE`, or `tree_hash(b"")` while it is unset. -/
def emptyHash (process : Process) : Digest :=
  process.emptyHashCache.getD (process.hashModule.activeHash [])

end Process

/-! ## Hashes over a given hash of the empty node -/

/-- `node_hash` computed from scratch, where an `EmptyNode` hashes to `empty`. -/
def nodeHashFrom (H : HashFunction) (empty : Digest) : Node → Logged Bytes Digest
  | .emptyNode => pure empty
  | .internalNode left right => do
      let leftHash ← nodeHashFrom H empty left
      let rightHash ← nodeHashFrom H empty right
      treeHash H (leftHash.val ++ rightHash.val)
  | .stemNode stemPrefix values => treeHash H (stemPayload stemPrefix (stemBytes values))

/-- The tree contains an `EmptyNode`. -/
def HasEmptyNode : Node → Prop
  | .emptyNode => True
  | .internalNode left right => HasEmptyNode left ∨ HasEmptyNode right
  | .stemNode _ _ => False

variable {H : HashFunction}

/-- Only trees with an `EmptyNode` see its hash. -/
theorem nodeHashFrom_eq {d d' : Digest} {t : Node} (h : d = d' ∨ ¬ HasEmptyNode t) :
    nodeHashFrom H d t = nodeHashFrom H d' t := by
  rcases h with rfl | h
  · rfl
  · induction t with
    | empty => exact absurd trivial h
    | leaf s vs => rfl
    | node l r ihl ihr =>
        rw [nodeHashFrom, nodeHashFrom, ihl fun hl => h (Or.inl hl), ihr fun hr => h (Or.inr hr)]

/-- **A tree with an `EmptyNode` commits to the hash of it**: equal roots, hashed over two
hashes of the empty node, are a collision. -/
theorem eq_or_collision_of_nodeHashFrom_eq {d d' : Digest} {t : Node} (ht : HasEmptyNode t)
    (h : (nodeHashFrom H d t).val = (nodeHashFrom H d' t).val) :
    d = d' ∨ Collision H ((nodeHashFrom H d t).queries ++ (nodeHashFrom H d' t).queries) := by
  induction t with
  | empty => exact Or.inl h
  | leaf s vs => exact absurd ht id
  | node l r ihl ihr =>
      simp only [nodeHashFrom, Logged.val_bind, val_treeHash] at h
      simp only [nodeHashFrom, Logged.queries_bind, queries_treeHash]
      have hmem : ∀ d, (nodeHashFrom H d l).val.val ++ (nodeHashFrom H d r).val.val ∈
          (nodeHashFrom H d l).queries ++ ((nodeHashFrom H d r).queries ++
            [(nodeHashFrom H d l).val.val ++ (nodeHashFrom H d r).val.val]) := fun d => by simp
      obtain heq | hcol := eq_or_collision (List.mem_append_left _ (hmem d))
        (List.mem_append_right _ (hmem d')) h
      · obtain ⟨hl, hr⟩ := digest_append_inj heq
        -- the digests below are equal, and one side has the empty node
        rcases ht with hempty | hempty
        · refine (ihl hempty hl).imp_right fun hcol => hcol.mono_append ?_ ?_
          · exact List.subset_append_left _ _
          · exact List.subset_append_left _ _
        · refine (ihr hempty hr).imp_right fun hcol => hcol.mono_append ?_ ?_
          · exact List.subset_append_of_subset_right _ (List.subset_append_left _ _)
          · exact List.subset_append_of_subset_right _ (List.subset_append_left _ _)
      · exact Or.inr hcol

/-! ## Trees without cached hashes -/

namespace CachedNode

/-- No node of the tree has a cached hash. -/
def Unhashed (c : CachedNode) : Prop := ∀ n ∈ c.subnodes, n.hashCache = none

/-- A tree is coherent under all hash functions when it has no cached hash. -/
theorem unhashed_iff_coherent {c : CachedNode} : c.Unhashed ↔ ∀ H, c.Coherent H := by
  constructor
  · intro h H
    refine coherent_iff_subnodes.mpr fun n hn => ?_
    rw [h n hn]
    exact memoOf_none _
  · intro h n hn
    -- two constant hash functions leave no digest for the cell
    have hconst : ∀ d : Digest, MemoOf n.hashCache d := by
      intro d
      have hmemo := coherent_iff_subnodes.mp (h fun _ => d) n hn
      rwa [val_nodeHash] at hmemo
    cases hcache : n.hashCache with
    | none => rfl
    | some d =>
        have hzero := memoOf_some.mp (hcache ▸ hconst emptyValue)
        have hone := memoOf_some.mp (hcache ▸ hconst onesDigest)
        exact absurd (hzero.symm.trans hone) (by decide)

/-- Hashing fills `_EMPTY_HASH_CACHE` with the hash of the empty string, when it is unset. -/
theorem fillsWith_nodeHash (c : CachedNode) : FillsWith (H []) (nodeHash H c) := by
  have hempty : FillsWith (H []) (emptyHash H) := by
    intro cell
    cases cell with
    | none => exact Or.inr ⟨rfl, rfl⟩
    | some d => exact Or.inl rfl
  induction c with
  | emptyNode => exact hempty.bind fun _ => FillsWith.pure
  | stemNode s vs m => cases m <;> exact FillsWith.pure
  | internalNode l r m ihl ihr =>
      cases m with
      | none => exact ihl.bind fun _ => ihr.bind fun _ => FillsWith.pure
      | some d => exact FillsWith.pure

theorem fillsWith_proofPath (s : Bytes) (c : CachedNode) (depth : ℕ) :
    FillsWith (H []) (proofPath H s c depth) := by
  induction c generalizing depth with
  | emptyNode => exact FillsWith.pure
  | stemNode s' vs m => exact FillsWith.pure
  | internalNode l r m ihl ihr =>
      unfold proofPath
      dsimp only
      split_ifs
      · exact (fillsWith_nodeHash r).bind fun _ => (ihl (depth + 1)).bind fun _ => FillsWith.pure
      · exact (fillsWith_nodeHash l).bind fun _ => (ihr (depth + 1)).bind fun _ => FillsWith.pure

theorem fillsWith_getProof {c : CachedNode} {key : Bytes}
    {proof : Hashing (MerkleProof × CachedNode)} (h : getProof H c key = .ok proof) :
    FillsWith (H []) proof := by
  unfold getProof at h
  cases hsplit : splitKey key with
  | error e =>
      rw [hsplit] at h
      cases h
  | ok slot =>
      rw [hsplit] at h
      cases h
      exact (fillsWith_proofPath slot.1 c 0).bind fun _ => FillsWith.pure

/-- **`node_hash` of a tree without cached hashes**, whatever `_EMPTY_HASH_CACHE` holds. -/
theorem nodeHash_of_unhashed {c : CachedNode} (hc : c.Unhashed) (cell : Option Digest) :
    ((nodeHash H c).run cell).1.1 = (nodeHashFrom H (cell.getD (H [])) c.erase).val := by
  induction c generalizing cell with
  | emptyNode => cases cell <;> rfl
  | stemNode s vs m =>
      obtain rfl : m = none := hc _ List.mem_cons_self
      rfl
  | internalNode l r m ihl ihr =>
      obtain rfl : m = none := hc _ List.mem_cons_self
      have hl := ihl (fun n hn => hc n (List.mem_cons_of_mem _ (List.mem_append_left _ hn))) cell
      have hr := ihr (fun n hn => hc n (List.mem_cons_of_mem _ (List.mem_append_right _ hn)))
        ((nodeHash H l).run cell).2
      -- the right child finds the cell as the left one left it
      rw [(fillsWith_nodeHash l).getD_eq] at hr
      show H (((nodeHash H l).run cell).1.1.val ++
        ((nodeHash H r).run ((nodeHash H l).run cell).2).1.1.val) = _
      rw [hl, hr]
      rfl

end CachedNode

/-! ## Fresh trees -/

namespace Process

@[simp] theorem run_nil (process : Process) : process.run [] = process := rfl

theorem run_cons (process : Process) (call : ProcessCall) (calls : List ProcessCall) :
    process.run (call :: calls) = (process.step call).run calls := rfl

theorem after_concat (backends : Backends) (history : List ProcessCall) (call : ProcessCall) :
    after backends (history ++ [call]) = (after backends history).step call := by
  unfold after run
  rw [List.foldl_append]
  rfl

/-- An insert or a delete does not look at `_EMPTY_HASH_CACHE` and does not hash. -/
theorem session_step_update (H H' : HashFunction) (session : Session) (op : TreeOp) :
    Session.step H session (.update op) =
      ⟨(Session.step H' ⟨session.root, none⟩ (.update op)).root, session.emptyHashCache⟩ := by
  obtain ⟨root, cell⟩ := session
  cases op with
  | insert key value =>
      unfold Session.step Session.apply
      dsimp only
      cases root.insert key value <;> rfl
  | delete key =>
      unfold Session.step Session.apply
      dsimp only
      cases root.delete key <;> rfl

/-- **One update of a tree that is fresh under every hash function** leaves it so, and the
module variables as they were. -/
theorem step_update (process : Process) (name : ℕ) (op : TreeOp) {t : Node} (ht : WellFormed t)
    (hroot : ∀ H, CachedNode.Represents H (process.roots name) t) :
    (process.step (.tree name (.update op))).hashModule = process.hashModule ∧
    (process.step (.tree name (.update op))).emptyHashCache = process.emptyHashCache ∧
    ∀ H, CachedNode.Represents H ((process.step (.tree name (.update op))).roots name)
      (Pbt.step t op) := by
  refine ⟨rfl, ?_, fun H => ?_⟩
  · show (Session.step _ (process.session name) (.update op)).emptyHashCache = _
    rw [session_step_update _ process.hashModule.activeHash]
    rfl
  · show CachedNode.Represents H (Function.update process.roots name _ name) _
    rw [Function.update_self, session_step_update _ H]
    exact (Session.represents_step ⟨hroot H, memoOf_none _⟩ ht (.update op)).1.root

/-- **A run of updates on a fresh tree.** -/
theorem run_updates (process : Process) (name : ℕ) (ops : List TreeOp) {t : Node}
    (ht : WellFormed t) (hroot : ∀ H, CachedNode.Represents H (process.roots name) t) :
    (process.run (ops.map fun op => .tree name (.update op))).hashModule = process.hashModule ∧
    (process.run (ops.map fun op => .tree name (.update op))).emptyHashCache =
      process.emptyHashCache ∧
    ∀ H, CachedNode.Represents H
      ((process.run (ops.map fun op => .tree name (.update op))).roots name)
      (ops.foldl Pbt.step t) := by
  induction ops generalizing process t with
  | nil => exact ⟨rfl, rfl, hroot⟩
  | cons op ops ih =>
      obtain ⟨hmodule, hcell, hroot'⟩ := step_update process name op ht hroot
      obtain ⟨hmodule', hcell', hroot''⟩ :=
        ih (process.step (.tree name (.update op))) (wellFormed_step ht op) hroot'
      rw [List.map_cons, run_cons]
      exact ⟨hmodule'.trans hmodule, hcell'.trans hcell, hroot''⟩

/-- **The root of a fresh tree** is the uncached hash of its contents, except that an
`EmptyNode` hashes to what the process takes for the hash of it. -/
theorem rootHash_build (process : Process) (name : ℕ) (ops : List TreeOp) :
    (process.build name ops).rootHash name =
      (nodeHashFrom process.hashModule.activeHash process.emptyHash (Pbt.run ops)).val := by
  have hfresh : ∀ H, CachedNode.Represents H
      ((process.step (.tree name .newTree)).roots name) .emptyNode := by
    intro H
    show CachedNode.Represents H (Function.update process.roots name _ name) _
    rw [Function.update_self]
    exact CachedNode.represents_emptyNode
  obtain ⟨hmodule, hcell, hroot⟩ := run_updates (process.step (.tree name .newTree)) name ops
    wellFormed_emptyNode hfresh
  have hunhashed := CachedNode.unhashed_iff_coherent.mpr fun H => (hroot H).coherent
  have hhash := CachedNode.nodeHash_of_unhashed (H := process.hashModule.activeHash) hunhashed
    process.emptyHashCache
  rw [(hroot process.hashModule.activeHash).erase] at hhash
  unfold build rootHash session
  rw [run_cons, hmodule, hcell]
  exact hhash

/-! ## What a history leaves in `_EMPTY_HASH_CACHE` -/

/-- One call of a session leaves the cell, or fills it when it is unset. -/
theorem emptyHashCache_session_step (H : HashFunction) (session : Session) (call : ClientCall) :
    (Session.step H session call).emptyHashCache = session.emptyHashCache ∨
      session.emptyHashCache = none ∧
        (Session.step H session call).emptyHashCache = some (H []) := by
  cases call with
  | newTree => exact Or.inl rfl
  | update op =>
      rw [session_step_update H H]
      exact Or.inl rfl
  | rootHash => exact CachedNode.fillsWith_nodeHash session.root session.emptyHashCache
  | getProof key =>
      unfold Session.step
      cases hproof : CachedNode.getProof H session.root key with
      | error e =>
          have happly : session.apply H (.getProof key) = .error e := by
            show (CachedNode.getProof H session.root key >>= _) = _
            rw [hproof]
            rfl
          rw [happly]
          exact Or.inl rfl
      | ok proof =>
          have happly : session.apply H (.getProof key) =
              .ok ⟨(proof.run session.emptyHashCache).1.2,
                (proof.run session.emptyHashCache).2⟩ := by
            show (CachedNode.getProof H session.root key >>= _) = _
            rw [hproof]
            rfl
          rw [happly]
          exact CachedNode.fillsWith_getProof hproof session.emptyHashCache

/-- **The cell remembers the first function that hashed an `EmptyNode`**: it is unset, or
holds the hash of the empty string under a function that was active at some time. -/
theorem emptyHashCache_after (backends : Backends) (history : List ProcessCall) {d : Digest}
    (h : (after backends history).emptyHashCache = some d) :
    ∃ past, past <+: history ∧ d = (after backends past).hashModule.activeHash [] := by
  induction history using List.reverseRecOn with
  | nil => cases h
  | append_singleton history call ih =>
      -- a call that leaves the cell leaves it to the history before
      have hkeep : ((after backends history).step call).emptyHashCache =
          (after backends history).emptyHashCache → ∃ past, past <+: history ++ [call] ∧
            d = (after backends past).hashModule.activeHash [] := by
        intro hcell
        rw [after_concat, hcell] at h
        obtain ⟨past, hpast, hd⟩ := ih h
        exact ⟨past, hpast.trans (List.prefix_append _ _), hd⟩
      have hmodule : ∀ result, ((after backends history).withModule result).emptyHashCache =
          (after backends history).emptyHashCache := fun result => by
        cases result <;> rfl
      cases call with
      | registerHashFunction hashId fn => exact hkeep (hmodule _)
      | setHashFunction fn => exact hkeep (hmodule _)
      | setHashFunctionById hashId => exact hkeep (hmodule _)
      | tree name call =>
          obtain hcell | ⟨-, hcell⟩ := emptyHashCache_session_step
            (after backends history).hashModule.activeHash ((after backends history).session name)
            call
          · exact hkeep hcell
          · rw [after_concat] at h
            refine ⟨history, List.prefix_append _ _, ?_⟩
            exact (Option.some.inj (hcell.symm.trans h)).symm

/-- A process in which every function that was active hashes the empty string alike. -/
theorem emptyHash_after_of_agree (backends : Backends) (history : List ProcessCall) {d : Digest}
    (h : ∀ past, past <+: history → (after backends past).hashModule.activeHash [] = d) :
    (after backends history).emptyHash = d := by
  unfold emptyHash
  cases hcell : (after backends history).emptyHashCache with
  | none => exact h history (List.prefix_refl history)
  | some d' =>
      obtain ⟨past, hpast, rfl⟩ := emptyHashCache_after backends history hcell
      exact h past hpast

end Process

/-! ## Two histories -/

/-- **When the root of a fresh tree does not depend on the past.**  Two processes with any
history that have come to use one hash function, and build one tree: if they take the same
digest for the hash of an `EmptyNode`, or the tree has none, their roots are equal; and if
their roots are equal, it is so, or two strings hashed for the roots collide. -/
theorem freshRoot_eq_iff (backends : Backends) (history₁ history₂ : List ProcessCall)
    (hactive : (Process.after backends history₁).hashModule.activeHash =
      (Process.after backends history₂).hashModule.activeHash) (name : ℕ) (ops : List TreeOp) :
    let process₁ := Process.after backends history₁
    let process₂ := Process.after backends history₂
    let H := process₁.hashModule.activeHash
    (process₁.emptyHash = process₂.emptyHash ∨ ¬ HasEmptyNode (run ops) →
      (process₁.build name ops).rootHash name = (process₂.build name ops).rootHash name) ∧
    ((process₁.build name ops).rootHash name = (process₂.build name ops).rootHash name →
      (process₁.emptyHash = process₂.emptyHash ∨ ¬ HasEmptyNode (run ops)) ∨
      Collision H ((nodeHashFrom H process₁.emptyHash (run ops)).queries ++
        (nodeHashFrom H process₂.emptyHash (run ops)).queries)) := by
  intro process₁ process₂ H
  rw [Process.rootHash_build, Process.rootHash_build, ← hactive]
  constructor
  · intro h
    rw [nodeHashFrom_eq h]
  · intro h
    by_cases hempty : HasEmptyNode (run ops)
    · exact (eq_or_collision_of_nodeHashFrom_eq hempty h).imp_left Or.inl
    · exact Or.inl (Or.inr hempty)

/-- An installation without a Poseidon2 backend, whose BLAKE3 is a constant. -/
def constantBackends : Backends where
  blake3Hash _ := emptyValue
  keccakHash _ := onesDigest
  poseidon2Hash := .error ⟨.runtimeError,
    "poseidon2 hash backend not available; install a compatible poseidon2 package"⟩

/-- It asks for the root of an empty tree, and then selects Keccak. -/
def hashedBefore : List ProcessCall := [.tree 0 .rootHash, .setHashFunctionById "keccak256"]

/-- It selects Keccak at once. -/
def notHashedBefore : List ProcessCall := [.setHashFunctionById "keccak256"]

/-- Both have come to use Keccak; on a tree of a lone stem they agree. -/
theorem freshRoot_eq_iff_lone :
    ((Process.after constantBackends hashedBefore).build 1 [.insert [0, 0] onesDigest.val]).rootHash
        1 =
      ((Process.after constantBackends notHashedBefore).build 1
        [.insert [0, 0] onesDigest.val]).rootHash 1 :=
  (freshRoot_eq_iff constantBackends hashedBefore notHashedBefore rfl 1
    [.insert [0, 0] onesDigest.val]).1 (Or.inr id)

/-- Both have come to use Keccak; the empty tree has two roots. -/
theorem freshRoot_ne_hashedBefore :
    (Process.after constantBackends hashedBefore).hashModule.activeHash =
        (Process.after constantBackends notHashedBefore).hashModule.activeHash ∧
      ((Process.after constantBackends hashedBefore).build 1 []).rootHash 1 ≠
        ((Process.after constantBackends notHashedBefore).build 1 []).rootHash 1 := by
  refine ⟨rfl, ?_⟩
  rw [Process.rootHash_build, Process.rootHash_build]
  show emptyValue ≠ onesDigest
  decide

end Pbt
