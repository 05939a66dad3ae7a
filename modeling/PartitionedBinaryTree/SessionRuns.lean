/-
# Runs of a session: the caches stay coherent

A caller that threads the root through `insert`, `delete`, `root_hash` and
`get_proof`, in any order, and keeps the root it has when a call raises.  The
calls raise before they touch a node, so after every call each `_hash_cache`
below the root is unset or the hash of what its node holds now (`represents_run`),
and what the caller is shown is what it would be shown without any cache.
-/
import PartitionedBinaryTree.HashCache

namespace Pbt

/-! ## The nodes below a root -/

namespace CachedNode

/-- The `_hash_cache` of a node; an `EmptyNode` has none. -/
def hashCache : CachedNode → Option Digest
  | emptyNode => none
  | internalNode _ _ hashCache => hashCache
  | stemNode _ _ hashCache => hashCache

/-- The nodes that can be reached from a node, itself included. -/
def subnodes : CachedNode → List CachedNode
  | emptyNode => [emptyNode]
  | internalNode left right hashCache =>
      internalNode left right hashCache :: (left.subnodes ++ right.subnodes)
  | stemNode stemPrefix values hashCache => [stemNode stemPrefix values hashCache]

/-- Coherence is a statement about each node that can be reached. -/
theorem coherent_iff_subnodes {H : HashFunction} {c : CachedNode} :
    c.Coherent H ↔ ∀ n ∈ c.subnodes, MemoOf n.hashCache (Pbt.nodeHash H n.erase).val := by
  induction c with
  | emptyNode =>
      refine iff_of_true trivial fun n hn => ?_
      rw [List.mem_singleton.mp hn]
      exact memoOf_none _
  | stemNode s vs m =>
      refine ⟨fun h n hn => ?_, fun h => h _ List.mem_cons_self⟩
      rw [List.mem_singleton.mp hn]
      exact h
  | internalNode l r m ihl ihr =>
      constructor
      · rintro ⟨hl, hr, hm⟩ n hn
        rcases List.mem_cons.mp hn with rfl | hn
        · exact hm
        · rcases List.mem_append.mp hn with hn | hn
          · exact ihl.mp hl n hn
          · exact ihr.mp hr n hn
      · intro h
        refine ⟨ihl.mpr fun n hn => h n ?_, ihr.mpr fun n hn => h n ?_, h _ List.mem_cons_self⟩
        · exact List.mem_cons_of_mem _ (List.mem_append_left _ hn)
        · exact List.mem_cons_of_mem _ (List.mem_append_right _ hn)

end CachedNode

/-! ## Runs -/

/-- One call on the contents, by a caller that keeps what it has when the call raises. -/
def ClientCall.step (contents : Node) (call : ClientCall) : Node :=
  match call.apply contents with
  | .ok contents' => contents'
  | .error _ => contents

/-- A sequence of calls on the contents, from `EmptyNode()`. -/
def ClientCall.run (calls : List ClientCall) : Node := calls.foldl ClientCall.step .emptyNode

namespace Session

variable {H : HashFunction}

/-- One call, by a caller that keeps its root when the call raises. -/
def step (H : HashFunction) (session : Session) (call : ClientCall) : Session :=
  match session.apply H call with
  | .ok session' => session'
  | .error _ => session

/-- A sequence of calls, in a new process. -/
def run (H : HashFunction) (calls : List ClientCall) : Session := calls.foldl (step H) start

/-- A call outside the contract raises, on the nodes as on their contents. -/
theorem apply_of_not_valid {call : ClientCall} (h : ¬ call.Valid) (session : Session)
    (contents : Node) :
    (∃ e, session.apply H call = .error e) ∧ ∃ e, call.apply contents = .error e := by
  cases call with
  | newTree => exact absurd trivial h
  | rootHash => exact absurd trivial h
  | getProof key =>
      have hsplit := splitKey_of_short (not_le.mp h)
      show (∃ e, (CachedNode.getProof H session.root key >>= _) = .error e) ∧
        ∃ e, (splitKey key >>= _) = .error e
      unfold CachedNode.getProof
      rw [hsplit]
      exact ⟨⟨_, rfl⟩, ⟨_, rfl⟩⟩
  | update op =>
      cases op with
      | delete key =>
          have hsplit := splitKey_of_short (not_le.mp h)
          show (∃ e, (CachedNode.delete session.root key >>= _) = .error e) ∧
            ∃ e, Pbt.delete contents key = .error e
          unfold CachedNode.delete Pbt.delete
          rw [hsplit]
          exact ⟨⟨_, rfl⟩, ⟨_, rfl⟩⟩
      | insert key value =>
          show (∃ e, (CachedNode.insert session.root key value >>= _) = .error e) ∧
            ∃ e, Pbt.insert contents key value = .error e
          unfold CachedNode.insert Pbt.insert
          by_cases hv : value.length = 32
          · have hsplit := splitKey_of_short (not_le.mp fun hk => h ⟨hk, hv⟩)
            rw [dif_pos hv, dif_pos hv, hsplit]
            exact ⟨⟨_, rfl⟩, ⟨_, rfl⟩⟩
          · rw [dif_neg hv, dif_neg hv]
            exact ⟨⟨_, rfl⟩, ⟨_, rfl⟩⟩

/-- **One call keeps the invariant**, whether it returns or raises. -/
theorem represents_step {session : Session} {t : Node} (h : Represents H session t)
    (ht : WellFormed t) (call : ClientCall) :
    Represents H (step H session call) (call.step t) ∧ WellFormed (call.step t) := by
  unfold step ClientCall.step
  by_cases hvalid : call.Valid
  · obtain ⟨t', hcall, ht'⟩ := ClientCall.apply_valid ht hvalid
    obtain ⟨session', hsession, h'⟩ := refines_apply h call t' hcall
    rw [hsession, hcall]
    exact ⟨h', ht'⟩
  · obtain ⟨⟨e, he⟩, ⟨e', he'⟩⟩ := apply_of_not_valid (H := H) hvalid session t
    rw [he, he']
    exact ⟨h, ht⟩

/-- **Every run keeps the invariant.**  The induction is on the calls, last one first. -/
theorem represents_run (calls : List ClientCall) :
    Represents H (run H calls) (ClientCall.run calls) ∧ WellFormed (ClientCall.run calls) := by
  induction calls using List.reverseRecOn with
  | nil => exact ⟨represents_start, wellFormed_emptyNode⟩
  | append_singleton calls call ih =>
      obtain ⟨h, ht⟩ := ih
      unfold run ClientCall.run
      rw [List.foldl_append, List.foldl_append]
      exact represents_step h ht call

/-- `get_proof` of a session that represents `t` is `get_proof` on `t`, raising included. -/
theorem getProof_eq {session : Session} {t : Node} (h : Represents H session t) (key : Bytes) :
    session.getProof H key = (Pbt.getProof H t key).map Logged.val := by
  by_cases hkey : 2 ≤ key.length
  · obtain ⟨s, i, hsplit, -⟩ := exists_splitKey hkey
    obtain ⟨call, hcall⟩ : ∃ call, Pbt.getProof H t key = .ok call := by
      unfold Pbt.getProof
      rw [hsplit]
      exact ⟨_, rfl⟩
    obtain ⟨proof, hproof, rfl⟩ := refines_getProof h key call hcall
    rw [hproof, hcall]
    rfl
  · unfold Session.getProof CachedNode.getProof Pbt.getProof
    rw [splitKey_of_short (not_le.mp hkey)]
    rfl

end Session

/-- **The caches are coherent along every run.**  After every interleaving of calls each
node below the root has a `_hash_cache` that is unset or its hash computed from scratch, and
`root_hash` and `get_proof` return what they return on the contents without any cache. -/
theorem caches_coherent_run (H : HashFunction) (calls : List ClientCall) :
    (∀ n ∈ (Session.run H calls).root.subnodes,
      n.hashCache = none ∨ n.hashCache = some (nodeHash H n.erase).val) ∧
    (Session.run H calls).rootHash H = (rootHash H (Session.run H calls).root.erase).val ∧
    ∀ key, (Session.run H calls).getProof H key =
      (getProof H (Session.run H calls).root.erase key).map Logged.val := by
  obtain ⟨h, -⟩ := Session.represents_run (H := H) calls
  refine ⟨fun n hn => ?_, ?_, fun key => ?_⟩
  · have hmemo := CachedNode.coherent_iff_subnodes.mp h.root.coherent n hn
    cases hcache : n.hashCache with
    | none => exact Or.inl rfl
    | some d =>
        rw [hcache, memoOf_some] at hmemo
        exact Or.inr (congrArg some hmemo)
  · rw [Session.rootHash_eq h, h.root.erase]
  · rw [Session.getProof_eq h key, h.root.erase]

end Pbt
