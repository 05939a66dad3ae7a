/-
# What `root_hash` hashes again (`pbt/nodes.py`, `pbt/tree.py`)

After `root_hash` every node below the root is cached, and below a cached hash
everything is cached along every run (`Settled`, `settled_run`).  An update
empties the walk of its key and nothing beside it, so the next `root_hash` hashes
the nodes on that walk, deepest first, and no others (`rootHash_after_update`);
reads in between hash nothing.

The empty string is left out of the account (`nodeStrings`): it is hashed once in
the life of a process, when the first `EmptyNode` is.
-/
import PartitionedBinaryTree.HashingCost
import PartitionedBinaryTree.ProofUniqueness

namespace Pbt

variable {H : HashFunction}

namespace CachedNode

/-! ## Below a cached hash everything is cached -/

/-- **The invariant of the caches of a session.**  Hashing fills a subtree from below, and an
update empties a path from its top. -/
def Settled : CachedNode → Prop
  | internalNode left right hashCache =>
      left.Settled ∧ right.Settled ∧ (hashCache ≠ none → left.pending = 0 ∧ right.pending = 0)
  | _ => True

/-- A node that was just written to. -/
theorem Settled.internalNode_none {l r : CachedNode} (hl : l.Settled) (hr : r.Settled) :
    (internalNode l r none).Settled := ⟨hl, hr, fun h => absurd rfl h⟩

theorem Settled.pending_of_cached {l r : CachedNode} {d : Digest}
    (h : (internalNode l r (some d)).Settled) : (internalNode l r (some d)).pending = 0 := by
  obtain ⟨hpl, hpr⟩ := h.2.2 (Option.some_ne_none d)
  rw [pending_internalNode_some, hpl, hpr]

theorem settled_splitStems {a b : Bytes} {vs : StemValues} {m : Option Digest}
    {i : Fin stemSubtreeWidth} {v : Value} {fuel depth : ℕ} {c : CachedNode}
    (h : splitStems a vs m b i v fuel depth = .ok c) : c.Settled := by
  induction fuel generalizing depth c with
  | zero => cases h
  | succ fuel ih =>
      rcases splitStems_cases h with ⟨child, hchild, ⟨-, rfl⟩ | ⟨-, rfl⟩⟩ | ⟨-, rfl⟩ | ⟨-, rfl⟩
      · exact (ih hchild).internalNode_none trivial
      · exact Settled.internalNode_none trivial (ih hchild)
      · exact Settled.internalNode_none trivial trivial
      · exact Settled.internalNode_none trivial trivial

/-- `_insert` keeps the invariant. -/
theorem settled_insertNode {c c' : CachedNode} {s : Bytes} {i : Fin stemSubtreeWidth} {v : Value}
    {depth : ℕ} (hc : c.Settled) (h : insertNode c s i v depth = .ok c') : c'.Settled := by
  induction c generalizing depth c' with
  | emptyNode =>
      cases h
      trivial
  | stemNode s' vs m =>
      unfold insertNode at h
      split_ifs at h with heq
      · cases h
        trivial
      · exact settled_splitStems h
  | internalNode l r m ihl ihr =>
      obtain ⟨hl, hr, -⟩ := hc
      unfold insertNode at h
      dsimp only at h
      split_ifs at h with hbit
      · obtain ⟨l', hchild, h⟩ := py_bind_eq_ok_iff.mp h
        cases h
        exact (ihl hl hchild).internalNode_none hr
      · obtain ⟨r', hchild, h⟩ := py_bind_eq_ok_iff.mp h
        cases h
        exact hl.internalNode_none (ihr hr hchild)

theorem settled_collapseInternal {l r : CachedNode} (hl : l.Settled) (hr : r.Settled) :
    (collapseInternal l r).Settled := by
  rcases collapseInternal_cases l r with h | ⟨h, -⟩ | ⟨h, -⟩
  · rw [h]
    exact hl.internalNode_none hr
  · rw [h]
    exact hl
  · rw [h]
    exact hr

/-- `_delete` keeps the invariant. -/
theorem settled_deleteNode {c : CachedNode} (hc : c.Settled) (s : Bytes)
    (i : Fin stemSubtreeWidth) (depth : ℕ) : (deleteNode c s i depth).Settled := by
  induction c generalizing depth with
  | emptyNode => trivial
  | stemNode s' vs m =>
      unfold deleteNode
      dsimp only
      split_ifs
      · trivial
      · trivial
      · trivial
  | internalNode l r m ihl ihr =>
      obtain ⟨hl, hr, -⟩ := hc
      unfold deleteNode
      dsimp only
      split_ifs
      · exact settled_collapseInternal (ihl hl (depth + 1)) hr
      · exact settled_collapseInternal hl (ihr hr (depth + 1))

/-- **`node_hash` leaves nothing to hash.** -/
theorem settled_nodeHash {c : CachedNode} (hc : c.Settled) (cell : Option Digest) :
    ((nodeHash H c).run cell).1.2.Settled ∧ ((nodeHash H c).run cell).1.2.pending = 0 := by
  induction c generalizing cell with
  | emptyNode => exact ⟨trivial, rfl⟩
  | stemNode s vs m =>
      cases m with
      | none => exact ⟨trivial, rfl⟩
      | some d => exact ⟨trivial, rfl⟩
  | internalNode l r m ihl ihr =>
      cases m with
      | some d =>
          exact ⟨hc, hc.pending_of_cached⟩
      | none =>
          obtain ⟨hl, hr, -⟩ := hc
          obtain ⟨hl', hpl⟩ := ihl hl cell
          obtain ⟨hr', hpr⟩ := ihr hr ((nodeHash H l).run cell).2
          refine ⟨⟨hl', hr', fun _ => ⟨hpl, hpr⟩⟩, ?_⟩
          show ((nodeHash H l).run cell).1.2.pending +
            ((nodeHash H r).run ((nodeHash H l).run cell).2).1.2.pending = 0
          rw [hpl, hpr]

/-- `node_hash` returns a node with nothing to hash as it is. -/
theorem nodeHash_of_pending_eq_zero {c : CachedNode} (hc : c.pending = 0) (cell : Option Digest) :
    ((nodeHash H c).run cell).1.2 = c := by
  cases c with
  | emptyNode => rfl
  | stemNode s vs m =>
      cases m with
      | none => cases hc
      | some d => rfl
  | internalNode l r m =>
      cases m with
      | none => cases hc
      | some d => rfl

/-- The loop of `get_proof` returns a node with nothing to hash as it is. -/
theorem proofPath_of_pending_eq_zero {c : CachedNode} (hc : c.pending = 0) (s : Bytes)
    (depth : ℕ) (cell : Option Digest) : ((proofPath H s c depth).run cell).1.start = c := by
  induction c generalizing depth cell with
  | emptyNode => rfl
  | stemNode s' vs m => rfl
  | internalNode l r m ihl ihr =>
      obtain ⟨hpl, hpr⟩ := pending_children_of_eq_zero hc
      unfold proofPath
      dsimp only
      by_cases hbit : pathBitAt s depth = 0
      · rw [if_pos hbit]
        show internalNode ((proofPath H s l (depth + 1)).run ((nodeHash H r).run cell).2).1.start
          ((nodeHash H r).run cell).1.2 m = _
        rw [ihl hpl, nodeHash_of_pending_eq_zero hpr]
      · rw [if_neg hbit]
        show internalNode ((nodeHash H l).run cell).1.2
          ((proofPath H s r (depth + 1)).run ((nodeHash H l).run cell).2).1.start m = _
        rw [ihr hpr, nodeHash_of_pending_eq_zero hpl]

/-- The loop of `get_proof` keeps the invariant. -/
theorem settled_proofPath {c : CachedNode} (hc : c.Settled) (s : Bytes) (depth : ℕ)
    (cell : Option Digest) : ((proofPath H s c depth).run cell).1.start.Settled := by
  induction c generalizing depth cell with
  | emptyNode => trivial
  | stemNode s' vs m => trivial
  | internalNode l r m ihl ihr =>
      cases m with
      | some d =>
          -- the node is cached, so is everything below, and nothing is filled
          rw [proofPath_of_pending_eq_zero hc.pending_of_cached]
          exact hc
      | none =>
          obtain ⟨hl, hr, -⟩ := hc
          unfold proofPath
          dsimp only
          by_cases hbit : pathBitAt s depth = 0
          · rw [if_pos hbit]
            exact (ihl hl (depth + 1) _).internalNode_none (settled_nodeHash hr cell).1
          · rw [if_neg hbit]
            exact (settled_nodeHash hl cell).1.internalNode_none (ihr hr (depth + 1) _)

/-! ## The strings of the nodes without a cached hash -/

/-- What `node_hash` hashes for the nodes that have no cached hash, children first. -/
def stale (H : HashFunction) : CachedNode → List Bytes
  | emptyNode => []
  | internalNode left right hashCache =>
      left.stale H ++ right.stale H ++
        if hashCache.isNone then [nodePayload H (.internalNode left.erase right.erase)] else []
  | stemNode stemPrefix values hashCache =>
      if hashCache.isNone then [nodePayload H (.stemNode stemPrefix values)] else []

@[simp] theorem length_stale (c : CachedNode) : (c.stale H).length = c.pending := by
  induction c with
  | emptyNode => rfl
  | stemNode s vs m => cases m <;> rfl
  | internalNode l r m ihl ihr =>
      rw [stale, pending, List.length_append, List.length_append, ihl, ihr]
      cases m <;> rfl

theorem stale_eq_nil {c : CachedNode} (hc : c.pending = 0) : c.stale H = [] :=
  List.eq_nil_of_length_eq_zero ((length_stale c).trans hc)

end CachedNode

/-- The strings hashed for nodes with contents. -/
def nodeStrings (queries : List Bytes) : List Bytes := queries.filter (· ≠ [])

@[simp] theorem nodeStrings_append (qs qs' : List Bytes) :
    nodeStrings (qs ++ qs') = nodeStrings qs ++ nodeStrings qs' := List.filter_append ..

theorem nodeStrings_singleton {q : Bytes} (h : 0 < q.length) : nodeStrings [q] = [q] := by
  have hne : q ≠ [] := List.length_pos_iff.mp h
  simp [nodeStrings, hne]

theorem nodeStrings_internalNode (l r : Node) :
    nodeStrings [nodePayload H (.internalNode l r)] = [nodePayload H (.internalNode l r)] :=
  nodeStrings_singleton (by rw [length_nodePayload_internalNode]; omega)

theorem nodeStrings_stemNode (s : Bytes) (vs : StemValues) :
    nodeStrings [nodePayload H (.stemNode s vs)] = [nodePayload H (.stemNode s vs)] :=
  nodeStrings_singleton (by rw [length_nodePayload_stemNode]; omega)

namespace CachedNode

theorem nodeStrings_emptyHash (cell : Option Digest) :
    nodeStrings ((emptyHashRecorded H).run cell).queries = [] := by
  cases cell with
  | none => rfl
  | some d => rfl

/-- **`node_hash` hashes the nodes without a cached hash**, and only those. -/
theorem nodeStrings_nodeHash {c : CachedNode} (hc : c.Coherent H) (hs : c.Settled)
    {cell : Option Digest} (hcell : MemoOf cell (H [])) :
    nodeStrings ((nodeHashRecorded H c).run cell).queries = c.stale H := by
  induction c generalizing cell with
  | emptyNode =>
      show nodeStrings (((emptyHashRecorded H).run cell).queries ++ []) = []
      rw [List.append_nil]
      exact nodeStrings_emptyHash cell
  | stemNode s vs m =>
      cases m with
      | some d => rfl
      | none => exact nodeStrings_stemNode s vs
  | internalNode l r m ihl ihr =>
      cases m with
      | some d =>
          rw [stale_eq_nil hs.pending_of_cached]
          rfl
      | none =>
          obtain ⟨hcl, hcr, -⟩ := hc
          obtain ⟨hsl, hsr, -⟩ := hs
          -- the children's hashes are the uncached ones, so the last string is the node's
          obtain ⟨⟨hdl, -⟩, hcell'⟩ := nodeHash_spec hcl cell hcell
          obtain ⟨⟨hdr, -⟩, -⟩ := nodeHash_spec hcr _ hcell'
          have hleft := mirrors_nodeHash (H := H) l cell
          have hright := mirrors_nodeHash (H := H) r ((nodeHash H l).run cell).2
          have hqueries : ((nodeHashRecorded H (internalNode l r none)).run cell).queries =
              ((nodeHashRecorded H l).run cell).queries ++
                (((nodeHashRecorded H r).run ((nodeHash H l).run cell).2).queries ++
                  [((nodeHash H l).run cell).1.1.val ++
                    ((nodeHash H r).run ((nodeHash H l).run cell).2).1.1.val]) := by
            rw [← hright, ← hleft]
            rfl
          rw [hqueries, hdl, hdr, nodeStrings_append, nodeStrings_append, ihl hcl hsl hcell,
            ihr hcr hsr hcell', ← List.append_assoc]
          exact congrArg (l.stale H ++ r.stale H ++ ·)
            (nodeStrings_internalNode l.erase r.erase)

/-- The loop of `get_proof` hashes nothing where everything is cached. -/
theorem nodeStrings_proofPath {c : CachedNode} (hc : c.Coherent H) (hs : c.Settled)
    (hpending : c.pending = 0) (s : Bytes) (depth : ℕ) {cell : Option Digest}
    (hcell : MemoOf cell (H [])) :
    nodeStrings ((proofPathRecorded H s c depth).run cell).queries = [] := by
  induction c generalizing depth cell with
  | emptyNode => rfl
  | stemNode s' vs m => rfl
  | internalNode l r m ihl ihr =>
      obtain ⟨hcl, hcr, -⟩ := hc
      obtain ⟨hsl, hsr, -⟩ := hs
      obtain ⟨hpl, hpr⟩ := pending_children_of_eq_zero hpending
      unfold proofPathRecorded
      dsimp only
      by_cases hbit : pathBitAt s depth = 0
      · rw [if_pos hbit]
        obtain ⟨-, hcell'⟩ := nodeHash_spec hcr cell hcell
        rw [← mirrors_nodeHash (H := H) r cell] at hcell'
        show nodeStrings (((nodeHashRecorded H r).run cell).queries ++
          (((proofPathRecorded H s l (depth + 1)).run
            ((nodeHashRecorded H r).run cell).val.2).queries ++ [])) = []
        rw [List.append_nil, nodeStrings_append, nodeStrings_nodeHash hcr hsr hcell,
          stale_eq_nil hpr, ihl hcl hsl hpl (depth + 1) hcell', List.append_nil]
      · rw [if_neg hbit]
        obtain ⟨-, hcell'⟩ := nodeHash_spec hcl cell hcell
        rw [← mirrors_nodeHash (H := H) l cell] at hcell'
        show nodeStrings (((nodeHashRecorded H l).run cell).queries ++
          (((proofPathRecorded H s r (depth + 1)).run
            ((nodeHashRecorded H l).run cell).val.2).queries ++ [])) = []
        rw [List.append_nil, nodeStrings_append, nodeStrings_nodeHash hcl hsl hcell,
          stale_eq_nil hpl, ihr hcr hsr hpr (depth + 1) hcell', List.append_nil]

end CachedNode

/-! ## The walk of a key -/

/-- What `node_hash` hashes for the nodes on the walk of a prefix, deepest first. -/
def pathPayloads (H : HashFunction) (stemPrefix : Bytes) : Node → ℕ → List Bytes
  | .emptyNode, _ => []
  | .internalNode left right, depth =>
      (if pathBitAt stemPrefix depth = 0 then pathPayloads H stemPrefix left (depth + 1)
        else pathPayloads H stemPrefix right (depth + 1)) ++
        [nodePayload H (.internalNode left right)]
  | .stemNode existingPrefix values, _ => [nodePayload H (.stemNode existingPrefix values)]

/-- **An update on a tree where everything is cached** leaves the nodes on the walk of its
prefix without a cached hash, the end of the walk possibly excepted. -/
theorem CachedNode.Invalidated.pathPayloads_eq {last : CachedNode → Prop} {s : Bytes} {depth : ℕ}
    {c : CachedNode} (h : Invalidated last s depth 0 c) :
    ∃ skipped, skipped.length ≤ 1 ∧ pathPayloads H s c.erase depth = skipped ++ c.stale H ∧
      ((∀ n, last n → Written n) → skipped = []) := by
  induction c generalizing depth with
  | emptyNode => exact ⟨[], Nat.zero_le _, rfl, fun _ => rfl⟩
  | stemNode s' vs m =>
      cases m with
      | none => exact ⟨[], Nat.zero_le _, rfl, fun _ => rfl⟩
      | some d =>
          refine ⟨[nodePayload H (.stemNode s' vs)], Nat.le_refl _, rfl, fun hwritten => ?_⟩
          cases hwritten _ h.opened
  | internalNode l r m ihl ihr =>
      obtain ⟨⟨rfl, hopen⟩, haside⟩ := h
      rw [aside] at haside
      rw [erase_internalNode, pathPayloads, stale]
      by_cases hbit : pathBitAt s depth = 0
      · rw [if_pos hbit] at hopen haside ⊢
        obtain ⟨skipped, hlen, hpath, hwritten⟩ := ihl ⟨hopen, by omega⟩
        refine ⟨skipped, hlen, ?_, hwritten⟩
        rw [hpath, stale_eq_nil (show r.pending = 0 by omega), List.append_nil, List.append_assoc]
        rfl
      · rw [if_neg hbit] at hopen haside ⊢
        obtain ⟨skipped, hlen, hpath, hwritten⟩ := ihr ⟨hopen, by omega⟩
        refine ⟨skipped, hlen, ?_, hwritten⟩
        rw [hpath, stale_eq_nil (show l.pending = 0 by omega), List.nil_append, List.append_assoc]
        rfl

/-- The strings of a walk are those of the climb that undoes it, and that of its end. -/
theorem pathPayloads_eq_climb (s : Bytes) (t : Node) (depth : ℕ) :
    pathPayloads H s t depth = pathPayloads H s (walkEnd s t depth) 0 ++
      (climb H (nodeHash H (walkEnd s t depth)).val (walkLevels H s t depth)).queries := by
  induction t generalizing depth with
  | empty => rfl
  | leaf s' vs => rfl
  | node l r ihl ihr =>
      rw [walkEnd]
      by_cases hbit : pathBitAt s depth = 0
      · have hclimb : (climb H (nodeHash H (walkEnd s l (depth + 1))).val
            (walkLevels H s l (depth + 1))).val = (nodeHash H l).val := climb_proofPath s l _
        rw [if_pos hbit, walkLevels_left (pathBit_eq_false_iff.mpr hbit), (climb_concat _ _ _ _).2,
          hclimb, ← List.append_assoc, ← ihl, pathPayloads, if_pos hbit, climbStep, if_pos rfl,
          queries_treeHash]
        rfl
      · have hclimb : (climb H (nodeHash H (walkEnd s r (depth + 1))).val
            (walkLevels H s r (depth + 1))).val = (nodeHash H r).val := climb_proofPath s r _
        rw [if_neg hbit, walkLevels_right (pathBit_eq_true_iff.mpr hbit), (climb_concat _ _ _ _).2,
          hclimb, ← List.append_assoc, ← ihr, pathPayloads, if_neg hbit, climbStep,
          if_neg one_ne_zero, queries_treeHash]
        rfl

/-- **The strings of the walk to a stored stem** are the strings that `verify_proof` hashes for
the proof that `get_proof` generates. -/
theorem exists_verifyProof_queries {t : Node} {key s : Bytes} {i : Fin stemSubtreeWidth}
    (hkey : splitKey key = .ok (s, i)) {vs : StemValues} (hstem : storedStem t s = some vs)
    (rh : Bytes) :
    ∃ p w, getProof H t key = .ok p ∧ verifyProof H rh p.val = .ok w ∧
      w.queries = pathPayloads H s t 0 := by
  obtain ⟨p, hp, hval⟩ := getProof_spec (H := H) t hkey
  rw [hstem] at hval
  have hverify := verifyProof_eq H rh (p := p.val) (s := s) (i := i) (by rw [hval]; exact hkey)
    (by rw [hval]; exact length_stemBytes _) (by rw [hval]; exact getElem?_stemBytes vs i)
    (by rw [hval]; exact (proofPath_spec s t 0).1)
  refine ⟨p, _, hp, hverify, ?_⟩
  rw [hval, pathPayloads_eq_climb, walkEnd_of_storedStem hstem]
  rfl

/-! ## Runs -/

/-- The calls that leave the contents. -/
def ClientCall.isRead : ClientCall → Bool
  | rootHash | getProof _ => true
  | newTree | update _ => false

/-- An insert within the contract leaves the stem of its key in the tree. -/
theorem ClientCall.exists_storedStem_insert (calls : List ClientCall) {key value s : Bytes}
    {i : Fin stemSubtreeWidth} (hkey : splitKey key = .ok (s, i)) (hvalue : value.length = 32) :
    ∃ vs, storedStem (ClientCall.run (calls ++ [.update (.insert key value)])) s = some vs := by
  obtain ⟨-, ht⟩ := Session.represents_run (H := fun _ => emptyValue) calls
  obtain ⟨hjoin, hlen⟩ := splitKey_eq_ok_iff.mp hkey
  unfold ClientCall.run
  rw [List.foldl_append, List.foldl_cons, List.foldl_nil, ClientCall.step, ClientCall.apply]
  obtain ⟨hinvalid, -⟩ | ⟨s', i', v, t', -, hop, hok, -, hread⟩ | ⟨s', i', t', -, hop, -⟩ :=
    apply_cases ht (.insert key value)
  · exact absurd ⟨hlen, hvalue⟩ hinvalid
  · obtain ⟨hkey', -⟩ := TreeOp.insert.inj hop
    rw [hjoin] at hkey'
    obtain ⟨rfl, -⟩ := joinKey_inj.mp hkey'
    unfold ClientCall.run at hok hread
    rw [hok]
    exact ⟨_, (hread s).trans (if_pos rfl)⟩
  · cases hop

namespace Session

/-- One call keeps the invariant of the caches. -/
theorem settled_step {session : Session} (h : session.root.Settled) (call : ClientCall) :
    (step H session call).root.Settled := by
  cases call with
  | newTree => trivial
  | rootHash =>
      rw [← val_stepRecorded, val_stepRecorded_rootHash]
      exact (CachedNode.settled_nodeHash h _).1
  | getProof key =>
      rw [← val_stepRecorded]
      cases hsplit : splitKey key with
      | error e =>
          rw [stepRecorded_getProof_of_error session hsplit]
          exact h
      | ok slot =>
          rw [val_stepRecorded_getProof session hsplit]
          exact CachedNode.settled_proofPath h slot.1 0 _
  | update op =>
      unfold step Session.apply
      cases op with
      | insert key value =>
          dsimp only
          cases hins : session.root.insert key value with
          | error e => exact h
          | ok root =>
              unfold CachedNode.insert at hins
              split_ifs at hins with hv
              · obtain ⟨slot, -, hnode⟩ := py_bind_eq_ok_iff.mp hins
                exact CachedNode.settled_insertNode h hnode
              · cases hins
      | delete key =>
          dsimp only
          cases hdel : session.root.delete key with
          | error e => exact h
          | ok root =>
              obtain ⟨slot, -, hnode⟩ := py_bind_eq_ok_iff.mp hdel
              cases hnode
              exact CachedNode.settled_deleteNode h slot.1 slot.2 0

/-- **Along every run, below a cached hash everything is cached.** -/
theorem settled_run (calls : List ClientCall) : (run H calls).root.Settled := by
  induction calls using List.reverseRecOn with
  | nil => trivial
  | append_singleton calls call ih =>
      unfold run
      rw [List.foldl_append]
      exact settled_step ih call

/-- A read leaves a root where everything is cached as it is. -/
theorem pending_step_of_isRead {session : Session} (h : session.root.pending = 0)
    {call : ClientCall} (hcall : call.isRead = true) :
    (step H session call).root.pending = 0 := by
  rw [← val_stepRecorded]
  cases call with
  | newTree => cases hcall
  | update op => cases hcall
  | rootHash =>
      rw [val_stepRecorded_rootHash]
      dsimp only
      rw [CachedNode.nodeHash_of_pending_eq_zero h]
      exact h
  | getProof key =>
      cases hsplit : splitKey key with
      | error e =>
          rw [stepRecorded_getProof_of_error session hsplit]
          exact h
      | ok slot =>
          rw [val_stepRecorded_getProof session hsplit]
          dsimp only
          rw [CachedNode.proofPath_of_pending_eq_zero h]
          exact h

/-- After `root_hash` and reads, everything is cached. -/
theorem pending_run_eq_zero (calls : List ClientCall) {reads : List ClientCall}
    (hreads : ∀ call ∈ reads, call.isRead = true) :
    (run H (calls ++ .rootHash :: reads)).root.pending = 0 := by
  induction reads using List.reverseRecOn with
  | nil =>
      unfold run
      rw [List.foldl_append, List.foldl_cons, List.foldl_nil, ← val_stepRecorded,
        val_stepRecorded_rootHash]
      exact (CachedNode.settled_nodeHash (settled_run calls) _).2
  | append_singleton reads call ih =>
      unfold run at ih ⊢
      rw [← List.cons_append, ← List.append_assoc, List.foldl_append]
      exact pending_step_of_isRead (ih fun c hc => hreads c (List.mem_append_left _ hc))
        (hreads call (List.mem_append_right _ List.mem_cons_self))

/-- The strings, the empty one apart, that one more call hashes. -/
def hashedBy (H : HashFunction) (calls : List ClientCall) (call : ClientCall) : List Bytes :=
  nodeStrings (stepRecorded H (run H calls) call).queries

/-- `root_hash` hashes the nodes without a cached hash. -/
theorem hashedBy_rootHash (calls : List ClientCall) :
    hashedBy H calls .rootHash = (run H calls).root.stale H := by
  obtain ⟨⟨hroot, hcell⟩, -⟩ := represents_run (H := H) calls
  unfold hashedBy
  rw [queries_stepRecorded_rootHash]
  exact CachedNode.nodeStrings_nodeHash hroot.coherent (settled_run calls) hcell

/-- A read where everything is cached hashes nothing. -/
theorem hashedBy_of_isRead {calls : List ClientCall} (h : (run H calls).root.pending = 0)
    {call : ClientCall} (hcall : call.isRead = true) : hashedBy H calls call = [] := by
  cases call with
  | newTree => cases hcall
  | update op => cases hcall
  | rootHash => rw [hashedBy_rootHash, CachedNode.stale_eq_nil h]
  | getProof key =>
      obtain ⟨⟨hroot, hcell⟩, -⟩ := represents_run (H := H) calls
      unfold hashedBy
      cases hsplit : splitKey key with
      | error e =>
          rw [stepRecorded_getProof_of_error _ hsplit]
          rfl
      | ok slot =>
          rw [queries_stepRecorded_getProof _ hsplit]
          exact CachedNode.nodeStrings_proofPath hroot.coherent (settled_run calls) h slot.1 0 hcell

/-- What one more call does. -/
theorem run_concat (calls : List ClientCall) (call : ClientCall) :
    run H (calls ++ [call]) = step H (run H calls) call := by
  unfold run
  rw [List.foldl_append]
  rfl

/-- **An insert where everything is cached**: `root_hash` then hashes the walk of the key. -/
theorem hashedBy_rootHash_insert {calls : List ClientCall} (h : (run H calls).root.pending = 0)
    {key value : Bytes} {s : Bytes} {i : Fin stemSubtreeWidth} (hsplit : splitKey key = .ok (s, i))
    (hvalue : value.length = 32) :
    hashedBy H (calls ++ [.update (.insert key value)]) .rootHash =
      pathPayloads H s (ClientCall.run (calls ++ [.update (.insert key value)])) 0 := by
  obtain ⟨⟨hroot', -⟩, -⟩ := represents_run (H := H) (calls ++ [.update (.insert key value)])
  obtain ⟨hrep, ht⟩ := represents_run (H := H) calls
  have hvalid : (ClientCall.update (.insert key value)).Valid :=
    ⟨(splitKey_eq_ok_iff.mp hsplit).2, hvalue⟩
  obtain ⟨t', hcall, -⟩ := ClientCall.apply_valid ht hvalid
  obtain ⟨session', hsession, -⟩ := refines_apply hrep _ t' hcall
  obtain ⟨root, hins, hsession⟩ := py_bind_eq_ok_iff.mp hsession
  cases hsession
  obtain ⟨s', i', hsplit', hinv⟩ := CachedNode.invalidated_insert hins
  rw [hsplit] at hsplit'
  cases hsplit'
  rw [h] at hinv
  have hrun : (run H (calls ++ [.update (.insert key value)])).root = root := by
    rw [run_concat]
    unfold step Session.apply
    dsimp only
    rw [hins]
    rfl
  obtain ⟨skipped, -, hpath, hskipped⟩ := hinv.pathPayloads_eq (H := H)
  rw [hashedBy_rootHash, ← hroot'.erase, hrun, hpath, hskipped fun _ hn => hn, List.nil_append]

/-- **A delete where everything is cached**: `root_hash` then hashes the walk of the key, its
end possibly excepted. -/
theorem hashedBy_rootHash_delete {calls : List ClientCall} (h : (run H calls).root.pending = 0)
    {key s : Bytes} {i : Fin stemSubtreeWidth} (hsplit : splitKey key = .ok (s, i)) :
    ∃ skipped, skipped.length ≤ 1 ∧
      pathPayloads H s (ClientCall.run (calls ++ [.update (.delete key)])) 0 =
        skipped ++ hashedBy H (calls ++ [.update (.delete key)]) .rootHash := by
  obtain ⟨⟨hroot', -⟩, -⟩ := represents_run (H := H) (calls ++ [.update (.delete key)])
  have hdel : (run H calls).root.delete key =
      .ok (CachedNode.deleteNode (run H calls).root s i 0) := by
    unfold CachedNode.delete
    rw [hsplit]
    rfl
  have hinv := CachedNode.invalidated_deleteNode (run H calls).root s i 0
  rw [h] at hinv
  have hrun : (run H (calls ++ [.update (.delete key)])).root =
      CachedNode.deleteNode (run H calls).root s i 0 := by
    rw [run_concat]
    unfold step Session.apply
    dsimp only
    rw [hdel]
    rfl
  obtain ⟨skipped, hlen, hpath, -⟩ := hinv.pathPayloads_eq (H := H)
  refine ⟨skipped, hlen, ?_⟩
  rw [hashedBy_rootHash, ← hroot'.erase, hrun, hpath]

end Session

/-- **`root_hash` is incremental.**  Take any run with a `root_hash` at its end and reads after
it.  A further `root_hash` or `get_proof` hashes no node.  After an insert, `root_hash` hashes
string for string what `verify_proof` hashes for the new proof of the inserted key; after a
delete, the nodes on the walk of the deleted key, deepest first and all but at most the last
one of the walk. -/
theorem rootHash_after_update (H : HashFunction) (calls reads : List ClientCall)
    (hreads : ∀ call ∈ reads, call.isRead = true) (key s : Bytes) (i : Fin stemSubtreeWidth)
    (hkey : splitKey key = .ok (s, i)) :
    (∀ call : ClientCall, call.isRead = true →
      Session.hashedBy H (calls ++ .rootHash :: reads) call = []) ∧
    (∀ value : Bytes, value.length = 32 → ∀ rh : Bytes, ∃ p w,
      getProof H (ClientCall.run (calls ++ .rootHash :: reads ++ [.update (.insert key value)]))
        key = .ok p ∧
      verifyProof H rh p.val = .ok w ∧
      Session.hashedBy H (calls ++ .rootHash :: reads ++ [.update (.insert key value)]) .rootHash =
        w.queries) ∧
    ∃ skipped, skipped.length ≤ 1 ∧
      pathPayloads H s
          (ClientCall.run (calls ++ .rootHash :: reads ++ [.update (.delete key)])) 0 =
        skipped ++
          Session.hashedBy H (calls ++ .rootHash :: reads ++ [.update (.delete key)])
            .rootHash := by
  have hcached := Session.pending_run_eq_zero (H := H) calls hreads
  refine ⟨fun call hcall => Session.hashedBy_of_isRead hcached hcall, fun value hvalue rh => ?_,
    Session.hashedBy_rootHash_delete hcached hkey⟩
  obtain ⟨vs, hstem⟩ :=
    ClientCall.exists_storedStem_insert (calls ++ .rootHash :: reads) hkey hvalue
  obtain ⟨p, w, hp, hw, hqueries⟩ := exists_verifyProof_queries (H := H) hkey hstem rh
  exact ⟨p, w, hp, hw, by rw [hqueries, Session.hashedBy_rootHash_insert hcached hkey hvalue]⟩

/-- Two stems are inserted, hashed and read. -/
def hashedPair : List ClientCall :=
  [.update (.insert [0, 0] onesDigest.val), .update (.insert [128, 7] onesDigest.val)] ++
    .rootHash :: [.getProof [0, 0]]

/-- Then a value is inserted into the second one, or the one that it has is deleted. -/
theorem rootHash_after_update_pair :
    (∃ p w,
      getProof prefixHash
        (ClientCall.run (hashedPair ++ [.update (.insert [128, 7] (zeroBytes 32))])) [128, 7] =
          .ok p ∧
      verifyProof prefixHash [] p.val = .ok w ∧
      Session.hashedBy prefixHash (hashedPair ++ [.update (.insert [128, 7] (zeroBytes 32))])
        .rootHash = w.queries) ∧
    ∃ skipped, skipped.length ≤ 1 ∧
      pathPayloads prefixHash [128]
          (ClientCall.run (hashedPair ++ [.update (.delete [128, 7])])) 0 =
        skipped ++
          Session.hashedBy prefixHash (hashedPair ++ [.update (.delete [128, 7])]) .rootHash := by
  obtain ⟨-, hinsert, hdelete⟩ := rootHash_after_update prefixHash
    [.update (.insert [0, 0] onesDigest.val), .update (.insert [128, 7] onesDigest.val)]
    [.getProof [0, 0]] (by
      intro call hcall
      rw [List.mem_singleton.mp hcall]
      rfl) [128, 7] [128] 7 rfl
  exact ⟨hinsert _ (length_zeroBytes 32) [], hdelete⟩

end Pbt
