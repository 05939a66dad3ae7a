/-
# What a root hash commits to

The strings that nodes are hashed from never coincide: an empty node hashes the
empty string, an internal node 64 bytes, and a stem at least 8203 bytes that
split in only one way.  So a root hash determines the whole tree unless two of
the hashed strings collide (`eq_or_collision_of_nodeHash_eq`), and a walk up
from a stem payload reaches a root only from a stem of the tree (`climb_sound`).
-/
import PartitionedBinaryTree.TreeRuns

namespace Pbt

open Node

variable {H : HashFunction}

/-! ## Payloads -/

/-- The string whose hash is the hash of the node. -/
def nodePayload (H : HashFunction) : Node → Bytes
  | .emptyNode => []
  | .internalNode left right => (nodeHash H left).val.val ++ (nodeHash H right).val.val
  | .stemNode stemPrefix values => stemPayload stemPrefix (stemBytes values)

theorem val_nodeHash (t : Node) : (nodeHash H t).val = H (nodePayload H t) := by
  cases t <;> rfl

/-- Hashing a node hashes its payload. -/
theorem nodePayload_mem_queries (t : Node) : nodePayload H t ∈ (nodeHash H t).queries := by
  cases t with
  | empty => exact List.mem_singleton.mpr rfl
  | leaf s vs => exact List.mem_singleton.mpr rfl
  | node l r =>
      simp only [nodeHash, nodePayload, Logged.queries_bind, queries_treeHash]
      simp

/-- Hashing a node hashes everything its left child hashes. -/
theorem queries_left_subset (l r : Node) :
    (nodeHash H l).queries ⊆ (nodeHash H (internalNode l r)).queries := by
  intro x hx
  simp only [nodeHash, Logged.queries_bind]
  exact List.mem_append_left _ hx

/-- Hashing a node hashes everything its right child hashes. -/
theorem queries_right_subset (l r : Node) :
    (nodeHash H r).queries ⊆ (nodeHash H (internalNode l r)).queries := by
  intro x hx
  simp only [nodeHash, Logged.queries_bind]
  exact List.mem_append_right _ (List.mem_append_left _ hx)

@[simp] theorem length_stemHashDomain : stemHashDomain.length = 11 := rfl

/-- The length of a stem payload over 256 values of 32 bytes. -/
theorem length_stemPayload {s : Bytes} {values : List Bytes}
    (hn : values.length = stemSubtreeWidth) (hw : ∀ v ∈ values, v.length = 32) :
    (stemPayload s values).length = 8203 + s.length := by
  simp only [stemPayload, List.length_append, length_stemHashDomain,
    length_flatten_of_widths hw, hn, stemSubtreeWidth]
  omega

/-- The payload of an `EmptyNode` is empty. -/
theorem length_nodePayload_emptyNode : (nodePayload H emptyNode).length = 0 := rfl

/-- The length of the payload of a `StemNode`. -/
theorem length_nodePayload_stemNode (s : Bytes) (vs : StemValues) :
    (nodePayload H (stemNode s vs)).length = 8203 + s.length := by
  show (stemPayload s (stemBytes vs)).length = 8203 + s.length
  exact length_stemPayload (length_stemBytes vs) length_of_mem_stemBytes

/-- The length of the payload of an `InternalNode`. -/
theorem length_nodePayload_internalNode (l r : Node) :
    (nodePayload H (internalNode l r)).length = 64 := by
  show ((nodeHash H l).val.val ++ (nodeHash H r).val.val).length = 64
  rw [List.length_append, BytesN.length_val, BytesN.length_val]

/-- A stem payload over 256 values of 32 bytes splits in only one way. -/
theorem stemPayload_inj {s s' : Bytes} {values values' : List Bytes}
    (hn : values.length = stemSubtreeWidth) (hn' : values'.length = stemSubtreeWidth)
    (hw : ∀ v ∈ values, v.length = 32) (hw' : ∀ v ∈ values', v.length = 32)
    (h : stemPayload s values = stemPayload s' values') : s = s' ∧ values = values' := by
  have hs : s.length = s'.length := by
    have hlen := congrArg List.length h
    rw [length_stemPayload hn hw, length_stemPayload hn' hw'] at hlen
    omega
  obtain ⟨hpre, hval⟩ := List.append_inj h (by simp [hs])
  refine ⟨(List.append_inj hpre rfl).2, ?_⟩
  exact flatten_inj_of_widths hw hw' (hn.trans hn'.symm) hval

/-- Two digests side by side split in only one way. -/
theorem digest_append_inj {a b c d : Digest} (h : a.val ++ b.val = c.val ++ d.val) :
    a = c ∧ b = d := by
  obtain ⟨hac, hbd⟩ := List.append_inj h (by rw [BytesN.length_val, BytesN.length_val])
  exact ⟨Subtype.ext hac, Subtype.ext hbd⟩

/-! ## The root commits to the tree -/

/-- Nodes with one hash have one payload, unless their payloads collide. -/
theorem nodePayload_eq_or_collision {t₁ t₂ : Node} (h : (nodeHash H t₁).val = (nodeHash H t₂).val) :
    nodePayload H t₁ = nodePayload H t₂ ∨
      Collision H ((nodeHash H t₁).queries ++ (nodeHash H t₂).queries) := by
  rw [val_nodeHash, val_nodeHash] at h
  exact eq_or_collision (List.mem_append_left _ (nodePayload_mem_queries t₁))
    (List.mem_append_right _ (nodePayload_mem_queries t₂)) h

/-- **What one payload leaves open**: payload lengths force two nodes with one
payload to be of the same type, so they are equal, or internal with equal child
hashes. -/
theorem eq_or_internalNode_of_nodePayload_eq {t₁ t₂ : Node}
    (h : nodePayload H t₁ = nodePayload H t₂) :
    t₁ = t₂ ∨ ∃ l r l' r', t₁ = internalNode l r ∧ t₂ = internalNode l' r' ∧
      (nodeHash H l).val = (nodeHash H l').val ∧ (nodeHash H r).val = (nodeHash H r').val := by
  have hlen := congrArg List.length h
  cases t₁ with
  | empty =>
      cases t₂ with
      | empty => exact Or.inl rfl
      | leaf s vs =>
          rw [length_nodePayload_emptyNode, length_nodePayload_stemNode] at hlen
          omega
      | node l r =>
          rw [length_nodePayload_emptyNode, length_nodePayload_internalNode] at hlen
          omega
  | leaf s vs =>
      rw [length_nodePayload_stemNode] at hlen
      cases t₂ with
      | empty =>
          rw [length_nodePayload_emptyNode] at hlen
          omega
      | leaf s' vs' =>
          obtain ⟨hs, hvs⟩ := stemPayload_inj (length_stemBytes vs) (length_stemBytes vs')
            length_of_mem_stemBytes length_of_mem_stemBytes h
          rw [hs, stemBytes_injective hvs]
          exact Or.inl rfl
      | node l r =>
          rw [length_nodePayload_internalNode] at hlen
          omega
  | node l r =>
      rw [length_nodePayload_internalNode] at hlen
      cases t₂ with
      | empty =>
          rw [length_nodePayload_emptyNode] at hlen
          omega
      | leaf s' vs' =>
          rw [length_nodePayload_stemNode] at hlen
          omega
      | node l' r' =>
          obtain ⟨hl, hr⟩ := digest_append_inj h
          exact Or.inr ⟨l, r, l', r', rfl, rfl, hl, hr⟩

/-- **Nodes with one hash are equal**, unless two hashed strings collide.  The
induction is on the first node. -/
theorem eq_or_collision_of_nodeHash_eq (t₁ t₂ : Node)
    (h : (nodeHash H t₁).val = (nodeHash H t₂).val) :
    t₁ = t₂ ∨ Collision H ((nodeHash H t₁).queries ++ (nodeHash H t₂).queries) := by
  rcases nodePayload_eq_or_collision h with hpayload | hcol
  · rcases eq_or_internalNode_of_nodePayload_eq hpayload with heq | ⟨l, r, l', r', rfl, rfl, hl, hr⟩
    · exact Or.inl heq
    · -- equal child hashes, so the children are equal or collide
      rcases eq_or_collision_of_nodeHash_eq l l' hl with rfl | hcol
      · rcases eq_or_collision_of_nodeHash_eq r r' hr with rfl | hcol
        · exact Or.inl rfl
        · exact Or.inr (hcol.mono_append (queries_right_subset l r) (queries_right_subset l r'))
      · exact Or.inr (hcol.mono_append (queries_left_subset l r) (queries_left_subset l' r'))
  · exact Or.inr hcol
termination_by t₁

/-- **The root commits to the state.**  Two trees with one root hash answer every
`get` alike, unless two strings hashed for the two roots collide. -/
theorem get_eq_of_rootHash_eq (H : HashFunction) (ops₁ ops₂ : List TreeOp)
    (h : (rootHash H (run ops₁)).val = (rootHash H (run ops₂)).val) :
    (∀ key, get (run ops₁) key = get (run ops₂) key) ∨
      Collision H ((rootHash H (run ops₁)).queries ++ (rootHash H (run ops₂)).queries) := by
  rcases eq_or_collision_of_nodeHash_eq (run ops₁) (run ops₂) h with heq | hcol
  · exact Or.inl fun key => by rw [heq]
  · exact Or.inr hcol

/-- A lone stem, and the same stem after deleting a key it does not hold. -/
theorem get_eq_of_rootHash_eq_noop_delete :
    (∀ key, get (run [.insert [0, 0] (List.replicate 32 1)]) key =
      get (run [.insert [0, 0] (List.replicate 32 1), .delete [64, 0]]) key) ∨
    Collision (fun _ => emptyValue)
      ((rootHash (fun _ => emptyValue) (run [.insert [0, 0] (List.replicate 32 1)])).queries ++
        (rootHash (fun _ => emptyValue)
          (run [.insert [0, 0] (List.replicate 32 1), .delete [64, 0]])).queries) :=
  get_eq_of_rootHash_eq _ _ _ rfl

/-! ## Walking up from a stem -/

/-- No stem of a reachable tree has an empty prefix: keys have at least two bytes. -/
theorem Reachable.prefix_ne_nil {t : Node} (ht : Reachable t) :
    ∀ p ∈ t.leaves, p.1 ≠ [] := by
  obtain ⟨ops, rfl⟩ := ht
  have hnone : storedStem (run ops) [] = none := by
    induction ops using List.reverseRecOn with
    | nil => rfl
    | append_singleton ops op ih =>
        rw [run_concat]
        obtain ⟨-, message, herr⟩ | ⟨s, i, v, t', hs, -, hok, -, hread⟩ |
          ⟨s, i, t', hs, -, hok, -, hread⟩ := apply_cases (wellFormed_run ops) op
        · rw [step_of_error herr, ih]
        · rw [step_of_ok hok, hread, if_neg hs.symm, ih]
        · rw [step_of_ok hok, hread, if_neg hs.symm, ih]
  intro p hp hnil
  have hsome := (wellFormed_run ops).storedStem_eq_some_iff.mpr hp
  rw [hnil, hnone] at hsome
  cases hsome

/-- The climb over a path is the climb to its last level and one step more. -/
theorem climb_concat (c : Digest) (path : List (Bytes × ℤ)) (σ : Bytes) (b : ℤ) :
    (climb H c (path ++ [(σ, b)])).val = (climbStep H (climb H c path).val σ b).val ∧
    (climb H c (path ++ [(σ, b)])).queries =
      (climb H c path).queries ++ (climbStep H (climb H c path).val σ b).queries := by
  induction path generalizing c with
  | nil => simp [climb]
  | cons x path ih =>
      obtain ⟨σ', b'⟩ := x
      simp only [List.cons_append, climb, Logged.val_bind, Logged.queries_bind]
      exact ⟨(ih _).1, by rw [(ih _).2, List.append_assoc]⟩

/-- The string that one step up hashes. -/
def stepPayload (current : Digest) (sibling : Bytes) (bit : ℤ) : Bytes :=
  if bit = 0 then current.val ++ sibling else sibling ++ current.val

theorem climbStep_eq (H : HashFunction) (c : Digest) (σ : Bytes) (b : ℤ) :
    climbStep H c σ b = treeHash H (stepPayload c σ b) := by
  unfold climbStep stepPayload
  split_ifs
  · rfl
  · rfl

theorem length_stepPayload (c : Digest) (σ : Bytes) (b : ℤ) :
    (stepPayload c σ b).length = 32 + σ.length := by
  unfold stepPayload
  split_ifs
  · rw [List.length_append, BytesN.length_val]
  · rw [List.length_append, BytesN.length_val, Nat.add_comm]

/-- One step up hashes the current digest next to the sibling, on either side. -/
theorem climbStep_cases (H : HashFunction) (c : Digest) (σ : Bytes) (b : ℤ) :
    climbStep H c σ b = treeHash H (c.val ++ σ) ∨ climbStep H c σ b = treeHash H (σ ++ c.val) := by
  unfold climbStep
  split_ifs
  · exact Or.inl rfl
  · exact Or.inr rfl

/-- A payload of a digest and a string is that of an internal node with the
digest as the hash of one child; siblings shorter than 8172 bytes leave a stem
with a nonempty prefix no room. -/
theorem exists_child_of_payload_eq {t : Node} (hne : ∀ p ∈ t.leaves, p.1 ≠ []) {c : Digest}
    {σ payload : Bytes} (hσ : σ.length < 8172)
    (hpay : payload = c.val ++ σ ∨ payload = σ ++ c.val) (h : payload = nodePayload H t) :
    ∃ l r, t = internalNode l r ∧ (c = (nodeHash H l).val ∨ c = (nodeHash H r).val) := by
  have hlen : payload.length = 32 + σ.length := by
    rcases hpay with rfl | rfl
    · rw [List.length_append, BytesN.length_val]
    · rw [List.length_append, BytesN.length_val, Nat.add_comm]
  rw [h] at hlen
  cases t with
  | empty =>
      simp only [nodePayload, List.length_nil] at hlen
      omega
  | leaf s vs =>
      -- a stem payload has more than 8203 bytes, this one fewer than 8204
      have hs : 0 < s.length := List.length_pos_iff.mpr (hne (s, vs) List.mem_cons_self)
      rw [length_nodePayload_stemNode] at hlen
      omega
  | node l r =>
      rw [length_nodePayload_internalNode] at hlen
      have hdigest : σ.length = 32 := by omega
      refine ⟨l, r, rfl, ?_⟩
      rcases hpay with rfl | rfl
      · exact Or.inl (digest_append_inj (b := ⟨σ, hdigest⟩) h).1
      · exact Or.inr (digest_append_inj (a := ⟨σ, hdigest⟩) h).2

/-- **A climb that reaches the hash of a tree starts at a stem of it**, unless two
hashed strings collide.  The induction is on the path from its top end, so that
each level of the path is matched with a level of the tree. -/
theorem climb_sound {t : Node} (hne : ∀ p ∈ t.leaves, p.1 ≠ []) {s : Bytes} {values : List Bytes}
    (hn : values.length = stemSubtreeWidth) (hw : ∀ v ∈ values, v.length = 32)
    (path : List (Bytes × ℤ)) (hpath : ∀ x ∈ path, x.1.length < 8172)
    (h : (climb H (H (stemPayload s values)) path).val = (nodeHash H t).val) :
    (∃ vs, values = stemBytes vs ∧ (s, vs) ∈ t.leaves) ∨
      Collision H ((nodeHash H t).queries ++
        (stemPayload s values :: (climb H (H (stemPayload s values)) path).queries)) := by
  induction path using List.reverseRecOn generalizing t with
  | nil =>
      rw [climb, Logged.val_pure, val_nodeHash] at h
      obtain heq | hcol := eq_or_collision
        (List.mem_append_right _ List.mem_cons_self)
        (List.mem_append_left _ (nodePayload_mem_queries t)) h
      · -- the stem payload is the payload of `t`, whose length makes `t` a stem
        left
        have hlen := congrArg List.length heq
        rw [length_stemPayload hn hw] at hlen
        cases t with
        | empty =>
            simp only [nodePayload, List.length_nil] at hlen
            omega
        | node l r =>
            rw [length_nodePayload_internalNode] at hlen
            omega
        | leaf s' vs =>
            obtain ⟨rfl, hvs⟩ := stemPayload_inj hn (length_stemBytes vs) hw
              length_of_mem_stemBytes heq
            exact ⟨vs, hvs, List.mem_cons_self⟩
      · exact Or.inr hcol
  | append_singleton path x ih =>
      obtain ⟨σ, b⟩ := x
      have hpath' : ∀ x ∈ path, x.1.length < 8172 :=
        fun x hx => hpath x (List.mem_append_left _ hx)
      obtain ⟨hval, hqueries⟩ := climb_concat (H := H) (H (stemPayload s values)) path σ b
      have hσ : σ.length < 8172 := hpath (σ, b) (by simp)
      rw [hval] at h
      rw [hqueries]
      set c := (climb H (H (stemPayload s values)) path).val with hc
      -- the last hashed string is the payload of `t`, so `t` is internal
      obtain ⟨payload, hstep, hpay⟩ : ∃ payload, climbStep H c σ b = treeHash H payload ∧
          (payload = c.val ++ σ ∨ payload = σ ++ c.val) := by
        rcases climbStep_cases H c σ b with hstep | hstep
        · exact ⟨_, hstep, Or.inl rfl⟩
        · exact ⟨_, hstep, Or.inr rfl⟩
      rw [hstep, val_treeHash, val_nodeHash] at h
      rw [hstep, queries_treeHash]
      have hpayload : payload ∈ (nodeHash H t).queries ++ (stemPayload s values ::
          ((climb H (H (stemPayload s values)) path).queries ++ [payload])) :=
        List.mem_append_right _ (by simp)
      obtain heq | hcol := eq_or_collision hpayload
        (List.mem_append_left _ (nodePayload_mem_queries t)) h
      · obtain ⟨l, r, rfl, hchild⟩ := exists_child_of_payload_eq hne hσ hpay heq
        rcases hchild with hl | hr
        · obtain ⟨vs, hvs, hmem⟩ | hcol :=
            ih (fun p hp => hne p (List.mem_append_left _ hp)) hpath' hl
          · exact Or.inl ⟨vs, hvs, List.mem_append_left _ hmem⟩
          · refine Or.inr (hcol.mono_append (queries_left_subset l r) ?_)
            exact List.cons_subset_cons _ (List.subset_append_left _ _)
        · obtain ⟨vs, hvs, hmem⟩ | hcol :=
            ih (fun p hp => hne p (List.mem_append_right _ hp)) hpath' hr
          · exact Or.inl ⟨vs, hvs, List.mem_append_right _ hmem⟩
          · refine Or.inr (hcol.mono_append (queries_right_subset l r) ?_)
            exact List.cons_subset_cons _ (List.subset_append_left _ _)
      · exact Or.inr hcol

end Pbt
