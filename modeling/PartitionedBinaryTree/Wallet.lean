/-
# The wallet's local verification policy (`pbt/wallet.py`)

`LocalVerificationPolicy.classify` calls a response verified when its proof is
accepted against the pinned root.  It never compares the key and the value of the
response with those of the proof, so what a verified view shows is the committed
value only for responses whose proof confirms the value of the response at the key
of the response (`showsCommitted_iff_confirms`).
-/
import PartitionedBinaryTree.ProofForgery

namespace Pbt

open Node

/-! ## Responses and views -/

/-- `VerificationStatus`. -/
inductive VerificationStatus
  | verified
  | unverified
  deriving DecidableEq, Repr

/-- `UIMode`. -/
inductive UIMode
  | normal
  | unverified
  deriving DecidableEq, Repr

/-- `RpcStateResponse`. -/
structure RpcStateResponse where
  provider : String
  key : Bytes
  value : Bytes
  proof : Option MerkleProof
  deriving DecidableEq, Repr

/-- `VerifiedStateView`. -/
structure VerifiedStateView where
  provider : String
  key : Bytes
  value : Bytes
  status : VerificationStatus
  uiMode : UIMode
  deriving DecidableEq, Repr

/-- `response.proof is not None and verify_proof(self.root_hash, response.proof)`. -/
def isVerified (H : HashFunction) (policyRoot : Bytes) (response : RpcStateResponse) :
    Py (Logged Bytes Bool) :=
  match response.proof with
  | none => .ok (pure false)
  | some proof => verifyProof H policyRoot proof

/-- `LocalVerificationPolicy.classify` of the policy with the given `root_hash`. -/
def classify (H : HashFunction) (policyRoot : Bytes) (response : RpcStateResponse) :
    Py (Logged Bytes VerifiedStateView) := do
  let verdict ← isVerified H policyRoot response
  pure do
    let verified ← verdict
    pure {
      provider := response.provider
      key := response.key
      value := response.value
      status := if verified then .verified else .unverified
      uiMode := if verified then .normal else .unverified }

/-! ## What a view says -/

/-- A response with a proof gets the verdict of `verify_proof`. -/
theorem classify_some (H : HashFunction) (policyRoot : Bytes) {response : RpcStateResponse}
    {p : MerkleProof} (hproof : response.proof = some p) :
    classify H policyRoot response = (verifyProof H policyRoot p).map fun w =>
      ⟨⟨response.provider, response.key, response.value,
        if w.val then .verified else .unverified, if w.val then .normal else .unverified⟩,
        w.queries⟩ := by
  rw [classify, isVerified, hproof]
  dsimp only
  cases verifyProof H policyRoot p with
  | error e => rfl
  | ok w =>
      show Except.ok (Logged.mk _ (w.queries ++ [])) = _
      rw [List.append_nil]
      rfl

/-- A response without a proof is unverified. -/
theorem classify_none (H : HashFunction) (policyRoot : Bytes) {response : RpcStateResponse}
    (hproof : response.proof = none) :
    classify H policyRoot response = .ok
      ⟨⟨response.provider, response.key, response.value, .unverified, .unverified⟩, []⟩ := by
  rw [classify, isVerified, hproof]
  rfl

/-- A view shows the response as it came; it is verified, and shown in the normal mode,
exactly when the response carries a proof that `verify_proof` accepts. -/
theorem classify_spec {H : HashFunction} {policyRoot : Bytes} {response : RpcStateResponse}
    {view : Logged Bytes VerifiedStateView} (h : classify H policyRoot response = .ok view) :
    view.val.provider = response.provider ∧ view.val.key = response.key ∧
    view.val.value = response.value ∧
    (view.val.uiMode = .normal ↔ view.val.status = .verified) ∧
    (view.val.status = .verified ↔ ∃ proof w, response.proof = some proof ∧
      verifyProof H policyRoot proof = .ok w ∧ w.val = true ∧ w.queries = view.queries) := by
  cases hproof : response.proof with
  | none =>
      -- without a proof the view is unverified
      rw [classify_none H policyRoot hproof] at h
      cases h
      simp
  | some proof =>
      rw [classify_some H policyRoot hproof] at h
      cases hw : verifyProof H policyRoot proof with
      | error e =>
          rw [hw] at h
          cases h
      | ok w =>
          rw [hw] at h
          cases h
          cases hval : w.val <;> simp [hval, hw]

/-- A verified view shows the committed value of the key it shows, unless two strings
hashed for the root or the response collide. -/
def ShowsCommitted (H : HashFunction) (t : Node) (response : RpcStateResponse) : Prop :=
  ∀ view, classify H (rootHash H t).val.val response = .ok view → view.val.status = .verified →
    Holds t response.key response.value ∨ Collision H ((rootHash H t).queries ++ view.queries)

/-- The response that repeats the key and the value of its proof. -/
def MerkleProof.respond (p : MerkleProof) : RpcStateResponse where
  provider := "provider"
  key := p.key
  value := p.value
  proof := some p

/-- What a view shows is committed if the proof of the response attests it. -/
theorem showsCommitted_iff_attests {H : HashFunction} {t : Node} {response : RpcStateResponse} :
    ShowsCommitted H t response ↔
      ∀ p, response.proof = some p → Attests H t p response.key response.value := by
  constructor
  · intro h p hproof w hw hacc
    have hclass := classify_some H (rootHash H t).val.val hproof
    rw [hw] at hclass
    exact h _ hclass (if_pos hacc)
  · intro h view hview hstatus
    obtain ⟨p, w, hproof, hw, hacc, hqueries⟩ := (classify_spec hview).2.2.2.2.mp hstatus
    rw [← hqueries]
    exact h p hproof w hw hacc

/-! ## Responses that do not repeat their proofs -/

/-- On the tree of a lone stem the policy verifies whatever comes with the proof of the
stem, under every hash function and without a collision. -/
theorem not_showsCommitted_lone (H : HashFunction) {s : Bytes} (hs : s ≠ [])
    (i : Fin stemSubtreeWidth) (v : Value) (key value : Bytes)
    (hnot : ¬ Holds (stemNode s (emptyStem.set i v i.isLt)) key value) :
    ¬ ShowsCommitted H (stemNode s (emptyStem.set i v i.isLt))
      ⟨"provider", key, value, some (loneProof s i v)⟩ := by
  intro hshows
  have hproof : (⟨"provider", key, value, some (loneProof s i v)⟩ : RpcStateResponse).proof =
      some (loneProof s i v) := rfl
  have hclass := classify_some H (rootHash H (stemNode s (emptyStem.set i v))).val.val hproof
  rw [verifyProof_loneProof H hs i v] at hclass
  rcases hshows _ hclass rfl with hholds | hcol
  · exact hnot hholds
  · refine not_collision_of_forall_eq (a := stemPayload s (stemBytes (emptyStem.set i v)))
      (fun x hx => ?_) hcol
    rcases List.mem_cons.mp hx with rfl | hx
    · rfl
    · exact List.mem_singleton.mp hx

/-- What the tree of a lone stem holds. -/
theorem holds_lone_iff (s : Bytes) (i : Fin stemSubtreeWidth) (v : Value)
    {key value : Bytes} (hkey : 2 ≤ key.length) :
    Holds (stemNode s (emptyStem.set i v)) key value ↔
      (if key = joinKey s i then v else emptyValue).val = value := by
  obtain ⟨s', i', -, rfl⟩ := exists_splitKey hkey
  rw [Holds, get_joinKey (two_le_length_joinKey_iff.mp hkey), storedStem, BitTrie.lookup]
  by_cases hsame : s = s'
  · subst hsame
    rw [if_pos rfl, Option.getD_some, getElem_set_slot]
    simp [Except.map, joinKey_inj]
  · rw [if_neg hsame, if_neg fun h => hsame (joinKey_inj.mp h).1.symm]
    simp [Except.map]

/-! ## The responses whose views are true -/

/-- **When a verified view is true.**  A view shows the committed value, over every hash function
and reachable tree, if the proof of the response, when there is one, confirms the value of the
response at its key; and of responses with ordinary proofs only those views do. -/
theorem showsCommitted_iff_confirms (response : RpcStateResponse) :
    ((∀ p, response.proof = some p → p.Confirms response.key response.value) →
      ∀ H t, Reachable t → ShowsCommitted H t response) ∧
    ((∀ p, response.proof = some p → p.Ordinary) →
      ((∀ H t, Reachable t → ShowsCommitted H t response) ↔
        ∀ p, response.proof = some p → p.Confirms response.key response.value)) := by
  have hif : (∀ p, response.proof = some p → p.Confirms response.key response.value) →
      ∀ H t, Reachable t → ShowsCommitted H t response := fun h H t ht =>
    showsCommitted_iff_attests.mpr fun p hproof => attests_of_confirms ht (h p hproof)
  refine ⟨hif, fun hord => ⟨fun h p hproof => ?_, hif⟩⟩
  exact confirms_of_attests (hord p hproof) fun H t ht =>
    showsCommitted_iff_attests.mp (h H t ht) p hproof

/-- A provider answers a query for `00 01` with the value and the proof of `00 00`: the view
is verified, and the tree holds no value there. -/
theorem not_showsCommitted_otherKey :
    Reachable (run [.insert [0, 0] onesDigest.val]) ∧
    ∀ H, ¬ ShowsCommitted H (run [.insert [0, 0] onesDigest.val])
      ⟨"provider", [0, 1], onesDigest.val, some (loneProof [0] 0 onesDigest)⟩ := by
  refine ⟨⟨_, rfl⟩, fun H => ?_⟩
  refine not_showsCommitted_lone H (s := [0]) (by simp) 0 onesDigest _ _ fun hholds => ?_
  rw [holds_lone_iff [0] 0 onesDigest (by decide), if_neg (by decide)] at hholds
  exact absurd hholds (by decide)

end Pbt
