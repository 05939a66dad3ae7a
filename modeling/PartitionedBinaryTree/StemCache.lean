/-
# The hot-stem cache of a partially stateless client (`pbt/stem_subscription.py`)

`PartiallyStatelessStemClient` trusts one block root, verifies packets against it
and keeps the 256 values of the stems it has verified, in order of use.  Rotating
the root clears the cache, so at any point of a run each cached array belongs to
a proof that was accepted against the root trusted now (`backed_run`).  By the
soundness of `verify_proof` it is then the stem that the tree of this root stores.
-/
import PartitionedBinaryTree.Lib.OrderedDict
import PartitionedBinaryTree.EndpointLimits

namespace Pbt

/-! ## The clients -/

/-- `StatelessStemClient`. -/
structure StatelessStemClient where
  verifiedBlockRoot : Bytes

/-- `StatelessStemClient.verify_packet`. -/
def StatelessStemClient.verifyPacket (H : HashFunction) (client : StatelessStemClient)
    (packet : StemWitnessPacket) : HashPy LocalVerificationResult := do
  if packet.blockRoot ≠ client.verifiedBlockRoot then
    pure ⟨false, "packet block root is not locally trusted"⟩
  else
    let verified ← verifyWitnessPacket H packet
    if verified then pure ⟨true, "packet locally verified"⟩
    else pure ⟨false, "packet proof verification failed"⟩

/-- `PartiallyStatelessStemClient`. -/
structure PartiallyStatelessStemClient extends StatelessStemClient where
  maxCachedStems : ℤ
  stemCache : OrderedDict Bytes (List Bytes)
  cacheHits : ℕ
  cacheMisses : ℕ

namespace PartiallyStatelessStemClient

/-- `PartiallyStatelessStemClient(verified_block_root, max_cached_stems)`. -/
def new (verifiedBlockRoot : Bytes) (maxCachedStems : ℤ) : Py PartiallyStatelessStemClient := do
  raiseIf (maxCachedStems ≤ 0) "max_cached_stems must be positive"
  pure {
    verifiedBlockRoot := verifiedBlockRoot
    maxCachedStems := maxCachedStems
    stemCache := ∅
    cacheHits := 0
    cacheMisses := 0 }

/-- `clear_cache`. -/
def clearCache (client : PartiallyStatelessStemClient) : PartiallyStatelessStemClient :=
  { client with stemCache := ∅ }

/-- `set_verified_block_root`; the flag is its `clear_cache` argument. -/
def setVerifiedBlockRoot (client : PartiallyStatelessStemClient) (verifiedBlockRoot : Bytes)
    (clear : Bool := true) : PartiallyStatelessStemClient :=
  let client := { client with verifiedBlockRoot := verifiedBlockRoot }
  if clear then client.clearCache else client

/-- What `verify_and_cache_packet` does to `_stem_cache` when the packet is accepted. -/
def cacheStem (client : PartiallyStatelessStemClient) (stemPrefix : Bytes)
    (stemValues : List Bytes) : OrderedDict Bytes (List Bytes) :=
  let cache := client.stemCache
  let cache := if stemPrefix ∈ cache then cache.erase stemPrefix else cache
  let cache := OrderedDict.setItem stemPrefix stemValues cache
  let cache := OrderedDict.moveToEnd stemPrefix cache
  if cache.keys.length > client.maxCachedStems then OrderedDict.popOldest cache else cache

/-- `verify_and_cache_packet`: the result, and the client after it. -/
def verifyAndCachePacket (H : HashFunction) (client : PartiallyStatelessStemClient)
    (packet : StemWitnessPacket) :
    HashPy (LocalVerificationResult × PartiallyStatelessStemClient) := do
  let result ← client.verifyPacket H packet
  if ¬ result.accepted then pure (result, client)
  else
    pure (⟨true, "packet locally verified and cached"⟩,
      { client with stemCache := client.cacheStem packet.stemPrefix packet.proof.stemValues })

/-- `cached_value`: what it returns or raises, and the client after it. -/
def cachedValue (client : PartiallyStatelessStemClient) (key : Bytes) :
    Py (Option Bytes) × PartiallyStatelessStemClient :=
  match splitKey key with
  | .error e => (.error e, client)
  | .ok (stemPrefix, subindex) =>
    match client.stemCache.lookup stemPrefix with
    | none => (.ok none, { client with cacheMisses := client.cacheMisses + 1 })
    | some values =>
      let client := { client with
        cacheHits := client.cacheHits + 1
        stemCache := OrderedDict.moveToEnd stemPrefix client.stemCache }
      match values[subindex.val]? with
      | none => (.error ⟨.indexError, "list index out of range"⟩, client)
      | some value => (.ok (some value), client)

end PartiallyStatelessStemClient

/-! ## Runs -/

/-- A call on the client, the root rotated with the default `clear_cache=True`. -/
inductive CacheCall
  | setVerifiedBlockRoot (verifiedBlockRoot : Bytes)
  | verifyAndCachePacket (packet : StemWitnessPacket)
  | cachedValue (key : Bytes)

/-- The packets of the call come from `decode_stem_witness_packet_v1`. -/
def CacheCall.Decoded (H : HashFunction) : CacheCall → Prop
  | verifyAndCachePacket packet =>
      ∃ blob, (decodeStemWitnessPacketV1 H blob).outcome = .ok packet
  | _ => True

namespace PartiallyStatelessStemClient

/-- One call; a call that raises leaves what it has done so far. -/
def step (H : HashFunction) (client : PartiallyStatelessStemClient) :
    CacheCall → Logged Bytes PartiallyStatelessStemClient
  | .setVerifiedBlockRoot verifiedBlockRoot =>
      pure (client.setVerifiedBlockRoot verifiedBlockRoot)
  | .verifyAndCachePacket packet => do
      match ← (client.verifyAndCachePacket H packet).run with
      | .ok (_, client') => pure client'
      | .error _ => pure client
  | .cachedValue key => pure (client.cachedValue key).2

/-- A sequence of calls. -/
def run (H : HashFunction) (client : PartiallyStatelessStemClient) (calls : List CacheCall) :
    Logged Bytes PartiallyStatelessStemClient := calls.foldlM (step H) client

/-! ## What a cached array is -/

variable {H : HashFunction} {client client' : PartiallyStatelessStemClient}

/-- The array was carried by a proof, of fixed widths, that is accepted against the root. -/
def Backed (H : HashFunction) (root : Bytes) (qs : List Bytes) (stemPrefix : Bytes)
    (stemValues : List Bytes) : Prop :=
  ∃ proof verdict subindex, verifyProof H root proof = .ok verdict ∧ verdict.val = true ∧
    verdict.queries ⊆ qs ∧ splitKey proof.key = .ok (stemPrefix, subindex) ∧
    proof.stemValues = stemValues ∧ ProofEncodable proof

/-- **The invariant of the cache.**  Every cached array is backed by the root trusted now. -/
def CacheBacked (H : HashFunction) (client : PartiallyStatelessStemClient) (qs : List Bytes) :
    Prop :=
  ∀ stemPrefix stemValues, client.stemCache.lookup stemPrefix = some stemValues →
    Backed H client.verifiedBlockRoot qs stemPrefix stemValues

theorem Backed.mono {root stemPrefix : Bytes} {stemValues : List Bytes} {qs qs' : List Bytes}
    (h : Backed H root qs stemPrefix stemValues) (hsub : qs ⊆ qs') :
    Backed H root qs' stemPrefix stemValues := by
  obtain ⟨proof, verdict, subindex, hverify, hacc, hqueries, hrest⟩ := h
  exact ⟨proof, verdict, subindex, hverify, hacc, List.Subset.trans hqueries hsub, hrest⟩

/-- A backed array is the stem that the tree of the root stores. -/
theorem Backed.storedStem {t : Node} (ht : Reachable t) {qs : List Bytes} {stemPrefix : Bytes}
    {stemValues : List Bytes} (h : Backed H (rootHash H t).val.val qs stemPrefix stemValues) :
    (∃ vs, storedStem t stemPrefix = some vs ∧ stemValues = stemBytes vs) ∨
      Collision H ((rootHash H t).queries ++ qs) := by
  obtain ⟨proof, verdict, subindex, hverify, hacc, hqueries, hsplit, rfl, henc⟩ := h
  obtain ⟨s, i, vs, hkey, hstem, hvalues, -⟩ | hcol := verifyProof_sound ht hverify hacc
    henc.stemValues_width fun σ hσ => by rw [henc.siblings_width σ hσ]; norm_num
  · rw [hsplit] at hkey
    cases hkey
    exact Or.inl ⟨vs, hstem, hvalues⟩
  · exact Or.inr (hcol.mono_append (List.Subset.refl _) hqueries)

/-! ## What the calls do to the cache -/

/-- After an accepted packet a cached array is the one of the packet, or was cached before. -/
theorem lookup_cacheStem {s s' : Bytes} {values values' : List Bytes}
    (h : (client.cacheStem s values).lookup s' = some values') :
    s' = s ∧ values' = values ∨ s' ≠ s ∧ client.stemCache.lookup s' = some values' := by
  have hset : ∀ cache : OrderedDict Bytes (List Bytes),
      (cache.lookup s' = some values' → client.stemCache.lookup s' = some values') →
      (OrderedDict.moveToEnd s (OrderedDict.setItem s values cache)).lookup s' = some values' →
        s' = s ∧ values' = values ∨ s' ≠ s ∧ client.stemCache.lookup s' = some values' := by
    intro cache hsub hcache
    rw [OrderedDict.lookup_moveToEnd, OrderedDict.lookup_setItem] at hcache
    split_ifs at hcache with hs
    · exact Or.inl ⟨hs, (Option.some.inj hcache).symm⟩
    · exact Or.inr ⟨hs, hsub hcache⟩
  -- the erasure and the eviction only take entries away
  unfold cacheStem at h
  dsimp only at h
  split_ifs at h
  · exact hset _ OrderedDict.lookup_of_erase (OrderedDict.lookup_of_popOldest h)
  · exact hset _ OrderedDict.lookup_of_erase h
  · exact hset _ id (OrderedDict.lookup_of_popOldest h)
  · exact hset _ id h

/-- Packets are accepted under the trusted root only, and when they verify. -/
theorem verifyPacket_accepts {packet : StemWitnessPacket} {result : LocalVerificationResult}
    {qs : List Bytes} (h : (client.verifyPacket H packet).Returns result qs)
    (hacc : result.accepted = true) :
    packet.blockRoot = client.verifiedBlockRoot ∧
      (verifyWitnessPacket H packet).Returns true qs := by
  unfold StatelessStemClient.verifyPacket at h
  by_cases hroot : packet.blockRoot = client.verifiedBlockRoot
  · rw [if_neg (not_not.mpr hroot), HashPy.returns_bind_iff] at h
    obtain ⟨verified, qs₁, qs₂, hverify, hresult, rfl⟩ := h
    cases verified with
    | false =>
        obtain ⟨rfl, -⟩ := HashPy.returns_pure_iff.mp hresult
        cases hacc
    | true =>
        obtain ⟨-, rfl⟩ := HashPy.returns_pure_iff.mp hresult
        rw [List.append_nil]
        exact ⟨hroot, hverify⟩
  · rw [if_pos hroot] at h
    obtain ⟨rfl, -⟩ := HashPy.returns_pure_iff.mp h
    cases hacc

/-- The client after a packet: unchanged, or with the stem of an accepted packet. -/
theorem verifyAndCachePacket_returns {packet : StemWitnessPacket}
    {result : LocalVerificationResult} {qs : List Bytes}
    (h : (client.verifyAndCachePacket H packet).Returns (result, client') qs) :
    client' = client ∨
      packet.blockRoot = client.verifiedBlockRoot ∧
      (verifyWitnessPacket H packet).Returns true qs ∧
      client' = { client with
        stemCache := client.cacheStem packet.stemPrefix packet.proof.stemValues } := by
  unfold verifyAndCachePacket at h
  obtain ⟨first, qs₁, qs₂, hfirst, hrest, rfl⟩ := HashPy.returns_bind_iff.mp h
  by_cases hacc : first.accepted = true
  · rw [if_neg (not_not.mpr hacc)] at hrest
    obtain ⟨heq, rfl⟩ := HashPy.returns_pure_iff.mp hrest
    obtain ⟨hroot, hverify⟩ := verifyPacket_accepts hfirst hacc
    rw [List.append_nil]
    exact Or.inr ⟨hroot, hverify, (congrArg Prod.snd heq).symm⟩
  · rw [if_pos hacc] at hrest
    obtain ⟨heq, -⟩ := HashPy.returns_pure_iff.mp hrest
    exact Or.inl (congrArg Prod.snd heq).symm

/-- Reading a value changes no cached array, and not the root. -/
theorem cachedValue_snd (client : PartiallyStatelessStemClient) (key stemPrefix : Bytes) :
    (client.cachedValue key).2.stemCache.lookup stemPrefix =
      client.stemCache.lookup stemPrefix ∧
    (client.cachedValue key).2.verifiedBlockRoot = client.verifiedBlockRoot := by
  unfold cachedValue
  split
  · exact ⟨rfl, rfl⟩
  · split
    · exact ⟨rfl, rfl⟩
    · dsimp only
      split
      · exact ⟨OrderedDict.lookup_moveToEnd _ _ _, rfl⟩
      · exact ⟨OrderedDict.lookup_moveToEnd _ _ _, rfl⟩

/-- A value that is returned stands in its slot of a cached array. -/
theorem cachedValue_eq_some {key value : Bytes}
    (h : (client.cachedValue key).1 = .ok (some value)) :
    ∃ stemPrefix subindex values, splitKey key = .ok (stemPrefix, subindex) ∧
      client.stemCache.lookup stemPrefix = some values ∧ values[subindex.val]? = some value := by
  unfold cachedValue at h
  split at h
  · cases h
  · rename_i stemPrefix subindex hsplit
    split at h
    · cases h
    · rename_i values hlookup
      dsimp only at h
      split at h
      · cases h
      · rename_i v hslot
        cases h
        exact ⟨stemPrefix, subindex, values, hsplit, hlookup, hslot⟩

/-- A step with a packet keeps the client, or the call returned the new one. -/
theorem step_verifyAndCachePacket (client : PartiallyStatelessStemClient)
    (packet : StemWitnessPacket) :
    (client.step H (.verifyAndCachePacket packet)).val = client ∨
      ∃ result, (client.verifyAndCachePacket H packet).Returns
        (result, (client.step H (.verifyAndCachePacket packet)).val)
        (client.step H (.verifyAndCachePacket packet)).queries := by
  simp only [step, Logged.val_bind, Logged.queries_bind]
  cases hrun : (client.verifyAndCachePacket H packet).run with
  | mk outcome queries =>
      cases outcome with
      | error e => exact Or.inl rfl
      | ok returned =>
          obtain ⟨result, client'⟩ := returned
          refine Or.inr ⟨result, ?_⟩
          rw [HashPy.Returns, hrun]
          simp

/-! ## The invariant along runs -/

/-- **One call keeps the invariant.** -/
theorem backed_step {qs : List Bytes} (h : CacheBacked H client qs) {call : CacheCall}
    (hcall : call.Decoded H) :
    CacheBacked H (client.step H call).val (qs ++ (client.step H call).queries) := by
  intro s values hlookup
  cases call with
  | setVerifiedBlockRoot root =>
      -- nothing is cached for a new root
      cases hlookup
  | cachedValue key =>
      obtain ⟨hcache, hroot⟩ := cachedValue_snd client key s
      have hback := h s values (hcache ▸ hlookup)
      rw [← hroot] at hback
      exact hback.mono (List.subset_append_left _ _)
  | verifyAndCachePacket packet =>
      have hkept : ∀ client', client' = client → client'.stemCache.lookup s = some values →
          Backed H client'.verifiedBlockRoot
            (qs ++ (client.step H (.verifyAndCachePacket packet)).queries) s values := by
        rintro client' rfl hcached
        exact (h s values hcached).mono (List.subset_append_left _ _)
      rcases step_verifyAndCachePacket (H := H) client packet with hsame | ⟨result, hreturns⟩
      · exact hkept _ hsame hlookup
      rcases verifyAndCachePacket_returns hreturns with hsame | ⟨hroot, hverify, hclient⟩
      · exact hkept _ hsame hlookup
      -- the packet was accepted
      rw [hclient] at hlookup ⊢
      rcases lookup_cacheStem hlookup with ⟨rfl, rfl⟩ | ⟨-, hcached⟩
      · obtain ⟨blob, hdecoded⟩ := hcall
        obtain ⟨qs', hdecodes⟩ := HashPy.outcome_eq_ok_iff.mp hdecoded
        have henc := (encodeStemWitnessPacketV1_returns_iff.mp
          (decodeStemWitnessPacketV1_returns_iff.mp hdecodes).2).1
        obtain ⟨⟨i, hsplit⟩, hkey, -, hproof⟩ := verifyWitnessPacket_returns_true_iff.mp hverify
        rw [hroot] at hproof
        exact ⟨packet.proof, _, i, hproof, rfl, List.subset_append_right _ _, hkey ▸ hsplit, rfl,
          henc.proof_encodable⟩
      · exact hkept client rfl hcached

/-- **Every run keeps the invariant.** -/
theorem backed_run {calls : List CacheCall} {qs : List Bytes} (h : CacheBacked H client qs)
    (hcalls : ∀ call ∈ calls, call.Decoded H) :
    CacheBacked H (client.run H calls).val (qs ++ (client.run H calls).queries) := by
  induction calls generalizing client qs with
  | nil =>
      show CacheBacked H client (qs ++ [])
      rwa [List.append_nil]
  | cons call calls ih =>
      obtain ⟨hcall, hrest⟩ := List.forall_mem_cons.mp hcalls
      have hrun := ih (backed_step h hcall) hrest
      rw [List.append_assoc] at hrun
      exact hrun

/-- A new client has nothing cached. -/
theorem backed_new {verifiedBlockRoot : Bytes} {maxCachedStems : ℤ}
    (h : new verifiedBlockRoot maxCachedStems = .ok client) : CacheBacked H client [] := by
  obtain ⟨-, -, hclient⟩ := py_bind_eq_ok_iff.mp h
  cases hclient
  intro s values hlookup
  cases hlookup

end PartiallyStatelessStemClient

/-- **The hot-stem cache serves current verified state.**  Along every run, when the root
trusted now is the root hash of a tree, a cached value is the value of this tree, unless two
strings hashed for the root or along the run collide. -/
theorem cachedValue_holds (H : HashFunction) (verifiedBlockRoot : Bytes) (maxCachedStems : ℤ)
    (client : PartiallyStatelessStemClient) (calls : List CacheCall) (t : Node) (key value : Bytes)
    (hnew : PartiallyStatelessStemClient.new verifiedBlockRoot maxCachedStems = .ok client)
    (hcalls : ∀ call ∈ calls, call.Decoded H) (ht : Reachable t)
    (hroot : (client.run H calls).val.verifiedBlockRoot = (rootHash H t).val.val)
    (hvalue : ((client.run H calls).val.cachedValue key).1 = .ok (some value)) :
    Holds t key value ∨ Collision H ((rootHash H t).queries ++ (client.run H calls).queries) := by
  have hbacked := PartiallyStatelessStemClient.backed_run
    (PartiallyStatelessStemClient.backed_new (H := H) hnew) hcalls
  obtain ⟨s, i, values, hsplit, hlookup, hslot⟩ :=
    PartiallyStatelessStemClient.cachedValue_eq_some hvalue
  have hback := hbacked s values hlookup
  rw [hroot] at hback
  rcases hback.storedStem ht with ⟨vs, hstem, rfl⟩ | hcol
  · rw [getElem?_stemBytes] at hslot
    obtain rfl := Option.some.inj hslot
    exact Or.inl (holds_of_storedStem hsplit hstem)
  · exact Or.inr hcol

/-- A decoder reads the packet of a lone stem. -/
theorem decoded_lonePacket {H : HashFunction} {s : Bytes} (hs : s ≠ []) (hlen : s.length ≤ 256) :
    (CacheCall.verifyAndCachePacket (lonePacket H s)).Decoded H := by
  obtain ⟨henc, hwire⟩ := encodable_lonePacket (H := H) (hlen.trans (by norm_num))
  obtain ⟨hkey, hproofKey, hproofValue⟩ := length_key_of_verify (verify_lonePacket (H := H) hs)
  have hstem : (lonePacket H s).stemPrefix = s := dropLast_joinKey s 0
  have hlimits : PacketWithinLimits (lonePacket H s) := by
    refine (packetWithinLimits_iff henc hwire hkey hproofKey hproofValue).mpr ⟨?_, ?_⟩
    · rw [hstem]
      exact hlen
    · rw [hkey, hstem, maxProofBlobBytes]
      show 8232 + (s.length + 1) + 33 * 0 ≤ 131072
      omega
  exact ⟨_, HashPy.outcome_eq_ok_iff.mpr ⟨_, decodeStemWitnessPacketV1_returns_iff.mpr
    ⟨hlimits, encodeStemWitnessPacketV1_returns_iff.mpr ⟨henc, rfl, rfl⟩⟩⟩⟩

/-- A packet is cached and its value read. -/
theorem cachedValue_holds_lone :
    Holds (.stemNode [7] (emptyStem.set 0 onesDigest)) (joinKey [7] 0) onesDigest.val ∨
      Collision (fun _ => emptyValue)
        ((rootHash (fun _ => emptyValue) (.stemNode [7] (emptyStem.set 0 onesDigest))).queries ++
          (PartiallyStatelessStemClient.run (fun _ => emptyValue)
            ⟨⟨emptyValue.val⟩, 128, ∅, 0, 0⟩
            [.verifyAndCachePacket (lonePacket (fun _ => emptyValue) [7])]).queries) :=
  cachedValue_holds (fun _ => emptyValue) emptyValue.val 128 _ _ _ _ _ rfl
    (List.forall_mem_singleton.mpr (decoded_lonePacket (by simp) (by simp)))
    (reachable_stemNode (by simp) 0 onesDigest) (by decide +kernel) (by decide +kernel)

end Pbt
