/-
# The order of the hot-stem cache (`pbt/stem_subscription.py`)

`PartiallyStatelessStemClient` says that it evicts the stems that were used least
recently.  A stem is touched by a packet that is accepted and by a read that hits;
the record of a run says which stems were touched since the cache was last cleared.
`hotStemCache_lru` says that the cache is what this record makes of an exact LRU,
for every capacity: the recently touched stems, in order, each with the values of
its last packet.
-/
import PartitionedBinaryTree.Lib.RecentlyUsed
import PartitionedBinaryTree.Lib.Scan
import PartitionedBinaryTree.StemCache

namespace Pbt

/-! ## Calls and their record -/

/-- A call on a client that trusts one root. -/
inductive HotStemCall
  | verifyAndCachePacket (packet : StemWitnessPacket)
  | cachedValue (key : Bytes)
  | clearCache

/-- What a call returns or raises. -/
inductive HotStemOutcome
  | verified (result : Py LocalVerificationResult)
  | read (value : Py (Option Bytes))
  | cleared

/-- A call that was made, and what came of it. -/
abbrev HotStemEvent := HotStemCall × HotStemOutcome

namespace HotStemEvent

/-- The stem that is touched: by an accepted packet, or by a read that returns a value. -/
def touched : HotStemEvent → Option Bytes
  | (.verifyAndCachePacket packet, .verified (.ok result)) =>
      if result.accepted then some packet.stemPrefix else none
  | (.cachedValue key, .read (.ok (some _))) => (splitKey key).toOption.map Prod.fst
  | _ => none

/-- The values that an accepted packet of this stem brings. -/
def cachedFor (stemPrefix : Bytes) : HotStemEvent → Option (List Bytes)
  | (.verifyAndCachePacket packet, .verified (.ok result)) =>
      if result.accepted ∧ packet.stemPrefix = stemPrefix then some packet.proof.stemValues
      else none
  | _ => none

/-- The call is a `clear_cache`. -/
def isClear : HotStemEvent → Bool
  | (.clearCache, _) => true
  | _ => false

end HotStemEvent

open HotStemEvent RecentlyUsed

/-- The stems touched since the cache was last cleared. -/
def touches (events : List HotStemEvent) : List Bytes :=
  (events.rtakeWhile fun event => !event.isClear).filterMap touched

theorem touches_concat {events : List HotStemEvent} {event : HotStemEvent}
    (h : event.isClear = false) :
    touches (events ++ [event]) = touches events ++ event.touched.toList := by
  rw [touches, List.rtakeWhile_concat_pos _ _ _ (by simp [h]), List.filterMap_append, touches]
  cases htouched : event.touched <;> simp [htouched]

theorem touches_concat_clear {events : List HotStemEvent} {event : HotStemEvent}
    (h : event.isClear = true) : touches (events ++ [event]) = [] := by
  rw [touches, List.rtakeWhile_concat_neg _ _ _ (by simp [h]), List.filterMap_nil]

namespace PartiallyStatelessStemClient

/-- One call: what comes of it, and the client after it. -/
def perform (H : HashFunction) (client : PartiallyStatelessStemClient) :
    HotStemCall → HotStemOutcome × PartiallyStatelessStemClient
  | .verifyAndCachePacket packet =>
    match (client.verifyAndCachePacket H packet).run.val with
    | .ok (result, client') => (.verified (.ok result), client')
    | .error e => (.verified (.error e), client)
  | .cachedValue key => (.read (client.cachedValue key).1, (client.cachedValue key).2)
  | .clearCache => (.cleared, client.clearCache)

/-- A client as a machine that answers calls. -/
def machine (H : HashFunction) : Scanner PartiallyStatelessStemClient HotStemCall HotStemEvent where
  step client call := (client.perform H call).2
  output client call := (call, (client.perform H call).1)

/-! ## One call -/

variable {H : HashFunction} {client : PartiallyStatelessStemClient}

/-- **The order after an accepted packet.** -/
theorem order_cacheStem (h : 0 < client.maxCachedStems) (s : Bytes) (values : List Bytes) :
    OrderedDict.order (client.cacheStem s values) =
      touchBounded client.maxCachedStems.toNat s (OrderedDict.order client.stemCache) := by
  unfold cacheStem
  dsimp only
  have horder := order_store s values client.stemCache
  generalize OrderedDict.moveToEnd s (OrderedDict.setItem s values
    (if s ∈ client.stemCache then client.stemCache.erase s else client.stemCache)) = cache at horder ⊢
  have hlen : cache.keys.length = (touch s (OrderedDict.order client.stemCache)).length := by
    rw [← horder, OrderedDict.order_eq, List.length_reverse]
  rw [touchBounded]
  by_cases hfull :
      client.maxCachedStems.toNat < (touch s (OrderedDict.order client.stemCache)).length
  · rw [if_pos hfull, if_pos (by omega), OrderedDict.order_popOldest, horder]
  · rw [if_neg hfull, if_neg (by omega), horder]

/-- A packet is cached, or it changes nothing. -/
theorem perform_verifyAndCachePacket (client : PartiallyStatelessStemClient)
    (packet : StemWitnessPacket) :
    (∃ result, client.perform H (.verifyAndCachePacket packet) = (.verified (.ok result),
        { client with
          stemCache := client.cacheStem packet.stemPrefix packet.proof.stemValues }) ∧
      result.accepted = true ∧ packet.proof.stemValues.length = stemSubtreeWidth) ∨
    ∃ outcome, client.perform H (.verifyAndCachePacket packet) = (outcome, client) ∧
      touched (.verifyAndCachePacket packet, outcome) = none ∧
      ∀ s, cachedFor s (.verifyAndCachePacket packet, outcome) = none := by
  obtain ⟨qs, hqs⟩ : ∃ qs, (client.verifyAndCachePacket H packet).run.queries = qs := ⟨_, rfl⟩
  rw [perform]
  cases hrun : (client.verifyAndCachePacket H packet).run.val with
  | error e => exact Or.inr ⟨_, rfl, rfl, fun _ => rfl⟩
  | ok returned =>
      obtain ⟨result, client'⟩ := returned
      have hreturns : (client.verifyAndCachePacket H packet).Returns (result, client') qs := by
        rw [HashPy.Returns, ← hqs, ← hrun]
      unfold verifyAndCachePacket at hreturns
      obtain ⟨first, qs₁, qs₂, hfirst, hrest, -⟩ := HashPy.returns_bind_iff.mp hreturns
      by_cases hacc : first.accepted = true
      · rw [if_neg (not_not.mpr hacc), HashPy.returns_pure_iff] at hrest
        obtain ⟨heq, -⟩ := hrest
        cases heq
        obtain ⟨-, hverify⟩ := verifyPacket_accepts hfirst hacc
        obtain ⟨-, -, -, hproof⟩ := verifyWitnessPacket_returns_true_iff.mp hverify
        obtain ⟨-, -, -, hwidth, -⟩ := verifyProof_accepts hproof rfl
        exact Or.inl ⟨_, rfl, rfl, hwidth⟩
      · rw [if_pos hacc, HashPy.returns_pure_iff] at hrest
        obtain ⟨heq, -⟩ := hrest
        cases heq
        exact Or.inr ⟨_, rfl, by simp [touched, hacc], fun s => by simp [cachedFor, hacc]⟩

/-- A read hits and moves its stem to the end, or it leaves the cache as it is. -/
theorem perform_cachedValue (hwidth : ∀ s values, client.stemCache.lookup s = some values →
      values.length = stemSubtreeWidth) (key : Bytes) :
    (∃ outcome client' s, client.perform H (.cachedValue key) = (outcome, client') ∧
      touched (.cachedValue key, outcome) = some s ∧ s ∈ client.stemCache ∧
      client' = { client with
        cacheHits := client.cacheHits + 1
        stemCache := OrderedDict.moveToEnd s client.stemCache }) ∨
    ∃ outcome client', client.perform H (.cachedValue key) = (outcome, client') ∧
      touched (.cachedValue key, outcome) = none ∧ client'.stemCache = client.stemCache ∧
      client'.maxCachedStems = client.maxCachedStems := by
  rw [perform]
  cases hsplit : splitKey key with
  | error e =>
      have hcall : client.cachedValue key = (.error e, client) := by
        rw [cachedValue, hsplit]
      rw [hcall]
      exact Or.inr ⟨_, _, rfl, rfl, rfl, rfl⟩
  | ok parts =>
      obtain ⟨s, i⟩ := parts
      cases hlookup : client.stemCache.lookup s with
      | none =>
          have hcall : client.cachedValue key =
              (.ok none, { client with cacheMisses := client.cacheMisses + 1 }) := by
            rw [cachedValue, hsplit]
            dsimp only
            rw [hlookup]
          rw [hcall]
          exact Or.inr ⟨_, _, rfl, rfl, rfl, rfl⟩
      | some values =>
          -- a cached array is as wide as a stem, so that no slot is out of range
          have hslot : i.val < values.length := (hwidth s values hlookup).symm ▸ i.isLt
          have hmem : s ∈ client.stemCache := by
            rw [← AList.lookup_isSome, hlookup]
            rfl
          have hcall : client.cachedValue key = (.ok (some values[i.val]), { client with
              cacheHits := client.cacheHits + 1
              stemCache := OrderedDict.moveToEnd s client.stemCache }) := by
            rw [cachedValue, hsplit]
            dsimp only
            rw [hlookup]
            dsimp only
            rw [List.getElem?_eq_getElem hslot]
          rw [hcall]
          refine Or.inl ⟨_, _, s, rfl, ?_, hmem, rfl⟩
          rw [touched, hsplit]
          rfl

/-! ## Runs -/

/-- The values that the last accepted packet of a stem has brought. -/
def lastCached (events : List HotStemEvent) (stemPrefix : Bytes) : Option (List Bytes) :=
  (events.filterMap (cachedFor stemPrefix)).getLast?

omit H client in
theorem lastCached_concat_of_none {events : List HotStemEvent} {event : HotStemEvent} {s : Bytes}
    (h : cachedFor s event = none) : lastCached (events ++ [event]) s = lastCached events s := by
  rw [lastCached, List.filterMap_append, List.filterMap_cons_none h, List.filterMap_nil,
    List.append_nil, lastCached]

omit H client in
theorem lastCached_concat_of_some {events : List HotStemEvent} {event : HotStemEvent} {s : Bytes}
    {values : List Bytes} (h : cachedFor s event = some values) :
    lastCached (events ++ [event]) s = some values := by
  rw [lastCached, List.filterMap_append, List.filterMap_cons_some h, List.filterMap_nil,
    List.getLast?_concat]

/-- **The invariant**: the cache is what the record says. -/
structure TracksTouches (maxCachedStems : ℤ) (events : List HotStemEvent)
    (client : PartiallyStatelessStemClient) : Prop where
  capacity : client.maxCachedStems = maxCachedStems
  positive : 0 < maxCachedStems
  order : OrderedDict.order client.stemCache = recent maxCachedStems.toNat (touches events)
  values : ∀ s values, client.stemCache.lookup s = some values →
    lastCached events s = some values ∧ values.length = stemSubtreeWidth

namespace TracksTouches

variable {maxCachedStems : ℤ} {events : List HotStemEvent}

theorem capacity_pos (h : TracksTouches maxCachedStems events client) :
    0 < maxCachedStems.toNat := by
  have hpos := h.positive
  omega

/-- A call that touches nothing and keeps the cache. -/
theorem untouched (h : TracksTouches maxCachedStems events client) {event : HotStemEvent}
    {client' : PartiallyStatelessStemClient} (hclear : event.isClear = false)
    (htouched : event.touched = none) (hcached : ∀ s, cachedFor s event = none)
    (hcache : client'.stemCache = client.stemCache)
    (hcapacity : client'.maxCachedStems = client.maxCachedStems) :
    TracksTouches maxCachedStems (events ++ [event]) client' := by
  refine ⟨hcapacity.trans h.capacity, h.positive, ?_, ?_⟩
  · rw [hcache, touches_concat hclear, htouched, Option.toList_none, List.append_nil]
    exact h.order
  · intro s values hlookup
    rw [hcache] at hlookup
    rw [lastCached_concat_of_none (hcached s)]
    exact h.values s values hlookup

/-- **One call keeps the invariant.** -/
theorem step (h : TracksTouches maxCachedStems events client) (call : HotStemCall) :
    TracksTouches maxCachedStems (events ++ [(call, (client.perform H call).1)])
      (client.perform H call).2 := by
  have hpos := h.capacity_pos
  cases call with
  | clearCache =>
      refine ⟨h.capacity, h.positive, ?_, fun s values hlookup => by cases hlookup⟩
      rw [touches_concat_clear rfl, recent_nil]
      rfl
  | cachedValue key =>
      obtain ⟨outcome, client', s, hcall, htouched, hmem, rfl⟩ |
        ⟨outcome, client', hcall, htouched, hcache, hcapacity⟩ :=
        perform_cachedValue (H := H) (fun s values hlookup => (h.values s values hlookup).2) key
      · rw [hcall]
        refine ⟨h.capacity, h.positive, ?_, ?_⟩
        · -- a stem that is cached is among the recent ones
          have hrecent : s ∈ recent maxCachedStems.toNat (touches events) := by
            rw [← h.order, OrderedDict.mem_order]
            exact hmem
          rw [touches_concat rfl, htouched, Option.toList_some,
            recent_concat_of_mem hpos hrecent, ← h.order]
          exact order_read hmem
        · intro s' values hlookup
          rw [OrderedDict.lookup_moveToEnd] at hlookup
          rw [lastCached_concat_of_none rfl]
          exact h.values s' values hlookup
      · rw [hcall]
        exact h.untouched rfl htouched (fun _ => rfl) hcache hcapacity
  | verifyAndCachePacket packet =>
      obtain ⟨result, hcall, hacc, hwidth⟩ | ⟨outcome, hcall, htouched, hcached⟩ :=
        perform_verifyAndCachePacket (H := H) client packet
      · rw [hcall]
        refine ⟨h.capacity, h.positive, ?_, ?_⟩
        · have htouched : touched (.verifyAndCachePacket packet, .verified (.ok result)) =
              some packet.stemPrefix := by
            rw [touched, if_pos hacc]
          rw [touches_concat rfl, htouched, Option.toList_some, recent_concat hpos, ← h.order,
            ← h.capacity]
          exact order_cacheStem (h.capacity ▸ h.positive) _ _
        · intro s values hlookup
          rcases lookup_cacheStem hlookup with ⟨rfl, rfl⟩ | ⟨hs, hold⟩
          · refine ⟨lastCached_concat_of_some ?_, hwidth⟩
            rw [cachedFor, if_pos ⟨hacc, rfl⟩]
          · rw [lastCached_concat_of_none (by simp [cachedFor, Ne.symm hs])]
            exact h.values s values hold
      · rw [hcall]
        exact h.untouched rfl htouched hcached rfl rfl

end TracksTouches

end PartiallyStatelessStemClient

open PartiallyStatelessStemClient in
/-- **The hot-stem cache is an exact LRU.**  After every run the cached stems, from the least
to the most recently used, are the at most `max_cached_stems` stems that were touched last
since the cache was cleared; each holds the values of its last accepted packet; and a call
that touches nothing and is no `clear_cache` leaves the cache as it is. -/
theorem hotStemCache_lru (H : HashFunction) (verifiedBlockRoot : Bytes) (maxCachedStems : ℤ)
    (client : PartiallyStatelessStemClient)
    (hnew : PartiallyStatelessStemClient.new verifiedBlockRoot maxCachedStems = .ok client)
    (calls : List HotStemCall) :
    OrderedDict.order ((machine H).stateAfter client calls).stemCache =
      recent maxCachedStems.toNat (touches ((machine H).scan client calls)) ∧
    (∀ s values, ((machine H).stateAfter client calls).stemCache.lookup s = some values →
      lastCached ((machine H).scan client calls) s = some values) ∧
    ∀ call, call ≠ .clearCache →
      touched (call, (((machine H).stateAfter client calls).perform H call).1) = none →
      (((machine H).stateAfter client calls).perform H call).2.stemCache =
        ((machine H).stateAfter client calls).stemCache := by
  have hstart : TracksTouches maxCachedStems [] client := by
    obtain ⟨_, hcheck, hclient⟩ := py_bind_eq_ok_iff.mp hnew
    cases hclient
    exact ⟨rfl, not_le.mp (raiseIf_eq_ok_iff.mp hcheck), (recent_nil _).symm,
      fun s values hlookup => by cases hlookup⟩
  have hend := (machine H).scan_invariant (fun _ _ call h => h.step call) hstart calls
  refine ⟨hend.order, fun s values hlookup => (hend.values s values hlookup).1, ?_⟩
  intro call hcall htouched
  generalize (machine H).stateAfter client calls = after at hend htouched ⊢
  cases call with
  | clearCache => exact absurd rfl hcall
  | cachedValue key =>
      obtain ⟨outcome, client', s, hperform, hs, -⟩ | ⟨outcome, client', hperform, -, hcache, -⟩ :=
        perform_cachedValue (H := H) (fun s values hlookup => (hend.values s values hlookup).2) key
      · rw [hperform, hs] at htouched
        cases htouched
      · rw [hperform]
        exact hcache
  | verifyAndCachePacket packet =>
      obtain ⟨result, hperform, hacc, -⟩ | ⟨outcome, hperform, -⟩ :=
        perform_verifyAndCachePacket (H := H) after packet
      · rw [hperform, touched, if_pos hacc] at htouched
        cases htouched
      · rw [hperform]

/-- A cache for one stem: the second packet takes the place of the first. -/
theorem hotStemCache_lru_evicts :
    OrderedDict.order ((PartiallyStatelessStemClient.machine fun _ => emptyValue).stateAfter
      ⟨⟨emptyValue.val⟩, 1, ∅, 0, 0⟩
      [.verifyAndCachePacket (lonePacket (fun _ => emptyValue) [7]),
        .verifyAndCachePacket (lonePacket (fun _ => emptyValue) [8]),
        .cachedValue (joinKey [7] 0)]).stemCache = [[8]] :=
  (hotStemCache_lru (fun _ => emptyValue) emptyValue.val 1 _ rfl _).1.trans (by decide +kernel)

end Pbt
