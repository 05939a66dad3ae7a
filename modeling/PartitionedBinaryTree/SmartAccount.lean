/-
# Smart accounts: transfers and recovery (`pbt/wallet.py`)

A `SmartAccount` has an owner, guardians, and transfers that are scheduled, canceled
and executed; guardians may give it a new owner.  Its methods raise in many ways, and
a method that raises keeps what it has done so far, so that they are modelled with the
attributes as a state that survives the exception.

`Effect` says once what a call can do.  `Consistent` ties the attributes to the record
of the run, and `smartAccount_transferSafety` and `recoveryGuarded_run_iff` follow.
-/
import Mathlib.Data.Finset.Card
import PartitionedBinaryTree.Lib.OrderedDict
import PartitionedBinaryTree.Lib.Scan
import PartitionedBinaryTree.PyRuntime

namespace Pbt

/-! ## The class -/

/-- `PendingTransfer`. -/
structure PendingTransfer where
  transferId : ℤ
  toAddress : Bytes
  amount : ℤ
  createdAt : ℤ
  executeAfter : ℤ
  canceled : Bool := false
  executed : Bool := false
  deriving DecidableEq, Repr

/-- `SmartAccount`. -/
structure SmartAccount where
  owner : String
  guardians : Finset String
  largeTransferThreshold : ℤ
  timelockSeconds : ℤ
  recoveryQuorum : ℤ
  pendingTransfers : OrderedDict ℤ PendingTransfer
  nextTransferId : ℤ

namespace SmartAccount

/-- `recovery_quorum or max(1, len(guardians) // 2 + 1)`. -/
def quorumOrDefault (guardians : Finset String) (recoveryQuorum : Option ℤ) : ℤ :=
  match recoveryQuorum with
  | none => max 1 (guardians.card / 2 + 1)
  | some quorum => if quorum = 0 then max 1 (guardians.card / 2 + 1) else quorum

/-- `SmartAccount(owner, guardians, large_transfer_threshold, timelock_seconds, recovery_quorum)`. -/
def new (owner : String) (guardians : Finset String) (largeTransferThreshold : ℤ)
    (timelockSeconds : ℤ := 24 * 60 * 60) (recoveryQuorum : Option ℤ := none) :
    Py SmartAccount := do
  raiseIf (guardians = ∅) "guardians are required"
  raiseIf (owner ∈ guardians) "owner cannot be a guardian"
  raiseIf (largeTransferThreshold ≤ 0) "large_transfer_threshold must be positive"
  raiseIf (timelockSeconds < 24 * 60 * 60) "timelock_seconds must be at least 24h"
  pure {
    owner := owner
    guardians := guardians
    largeTransferThreshold := largeTransferThreshold
    timelockSeconds := timelockSeconds
    recoveryQuorum := quorumOrDefault guardians recoveryQuorum
    pendingTransfers := ∅
    nextTransferId := 1 }

/-- `self.pending_transfers[transfer_id] = transfer`. -/
def putTransfer (account : SmartAccount) (transferId : ℤ) (transfer : PendingTransfer) :
    SmartAccount :=
  { account with
    pendingTransfers := OrderedDict.setItem transferId transfer account.pendingTransfers }

/-- `schedule_transfer`. -/
def scheduleTransfer (toAddress : Bytes) (amount now : ℤ) :
    PyMethod SmartAccount PendingTransfer := do
  if amount ≤ 0 then throw ⟨.valueError, "amount must be positive"⟩
  else
    let account ← get
    let delay := if account.largeTransferThreshold ≤ amount then account.timelockSeconds else 0
    let transfer : PendingTransfer := {
      transferId := account.nextTransferId
      toAddress := toAddress
      amount := amount
      createdAt := now
      executeAfter := now + delay }
    modify fun account => account.putTransfer transfer.transferId transfer
    modify fun account => { account with nextTransferId := account.nextTransferId + 1 }
    pure transfer

/-- `cancel_transfer`. -/
def cancelTransfer (transferId : ℤ) (actor : String) : PyMethod SmartAccount Unit := do
  let account ← get
  if actor ≠ account.owner ∧ actor ∉ account.guardians then
    throw ⟨.permissionError, "only owner or guardian can cancel a transfer"⟩
  else
    match account.pendingTransfers.lookup transferId with
    | none => throw ⟨.valueError, "transfer " ++ toString transferId ++ " not found"⟩
    | some transfer =>
      if transfer.executed then throw ⟨.valueError, "cannot cancel an executed transfer"⟩
      else modify fun account => account.putTransfer transferId { transfer with canceled := true }

/-- `execute_transfer`. -/
def executeTransfer (transferId now : ℤ) : PyMethod SmartAccount PendingTransfer := do
  let account ← get
  match account.pendingTransfers.lookup transferId with
  | none => throw ⟨.valueError, "transfer " ++ toString transferId ++ " not found"⟩
  | some transfer =>
    if transfer.canceled then throw ⟨.valueError, "transfer was canceled"⟩
    else if transfer.executed then throw ⟨.valueError, "transfer already executed"⟩
    else if now < transfer.executeAfter then throw ⟨.valueError, "timelock not yet expired"⟩
    else
      let transfer := { transfer with executed := true }
      modify fun account => account.putTransfer transferId transfer
      pure transfer

/-- `recover_owner`. -/
def recoverOwner (newOwner : String) (approvals : Finset String) : PyMethod SmartAccount Unit := do
  let account ← get
  if (approvals ∩ account.guardians).card < account.recoveryQuorum then
    throw ⟨.permissionError, "insufficient guardian approvals for recovery"⟩
  else if newOwner ∈ account.guardians then
    throw ⟨.valueError, "new owner cannot be a guardian"⟩
  else modify fun account => { account with owner := newOwner }

end SmartAccount

/-! ## Runs -/

/-- A call on an account. -/
inductive AccountCall
  | scheduleTransfer (toAddress : Bytes) (amount now : ℤ)
  | cancelTransfer (transferId : ℤ) (actor : String)
  | executeTransfer (transferId now : ℤ)
  | recoverOwner (newOwner : String) (approvals : Finset String)

/-- What a call returns: a transfer, or `None`. -/
abbrev AccountOutcome := Py (Option PendingTransfer)

/-- A call that was made, and what came of it. -/
abbrev AccountEvent := AccountCall × AccountOutcome

/-- The method that is called. -/
def AccountCall.method : AccountCall → PyMethod SmartAccount (Option PendingTransfer)
  | scheduleTransfer toAddress amount now => some <$> SmartAccount.scheduleTransfer toAddress amount now
  | cancelTransfer transferId actor =>
      (fun _ => none) <$> SmartAccount.cancelTransfer transferId actor
  | executeTransfer transferId now => some <$> SmartAccount.executeTransfer transferId now
  | recoverOwner newOwner approvals =>
      (fun _ => none) <$> SmartAccount.recoverOwner newOwner approvals

namespace SmartAccount

/-- One call: what comes of it, and the account after it. -/
def perform (account : SmartAccount) (call : AccountCall) : AccountOutcome × SmartAccount :=
  call.method.call account

/-- An account as a machine that answers calls. -/
def machine : Scanner SmartAccount AccountCall AccountEvent where
  step account call := (account.perform call).2
  output account call := (call, (account.perform call).1)

/-- The account after a run. -/
def run (account : SmartAccount) (calls : List AccountCall) : SmartAccount :=
  machine.stateAfter account calls

/-- The record of a run. -/
def transcript (account : SmartAccount) (calls : List AccountCall) : List AccountEvent :=
  machine.scan account calls

/-! ## What one call can do -/

/-- The transfer that `schedule_transfer` makes. -/
def newTransfer (account : SmartAccount) (toAddress : Bytes) (amount now : ℤ) :
    PendingTransfer where
  transferId := account.nextTransferId
  toAddress := toAddress
  amount := amount
  createdAt := now
  executeAfter :=
    now + if account.largeTransferThreshold ≤ amount then account.timelockSeconds else 0

/-- **What a call can do**: raise and change nothing, or what its name says. -/
inductive Effect (account : SmartAccount) : AccountCall → AccountOutcome → SmartAccount → Prop
  | raised (call : AccountCall) (e : PyError) : Effect account call (.error e) account
  | scheduled (toAddress : Bytes) (amount now : ℤ) (hamount : 0 < amount) :
      Effect account (.scheduleTransfer toAddress amount now)
        (.ok (some (account.newTransfer toAddress amount now)))
        { account.putTransfer account.nextTransferId (account.newTransfer toAddress amount now) with
          nextTransferId := account.nextTransferId + 1 }
  | canceled (transferId : ℤ) (actor : String) (transfer : PendingTransfer)
      (hactor : actor = account.owner ∨ actor ∈ account.guardians)
      (hlookup : account.pendingTransfers.lookup transferId = some transfer)
      (hexecuted : transfer.executed = false) :
      Effect account (.cancelTransfer transferId actor) (.ok none)
        (account.putTransfer transferId { transfer with canceled := true })
  | executed (transferId now : ℤ) (transfer : PendingTransfer)
      (hlookup : account.pendingTransfers.lookup transferId = some transfer)
      (hcanceled : transfer.canceled = false) (hexecuted : transfer.executed = false)
      (hnow : transfer.executeAfter ≤ now) :
      Effect account (.executeTransfer transferId now)
        (.ok (some { transfer with executed := true }))
        (account.putTransfer transferId { transfer with executed := true })
  | recovered (newOwner : String) (approvals : Finset String)
      (hquorum : account.recoveryQuorum ≤ (approvals ∩ account.guardians).card)
      (howner : newOwner ∉ account.guardians) :
      Effect account (.recoverOwner newOwner approvals) (.ok none)
        { account with owner := newOwner }

/-- **Every call has such an effect.** -/
theorem effect_perform (account : SmartAccount) (call : AccountCall) :
    Effect account call (account.perform call).1 (account.perform call).2 := by
  unfold perform
  cases call with
  | scheduleTransfer toAddress amount now =>
      rw [AccountCall.method, scheduleTransfer, PyMethod.call_map, PyMethod.call_ite]
      by_cases hamount : amount ≤ 0
      · rw [if_pos hamount]
        exact .raised _ _
      · rw [if_neg hamount]
        exact .scheduled toAddress amount now (not_le.mp hamount)
  | cancelTransfer transferId actor =>
      rw [AccountCall.method, cancelTransfer, PyMethod.call_map, PyMethod.call_get_bind,
        PyMethod.call_ite]
      by_cases hactor : actor ≠ account.owner ∧ actor ∉ account.guardians
      · rw [if_pos hactor]
        exact .raised _ _
      · rw [if_neg hactor]
        cases hlookup : account.pendingTransfers.lookup transferId with
        | none => exact .raised _ _
        | some transfer =>
            dsimp only
            rw [PyMethod.call_ite]
            by_cases hexecuted : transfer.executed = true
            · rw [if_pos hexecuted]
              exact .raised _ _
            · rw [if_neg hexecuted]
              refine .canceled transferId actor transfer ?_ hlookup (by simpa using hexecuted)
              rw [or_iff_not_imp_left]
              exact fun h => not_not.mp fun h' => hactor ⟨h, h'⟩
  | executeTransfer transferId now =>
      rw [AccountCall.method, executeTransfer, PyMethod.call_map, PyMethod.call_get_bind]
      cases hlookup : account.pendingTransfers.lookup transferId with
      | none => exact .raised _ _
      | some transfer =>
          dsimp only
          rw [PyMethod.call_ite, PyMethod.call_ite, PyMethod.call_ite]
          by_cases hcanceled : transfer.canceled = true
          · rw [if_pos hcanceled]
            exact .raised _ _
          · rw [if_neg hcanceled]
            by_cases hexecuted : transfer.executed = true
            · rw [if_pos hexecuted]
              exact .raised _ _
            · rw [if_neg hexecuted]
              by_cases hnow : now < transfer.executeAfter
              · rw [if_pos hnow]
                exact .raised _ _
              · rw [if_neg hnow]
                exact .executed transferId now transfer hlookup (by simpa using hcanceled)
                  (by simpa using hexecuted) (not_lt.mp hnow)
  | recoverOwner newOwner approvals =>
      rw [AccountCall.method, recoverOwner, PyMethod.call_map, PyMethod.call_get_bind,
        PyMethod.call_ite, PyMethod.call_ite]
      by_cases hquorum : (approvals ∩ account.guardians).card < account.recoveryQuorum
      · rw [if_pos hquorum]
        exact .raised _ _
      · rw [if_neg hquorum]
        by_cases howner : newOwner ∈ account.guardians
        · rw [if_pos howner]
          exact .raised _ _
        · rw [if_neg howner]
          exact .recovered newOwner approvals (not_lt.mp hquorum) howner

end SmartAccount

/-! ## The record of a run -/

/-- The id that a call has given to a new transfer. -/
def scheduledId : AccountEvent → Option ℤ
  | (.scheduleTransfer _ _ _, .ok (some transfer)) => some transfer.transferId
  | _ => none

/-- The id that a call has executed. -/
def executedId : AccountEvent → Option ℤ
  | (.executeTransfer transferId _, .ok _) => some transferId
  | _ => none

/-- The id that a call has canceled. -/
def canceledId : AccountEvent → Option ℤ
  | (.cancelTransfer transferId _, .ok _) => some transferId
  | _ => none

/-- A call that raised has done nothing of this. -/
theorem ids_of_error (call : AccountCall) (e : PyError) :
    scheduledId (call, .error e) = none ∧ executedId (call, .error e) = none ∧
      canceledId (call, .error e) = none := by
  cases call <;> exact ⟨rfl, rfl, rfl⟩

/-- The calls of the record that have done something to a transfer. -/
theorem mem_filterMap_concat {f : AccountEvent → Option ℤ} {log : List AccountEvent}
    {event : AccountEvent} {id : ℤ} :
    id ∈ (log ++ [event]).filterMap f ↔ id ∈ log.filterMap f ∨ f event = some id := by
  rw [List.filterMap_append, List.mem_append, List.mem_filterMap (l := [event])]
  simp

namespace SmartAccount

variable {initial account : SmartAccount} {log : List AccountEvent}

/-- The transfer was scheduled, and waits for the timelock of the account when it is large. -/
def ScheduledAs (initial : SmartAccount) (log : List AccountEvent) (transferId executeAfter : ℤ) :
    Prop :=
  ∃ toAddress amount createdAt transfer,
    (.scheduleTransfer toAddress amount createdAt, .ok (some transfer)) ∈ log ∧
    transfer.transferId = transferId ∧
    executeAfter = createdAt +
      if initial.largeTransferThreshold ≤ amount then initial.timelockSeconds else 0

theorem ScheduledAs.concat {transferId executeAfter : ℤ} (event : AccountEvent)
    (h : ScheduledAs initial log transferId executeAfter) :
    ScheduledAs initial (log ++ [event]) transferId executeAfter := by
  obtain ⟨toAddress, amount, createdAt, transfer, hmem, hrest⟩ := h
  exact ⟨toAddress, amount, createdAt, transfer, List.mem_append_left _ hmem, hrest⟩

theorem ScheduledAs.mem_ids {transferId executeAfter : ℤ}
    (h : ScheduledAs initial log transferId executeAfter) :
    transferId ∈ log.filterMap scheduledId := by
  obtain ⟨toAddress, amount, createdAt, transfer, hmem, rfl, -⟩ := h
  exact List.mem_filterMap.mpr ⟨_, hmem, rfl⟩

/-- **The invariant**: the account agrees with the record of what was done to it. -/
structure Consistent (initial : SmartAccount) (log : List AccountEvent) (account : SmartAccount) :
    Prop where
  guardians : account.guardians = initial.guardians
  threshold : account.largeTransferThreshold = initial.largeTransferThreshold
  timelock : account.timelockSeconds = initial.timelockSeconds
  quorum : account.recoveryQuorum = initial.recoveryQuorum
  owner : account.owner ∉ initial.guardians
  ids_nodup : (log.filterMap scheduledId).Nodup
  ids_lt : ∀ id ∈ log.filterMap scheduledId, id < account.nextTransferId
  pending : ∀ id transfer, account.pendingTransfers.lookup id = some transfer →
    ScheduledAs initial log id transfer.executeAfter ∧
      ¬ (transfer.canceled = true ∧ transfer.executed = true)
  executed : ∀ id ∈ log.filterMap executedId, ∃ transfer,
    account.pendingTransfers.lookup id = some transfer ∧ transfer.executed = true
  canceled : ∀ id ∈ log.filterMap canceledId, ∃ transfer,
    account.pendingTransfers.lookup id = some transfer ∧ transfer.canceled = true

theorem lookup_putTransfer (account : SmartAccount) (transferId id : ℤ)
    (transfer : PendingTransfer) :
    (account.putTransfer transferId transfer).pendingTransfers.lookup id =
      if id = transferId then some transfer else account.pendingTransfers.lookup id :=
  OrderedDict.lookup_setItem _ _ _ _

namespace Consistent

/-- A pending transfer has an id that was given before. -/
theorem lookup_lt (h : Consistent initial log account) {id : ℤ} {transfer : PendingTransfer}
    (hlookup : account.pendingTransfers.lookup id = some transfer) : id < account.nextTransferId :=
  h.ids_lt id (h.pending id transfer hlookup).1.mem_ids

/-- A transfer gets a flag. -/
theorem put (h : Consistent initial log account) {id : ℤ} {transfer transfer' : PendingTransfer}
    (hlookup : account.pendingTransfers.lookup id = some transfer)
    (hafter : transfer'.executeAfter = transfer.executeAfter)
    (hcanceled : transfer.canceled = true → transfer'.canceled = true)
    (hexecuted : transfer.executed = true → transfer'.executed = true)
    (hboth : ¬ (transfer'.canceled = true ∧ transfer'.executed = true)) :
    Consistent initial log (account.putTransfer id transfer') := by
  -- a transfer keeps the flags it has
  have hkeep : ∀ {flag : PendingTransfer → Bool}, (flag transfer = true → flag transfer' = true) →
      ∀ id', (∃ t, account.pendingTransfers.lookup id' = some t ∧ flag t = true) →
        ∃ t, (account.putTransfer id transfer').pendingTransfers.lookup id' = some t ∧
          flag t = true := by
    intro flag hflag id' ⟨t, ht, hset⟩
    rw [lookup_putTransfer]
    by_cases hid : id' = id
    · rw [hid, hlookup] at ht
      rw [if_pos hid]
      exact ⟨transfer', rfl, hflag (Option.some.inj ht ▸ hset)⟩
    · rw [if_neg hid]
      exact ⟨t, ht, hset⟩
  refine { h with pending := ?_, executed := ?_, canceled := ?_ }
  · intro id' t ht
    rw [lookup_putTransfer] at ht
    split_ifs at ht with hid
    · cases ht
      rw [hid, hafter]
      exact ⟨(h.pending id transfer hlookup).1, hboth⟩
    · exact h.pending id' t ht
  · exact fun id' hid => hkeep hexecuted id' (h.executed id' hid)
  · exact fun id' hid => hkeep hcanceled id' (h.canceled id' hid)

/-- A call that has given no id, and what it has done is what the account says. -/
theorem concat (h : Consistent initial log account) {event : AccountEvent}
    (hscheduled : scheduledId event = none)
    (hexecuted : ∀ id, executedId event = some id → ∃ transfer,
      account.pendingTransfers.lookup id = some transfer ∧ transfer.executed = true)
    (hcanceled : ∀ id, canceledId event = some id → ∃ transfer,
      account.pendingTransfers.lookup id = some transfer ∧ transfer.canceled = true) :
    Consistent initial (log ++ [event]) account := by
  have hids : (log ++ [event]).filterMap scheduledId = log.filterMap scheduledId := by
    rw [List.filterMap_append, List.filterMap_cons_none hscheduled, List.filterMap_nil,
      List.append_nil]
  refine { h with ids_nodup := ?_, ids_lt := ?_, pending := ?_, executed := ?_, canceled := ?_ }
  · rw [hids]
    exact h.ids_nodup
  · rw [hids]
    exact h.ids_lt
  · intro id transfer hlookup
    obtain ⟨hsched, hboth⟩ := h.pending id transfer hlookup
    exact ⟨hsched.concat event, hboth⟩
  · intro id hid
    exact (mem_filterMap_concat.mp hid).elim (h.executed id) (hexecuted id)
  · intro id hid
    exact (mem_filterMap_concat.mp hid).elim (h.canceled id) (hcanceled id)

/-- A new transfer gets an id that no transfer has. -/
theorem schedule (h : Consistent initial log account) (toAddress : Bytes) (amount now : ℤ) :
    Consistent initial
      (log ++ [(.scheduleTransfer toAddress amount now,
        .ok (some (account.newTransfer toAddress amount now)))])
      { account.putTransfer account.nextTransferId (account.newTransfer toAddress amount now) with
        nextTransferId := account.nextTransferId + 1 } := by
  set transfer := account.newTransfer toAddress amount now with htransfer
  set event : AccountEvent :=
    (.scheduleTransfer toAddress amount now, .ok (some transfer)) with hevent
  have hids : (log ++ [event]).filterMap scheduledId =
      log.filterMap scheduledId ++ [account.nextTransferId] := List.filterMap_append
  have hold : ∀ {flag : PendingTransfer → Bool} {id : ℤ},
      (∃ t, account.pendingTransfers.lookup id = some t ∧ flag t = true) →
        ∃ t, (account.putTransfer account.nextTransferId transfer).pendingTransfers.lookup id =
          some t ∧ flag t = true := by
    intro flag id ⟨t, ht, hflag⟩
    have hne : id ≠ account.nextTransferId := (h.lookup_lt ht).ne
    exact ⟨t, by rw [lookup_putTransfer, if_neg hne, ht], hflag⟩
  refine { h with ids_nodup := ?_, ids_lt := ?_, pending := ?_, executed := ?_, canceled := ?_ }
  · rw [hids, List.nodup_append']
    refine ⟨h.ids_nodup, List.nodup_singleton _, ?_⟩
    intro id hid hnew
    exact (h.ids_lt id hid).ne (List.mem_singleton.mp hnew)
  · intro id hid
    show id < account.nextTransferId + 1
    rw [hids, List.mem_append, List.mem_singleton] at hid
    rcases hid with hid | rfl
    · have hlt := h.ids_lt id hid
      omega
    · omega
  · intro id t ht
    change (account.putTransfer _ _).pendingTransfers.lookup id = some t at ht
    rw [lookup_putTransfer] at ht
    split_ifs at ht with hid
    · cases ht
      refine ⟨⟨toAddress, amount, now, transfer, List.mem_append_right _ List.mem_cons_self,
        hid.symm, ?_⟩, fun hboth => by cases hboth.1⟩
      rw [htransfer, newTransfer, h.threshold, h.timelock]
    · obtain ⟨hsched, hboth⟩ := h.pending id t ht
      exact ⟨hsched.concat event, hboth⟩
  · intro id hid
    rcases mem_filterMap_concat.mp hid with hid | hid
    · exact hold (h.executed id hid)
    · cases hid
  · intro id hid
    rcases mem_filterMap_concat.mp hid with hid | hid
    · exact hold (h.canceled id hid)
    · cases hid

/-- **One call keeps the invariant.** -/
theorem step (h : Consistent initial log account) (call : AccountCall) :
    Consistent initial (log ++ [(call, (account.perform call).1)]) (account.perform call).2 := by
  have heffect := effect_perform account call
  generalize (account.perform call).1 = outcome at heffect ⊢
  generalize (account.perform call).2 = account' at heffect ⊢
  cases heffect with
  | raised call e =>
      obtain ⟨hscheduled, hexecuted, hcanceled⟩ := ids_of_error call e
      refine h.concat hscheduled (fun id hid => ?_) (fun id hid => ?_)
      · rw [hexecuted] at hid
        cases hid
      · rw [hcanceled] at hid
        cases hid
  | scheduled toAddress amount now hamount => exact h.schedule toAddress amount now
  | canceled id actor transfer hactor hlookup hexecuted =>
      have hput : Consistent initial log
          (account.putTransfer id { transfer with canceled := true }) :=
        h.put hlookup rfl (fun _ => rfl) (fun hset => hset)
          fun hboth => by simp [hexecuted] at hboth
      refine hput.concat rfl (fun id' hid => by cases hid) fun id' hid => ?_
      cases hid
      exact ⟨_, by rw [lookup_putTransfer, if_pos rfl], rfl⟩
  | executed id now transfer hlookup hcanceled hexecuted hnow =>
      have hput : Consistent initial log
          (account.putTransfer id { transfer with executed := true }) :=
        h.put hlookup rfl (fun hset => hset) (fun _ => rfl)
          fun hboth => by simp [hcanceled] at hboth
      refine hput.concat rfl (fun id' hid => ?_) fun id' hid => by cases hid
      cases hid
      exact ⟨_, by rw [lookup_putTransfer, if_pos rfl], rfl⟩
  | recovered newOwner approvals hquorum howner =>
      have howner' : Consistent initial log { account with owner := newOwner } :=
        { h with owner := h.guardians ▸ howner }
      exact howner'.concat rfl (fun id hid => by cases hid) fun id hid => by cases hid

end Consistent

section

variable {owner : String} {guardians : Finset String} {largeTransferThreshold timelockSeconds : ℤ}
  {recoveryQuorum : Option ℤ}

/-- What the constructor checks, and the account it makes. -/
theorem new_eq_ok_iff :
    new owner guardians largeTransferThreshold timelockSeconds recoveryQuorum = .ok account ↔
      guardians ≠ ∅ ∧ owner ∉ guardians ∧ 0 < largeTransferThreshold ∧
      24 * 60 * 60 ≤ timelockSeconds ∧
      ⟨owner, guardians, largeTransferThreshold, timelockSeconds,
        quorumOrDefault guardians recoveryQuorum, ∅, 1⟩ = account := by
  simp only [new, py_bind_eq_ok_iff, raiseIf_eq_ok_iff, exists_const, not_le, not_lt, pure,
    Except.pure, Except.ok.injEq, ne_eq]

/-- A new account agrees with the empty record. -/
theorem consistent_new
    (h : new owner guardians largeTransferThreshold timelockSeconds recoveryQuorum = .ok account) :
    Consistent account [] account := by
  obtain ⟨-, howner, -, -, rfl⟩ := new_eq_ok_iff.mp h
  exact {
    guardians := rfl
    threshold := rfl
    timelock := rfl
    quorum := rfl
    owner := howner
    ids_nodup := List.nodup_nil
    ids_lt := fun id hid => absurd hid (List.not_mem_nil)
    pending := fun id transfer hlookup => by cases hlookup
    executed := fun id hid => absurd hid (List.not_mem_nil)
    canceled := fun id hid => absurd hid (List.not_mem_nil) }

end

/-- **Every run keeps the invariant.** -/
theorem consistent_run (h : Consistent account [] account) (calls : List AccountCall) :
    Consistent account (account.transcript calls) (account.run calls) :=
  machine.scan_invariant (fun _ _ call hstate => hstate.step call) h calls

/-- A recorded call was made on the account that the calls before it have left. -/
theorem exists_run_before {calls : List AccountCall} {before after : List AccountEvent}
    {call : AccountCall} {outcome : AccountOutcome}
    (h : account.transcript calls = before ++ (call, outcome) :: after) :
    ∃ first, account.transcript first = before ∧
      ((account.run first).perform call).1 = outcome := by
  obtain ⟨first, call', rest, -, hbefore, hevent⟩ := machine.scan_eq_append_cons h
  obtain ⟨rfl, houtcome⟩ := Prod.mk.inj hevent
  exact ⟨first, hbefore, houtcome⟩

/-- A call that executes a transfer finds it pending, with no flag set and due. -/
theorem perform_executeTransfer {id now : ℤ} {returned : Option PendingTransfer}
    (h : (account.perform (.executeTransfer id now)).1 = .ok returned) :
    ∃ transfer, account.pendingTransfers.lookup id = some transfer ∧
      transfer.canceled = false ∧ transfer.executed = false ∧ transfer.executeAfter ≤ now := by
  have heffect := effect_perform account (.executeTransfer id now)
  rw [h] at heffect
  generalize (account.perform (.executeTransfer id now)).2 = account' at heffect
  cases heffect with
  | executed _ _ transfer hlookup hcanceled hexecuted hnow =>
      exact ⟨transfer, hlookup, hcanceled, hexecuted, hnow⟩

/-- A call that raises changes nothing. -/
theorem perform_error {call : AccountCall} {e : PyError}
    (h : (account.perform call).1 = .error e) : (account.perform call).2 = account := by
  have heffect := effect_perform account call
  rw [h] at heffect
  generalize (account.perform call).2 = account' at heffect ⊢
  cases heffect with
  | raised => rfl

end SmartAccount

/-! ## Transfers -/

/-- What a run of an account keeps to. -/
structure TransferSafety (account : SmartAccount) (calls : List AccountCall) : Prop where
  /-- No id is given to two transfers. -/
  ids_nodup : ((account.transcript calls).filterMap scheduledId).Nodup
  /-- A call that executes a transfer is the first to do so, no call has canceled it before,
  and it is due: it was scheduled, and when it is large the timelock is over. -/
  executed_once : ∀ before after id now returned,
    account.transcript calls = before ++ (.executeTransfer id now, .ok returned) :: after →
    id ∉ before.filterMap executedId ∧ id ∉ before.filterMap canceledId ∧
    ∃ toAddress amount createdAt transfer,
      (.scheduleTransfer toAddress amount createdAt, .ok (some transfer)) ∈ before ∧
      transfer.transferId = id ∧ createdAt ≤ now ∧
      (account.largeTransferThreshold ≤ amount → createdAt + account.timelockSeconds ≤ now)
  /-- No transfer is canceled and executed, in the record or in the account. -/
  not_both : ∀ id, ¬ (id ∈ (account.transcript calls).filterMap canceledId ∧
    id ∈ (account.transcript calls).filterMap executedId)
  not_both_flags : ∀ id transfer,
    (account.run calls).pendingTransfers.lookup id = some transfer →
    ¬ (transfer.canceled = true ∧ transfer.executed = true)
  /-- The guardians are those of the constructor, and the owner is none of them. -/
  guardians : (account.run calls).guardians = account.guardians
  owner : (account.run calls).owner ∉ account.guardians
  /-- A call that raises leaves the account as it is. -/
  raises_unchanged : ∀ call e, ((account.run calls).perform call).1 = .error e →
    ((account.run calls).perform call).2 = account.run calls

/-- **Transfer safety.**  Every run of an account that the constructor makes is safe. -/
theorem smartAccount_transferSafety (owner : String) (guardians : Finset String)
    (largeTransferThreshold timelockSeconds : ℤ) (recoveryQuorum : Option ℤ)
    (account : SmartAccount)
    (hnew : SmartAccount.new owner guardians largeTransferThreshold timelockSeconds
      recoveryQuorum = .ok account) (calls : List AccountCall) : TransferSafety account calls := by
  have hstart := SmartAccount.consistent_new hnew
  have hend := SmartAccount.consistent_run hstart calls
  refine {
    ids_nodup := hend.ids_nodup
    executed_once := ?_
    not_both := ?_
    not_both_flags := fun id transfer hlookup => (hend.pending id transfer hlookup).2
    guardians := hend.guardians
    owner := hend.owner
    raises_unchanged := fun call e => SmartAccount.perform_error }
  · intro before after id now returned hevents
    obtain ⟨first, rfl, houtcome⟩ := SmartAccount.exists_run_before hevents
    have hstate := SmartAccount.consistent_run hstart first
    obtain ⟨transfer, hlookup, hcanceled, hexecuted, hnow⟩ :=
      SmartAccount.perform_executeTransfer houtcome
    refine ⟨fun hid => ?_, fun hid => ?_, ?_⟩
    · obtain ⟨t, ht, hset⟩ := hstate.executed id hid
      rw [hlookup] at ht
      cases ht
      rw [hset] at hexecuted
      cases hexecuted
    · obtain ⟨t, ht, hset⟩ := hstate.canceled id hid
      rw [hlookup] at ht
      cases ht
      rw [hset] at hcanceled
      cases hcanceled
    · obtain ⟨⟨toAddress, amount, createdAt, scheduled, hmem, hid, hafter⟩, -⟩ :=
        hstate.pending id transfer hlookup
      obtain ⟨-, -, -, htimelock, rfl⟩ := SmartAccount.new_eq_ok_iff.mp hnew
      dsimp only at hafter ⊢
      refine ⟨toAddress, amount, createdAt, scheduled, hmem, hid, ?_, fun hlarge => ?_⟩
      · split_ifs at hafter <;> omega
      · rw [if_pos hlarge] at hafter
        omega
  · intro id hboth
    obtain ⟨t, ht, hcanceled⟩ := hend.canceled id hboth.1
    obtain ⟨t', ht', hexecuted⟩ := hend.executed id hboth.2
    rw [ht] at ht'
    cases ht'
    exact (hend.pending id t ht).2 ⟨hcanceled, hexecuted⟩

/-- An account with three guardians: a large transfer is scheduled and called off. -/
theorem smartAccount_transferSafety_canceled :
    TransferSafety
      ⟨"owner", {"g1", "g2", "g3"}, 100, 86400,
        SmartAccount.quorumOrDefault {"g1", "g2", "g3"} none, ∅, 1⟩
      [.scheduleTransfer [100] 150 0, .executeTransfer 1 60, .cancelTransfer 1 "g1",
        .executeTransfer 1 1000000] :=
  smartAccount_transferSafety "owner" {"g1", "g2", "g3"} 100 86400 none _
    (SmartAccount.new_eq_ok_iff.mpr ⟨by decide, by decide, by decide, by decide, rfl⟩) _

/-! ## Recovery -/

/-- Recovery needs a guardian, and all guardians together can do it. -/
structure RecoveryGuarded (account : SmartAccount) : Prop where
  needs_guardian : ∀ newOwner approvals, approvals ∩ account.guardians = ∅ →
    ∃ e, (account.perform (.recoverOwner newOwner approvals)).1 = .error e
  all_suffice : ∀ newOwner approvals, account.guardians ⊆ approvals →
    newOwner ∉ account.guardians →
    account.perform (.recoverOwner newOwner approvals) =
      (.ok none, { account with owner := newOwner })

namespace SmartAccount

variable {account : SmartAccount}

/-- `recover_owner`. -/
theorem perform_recoverOwner (account : SmartAccount) (newOwner : String)
    (approvals : Finset String) :
    account.perform (.recoverOwner newOwner approvals) =
      if (approvals ∩ account.guardians).card < account.recoveryQuorum then
        (.error ⟨.permissionError, "insufficient guardian approvals for recovery"⟩, account)
      else if newOwner ∈ account.guardians then
        (.error ⟨.valueError, "new owner cannot be a guardian"⟩, account)
      else (.ok none, { account with owner := newOwner }) := by
  unfold perform
  rw [AccountCall.method, recoverOwner, PyMethod.call_map, PyMethod.call_get_bind,
    PyMethod.call_ite, PyMethod.call_ite]
  split_ifs <;> rfl

/-- **The quorum decides**: it must be one that some guardians reach and no guardians do not. -/
theorem recoveryGuarded_iff_quorum (howner : account.owner ∉ account.guardians) :
    RecoveryGuarded account ↔
      1 ≤ account.recoveryQuorum ∧ account.recoveryQuorum ≤ account.guardians.card := by
  constructor
  · intro h
    constructor
    · -- the owner itself would pass without approvals
      by_contra hquorum
      obtain ⟨e, he⟩ := h.needs_guardian account.owner ∅ (Finset.empty_inter _)
      rw [perform_recoverOwner, Finset.empty_inter, Finset.card_empty, if_neg (by omega),
        if_neg howner] at he
      cases he
    · by_contra hquorum
      have hall := h.all_suffice account.owner account.guardians (Finset.Subset.refl _) howner
      rw [perform_recoverOwner, Finset.inter_self, if_pos (by omega)] at hall
      cases hall
  · rintro ⟨hpos, hle⟩
    constructor
    · intro newOwner approvals hnone
      rw [perform_recoverOwner, hnone, Finset.card_empty, if_pos (by omega)]
      exact ⟨_, rfl⟩
    · intro newOwner approvals hall hnew
      rw [perform_recoverOwner, Finset.inter_eq_right.mpr hall, if_neg (by omega), if_neg hnew]

/-- The quorum that the constructor stores is in reach when it is left out, is 0, or is. -/
theorem quorumOrDefault_mem_iff {guardians : Finset String} (hne : guardians ≠ ∅)
    (recoveryQuorum : Option ℤ) :
    (1 ≤ quorumOrDefault guardians recoveryQuorum ∧
      quorumOrDefault guardians recoveryQuorum ≤ guardians.card) ↔
      recoveryQuorum = none ∨ recoveryQuorum = some 0 ∨
        ∃ quorum, recoveryQuorum = some quorum ∧ 1 ≤ quorum ∧ quorum ≤ guardians.card := by
  have hcard : 0 < guardians.card := Finset.card_pos.mpr (Finset.nonempty_iff_ne_empty.mpr hne)
  have hdefault : (1 : ℤ) ≤ max 1 ((guardians.card : ℤ) / 2 + 1) ∧
      max 1 ((guardians.card : ℤ) / 2 + 1) ≤ guardians.card := by omega
  cases recoveryQuorum with
  | none => exact iff_of_true hdefault (Or.inl rfl)
  | some quorum =>
      by_cases hzero : quorum = 0
      · subst hzero
        exact iff_of_true hdefault (Or.inr (Or.inl rfl))
      · rw [quorumOrDefault, if_neg hzero]
        simp [hzero]

end SmartAccount

/-- **When recovery is guarded.**  In every state of every run, recovery needs a guardian and
all guardians can do it, exactly when the constructor was given no quorum, 0, or a quorum from
1 to the number of guardians. -/
theorem recoveryGuarded_run_iff (owner : String) (guardians : Finset String)
    (largeTransferThreshold timelockSeconds : ℤ) (recoveryQuorum : Option ℤ)
    (account : SmartAccount)
    (hnew : SmartAccount.new owner guardians largeTransferThreshold timelockSeconds
      recoveryQuorum = .ok account) (calls : List AccountCall) :
    RecoveryGuarded (account.run calls) ↔
      recoveryQuorum = none ∨ recoveryQuorum = some 0 ∨
        ∃ quorum, recoveryQuorum = some quorum ∧ 1 ≤ quorum ∧ quorum ≤ guardians.card := by
  have hend := SmartAccount.consistent_run (SmartAccount.consistent_new hnew) calls
  have howner : (account.run calls).owner ∉ (account.run calls).guardians := by
    rw [hend.guardians]
    exact hend.owner
  obtain ⟨hne, -, -, -, rfl⟩ := SmartAccount.new_eq_ok_iff.mp hnew
  rw [SmartAccount.recoveryGuarded_iff_quorum howner, hend.guardians, hend.quorum]
  exact SmartAccount.quorumOrDefault_mem_iff hne recoveryQuorum

/-- With the default quorum. -/
theorem recoveryGuarded_run_iff_default :
    RecoveryGuarded (SmartAccount.run
      ⟨"owner", {"g1", "g2", "g3"}, 100, 86400,
        SmartAccount.quorumOrDefault {"g1", "g2", "g3"} none, ∅, 1⟩
      [.recoverOwner "new_owner" {"g1", "g2"}]) ↔
      (none : Option ℤ) = none ∨ (none : Option ℤ) = some 0 ∨
        ∃ quorum, (none : Option ℤ) = some quorum ∧ 1 ≤ quorum ∧
          quorum ≤ (({"g1", "g2", "g3"} : Finset String).card : ℤ) :=
  recoveryGuarded_run_iff "owner" {"g1", "g2", "g3"} 100 86400 none _
    (SmartAccount.new_eq_ok_iff.mpr ⟨by decide, by decide, by decide, by decide, rfl⟩) _

/-- A negative quorum: whoever asks becomes the owner, without any approval. -/
theorem recoverOwner_unguarded :
    ∃ account, SmartAccount.new "owner" {"g1", "g2", "g3"} 100 86400 (some (-1)) = .ok account ∧
      (account.perform (.recoverOwner "thief" ∅)).1 = .ok none ∧
      (account.perform (.recoverOwner "thief" ∅)).2.owner = "thief" := by
  refine ⟨_, SmartAccount.new_eq_ok_iff.mpr
    ⟨by decide, by decide, by decide, by decide, rfl⟩, ?_⟩
  rw [SmartAccount.perform_recoverOwner]
  decide

end Pbt
