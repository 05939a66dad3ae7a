/-
# The hash registry (`pbt/hash.py`)

The hash functions that callers hand to the module are callables of any kind: they may raise on
some inputs and return bytes of any length, and the probe sees one input only.  The module is
modelled with the variables that the three functions assign, which keep what a raising call has
assigned before it raised.

A hash function is registered under an identifier and activated by it, and the active one is a
variable of its own: `hashRegistry_run_iff` says which calls keep the two together.
-/
import PartitionedBinaryTree.HashSwitching
import PartitionedBinaryTree.Lib.Epochs

namespace Pbt

/-- A callable that is given to the module as a hash function. -/
abbrev PyCallable := Bytes → Py Bytes

/-- `result = fn(data)` and `assert len(result) == 32`. -/
def PyCallable.hash (fn : PyCallable) (data : Bytes) : Py Bytes := do
  let result ← fn data
  if result.length = 32 then pure result else .error ⟨.assertionError, ""⟩

/-- `probe = fn(b"probe")` and the check of its length. -/
def PyCallable.probe (fn : PyCallable) : Py Unit := do
  let digest ← fn [112, 114, 111, 98, 101]
  raiseIf (digest.length ≠ 32)
    ("Hash function must return 32 bytes, got " ++ toString digest.length)

/-- The module variables of `pbt/hash.py`. -/
structure HashVariables where
  hashRegistry : String → Option PyCallable
  activeHashId : String
  activeHash : PyCallable

namespace HashVariables

/-- The module at import. -/
def start (blake3Hash keccakHash poseidon2Hash : PyCallable) : HashVariables where
  hashRegistry hashId :=
    if hashId = "blake3" then some blake3Hash
    else if hashId = "keccak256" then some keccakHash
    else if hashId = "poseidon2" then some poseidon2Hash
    else none
  activeHashId := "blake3"
  activeHash := blake3Hash

/-- `register_hash_function`. -/
def registerHashFunction (hashId : String) (fn : PyCallable) : PyMethod HashVariables Unit := do
  PyMethod.ofPy (raiseIf (hashId = "") "hash_id must be non-empty")
  PyMethod.ofPy fn.probe
  modify fun self =>
    { self with hashRegistry := Function.update self.hashRegistry hashId (some fn) }

/-- `set_hash_function`. -/
def setHashFunction (fn : PyCallable) : PyMethod HashVariables Unit := do
  PyMethod.ofPy fn.probe
  modify fun self => { self with activeHash := fn }
  modify fun self => { self with activeHashId := "custom" }

/-- `set_hash_function_by_id`. -/
def setHashFunctionById (hashId : String) : PyMethod HashVariables Unit := do
  let self ← MonadState.get
  match self.hashRegistry hashId with
  | none => PyMethod.ofPy (raiseValueError ("Unknown hash function id: " ++ hashId))
  | some fn => do
      PyMethod.ofPy fn.probe
      modify fun self => { self with activeHash := fn }
      modify fun self => { self with activeHashId := hashId }

/-- `tree_hash`. -/
def treeHash (self : HashVariables) (data : Bytes) : Py Bytes := self.activeHash.hash data

end HashVariables

/-! ## Calls -/

/-- A call that changes the hash function or the registry. -/
inductive RegistryCall
  | registerHashFunction (hashId : String) (fn : PyCallable)
  | setHashFunction (fn : PyCallable)
  | setHashFunctionById (hashId : String)

namespace HashVariables

/-- The method that a call invokes. -/
def method : RegistryCall → PyMethod HashVariables Unit
  | .registerHashFunction hashId fn => registerHashFunction hashId fn
  | .setHashFunction fn => setHashFunction fn
  | .setHashFunctionById hashId => setHashFunctionById hashId

/-- The variables after a call, raising or not. -/
def step (self : HashVariables) (call : RegistryCall) : HashVariables :=
  ((method call).call self).2

/-- The call passes its checks: a name that is not empty or that is known, and the probe. -/
def Accepts (self : HashVariables) : RegistryCall → Prop
  | .registerHashFunction hashId fn => hashId ≠ "" ∧ fn.probe = .ok ()
  | .setHashFunction fn => fn.probe = .ok ()
  | .setHashFunctionById hashId => ∃ fn, self.hashRegistry hashId = some fn ∧ fn.probe = .ok ()

/-- What a call does: nothing, when it raises, or else the assignments of its function. -/
inductive Effect (self : HashVariables) : RegistryCall → Py Unit → HashVariables → Prop
  | raised {call : RegistryCall} (e : PyError) (h : ¬ self.Accepts call) :
      Effect self call (.error e) self
  | registered {hashId : String} {fn : PyCallable} (hid : hashId ≠ "") (hprobe : fn.probe = .ok ()) :
      Effect self (.registerHashFunction hashId fn) (.ok ())
        { self with hashRegistry := Function.update self.hashRegistry hashId (some fn) }
  | set {fn : PyCallable} (hprobe : fn.probe = .ok ()) :
      Effect self (.setHashFunction fn) (.ok ())
        { self with activeHash := fn, activeHashId := "custom" }
  | setById {hashId : String} {fn : PyCallable} (hfn : self.hashRegistry hashId = some fn)
      (hprobe : fn.probe = .ok ()) :
      Effect self (.setHashFunctionById hashId) (.ok ())
        { self with activeHash := fn, activeHashId := hashId }

/-- **Every call has such an effect.** -/
theorem effect_call (self : HashVariables) (call : RegistryCall) :
    Effect self call ((method call).call self).1 ((method call).call self).2 := by
  cases call with
  | registerHashFunction hashId fn =>
      rw [method, registerHashFunction, PyMethod.call_bind, PyMethod.call_ofPy]
      by_cases hid : hashId = ""
      · rw [raiseIf, if_pos hid]
        exact .raised _ fun h => h.1 hid
      · rw [raiseIf, if_neg hid]
        dsimp only
        rw [PyMethod.call_bind, PyMethod.call_ofPy]
        cases hprobe : fn.probe with
        | error e => exact .raised e fun h => by cases hprobe.symm.trans h.2
        | ok _ => exact .registered hid hprobe
  | setHashFunction fn =>
      rw [method, setHashFunction, PyMethod.call_bind, PyMethod.call_ofPy]
      cases hprobe : fn.probe with
      | error e => exact .raised e fun h => by cases hprobe.symm.trans h
      | ok _ => exact .set hprobe
  | setHashFunctionById hashId =>
      rw [method, setHashFunctionById, PyMethod.call_get_bind]
      cases hfn : self.hashRegistry hashId with
      | none =>
          refine .raised _ ?_
          rintro ⟨fn, hfn', -⟩
          cases hfn.symm.trans hfn'
      | some fn =>
          dsimp only
          rw [PyMethod.call_bind, PyMethod.call_ofPy]
          cases hprobe : fn.probe with
          | error e =>
              refine .raised e ?_
              rintro ⟨fn', hfn', hprobe'⟩
              cases hfn.symm.trans hfn'
              cases hprobe.symm.trans hprobe'
          | ok _ => exact .setById hfn hprobe

/-- A call that raises leaves the variables as they were. -/
theorem call_of_error {self : HashVariables} {call : RegistryCall} {e : PyError}
    (h : ((method call).call self).1 = .error e) : self.step call = self := by
  have heffect := effect_call self call
  rw [h] at heffect
  unfold step
  generalize ((method call).call self).2 = self' at heffect ⊢
  cases heffect
  rfl

/-! ## Coherence -/

/-- Unless the identifier is `"custom"`, `tree_hash` computes the function that is registered
under it. -/
def Coherent (self : HashVariables) : Prop :=
  self.activeHashId ≠ "custom" → ∃ fn, self.hashRegistry self.activeHashId = some fn ∧
    ∀ data, self.treeHash data = fn.hash data

/-- The call does not register, under the active identifier, a function that hashes some data
otherwise than the active one. -/
def KeepsActive (self : HashVariables) (call : RegistryCall) : Prop :=
  ∀ fn, call = .registerHashFunction self.activeHashId fn → self.Accepts call →
    self.activeHashId ≠ "custom" → ∀ data, self.activeHash.hash data = fn.hash data

theorem coherent_start (blake3Hash keccakHash poseidon2Hash : PyCallable) :
    (start blake3Hash keccakHash poseidon2Hash).Coherent := fun _ =>
  ⟨blake3Hash, rfl, fun _ => rfl⟩

/-- **One call** leaves coherent variables coherent exactly when it keeps the active function. -/
theorem coherent_step_iff (self : HashVariables) (call : RegistryCall) (h : self.Coherent) :
    (self.step call).Coherent ↔ self.KeepsActive call := by
  unfold step
  have heffect := effect_call self call
  generalize ((method call).call self).1 = outcome at heffect
  generalize hself' : ((method call).call self).2 = self' at heffect ⊢
  cases heffect with
  | raised e hrefused => exact iff_of_true h fun fn _ haccepts => absurd haccepts hrefused
  | @registered hashId fn hid hprobe =>
      by_cases hactive : hashId = self.activeHashId
      · subst hactive
        constructor
        · intro hcoherent fn' hcall _ hcustom
          cases hcall
          obtain ⟨fn', hfn', hhash⟩ := hcoherent hcustom
          rw [show fn' = fn from Option.some.inj (hfn'.symm.trans (Function.update_self _ _ _))]
            at hhash
          exact hhash
        · intro hkeeps hcustom
          exact ⟨fn, Function.update_self _ _ _, hkeeps fn rfl ⟨hid, hprobe⟩ hcustom⟩
      · refine iff_of_true (fun hcustom => ?_) fun fn' hcall => ?_
        · obtain ⟨fn', hfn', hhash⟩ := h hcustom
          refine ⟨fn', ?_, hhash⟩
          exact (Function.update_of_ne (Ne.symm hactive) _ _).trans hfn'
        · cases hcall
          exact absurd rfl hactive
  | @set fn hprobe =>
      exact iff_of_true (fun hcustom => absurd rfl hcustom) fun fn' hcall => by cases hcall
  | @setById hashId fn hfn hprobe =>
      exact iff_of_true (fun _ => ⟨fn, hfn, fun _ => rfl⟩) fun fn' hcall => by cases hcall

/-- The variables after a sequence of calls. -/
def after (start : HashVariables) (calls : List RegistryCall) : HashVariables :=
  calls.foldl step start

end HashVariables

/-! ## Processes -/

/-- A callable that hashes all data, or raises on all. -/
def HashCallable.callable : HashCallable → PyCallable
  | .ok hash => fun data => .ok (hash data).val
  | .error e => fun _ => .error e

/-- The variables of a module whose functions hash all data or raise on all. -/
def HashModule.variables (module : HashModule) : HashVariables where
  hashRegistry hashId := (module.hashRegistry hashId).map HashCallable.callable
  activeHashId := module.activeHashId
  activeHash data := .ok (module.activeHash data).val

/-- The call on the hash module that a call of a process is. -/
def ProcessCall.registryCall : ProcessCall → Option RegistryCall
  | .registerHashFunction hashId fn => some (.registerHashFunction hashId fn.callable)
  | .setHashFunction fn => some (.setHashFunction fn.callable)
  | .setHashFunctionById hashId => some (.setHashFunctionById hashId)
  | .tree _ _ => none

theorem probe_hashCallable (fn : HashCallable) : HashModule.probe fn = fn := by
  cases fn with
  | error e => rfl
  | ok hash =>
      rw [HashModule.probe, py_ok_bind]
      dsimp only
      rw [raiseIf, if_neg (not_not.mpr (hash _).property)]
      rfl

theorem probe_callable (fn : HashCallable) : fn.callable.probe = fn.map fun _ => () := by
  cases fn with
  | error e => rfl
  | ok hash =>
      rw [PyCallable.probe, HashCallable.callable, py_ok_bind, raiseIf,
        if_neg (not_not.mpr (hash _).property)]
      rfl

/-- **A call of a process** does to its hash module what the call does to the variables. -/
theorem variables_step (process : Process) (call : ProcessCall) :
    (process.step call).hashModule.variables =
      call.registryCall.elim process.hashModule.variables process.hashModule.variables.step := by
  cases call with
  | tree name call => rfl
  | registerHashFunction hashId fn =>
      show ((process.withModule _).hashModule).variables = HashVariables.step _ _
      rw [HashVariables.step, HashVariables.method, HashVariables.registerHashFunction,
        HashModule.registerHashFunction, PyMethod.call_bind, PyMethod.call_ofPy]
      by_cases hid : hashId = ""
      · rw [raiseIf, if_pos hid]
        rfl
      · rw [raiseIf, if_neg hid, py_ok_bind, probe_hashCallable]
        dsimp only
        rw [PyMethod.call_bind, PyMethod.call_ofPy, probe_callable]
        cases fn with
        | error e => rfl
        | ok hash =>
            have hupdate := Function.comp_update (Option.map HashCallable.callable)
              process.hashModule.hashRegistry hashId (some (.ok hash))
            exact congrArg (fun registry => HashVariables.mk registry _ _) hupdate
  | setHashFunction fn =>
      show ((process.withModule _).hashModule).variables = HashVariables.step _ _
      rw [HashVariables.step, HashVariables.method, HashVariables.setHashFunction,
        HashModule.setHashFunction, probe_hashCallable, PyMethod.call_bind, PyMethod.call_ofPy,
        probe_callable]
      cases fn with
      | error e => rfl
      | ok hash => rfl
  | setHashFunctionById hashId =>
      show ((process.withModule _).hashModule).variables = HashVariables.step _ _
      rw [HashVariables.step, HashVariables.method, HashVariables.setHashFunctionById,
        HashModule.setHashFunctionById, PyMethod.call_get_bind]
      have hregistry : process.hashModule.variables.hashRegistry hashId =
        (process.hashModule.hashRegistry hashId).map HashCallable.callable := rfl
      rw [hregistry]
      cases process.hashModule.hashRegistry hashId with
      | none => rfl
      | some fn =>
          dsimp only [Option.map_some]
          rw [probe_hashCallable, PyMethod.call_bind, PyMethod.call_ofPy, probe_callable]
          cases fn with
          | error e => rfl
          | ok hash => rfl

/-- **The hash module of a process** is the run of the calls on it in its history. -/
theorem variables_after (backends : Backends) (history : List ProcessCall) :
    (Process.after backends history).hashModule.variables =
      (HashModule.start backends).variables.after (history.filterMap ProcessCall.registryCall) := by
  induction history using List.reverseRecOn with
  | nil => rfl
  | append_singleton history call ih =>
      rw [Process.after_concat, variables_step, ih, List.filterMap_append, HashVariables.after,
        HashVariables.after, List.foldl_append]
      cases hcall : call.registryCall with
      | none => rw [List.filterMap_cons_none hcall]; rfl
      | some call' => rw [List.filterMap_cons_some hcall]; rfl

/-! ## Runs -/

/-- **When the hash registry stays coherent**: for every sequence of calls from the import on,
exactly when no call registers under the active identifier a function that hashes otherwise than
the active one; and a call that raises changes nothing. -/
theorem hashRegistry_run_iff (blake3Hash keccakHash poseidon2Hash : PyCallable)
    (calls : List RegistryCall) :
    let start := HashVariables.start blake3Hash keccakHash poseidon2Hash
    ((∀ past, past <+: calls → (start.after past).Coherent) ↔
      ∀ past call, past ++ [call] <+: calls → (start.after past).KeepsActive call) ∧
    ∀ past call, past ++ [call] <+: calls → ∀ e,
      ((HashVariables.method call).call (start.after past)).1 = .error e →
      ((HashVariables.method call).call (start.after past)).2 = start.after past := by
  intro start
  refine ⟨?_, fun past call _ e h => HashVariables.call_of_error h⟩
  exact Epochs.forall_prefix_iff (HashVariables.coherent_start _ _ _)
    HashVariables.coherent_step_iff calls

/-- Another function is registered under the identifier of the active one. -/
theorem not_coherent_reregistered :
    ¬ ((HashVariables.start (fun _ => .ok (zeroBytes 32)) (fun _ => .ok (zeroBytes 32))
      (fun _ => .ok (zeroBytes 32))).after
        [.registerHashFunction "blake3" fun _ => .ok onesDigest.val]).Coherent := by
  intro h
  obtain ⟨fn, hfn, hhash⟩ := h (by decide)
  cases hfn
  have hzero : PyCallable.hash (fun _ => .ok (zeroBytes 32)) [] =
    PyCallable.hash (fun _ => .ok onesDigest.val) [] := hhash []
  revert hzero
  decide

end Pbt
