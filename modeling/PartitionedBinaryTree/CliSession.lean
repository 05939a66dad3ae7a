/-
# The interactive session (`cli.py`)

A session holds a tree, an address and the proofs that were generated last for each
key.  A command line is cut into words, the first word names the command, and the
command prints lines and may change the session.

The session keeps old proofs while the tree changes.  What the answer `VALID` of
`verify` says about the tree is read off the history of the session: the key has now
the value it had when its proof was generated (`verify_valid_sound`), and for a stem
that the tree stored then, the tree is now what it was then (`verify_valid_iff`).
-/
import Mathlib.Data.Set.Card
import PartitionedBinaryTree.Lib.OrderedDict
import PartitionedBinaryTree.ProofCompleteness
import PartitionedBinaryTree.PyText

namespace Pbt

open Node

/-! ## Words of a command line -/

/-- `str.isspace` for one character. -/
def isUnicodeSpace (c : Char) : Bool :=
  (9 ≤ c.toNat && c.toNat ≤ 13) || (28 ≤ c.toNat && c.toNat ≤ 32) || c.toNat ∈ unicodeSpaces

/-- `text.strip().split()`. -/
def splitWords (text : String) : List String :=
  ((text.toList.splitOnP isUnicodeSpace).filter (· ≠ [])).map String.ofList

/-- `data.hex()[:16]`. -/
def hexHead (data : Bytes) : String := String.ofList ((bytesHex data).take 16)

/-! ## The session -/

/-- `PBTSession`. -/
structure PBTSession where
  root : Node
  address : Bytes
  recentProofs : OrderedDict String MerkleProof

/-- What the session takes from its surroundings: `str.lower`, and what `rpc_demo` and
`formal_dashboard` print, which leave the session alone. -/
structure CliTexts where
  lower : String → String
  demo : String → Bytes → List String

/-- Two trees that hold one value at a key read the same there. -/
theorem Holds.get_eq {t t' : Node} {key value : Bytes} (h : Holds t key value)
    (h' : Holds t' key value) : get t key = get t' key := by
  have hmap : (get t key).map Subtype.val = (get t' key).map Subtype.val := h.trans h'.symm
  rw [Holds] at h h'
  cases hget : get t key with
  | error e =>
      rw [hget] at h
      cases h
  | ok v =>
      cases hget' : get t' key with
      | error e =>
          rw [hget'] at h'
          cases h'
      | ok v' =>
          rw [hget, hget'] at hmap
          exact congrArg Except.ok (Subtype.ext (Except.ok.inj hmap))

namespace PBTSession

/-- `__init__`. -/
def init : PBTSession := ⟨emptyNode, zeroBytes 32, ∅⟩

/-- `_parse_hex_arg`. -/
def parseHexArg (value fieldName : String) (expectedLen : Option ℕ) : Py Bytes :=
  match bytesFromHex value.toList with
  | none => raiseValueError (fieldName ++ " must be valid hex")
  | some parsed =>
      match expectedLen with
      | none => .ok parsed
      | some n => do
          raiseIf (parsed.length ≠ n) (fieldName ++ " must be " ++ toString n ++ " bytes (" ++
            toString (n * 2) ++ " hex chars)")
          pure parsed

/-- The line for an exception: `ValueError` is caught by the command, any other one by
`process_command`. -/
def errorLine (e : PyError) : String :=
  if e.exc = .valueError then "✗ " ++ e.message else "✗ Error: " ++ e.message

/-- `cmd_new`. -/
def cmdNew (self : PBTSession) : PBTSession × List String :=
  ({ self with root := emptyNode, recentProofs := ∅ }, ["✓ Tree reset to EmptyNode"])

/-- `cmd_addr`. -/
def cmdAddr (self : PBTSession) : List String → PBTSession × List String
  | [] => (self, ["Current address: " ++ hexText self.address])
  | value :: _ =>
      match parseHexArg value "address" (some 32) with
      | .ok address =>
          ({ self with address := address }, ["✓ Address set to " ++ hexHead address ++ "..."])
      | .error _ => (self, ["✗ Address must be valid 32-byte hex"])

/-- `cmd_set`. -/
def cmdSet (self : PBTSession) : List String → PBTSession × List String
  | keyHex :: valueHex :: _ =>
      let inserted : Py (Bytes × Bytes × Node) := do
        let key ← parseHexArg keyHex "key" none
        let value ← parseHexArg valueHex "value" (some 32)
        let root ← insert self.root key value
        pure (key, value, root)
      match inserted with
      | .ok (key, value, root) =>
          ({ self with root := root },
            ["✓ Inserted " ++ hexHead key ++ "... = " ++ hexHead value ++ "..."])
      | .error e => (self, [errorLine e])
  | _ => (self, ["Usage: set <key> <value> (as hex)"])

/-- `cmd_get`. -/
def cmdGet (self : PBTSession) : List String → PBTSession × List String
  | keyHex :: _ =>
      let found : Py (Bytes × Value) := do
        let key ← parseHexArg keyHex "key" none
        let value ← get self.root key
        pure (key, value)
      match found with
      | .ok (key, value) =>
          if value = emptyValue then (self, ["✗ Key not found (returned EMPTY_VALUE)"])
          else (self, ["✓ " ++ hexHead key ++ "... = " ++ hexHead value.val ++ "..."])
      | .error e => (self, [errorLine e])
  | [] => (self, ["Usage: get <key> (as hex)"])

/-- `cmd_del`. -/
def cmdDel (self : PBTSession) : List String → PBTSession × List String
  | keyHex :: _ =>
      let deleted : Py (Bytes × Node) := do
        let key ← parseHexArg keyHex "key" none
        let root ← delete self.root key
        pure (key, root)
      match deleted with
      | .ok (key, root) => ({ self with root := root }, ["✓ Deleted " ++ hexHead key ++ "..."])
      | .error e => (self, [errorLine e])
  | [] => (self, ["Usage: del <key> (as hex)"])

/-- `count_nodes`: stems, internal nodes, and values that are not `EMPTY_VALUE`. -/
def countNodes : Node → ℕ × ℕ × ℕ
  | .emptyNode => (0, 0, 0)
  | .stemNode _ values => (1, 0, values.toList.countP (· ≠ emptyValue))
  | .internalNode left right =>
      let (stemsL, internalsL, leavesL) := countNodes left
      let (stemsR, internalsR, leavesR) := countNodes right
      (stemsL + stemsR, 1 + internalsL + internalsR, leavesL + leavesR)

section

variable (H : HashFunction)

/-- `cmd_root`. -/
def cmdRoot (self : PBTSession) : Logged Bytes (PBTSession × List String) := do
  let rh ← rootHash H self.root
  pure (self, ["Root hash: " ++ hexText rh.val])

/-- `cmd_info`. -/
def cmdInfo (self : PBTSession) : Logged Bytes (PBTSession × List String) := do
  let (stems, internals, leaves) := countNodes self.root
  let rh ← rootHash H self.root
  pure (self, ["Tree info:", "  Stems: " ++ toString stems,
    "  Internal nodes: " ++ toString internals, "  Leaves (non-empty): " ++ toString leaves,
    "  Root: " ++ hexHead rh.val ++ "..."])

/-- `cmd_proof`. -/
def cmdProof (self : PBTSession) : List String → Logged Bytes (PBTSession × List String)
  | keyHex :: _ =>
      let generated : Py (Bytes × Logged Bytes MerkleProof) := do
        let key ← parseHexArg keyHex "key" none
        let proof ← getProof H self.root key
        pure (key, proof)
      match generated with
      | .ok (key, generate) => do
          let proof ← generate
          let self' :=
            { self with recentProofs := OrderedDict.setItem (hexText key) proof self.recentProofs }
          let printed := ["✓ Generated proof for " ++ hexHead key ++ "...",
            "  Proof depth: " ++ toString proof.pathSiblings.length ++ " siblings",
            "  Value: " ++ hexHead proof.value ++ "..."]
          let rh ← rootHash H self.root
          match verifyProof H rh.val proof with
          | .ok verify => do
              let isValid ← verify
              pure (self', printed ++ ["  Valid: " ++ if isValid then "YES" else "NO"])
          | .error e => pure (self', printed ++ [errorLine e])
      | .error e => pure (self, [errorLine e])
  | [] => pure (self, ["Usage: proof <key> (as hex)"])

/-- The line that `verify` answers with. -/
def verdictLine (key : Bytes) (isValid : Bool) : String :=
  "Proof for " ++ hexHead key ++ "... : " ++ if isValid then "VALID ✓" else "INVALID ✗"

/-- `cmd_verify`. -/
def cmdVerify (self : PBTSession) : List String → Logged Bytes (PBTSession × List String)
  | keyHex :: _ =>
      match parseHexArg keyHex "key" none with
      | .ok key =>
          match self.recentProofs.lookup (hexText key) with
          | none => pure (self, ["✗ No proof stored for " ++ hexHead key ++ "...",
              "   Use 'proof <key>' first."])
          | some proof => do
              let rh ← rootHash H self.root
              match verifyProof H rh.val proof with
              | .ok verify => do
                  let isValid ← verify
                  pure (self, [verdictLine key isValid])
              | .error e => pure (self, [errorLine e])
      | .error e => pure (self, [errorLine e])
  | [] => pure (self, ["Usage: verify <key> (as hex)"])

/-- `cmd_proof_list`. -/
def cmdProofList (self : PBTSession) : PBTSession × List String :=
  if OrderedDict.items self.recentProofs = [] then
    (self, ["No proofs stored yet. Use 'proof <key>' to generate."])
  else (self, (OrderedDict.items self.recentProofs).map fun item =>
    "  " ++ String.ofList (item.1.toList.take 16) ++ "... (depth=" ++
      toString item.2.pathSiblings.length ++ ")")

variable (texts : CliTexts)

/-- The command and the arguments of a line. -/
def commandOf (line : String) : Option (String × List String) :=
  match splitWords line with
  | [] => none
  | name :: args => some (texts.lower name, args)

/-- The `commands` of `process_command`.  `help` takes no arguments and is called with one. -/
def commands : List (String × (PBTSession → List String → Logged Bytes (PBTSession × List String))) :=
  [("help", fun self _ => pure (self,
      ["✗ Error: PBTSession.help() takes 1 positional argument but 2 were given"])),
    ("new", fun self _ => pure (cmdNew self)),
    ("addr", fun self args => pure (cmdAddr self args)),
    ("set", fun self args => pure (cmdSet self args)),
    ("get", fun self args => pure (cmdGet self args)),
    ("del", fun self args => pure (cmdDel self args)),
    ("root", fun self _ => cmdRoot H self),
    ("info", fun self _ => cmdInfo H self),
    ("proof", fun self args => cmdProof H self args),
    ("verify", fun self args => cmdVerify H self args),
    ("rpc_demo", fun self _ => pure (self, texts.demo "rpc_demo" self.address)),
    ("formal_dashboard", fun self _ => pure (self, texts.demo "formal_dashboard" self.address)),
    ("proof_list", fun self _ => pure (cmdProofList self))]

/-- `process_command`. -/
def processCommand (self : PBTSession) (line : String) :
    Logged Bytes (PBTSession × List String) :=
  match commandOf texts line with
  | none => pure (self, [])
  | some (cmd, args) =>
      match (commands H texts).lookup cmd with
      | some method => method self args
      | none => pure (self,
          ["Unknown command '" ++ cmd ++ "'. Type 'help' for available commands."])

/-- The session after the lines of a history. -/
def process (self : PBTSession) (lines : List String) : Logged Bytes PBTSession :=
  lines.foldlM (fun self line => Prod.fst <$> processCommand H texts self line) self

end

/-! ## What a line does -/

variable {H : HashFunction} {texts : CliTexts} {self : PBTSession}

theorem parseHexArg_none_eq_ok_iff {value fieldName : String} {key : Bytes} :
    parseHexArg value fieldName none = .ok key ↔ bytesFromHex value.toList = some key := by
  unfold parseHexArg
  cases bytesFromHex value.toList with
  | none => simp [raiseValueError]
  | some parsed => simp

theorem hexText_injective : Function.Injective hexText := by
  intro a b h
  have hlist : bytesHex a = bytesHex b := by
    have := congrArg String.toList h
    rwa [hexText, hexText, String.toList_ofList, String.toList_ofList] at this
  rw [← Option.some_inj, ← bytesFromHex_bytesHex, hlist, bytesFromHex_bytesHex]

/-- The ways in which a line changes the session. -/
inductive Effect (H : HashFunction) (texts : CliTexts) (self : PBTSession) (line : String) :
    PBTSession → Prop
  | keep : Effect H texts self line self
  | addr (address : Bytes) : Effect H texts self line { self with address := address }
  | reset {args : List String} : commandOf texts line = some ("new", args) →
      Effect H texts self line (cmdNew self).1
  | update {op : TreeOp} {root : Node} : op.apply self.root = .ok root →
      Effect H texts self line { self with root := root }
  | proof {keyHex : String} {rest : List String} {key : Bytes} {p : Logged Bytes MerkleProof} :
      commandOf texts line = some ("proof", keyHex :: rest) →
      bytesFromHex keyHex.toList = some key → getProof H self.root key = .ok p →
      Effect H texts self line
        { self with recentProofs := OrderedDict.setItem (hexText key) p.val self.recentProofs }

theorem Effect.of_eq {line : String} {self' : PBTSession} (h : self' = self) :
    Effect H texts self line self' := h ▸ .keep

theorem effect_cmdAddr {line : String} (args : List String) :
    Effect H texts self line (cmdAddr self args).1 := by
  cases args with
  | nil => exact .keep
  | cons value rest =>
      rw [cmdAddr]
      split
      · exact .addr _
      · exact .keep

theorem effect_cmdSet {line : String} (args : List String) :
    Effect H texts self line (cmdSet self args).1 := by
  unfold cmdSet
  split
  · dsimp only
    split
    · rename_i key value root hinserted
      simp only [py_bind_eq_ok_iff, pure, Except.pure, Except.ok.injEq, Prod.mk.injEq] at hinserted
      obtain ⟨key, -, value, -, root, hinsert, rfl, rfl, rfl⟩ := hinserted
      have hop : (TreeOp.insert key value).apply self.root = .ok root := hinsert
      exact .update hop
    · exact .keep
  · exact .keep

theorem cmdGet_fst (self : PBTSession) (args : List String) : (cmdGet self args).1 = self := by
  unfold cmdGet
  split
  · dsimp only
    split
    · split_ifs <;> rfl
    · rfl
  · rfl

theorem effect_cmdDel {line : String} (args : List String) :
    Effect H texts self line (cmdDel self args).1 := by
  unfold cmdDel
  split
  · dsimp only
    split
    · rename_i key root hdeleted
      simp only [py_bind_eq_ok_iff, pure, Except.pure, Except.ok.injEq, Prod.mk.injEq] at hdeleted
      obtain ⟨key, -, root, hdelete, rfl, rfl⟩ := hdeleted
      have hop : (TreeOp.delete key).apply self.root = .ok root := hdelete
      exact .update hop
    · exact .keep
  · exact .keep

/-- A proof that is generated is stored under its key, and the root that it is checked against
is hashed. -/
theorem cmdProof_of_getProof {keyHex : String} (rest : List String) {key : Bytes}
    {p : Logged Bytes MerkleProof} (hkey : bytesFromHex keyHex.toList = some key)
    (hp : getProof H self.root key = .ok p) :
    (cmdProof H self (keyHex :: rest)).val.1 =
        { self with recentProofs := OrderedDict.setItem (hexText key) p.val self.recentProofs } ∧
      (rootHash H self.root).queries ⊆ (cmdProof H self (keyHex :: rest)).queries := by
  have hgenerated : (do
      let key ← parseHexArg keyHex "key" none
      let proof ← getProof H self.root key
      pure (key, proof) : Py (Bytes × Logged Bytes MerkleProof)) = .ok (key, p) := by
    rw [parseHexArg_none_eq_ok_iff.mpr hkey, py_ok_bind, hp]
    rfl
  simp only [cmdProof, hgenerated, Logged.val_bind, Logged.queries_bind]
  constructor
  · split <;> rfl
  · exact List.Subset.trans (List.subset_append_left _ _) (List.subset_append_right _ _)

theorem effect_cmdProof {line : String} {args : List String}
    (hline : commandOf texts line = some ("proof", args)) :
    Effect H texts self line (cmdProof H self args).val.1 := by
  cases args with
  | nil => exact .keep
  | cons keyHex rest =>
      cases hkey : bytesFromHex keyHex.toList with
      | none =>
          have hparse : parseHexArg keyHex "key" none = raiseValueError "key must be valid hex" := by
            rw [parseHexArg, hkey]
            rfl
          rw [cmdProof, hparse]
          exact .keep
      | some key =>
          cases hp : getProof H self.root key with
          | error e =>
              rw [cmdProof, parseHexArg_none_eq_ok_iff.mpr hkey, py_ok_bind, hp]
              exact .keep
          | ok p =>
              rw [(cmdProof_of_getProof rest hkey hp).1]
              exact .proof hline hkey hp

theorem cmdVerify_fst (self : PBTSession) (args : List String) :
    (cmdVerify H self args).val.1 = self := by
  unfold cmdVerify
  split
  · split
    · split
      · rfl
      · simp only [Logged.val_bind]
        split <;> rfl
    · rfl
  · rfl

theorem cmdProofList_fst (self : PBTSession) : (cmdProofList self).1 = self := by
  unfold cmdProofList
  split_ifs <;> rfl

theorem effect_commands {line : String} : ∀ e ∈ commands H texts, ∀ args,
    commandOf texts line = some (e.1, args) → Effect H texts self line (e.2 self args).val.1 := by
  simp only [commands, List.forall_mem_cons]
  exact ⟨fun _ _ => .keep, fun _ hline => .reset hline, fun args _ => effect_cmdAddr args,
    fun args _ => effect_cmdSet args, fun args _ => .of_eq (cmdGet_fst self args),
    fun args _ => effect_cmdDel args, fun _ _ => .keep, fun _ _ => .keep,
    fun _ hline => effect_cmdProof hline, fun args _ => .of_eq (cmdVerify_fst self args),
    fun _ _ => .keep, fun _ _ => .keep, fun _ _ => .of_eq (cmdProofList_fst self),
    List.forall_mem_nil _⟩

/-- **What a line does to the session.** -/
theorem effect_processCommand (self : PBTSession) (line : String) :
    Effect H texts self line (processCommand H texts self line).val.1 := by
  unfold processCommand
  split
  · exact .keep
  rename_i cmd args hline
  split
  · rename_i method hmethod
    obtain ⟨before, after, hcommands, -⟩ := List.lookup_eq_some_iff.mp hmethod
    have hmem : (cmd, method) ∈ commands H texts := by
      rw [hcommands]
      exact List.mem_append_right _ List.mem_cons_self
    exact effect_commands (cmd, method) hmem args hline
  · exact .keep

/-! ## Histories -/

theorem process_append (self : PBTSession) (xs ys : List String) :
    process H texts self (xs ++ ys) =
      process H texts self xs >>= fun self => process H texts self ys :=
  List.foldlM_append

theorem process_singleton (self : PBTSession) (line : String) :
    process H texts self [line] = Prod.fst <$> processCommand H texts self line := by
  rw [process, List.foldlM_cons]
  exact bind_pure _

theorem val_process_concat (self : PBTSession) (lines : List String) (line : String) :
    (process H texts self (lines ++ [line])).val =
      (processCommand H texts (process H texts self lines).val line).val.1 := by
  rw [process_append, Logged.val_bind, process_singleton, Logged.val_map]

/-- The strings hashed for a line of a history are hashed in the history. -/
theorem queries_processCommand_subset (H : HashFunction) (texts : CliTexts) (self : PBTSession)
    (before : List String) (line : String) (after : List String) :
    (processCommand H texts (process H texts self before).val line).queries ⊆
      (process H texts self (before ++ line :: after)).queries := by
  rw [process_append, Logged.queries_bind, ← List.singleton_append, process_append,
    Logged.queries_bind, process_singleton, Logged.queries_map]
  exact List.Subset.trans (List.subset_append_left _ _) (List.subset_append_right _ _)

/-- The tree of a session is the tree of a run. -/
theorem reachable_process (lines : List String) :
    Reachable (process H texts init lines).val.root := by
  induction lines using List.reverseRecOn with
  | nil => exact ⟨[], rfl⟩
  | append_singleton lines line ih =>
      obtain ⟨ops, hops⟩ := ih
      rw [val_process_concat]
      generalize hself : (processCommand H texts (process H texts init lines).val line).val.1 =
        self'
      have heffect : Effect H texts _ line self' := hself ▸ effect_processCommand _ line
      cases heffect with
      | keep => exact ⟨ops, hops⟩
      | addr address => exact ⟨ops, hops⟩
      | reset _ => exact ⟨[], rfl⟩
      | @update op root hop =>
          refine ⟨ops ++ [op], ?_⟩
          rw [run_concat, ← hops, step_of_ok hop]
      | proof _ _ _ => exact ⟨ops, hops⟩

/-- The line generates a proof for the key. -/
def Proves (texts : CliTexts) (key : Bytes) (line : String) : Prop :=
  ∃ keyHex rest, commandOf texts line = some ("proof", keyHex :: rest) ∧
    bytesFromHex keyHex.toList = some key

/-- A stored proof was generated by a line of the history, for the tree of that time. -/
theorem exists_proves_of_lookup {history : List String} {name : String} {proof : MerkleProof}
    (h : (process H texts init history).val.recentProofs.lookup name = some proof) :
    ∃ before line after key p, history = before ++ line :: after ∧ Proves texts key line ∧
      name = hexText key ∧ getProof H (process H texts init before).val.root key = .ok p ∧
      p.val = proof := by
  induction history using List.reverseRecOn with
  | nil => cases h
  | append_singleton history line ih =>
      -- a proof that was stored before stays where it is in the history
      have hstored : (process H texts init history).val.recentProofs.lookup name = some proof →
          ∃ before line' after key p, history ++ [line] = before ++ line' :: after ∧
            Proves texts key line' ∧ name = hexText key ∧
            getProof H (process H texts init before).val.root key = .ok p ∧ p.val = proof := by
        intro hold
        obtain ⟨before, line', after, key, p, hhistory, hrest⟩ := ih hold
        exact ⟨before, line', after ++ [line], key, p, by rw [hhistory]; simp, hrest⟩
      rw [val_process_concat] at h
      generalize hself : (processCommand H texts (process H texts init history).val line).val.1 =
        self' at h
      have heffect : Effect H texts _ line self' := hself ▸ effect_processCommand _ line
      cases heffect with
      | keep => exact hstored h
      | addr address => exact hstored h
      | reset _ => cases h
      | update _ => exact hstored h
      | @proof keyHex rest key p hline hkey hp =>
          dsimp only at h
          rw [OrderedDict.lookup_setItem] at h
          split_ifs at h with hname
          · cases h
            exact ⟨history, line, [], key, p, rfl, ⟨keyHex, rest, hline, hkey⟩, hname, hp, rfl⟩
          · exact hstored h

/-- The line drops the stored proof of the key, or replaces it. -/
def Resets (texts : CliTexts) (key : Bytes) (line : String) : Prop :=
  (∃ args, commandOf texts line = some ("new", args)) ∨ Proves texts key line

/-- Other lines leave the stored proof. -/
theorem lookup_processCommand {key : Bytes} {line : String} (hline : ¬ Resets texts key line) :
    (processCommand H texts self line).val.1.recentProofs.lookup (hexText key) =
      self.recentProofs.lookup (hexText key) := by
  generalize hself : (processCommand H texts self line).val.1 = self'
  have heffect : Effect H texts self line self' := hself ▸ effect_processCommand _ line
  cases heffect with
  | keep => rfl
  | addr address => rfl
  | reset hnew => exact absurd (Or.inl ⟨_, hnew⟩) hline
  | update _ => rfl
  | @proof keyHex rest key' p hproof hkey hp =>
      dsimp only
      rw [OrderedDict.lookup_setItem, if_neg]
      intro hname
      cases hexText_injective hname
      exact hline (Or.inr ⟨keyHex, rest, hproof, hkey⟩)

theorem lookup_process {key : Bytes} {lines : List String}
    (hlines : ∀ line ∈ lines, ¬ Resets texts key line) :
    (process H texts self lines).val.recentProofs.lookup (hexText key) =
      self.recentProofs.lookup (hexText key) := by
  induction lines using List.reverseRecOn with
  | nil => rfl
  | append_singleton lines line ih =>
      rw [val_process_concat, lookup_processCommand (hlines line (by simp)),
        ih fun line' h => hlines line' (List.mem_append_left _ h)]

/-! ## What `info` counts -/

/-- The keys of the values that `info` counts, in the order of the tree. -/
def liveKeys (t : Node) : List Bytes :=
  t.leaves.flatMap fun p =>
    ((List.finRange stemSubtreeWidth).filter fun i => getElem p.2 i i.isLt ≠ emptyValue).map
      (joinKey p.1)

theorem countP_stemValues (values : StemValues) :
    values.toList.countP (· ≠ emptyValue) = ((List.finRange stemSubtreeWidth).filter
      fun i => getElem values i i.isLt ≠ emptyValue).length := by
  have hlist : values.toList =
      (List.finRange stemSubtreeWidth).map fun i => getElem values i i.isLt := by
    apply List.ext_getElem
    · simp
    · intro n h h'
      simp
  rw [← List.countP_eq_length_filter, hlist, List.countP_map]
  rfl

theorem countNodes_internalNode (l r : Node) :
    countNodes (internalNode l r) = ((countNodes l).1 + (countNodes r).1,
      1 + (countNodes l).2.1 + (countNodes r).2.1, (countNodes l).2.2 + (countNodes r).2.2) := rfl

/-- The three numbers, from the stems of the tree. -/
theorem countNodes_eq (t : Node) :
    (countNodes t).1 = t.leaves.length ∧ (countNodes t).2.2 = (liveKeys t).length ∧
      (countNodes t).1 ≤ (countNodes t).2.1 + 1 := by
  induction t with
  | empty => exact ⟨rfl, rfl, Nat.zero_le _⟩
  | leaf s vs =>
      refine ⟨rfl, ?_, le_rfl⟩
      show vs.toList.countP (· ≠ emptyValue) = _
      rw [countP_stemValues]
      simp [liveKeys]
  | node l r ihl ihr =>
      obtain ⟨hstemsL, hleavesL, hboundL⟩ := ihl
      obtain ⟨hstemsR, hleavesR, hboundR⟩ := ihr
      have hlive : (liveKeys (.node l r)).length = (liveKeys l).length + (liveKeys r).length := by
        rw [liveKeys, BitTrie.leaves_node, List.flatMap_append, List.length_append]
        rfl
      rw [countNodes_internalNode, BitTrie.leaves_node, List.length_append, hlive, ← hstemsL,
        ← hstemsR, ← hleavesL, ← hleavesR]
      refine ⟨rfl, rfl, ?_⟩
      dsimp only
      omega

theorem nodup_liveKeys {t : Node} (ht : WellFormed t) : (liveKeys t).Nodup := by
  refine List.nodup_flatMap.mpr ⟨fun p _ => ?_, ?_⟩
  · exact ((List.nodup_finRange _).filter _).map fun i i' h => (joinKey_inj.mp h).2
  · refine (List.pairwise_map.mp ht.placed.nodup_keys).imp fun {p q} hne => ?_
    rw [Function.onFun, List.disjoint_left]
    intro key hp hq
    obtain ⟨i, -, rfl⟩ := List.mem_map.mp hp
    obtain ⟨i', -, hkey⟩ := List.mem_map.mp hq
    exact hne (joinKey_inj.mp hkey).1.symm

theorem mem_liveKeys_iff {t : Node} (ht : Reachable t) {key : Bytes} :
    key ∈ liveKeys t ↔ ∃ v, get t key = .ok v ∧ v ≠ emptyValue := by
  have hread : ∀ {s : Bytes} (i : Fin stemSubtreeWidth), s ≠ [] →
      get t (joinKey s i) = .ok (getElem ((storedStem t s).getD emptyStem) i i.isLt) :=
    fun i hs => get_joinKey hs i
  simp only [liveKeys, List.mem_flatMap, List.mem_map, List.mem_filter, decide_eq_true_eq]
  constructor
  · rintro ⟨⟨s, vs⟩, hleaf, i, ⟨-, hne⟩, rfl⟩
    refine ⟨getElem vs i i.isLt, ?_, hne⟩
    rw [hread i (ht.prefix_ne_nil _ hleaf), ht.wellFormed.storedStem_eq_some_iff.mpr hleaf]
    rfl
  · rintro ⟨v, hget, hne⟩
    have hlen : 2 ≤ key.length := by
      by_contra hshort
      rw [get_of_short (not_le.mp hshort)] at hget
      cases hget
    obtain ⟨s, i, hsplit, rfl⟩ := exists_splitKey hlen
    rw [hread i (two_le_length_joinKey_iff.mp hlen)] at hget
    cases hstem : storedStem t s with
    | none =>
        rw [hstem] at hget
        cases hget
        exact absurd (by simp [emptyStem]) hne
    | some vs =>
        rw [hstem] at hget
        cases hget
        exact ⟨(s, vs), ht.wellFormed.storedStem_eq_some_iff.mp hstem, i,
          ⟨List.mem_finRange i, hne⟩, rfl⟩

theorem ncard_of_nodup {α : Type} {s : Set α} {l : List α} (hl : l.Nodup)
    (hmem : ∀ x, x ∈ s ↔ x ∈ l) : s.ncard = l.length := by
  classical
  have hs : s = (l.toFinset : Set α) := by
    ext x
    rw [hmem, Finset.mem_coe, List.mem_toFinset]
  rw [hs, Set.ncard_coe_finset, List.toFinset_card_of_nodup hl]

/-- **The numbers of `info`.**  After every history the stems are the prefixes that the tree stores,
the leaves are the keys whose value is not `EMPTY_VALUE`, and there is at most one stem more than
internal nodes. -/
theorem countNodes_process (H : HashFunction) (texts : CliTexts) (history : List String) :
    let root := (process H texts init history).val.root
    (countNodes root).1 = Set.ncard {s | storedStem root s ≠ none} ∧
      (countNodes root).2.2 = Set.ncard {key | ∃ v, get root key = .ok v ∧ v ≠ emptyValue} ∧
      (countNodes root).1 ≤ (countNodes root).2.1 + 1 := by
  intro root
  have ht : Reachable root := reachable_process history
  obtain ⟨hstems, hleaves, hbound⟩ := countNodes_eq root
  refine ⟨?_, ?_, hbound⟩
  · rw [hstems, ← List.length_map Prod.fst]
    refine (ncard_of_nodup ht.wellFormed.placed.nodup_keys fun s => ?_).symm
    show storedStem root s ≠ none ↔ _
    rw [Option.ne_none_iff_exists', List.mem_map]
    constructor
    · rintro ⟨vs, hstem⟩
      exact ⟨(s, vs), ht.wellFormed.storedStem_eq_some_iff.mp hstem, rfl⟩
    · rintro ⟨⟨s, vs⟩, hleaf, rfl⟩
      exact ⟨vs, ht.wellFormed.storedStem_eq_some_iff.mpr hleaf⟩
  · rw [hleaves]
    exact (ncard_of_nodup (nodup_liveKeys ht.wellFormed) fun key =>
      (mem_liveKeys_iff ht).symm).symm

/-! ## What `verify` says -/

theorem verdictLine_injective (key : Bytes) : Function.Injective (verdictLine key) := by
  intro b b' h
  have htext : (if b then "VALID ✓" else "INVALID ✗") = if b' then "VALID ✓" else "INVALID ✗" :=
    (String.append_right_inj _).mp h
  cases b <;> cases b' <;> simp_all

/-- The line of an error is no verdict. -/
theorem errorLine_ne_verdictLine (e : PyError) (key : Bytes) (isValid : Bool) :
    errorLine e ≠ verdictLine key isValid := by
  intro h
  have hhead := congrArg (fun text : String => text.toList.head?) h
  unfold errorLine verdictLine at hhead
  split_ifs at hhead <;> simp at hhead

/-- `verify` on a stored proof that can be checked. -/
theorem cmdVerify_of_lookup {keyHex : String} (rest : List String) {key : Bytes}
    {proof : MerkleProof} {w : Logged Bytes Bool} (hkey : bytesFromHex keyHex.toList = some key)
    (hlookup : self.recentProofs.lookup (hexText key) = some proof)
    (hverify : verifyProof H (rootHash H self.root).val.val proof = .ok w) :
    cmdVerify H self (keyHex :: rest) =
      ⟨(self, [verdictLine key w.val]), (rootHash H self.root).queries ++ w.queries⟩ := by
  rw [cmdVerify, parseHexArg_none_eq_ok_iff.mpr hkey]
  dsimp only
  rw [hlookup]
  show Logged.mk _ _ = _
  dsimp only
  rw [hverify]
  show Logged.mk _ (_ ++ (w.queries ++ [])) = _
  rw [List.append_nil]
  rfl

/-- An answer of `verify` is about a stored proof. -/
theorem exists_lookup_of_verdict {keyHex : String} {rest : List String} {key : Bytes}
    {isValid : Bool} (hkey : bytesFromHex keyHex.toList = some key)
    (h : (cmdVerify H self (keyHex :: rest)).val.2 = [verdictLine key isValid]) :
    ∃ proof w, self.recentProofs.lookup (hexText key) = some proof ∧
      verifyProof H (rootHash H self.root).val.val proof = .ok w ∧ w.val = isValid := by
  cases hlookup : self.recentProofs.lookup (hexText key) with
  | none =>
      rw [cmdVerify, parseHexArg_none_eq_ok_iff.mpr hkey] at h
      dsimp only at h
      rw [hlookup] at h
      simp at h
  | some proof =>
      cases hverify : verifyProof H (rootHash H self.root).val.val proof with
      | error e =>
          rw [cmdVerify, parseHexArg_none_eq_ok_iff.mpr hkey] at h
          dsimp only at h
          rw [hlookup] at h
          simp only [Logged.val_bind, hverify, Logged.val_pure, List.cons.injEq, and_true] at h
          exact absurd h (errorLine_ne_verdictLine e key isValid)
      | ok w =>
          rw [cmdVerify_of_lookup rest hkey hlookup hverify] at h
          exact ⟨proof, w, rfl, hverify, verdictLine_injective key (List.singleton_inj.mp h)⟩

theorem processCommand_verify {line : String} {args : List String}
    (hline : commandOf texts line = some ("verify", args)) :
    processCommand H texts self line = cmdVerify H self args := by
  rw [processCommand, hline]
  rfl

theorem processCommand_proof {line : String} {args : List String}
    (hline : commandOf texts line = some ("proof", args)) :
    processCommand H texts self line = cmdProof H self args := by
  rw [processCommand, hline]
  rfl

/-- **Soundness of `VALID`.**  When `verify` answers `VALID` for a key, a proof for the key was
generated earlier in the session, and the key has now the value that it had then, unless two of
the strings hashed in the session collide. -/
theorem verify_valid_sound (H : HashFunction) (texts : CliTexts) (history : List String)
    {line keyHex : String} {rest : List String} {key : Bytes}
    (hline : commandOf texts line = some ("verify", keyHex :: rest))
    (hkey : bytesFromHex keyHex.toList = some key)
    (hvalid : (processCommand H texts (process H texts init history).val line).val.2 =
      [verdictLine key true]) :
    ∃ before proofLine after, history = before ++ proofLine :: after ∧
      Proves texts key proofLine ∧
      (get (process H texts init before).val.root key =
          get (process H texts init history).val.root key ∨
        Collision H (process H texts init (history ++ [line])).queries) := by
  rw [processCommand_verify hline] at hvalid
  obtain ⟨proof, w, hlookup, hverify, hacc⟩ := exists_lookup_of_verdict hkey hvalid
  have hqueries := congrArg Logged.queries (cmdVerify_of_lookup rest hkey hlookup hverify)
  obtain ⟨before, proofLine, after, key', p, hhistory, hproves, hname, hp, rfl⟩ :=
    exists_proves_of_lookup hlookup
  cases hexText_injective hname
  refine ⟨before, proofLine, after, hhistory, hproves, ?_⟩
  -- the stored proof has the widths that make it sound
  obtain ⟨hpkey, -, hvalues, -, -, hsiblings, -⟩ := getProof_widths hp
  have hsound := soundAt_of_widths (H := H) (reachable_process history) hvalues
    (fun σ hσ => by rw [hsiblings σ hσ]; norm_num) w hverify hacc
  rcases hsound with hholds | hcol
  · rw [hpkey] at hholds
    exact Or.inl ((holds_getProof hp).get_eq hholds)
  · right
    have hsubset := queries_processCommand_subset H texts init history line []
    rw [processCommand_verify hline, hqueries] at hsubset
    exact hcol.mono hsubset

/-- A key whose stem is stored is a key that splits. -/
theorem exists_splitKey_of_storedStem {t : Node} (ht : Reachable t) {key : Bytes}
    {vs : StemValues} (hstem : storedStem t key.dropLast = some vs) :
    ∃ s i, splitKey key = .ok (s, i) ∧ key = joinKey s i := by
  apply exists_splitKey
  by_contra hshort
  refine ht.prefix_ne_nil _ (ht.wellFormed.storedStem_eq_some_iff.mp hstem) ?_
  rw [← List.length_eq_zero_iff, List.length_dropLast]
  omega

/-- On the proof of a stored stem the verifier climbs back to the root of that time. -/
theorem verifyProof_of_storedStem {t : Node} {key s : Bytes} {i : Fin stemSubtreeWidth}
    {p : Logged Bytes MerkleProof} {vs : StemValues} (hkey : splitKey key = .ok (s, i))
    (hstem : storedStem t s = some vs) (hp : getProof H t key = .ok p) (rh : Digest) :
    ∃ w, verifyProof H rh.val p.val = .ok w ∧ (w.val = true ↔ (rootHash H t).val = rh) := by
  obtain ⟨w, hw, hval⟩ := verifyProof_getProof hkey hp rh.val
  have hleaf : H (stemPayload s (stemBytes ((storedStem t s).getD emptyStem))) =
      (nodeHash H (walkEnd s t 0)).val := by
    rw [walkEnd_of_storedStem hstem, hstem]
    rfl
  refine ⟨w, hw, ?_⟩
  rw [hval, hleaf, climb_proofPath, beq_iff_eq, Subtype.ext_iff]
  rfl

/-- The verdict on a proof that was generated for a stored stem and not replaced since, and the
strings that are hashed for it. -/
theorem verdict_of_stored (H : HashFunction) (texts : CliTexts) (before between : List String)
    {proofLine line keyHex : String} {rest : List String} {key : Bytes}
    (hproof : Proves texts key proofLine)
    (hbetween : ∀ l ∈ between, ¬ Resets texts key l)
    (hline : commandOf texts line = some ("verify", keyHex :: rest))
    (hkey : bytesFromHex keyHex.toList = some key)
    (hstored : storedStem (process H texts init before).val.root key.dropLast ≠ none) :
    ∃ w : Logged Bytes Bool,
      processCommand H texts (process H texts init (before ++ proofLine :: between)).val line =
        ⟨((process H texts init (before ++ proofLine :: between)).val, [verdictLine key w.val]),
          (rootHash H (process H texts init (before ++ proofLine :: between)).val.root).queries ++
            w.queries⟩ ∧
      (w.val = true ↔ (rootHash H (process H texts init before).val.root).val =
        (rootHash H (process H texts init (before ++ proofLine :: between)).val.root).val) ∧
      (rootHash H (process H texts init before).val.root).queries ⊆
        (process H texts init (before ++ proofLine :: between)).queries := by
  obtain ⟨vs, hstem⟩ := Option.ne_none_iff_exists'.mp hstored
  obtain ⟨s, i, hsplit, rfl⟩ := exists_splitKey_of_storedStem (reachable_process before) hstem
  rw [dropLast_joinKey] at hstem
  obtain ⟨p, hp, -⟩ := getProof_spec (H := H) (process H texts init before).val.root hsplit
  obtain ⟨keyHex', rest', hproofLine, hproofKey⟩ := hproof
  obtain ⟨hcmd, hqueries⟩ := cmdProof_of_getProof rest' hproofKey hp
  rw [← processCommand_proof hproofLine] at hcmd hqueries
  -- the proof is stored, and stays stored
  have hlookup : (process H texts init (before ++ proofLine :: between)).val.recentProofs.lookup
      (hexText (joinKey s i)) = some p.val := by
    rw [← List.singleton_append, ← List.append_assoc, process_append, Logged.val_bind,
      lookup_process hbetween, val_process_concat, hcmd]
    dsimp only
    rw [OrderedDict.lookup_setItem, if_pos rfl]
  obtain ⟨w, hw, hacc⟩ := verifyProof_of_storedStem hsplit hstem hp
    (rootHash H (process H texts init (before ++ proofLine :: between)).val.root).val
  refine ⟨w, ?_, hacc, ?_⟩
  · rw [processCommand_verify hline, cmdVerify_of_lookup rest hkey hlookup hw]
  · exact List.Subset.trans hqueries
      (queries_processCommand_subset H texts init before proofLine between)

/-- **What `VALID` means.**  A proof is generated for a key whose stem is stored, and no later
line replaces it.  `verify` then answers `VALID` exactly when the tree is again what it was when
the proof was generated, unless two of the strings hashed in the session collide. -/
theorem verify_valid_iff (H : HashFunction) (texts : CliTexts) (before between : List String)
    {proofLine line keyHex : String} {rest : List String} {key : Bytes}
    (hproof : Proves texts key proofLine)
    (hbetween : ∀ l ∈ between, ¬ Resets texts key l)
    (hline : commandOf texts line = some ("verify", keyHex :: rest))
    (hkey : bytesFromHex keyHex.toList = some key)
    (hstored : storedStem (process H texts init before).val.root key.dropLast ≠ none) :
    ((processCommand H texts (process H texts init (before ++ proofLine :: between)).val
        line).val.2 = [verdictLine key true] ∨
      Collision H (process H texts init (before ++ proofLine :: between ++ [line])).queries) ↔
    ((process H texts init (before ++ proofLine :: between)).val.root =
        (process H texts init before).val.root ∨
      Collision H (process H texts init (before ++ proofLine :: between ++ [line])).queries) := by
  obtain ⟨w, hcmd, hacc, hthen⟩ :=
    verdict_of_stored H texts before between hproof hbetween hline hkey hstored
  have hnow := queries_processCommand_subset H texts init (before ++ proofLine :: between) line []
  rw [hcmd] at hnow ⊢
  rw [List.singleton_inj, (verdictLine_injective key).eq_iff, hacc]
  refine (or_collision_congr (fun h => ?_) fun h => ?_).symm
  · rw [h]
  · rcases eq_or_collision_of_nodeHash_eq _ _ h with heq | hcol
    · exact Or.inl heq.symm
    · refine Or.inr (hcol.mono (List.append_subset.mpr ⟨?_, ?_⟩))
      · rw [process_append, Logged.queries_bind]
        exact List.Subset.trans hthen (List.subset_append_left _ _)
      · exact List.Subset.trans (List.subset_append_left _ _) hnow

/-! ### A session -/

/-- Surroundings in which the words are lower case and the demonstrations print nothing. -/
def quietTexts : CliTexts := ⟨id, fun _ _ => []⟩

/-- A line that stores a value under the key `07 00`. -/
def setLine : String :=
  "set 0700 0101010101010101010101010101010101010101010101010101010101010101"

theorem root_process_setLine (H : HashFunction) :
    (process H quietTexts init [setLine]).val.root = stemNode [7] (emptyStem.set 0 onesDigest) :=
  rfl

theorem proves_proofLine : Proves quietTexts [7, 0] "proof 0700" := ⟨"0700", [], rfl, rfl⟩

theorem not_resets_root : ∀ l ∈ ["root"], ¬ Resets quietTexts [7, 0] l := by
  intro l hl
  have hroot : commandOf quietTexts "root" = some ("root", []) := rfl
  rw [List.mem_singleton.mp hl]
  rintro (⟨args, hnew⟩ | ⟨keyHex, rest, hproof, -⟩)
  · simp [hroot] at hnew
  · simp [hroot] at hproof

theorem storedStem_setLine (H : HashFunction) :
    storedStem (process H quietTexts init [setLine]).val.root [7, 0].dropLast ≠ none := by
  rw [root_process_setLine]
  exact Option.some_ne_none _

/-- Its proof is answered `VALID` while the tree stays. -/
theorem verify_valid_iff_setLine :
    ((processCommand (fun _ => emptyValue) quietTexts (process (fun _ => emptyValue) quietTexts
        init ([setLine] ++ "proof 0700" :: ["root"])).val "verify 0700").val.2 =
          [verdictLine [7, 0] true] ∨
      Collision (fun _ => emptyValue) (process (fun _ => emptyValue) quietTexts init
        ([setLine] ++ "proof 0700" :: ["root"] ++ ["verify 0700"])).queries) ↔
    ((process (fun _ => emptyValue) quietTexts init
        ([setLine] ++ "proof 0700" :: ["root"])).val.root =
          (process (fun _ => emptyValue) quietTexts init [setLine]).val.root ∨
      Collision (fun _ => emptyValue) (process (fun _ => emptyValue) quietTexts init
        ([setLine] ++ "proof 0700" :: ["root"] ++ ["verify 0700"])).queries) :=
  verify_valid_iff _ _ [setLine] ["root"] proves_proofLine not_resets_root rfl rfl
    (storedStem_setLine _)

theorem root_process_root (H : HashFunction) :
    (process H quietTexts init ([setLine] ++ "proof 0700" :: ["root"])).val.root =
      (process H quietTexts init [setLine]).val.root := by
  have hline : commandOf quietTexts "proof 0700" = some ("proof", ["0700"]) := rfl
  have hroot : ∀ self : PBTSession, (processCommand H quietTexts self "root").val.1 = self :=
    fun _ => rfl
  obtain ⟨p, hp, -⟩ := getProof_spec (H := H) (process H quietTexts init [setLine]).val.root
    (splitKey_joinKey (List.cons_ne_nil 7 []) 0)
  show (process H quietTexts init ([setLine] ++ ["proof 0700"] ++ ["root"])).val.root = _
  rw [val_process_concat, hroot, val_process_concat, processCommand_proof hline,
    (cmdProof_of_getProof [] rfl hp).1]

theorem valid_setLine (H : HashFunction) :
    (processCommand H quietTexts (process H quietTexts init
      ([setLine] ++ "proof 0700" :: ["root"])).val "verify 0700").val.2 =
        [verdictLine [7, 0] true] := by
  have hline : commandOf quietTexts "verify 0700" = some ("verify", ["0700"]) := rfl
  obtain ⟨w, hcmd, hacc, -⟩ := verdict_of_stored H quietTexts [setLine] ["root"] proves_proofLine
    not_resets_root hline rfl (storedStem_setLine H)
  rw [hcmd, hacc.mpr (by rw [root_process_root])]

/-- The value was there when the proof was generated. -/
theorem verify_valid_sound_setLine :
    ∃ before proofLine after, [setLine] ++ "proof 0700" :: ["root"] =
        before ++ proofLine :: after ∧
      Proves quietTexts [7, 0] proofLine ∧
      (get (process (fun _ => emptyValue) quietTexts init before).val.root [7, 0] =
          get (process (fun _ => emptyValue) quietTexts init
            ([setLine] ++ "proof 0700" :: ["root"])).val.root [7, 0] ∨
        Collision (fun _ => emptyValue) (process (fun _ => emptyValue) quietTexts init
          ([setLine] ++ "proof 0700" :: ["root"] ++ ["verify 0700"])).queries) :=
  verify_valid_sound _ _ _ rfl rfl (valid_setLine _)

end PBTSession

end Pbt
