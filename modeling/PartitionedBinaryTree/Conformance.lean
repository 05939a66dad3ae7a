/-
# The cross-client conformance runners
(`scripts/run_cross_client_conformance.py`, `pbt-rs/src/bin/conformance_case.rs`)

Both clients run the cases of one suite and print what they read: the root, the
values of some keys, and for some keys the value and the verdict of a proof.  The
script compares the two outputs.

The JSON value of the suite is what the reference client runs on; the Rust runner
runs on the `Suite` that its derived `Deserialize` reads from it (`Suite.ReadFrom`).
The `hex` crate is a parameter, with what its documentation says of it.
-/
import PartitionedBinaryTree.HexGrammar
import PartitionedBinaryTree.Lib.SameResult
import PartitionedBinaryTree.Lib.SortedItems
import PartitionedBinaryTree.ProofCompleteness
import PartitionedBinaryTree.VerifierAgreement

namespace Pbt

/-! ## The reference client's runner -/

/-- The texts that the Python runtime makes of values, for the errors of the runner. -/
structure PyTexts where
  reprStr : String → String
  strOf : Json → String
  fromHexError : String → String

section

variable (texts : PyTexts)

/-- `data[name]`. -/
def Json.item (data : Json) (name : String) : Py Json :=
  match data with
  | .dict fields =>
      match fields.lookup name with
      | some value => .ok value
      | none => .error ⟨.keyError, texts.reprStr name⟩
  | .list _ => raiseTypeError "list indices must be integers or slices, not str"
  | .str _ => raiseTypeError "string indices must be integers, not 'str'"
  | value => raiseTypeError ("'" ++ value.typeName ++ "' object is not subscriptable")

/-- The items that a loop over `data` runs through. -/
def Json.loopItems (data : Json) : Py (List Json) :=
  match data.iterate with
  | some items => .ok items
  | none => raiseTypeError ("'" ++ data.typeName ++ "' object is not iterable")

/-- `_decode_hex(data)`: the text that was decoded, and its bytes. -/
def decodeHex (data : Json) : Py (String × Bytes) :=
  match data with
  | .str text =>
      match bytesFromHex text.toList with
      | some bytes => .ok (text, bytes)
      | none =>
          raiseValueError ("invalid hex " ++ texts.reprStr text ++ ": " ++ texts.fromHexError text)
  | value => raiseTypeError ("fromhex() argument must be str, not " ++ value.typeName)

/-- `_normalize_suite(suite)`. -/
def normalizeSuite (suite : Fields) : Py Fields := do
  raiseIf (¬ (suite.get "schema_version").isStr "1.0.0")
    ("unsupported schema_version: " ++ texts.strOf (suite.get "schema_version"))
  let _ ← expectList (suite.get "cases") "cases must be a list"
  pure suite

/-- One round of the loop over `case["operations"]` in `_run_python_case`. -/
def runPythonOperation (root : Node) (operation : Json) : Py Node := do
  let op ← operation.item texts "op"
  let (keyHex, key) ← decodeHex texts (← operation.item texts "key")
  raiseIf (key.length < 2) ("key must be >=2 bytes: " ++ keyHex)
  if op.isStr "insert" then do
    let (_, value) ← decodeHex texts (← operation.item texts "value")
    raiseIf (value.length ≠ 32) "insert value must be 32 bytes"
    insert root key value
  else if op.isStr "delete" then delete root key
  else raiseValueError ("unsupported operation: " ++ texts.strOf op)

/-- One round of the loop over `case["reads"]`. -/
def runPythonRead (root : Node) (reads : OrderedDict String Json) (keyHex : Json) :
    Py (OrderedDict String Json) := do
  let (text, key) ← decodeHex texts keyHex
  let value ← get root key
  pure (reads.setItem text (.str (hexText value.val)))

/-- The entry of one proof in `proof_results`. -/
def proofEntry (value : String) (valid : Bool) : Json :=
  .dict [("value", .str value), ("valid", .bool valid)]

/-- One round of the loop over `case["proof_queries"]`. -/
def runPythonProof (blake3 : HashFunction) (root : Node) (proofs : OrderedDict String Json)
    (keyHex : Json) : Py (OrderedDict String Json) := do
  let (text, key) ← decodeHex texts keyHex
  let proof ← getProof blake3 root key
  let valid ← verifyProof blake3 (rootHash blake3 root).val.val proof.val
  pure (proofs.setItem text (proofEntry (hexText proof.val.value) valid.val))

/-- The result of one case. -/
def caseResult (id : Json) (root : String) (reads proofs : List (String × Json)) : Json :=
  .dict [("id", id), ("root", .str root), ("reads", .dict reads), ("proofs", .dict proofs)]

/-- `_run_python_case(case)`. -/
def runPythonCase (blake3 : HashFunction) (case : Json) : Py Json := do
  let root ← (← (← case.item texts "operations").loopItems).foldlM (runPythonOperation texts)
    .emptyNode
  let reads ← (← (← case.item texts "reads").loopItems).foldlM (runPythonRead texts root) ∅
  let proofs ← (← (← case.item texts "proof_queries").loopItems).foldlM
    (runPythonProof texts blake3 root) ∅
  let id ← case.item texts "id"
  pure (caseResult id (hexText (rootHash blake3 root).val.val) reads.sortedItems
    proofs.sortedItems)

/-- The result of a suite. -/
def suiteResult (schemaVersion : Json) (cases : List Json) : Fields :=
  [("schema_version", schemaVersion), ("cases", .list cases)]

/-- `_run_python_suite(suite)`. -/
def runPythonSuite (blake3 : HashFunction) (suite : Fields) : Py Fields := do
  let schemaVersion ← (Json.dict suite).item texts "schema_version"
  let cases ← (← ((Json.dict suite).item texts "cases")).loopItems
  pure (suiteResult schemaVersion (← cases.mapM (runPythonCase texts blake3)))

end

end Pbt

namespace PbtRs

open Pbt (Digest Json Value)

/-! ## The Rust client's runner -/

/-- `struct Operation`. -/
structure Operation where
  op : String
  key : String
  value : Option String
  deriving DecidableEq, Repr

/-- `struct Case`. -/
structure Case where
  id : String
  operations : List Operation
  reads : List String
  proofQueries : List String
  deriving DecidableEq, Repr

/-- `struct Suite`. -/
structure Suite where
  schemaVersion : String
  cases : List Case
  deriving DecidableEq, Repr

/-- `struct ProofResult`. -/
structure ProofResult where
  value : String
  valid : Bool
  deriving DecidableEq, Repr

/-- `BTreeMap<String, T>`. -/
abbrev BTreeMap (α : Type) := Std.TreeMap String α compare

/-- `struct CaseResult`. -/
structure CaseResult where
  id : String
  root : String
  reads : BTreeMap String
  proofs : BTreeMap ProofResult

/-- `struct SuiteResult`. -/
structure SuiteResult where
  schemaVersion : String
  cases : List CaseResult

/-- The functions of the `hex` crate. -/
structure HexCrate where
  decode : String → Except String Bytes
  encode : Bytes → String

section

variable (crate : HexCrate)

/-- `decode_hex(data)`. -/
def decodeHex (data : String) : Rs Bytes :=
  match crate.decode data with
  | .ok bytes => .ok bytes
  | .error err => .error (.err ("invalid hex " ++ data ++ ": " ++ err))

/-- `decode_hex_32(data)`. -/
def decodeHex32 (data : String) : Rs Value := do
  let decoded ← decodeHex crate data
  if h : decoded.length = 32 then pure ⟨decoded, h⟩
  else .error (.err ("expected 32-byte value, got " ++ toString decoded.length ++ " bytes"))

variable {H : Type} [TreeHasher H]

/-- One round of the loop over `case.operations` in `run_case`. -/
def runOperation (tree : Tree H) (operation : Operation) : Rs (Tree H) := do
  let key ← decodeHex crate operation.key
  if key.length < 2 then .error (.err ("key must be >= 2 bytes: " ++ operation.key))
  else if operation.op = "insert" then
    match operation.value with
    | none => .error (.err "insert operation missing value")
    | some valueHex => do
        let value ← decodeHex32 crate valueHex
        tree.insert key value
  else if operation.op = "delete" then tree.delete key
  else .error (.err ("unsupported operation: " ++ operation.op))

/-- One round of the loop over `case.reads`. -/
def runRead (tree : Tree H) (reads : BTreeMap String) (keyHex : String) : Rs (BTreeMap String) := do
  let key ← decodeHex crate keyHex
  let value ← tree.get key
  pure (reads.insert keyHex (crate.encode value.val))

/-- One round of the loop over `case.proof_queries`. -/
def runProof (tree : Tree H) (proofs : BTreeMap ProofResult) (keyHex : String) :
    Rs (BTreeMap ProofResult) := do
  let key ← decodeHex crate keyHex
  let proof ← tree.getProof key
  let valid := tree.verifyProof tree.rootHash proof
  pure (proofs.insert keyHex ⟨crate.encode proof.value.val, valid⟩)

/-- `run_case(case)`. -/
def runCase (blake3 : Pbt.HashFunction) (case : Case) : Rs CaseResult := do
  let tree ← case.operations.foldlM (runOperation crate) (Tree.new (Blake3Hasher.mk blake3))
  let reads ← case.reads.foldlM (runRead crate tree) ∅
  let proofs ← case.proofQueries.foldlM (runProof crate tree) ∅
  pure ⟨case.id, crate.encode tree.rootHash.val, reads, proofs⟩

/-- `run()`, from the suite that was read to the one that is printed. -/
def runSuite (blake3 : Pbt.HashFunction) (suite : Suite) : Rs SuiteResult := do
  if suite.schemaVersion ≠ "1.0.0" then
    .error (.err ("unsupported schema version: " ++ suite.schemaVersion))
  else
    let cases ← suite.cases.mapM (runCase crate blake3)
    pure ⟨suite.schemaVersion, cases⟩

end

/-! ## What is read and printed as JSON -/

/-- What the derived `Deserialize` reads an operation from: other fields are ignored, and
`None` is a `value` that is not there or `null`. -/
structure Operation.ReadFrom (operation : Operation) (json : Json) : Prop where
  fields : ∃ fields : Pbt.Fields, json = .dict fields ∧
    fields.lookup "op" = some (.str operation.op) ∧
    fields.lookup "key" = some (.str operation.key) ∧
    fields.get "value" = (operation.value.map Json.str).getD .null

/-- What a case is read from. -/
structure Case.ReadFrom (case : Case) (json : Json) : Prop where
  fields : ∃ (fields : Pbt.Fields) (operations : List Json), json = .dict fields ∧
    fields.lookup "id" = some (.str case.id) ∧
    fields.lookup "operations" = some (.list operations) ∧
    List.Forall₂ Operation.ReadFrom case.operations operations ∧
    fields.lookup "reads" = some (.list (case.reads.map .str)) ∧
    fields.lookup "proof_queries" = some (.list (case.proofQueries.map .str))

/-- What a suite is read from. -/
structure Suite.ReadFrom (suite : Suite) (fields : Pbt.Fields) : Prop where
  fields : ∃ cases : List Json,
    fields.lookup "schema_version" = some (.str suite.schemaVersion) ∧
    fields.lookup "cases" = some (.list cases) ∧
    List.Forall₂ Case.ReadFrom suite.cases cases

/-- What the derived `Serialize` prints for a proof. -/
def ProofResult.toJson (result : ProofResult) : Json := Pbt.proofEntry result.value result.valid

/-- What it prints for a case: a map is printed in the order of its keys. -/
def CaseResult.toJson (result : CaseResult) : Json :=
  Pbt.caseResult (.str result.id) result.root
    (result.reads.toList.map fun entry => (entry.1, .str entry.2))
    (result.proofs.toList.map fun entry => (entry.1, entry.2.toJson))

/-- What it prints for a suite. -/
def SuiteResult.toFields (result : SuiteResult) : Pbt.Fields :=
  Pbt.suiteResult (.str result.schemaVersion) (result.cases.map CaseResult.toJson)

end PbtRs

namespace Pbt

open PbtRs (HexCrate Suite)

/-! ## The script -/

/-- What the script writes to its report of the two results. -/
structure ConformanceReport where
  schemaVersion : Json
  python : Fields
  rust : Fields

section

variable (texts : PyTexts) (crate : HexCrate) (blake3 : HashFunction)

/-- The text that `main` of the Rust runner writes to `stderr`, and nothing to `stdout`. -/
def rustErrorText : PbtRs.Failure → String
  | .err message => "conformance_case: " ++ message ++ "\n"
  | .stackOverflow => "thread 'main' has overflowed its stack\n"

/-- `_run_rust_suite(suite_path)`, over what the `serde_json` crate reads in the file. -/
def runRustSuite (parsed : Except String Suite) : Py Fields :=
  let outcome : PbtRs.Rs PbtRs.SuiteResult :=
    match parsed with
    | .error err => .error (.err ("invalid json: " ++ err))
    | .ok suite => PbtRs.runSuite crate blake3 suite
  match outcome with
  | .ok result => normalizeSuite texts result.toFields
  | .error failure =>
      .error ⟨.runtimeError,
        "rust conformance execution failed\nstdout:\n\nstderr:\n" ++ rustErrorText failure⟩

/-- `main()`, from the suite that was loaded to the report. -/
def crossClientConformance (json : Fields) (parsed : Except String Suite) :
    Py ConformanceReport := do
  let suite ← normalizeSuite texts json
  let pythonResult ← runPythonSuite texts blake3 suite
  let rustResult ← runRustSuite texts crate blake3 parsed
  let schemaVersion ← (Json.dict suite).item texts "schema_version"
  pure ⟨schemaVersion, pythonResult, rustResult⟩

end

end Pbt

namespace PbtRs

open Pbt (Json PyTexts)

/-! ## Texts of bytes -/

/-- What the documentation of the `hex` crate says: `decode` takes pairs of digits of either
case and nothing else, `encode` writes digits of lower case. -/
structure HexCrate.Lawful (crate : HexCrate) : Prop where
  decode_eq_ok_iff : ∀ text data, crate.decode text = .ok data ↔ Pbt.HexPairs text.toList data
  encode_eq : ∀ data, crate.encode data = Pbt.hexText data

/-- A text without white space. -/
def Unspaced (text : String) : Prop := ∀ c ∈ text.toList, Pbt.isAsciiSpace c = false

instance (text : String) : Decidable (Unspaced text) :=
  List.decidableBAll (fun c => Pbt.isAsciiSpace c = false) text.toList

section

variable {crate : HexCrate} {texts : PyTexts}

/-- What `hex::decode` takes has no white space. -/
theorem unspaced_of_decodeHex (hcrate : crate.Lawful) {text : String} {data : Bytes}
    (h : decodeHex crate text = .ok data) : Unspaced text := by
  unfold decodeHex at h
  split at h
  case h_1 bytes hbytes => exact ((hcrate.decode_eq_ok_iff text bytes).mp hbytes).not_space
  case h_2 err herr => cases h

/-- **The two decoders agree** on texts without white space. -/
theorem sameResult_decodeHex (hcrate : crate.Lawful) {text : String} (h : Unspaced text) :
    SameResult (fun decoded data => decoded = (text, data)) (Pbt.decodeHex texts (.str text))
      (decodeHex crate text) := by
  have hdecode : ∀ data,
      crate.decode text = .ok data ↔ Pbt.bytesFromHex text.toList = some data := by
    intro data
    rw [hcrate.decode_eq_ok_iff, Pbt.bytesFromHex_eq_some_iff]
    exact ⟨Pbt.HexPairs.spaced, fun hspaced => hspaced.strict h⟩
  unfold Pbt.decodeHex decodeHex
  dsimp only
  cases hpy : Pbt.bytesFromHex text.toList with
  | some bytes =>
      rw [(hdecode bytes).mpr hpy]
      exact SameResult.ok rfl
  | none =>
      cases hrust : crate.decode text with
      | error err => exact SameResult.error _ _
      | ok data =>
          rw [(hdecode data).mp hrust] at hpy
          cases hpy

/-! ## Operations -/

variable {blake3 : Pbt.HashFunction} {tree : Tree Blake3Hasher} {t : Pbt.Node}

/-- The contents of the Rust tree, which are those of the reference client's. -/
structure Holds (blake3 : Pbt.HashFunction) (t : Pbt.Node) (tree : Tree Blake3Hasher) : Prop where
  represents : Tree.Represents (Blake3Hasher.mk blake3) tree t
  wellFormed : Pbt.WellFormed t

/-- An update within the contract, in both clients. -/
theorem Holds.sameResult_update (h : Holds blake3 t tree) {op : Pbt.TreeOp} (hop : op.Valid) :
    SameResult (Holds blake3) (op.apply t) (tree.apply (.update op)) := by
  obtain ⟨t', hpy, hwf⟩ := Pbt.ClientCall.apply_valid h.wellFormed
    (show (Pbt.ClientCall.update op).Valid from hop)
  obtain ⟨tree', hrust, hrep⟩ := Tree.refines_apply h.represents (.update op) t' hpy
  have hpy' : op.apply t = .ok t' := hpy
  rw [hpy', hrust]
  exact SameResult.ok ⟨hrep, hwf⟩

/-- The value of an insert, which both clients want to be 32 bytes wide. -/
theorem Holds.sameResult_insert (hcrate : crate.Lawful) (h : Holds blake3 t tree) {key : Bytes}
    (hkey : 2 ≤ key.length) {text : String} (htext : Unspaced text) :
    SameResult (Holds blake3)
      (do
        let (_, value) ← Pbt.decodeHex texts (.str text)
        Pbt.raiseIf (value.length ≠ 32) "insert value must be 32 bytes"
        Pbt.insert t key value)
      (do
        let value ← decodeHex32 crate text
        tree.insert key value) := by
  unfold decodeHex32
  rw [bind_assoc]
  apply (sameResult_decodeHex hcrate htext).bind
  rintro _ data rfl
  dsimp only
  by_cases hlen : data.length = 32
  · have hupdate := h.sameResult_update
      (show (Pbt.TreeOp.insert key data).Valid from ⟨hkey, hlen⟩)
    rw [show tree.apply (.update (.insert key data)) = tree.insert key ⟨data, hlen⟩ from
      dif_pos hlen] at hupdate
    rw [dif_pos hlen, Pbt.raiseIf, if_neg (not_not.mpr hlen)]
    exact hupdate
  · rw [dif_neg hlen, Pbt.raiseIf, if_pos hlen]
    exact SameResult.error _ _

/-- The texts of bytes that an operation reads. -/
def Operation.hexTexts (operation : Operation) : List String :=
  operation.key :: if operation.op = "insert" then operation.value.toList else []

theorem item_of_lookup {fields : Pbt.Fields} {name : String} {value : Json}
    (h : fields.lookup name = some value) : (Json.dict fields).item texts name = .ok value := by
  unfold Pbt.Json.item
  dsimp only
  rw [h]

/-- A text that `get` finds is there. -/
theorem lookup_of_get_str {fields : Pbt.Fields} {name text : String}
    (h : fields.get name = .str text) : fields.lookup name = some (.str text) := by
  unfold Pbt.Fields.get at h
  cases hlookup : fields.lookup name with
  | none =>
      rw [hlookup] at h
      cases h
  | some value =>
      rw [hlookup, Option.getD_some] at h
      rw [h]

/-- A value that is `null` or not there is no text. -/
theorem decodeHex_item_of_get_null {fields : Pbt.Fields} {name : String}
    (h : fields.get name = .null) :
    ∃ e, ((Json.dict fields).item texts name >>= Pbt.decodeHex texts) = .error e := by
  unfold Pbt.Fields.get at h
  unfold Pbt.Json.item
  dsimp only
  cases hlookup : fields.lookup name with
  | none => exact ⟨_, rfl⟩
  | some value =>
      rw [hlookup, Option.getD_some] at h
      subst h
      exact ⟨_, rfl⟩

/-- **One operation** in both runners. -/
theorem Holds.sameResult_runOperation (hcrate : crate.Lawful) (h : Holds blake3 t tree)
    {operation : Operation} {json : Json} (hread : operation.ReadFrom json)
    (htexts : ∀ text ∈ operation.hexTexts, Unspaced text) :
    SameResult (Holds blake3) (Pbt.runPythonOperation texts t json)
      (runOperation crate tree operation) := by
  obtain ⟨fields, rfl, hop, hkey, hvalue⟩ := hread.fields
  unfold Pbt.runPythonOperation runOperation
  simp only [item_of_lookup hop, item_of_lookup hkey, Pbt.py_ok_bind]
  apply (sameResult_decodeHex hcrate (htexts _ List.mem_cons_self)).bind
  rintro _ key rfl
  dsimp only
  by_cases hshort : key.length < 2
  · rw [Pbt.raiseIf, if_pos hshort, if_pos hshort]
    exact SameResult.error _ _
  rw [Pbt.raiseIf, if_neg hshort, if_neg hshort, Pbt.py_ok_bind]
  have hlong : 2 ≤ key.length := not_lt.mp hshort
  apply SameResult.ite
  · exact beq_iff_eq
  · intro hinsert
    have hinsert : operation.op = "insert" := beq_iff_eq.mp hinsert
    cases hoption : operation.value with
    | none =>
        rw [hoption] at hvalue
        obtain ⟨e, he⟩ :
            ∃ e, ((Json.dict fields).item texts "value" >>= Pbt.decodeHex texts) = .error e :=
          decodeHex_item_of_get_null hvalue
        rw [← bind_assoc, he]
        exact SameResult.error _ _
    | some text =>
        rw [hoption] at hvalue
        simp only [item_of_lookup (lookup_of_get_str hvalue), Pbt.py_ok_bind]
        refine h.sameResult_insert hcrate hlong (htexts text ?_)
        rw [Operation.hexTexts, if_pos hinsert, hoption]
        exact List.mem_cons_of_mem _ List.mem_cons_self
  · intro _
    apply SameResult.ite
    · exact beq_iff_eq
    · exact fun _ => h.sameResult_update (show (Pbt.TreeOp.delete key).Valid from hlong)
    · exact fun _ => SameResult.error _ _

/-! ## Reads and proofs -/

/-- The contents read the same. -/
theorem Holds.sameResult_get (h : Holds blake3 t tree) (key : Bytes) :
    SameResult Eq (Pbt.get t key) (tree.get key) := by
  by_cases hkey : 2 ≤ key.length
  · obtain ⟨s, i, -, rfl⟩ := Pbt.exists_splitKey hkey
    have hs : s ≠ [] := Pbt.two_le_length_joinKey_iff.mp hkey
    rw [Pbt.get_joinKey hs i, Tree.get_joinKey h.represents hs i]
    exact SameResult.ok rfl
  · rw [Pbt.get_of_short (not_le.mp hkey), Tree.get, splitKey_of_short (not_le.mp hkey)]
    exact SameResult.error _ _

/-- **One read** in both runners. -/
theorem Holds.sameResult_runRead (hcrate : crate.Lawful) (h : Holds blake3 t tree)
    {reads : OrderedDict String Json} {reads' : BTreeMap String}
    (hreads : OrderedDict.SameEntries Json.str reads reads') {text : String}
    (htext : Unspaced text) :
    SameResult (OrderedDict.SameEntries Json.str) (Pbt.runPythonRead texts t reads (.str text))
      (runRead crate tree reads' text) := by
  unfold Pbt.runPythonRead runRead
  apply (sameResult_decodeHex hcrate htext).bind
  rintro _ key rfl
  apply (h.sameResult_get key).bind
  rintro value _ rfl
  rw [hcrate.encode_eq]
  exact SameResult.ok (hreads.setItem text (Pbt.hexText value.val))

/-- The root hash of the Rust tree is the one of the reference client. -/
theorem Holds.rootHash_eq (h : Holds blake3 t tree) :
    (Pbt.rootHash blake3 t).val = tree.rootHash := by
  rw [Tree.rootHash_eq h.represents, contentHash_blake3Hasher]
  rfl

/-- The proof of a key, and the verdict on it, in both clients. -/
theorem Holds.exists_proof (h : Holds blake3 t tree) {key : Bytes} (hkey : 2 ≤ key.length) :
    ∃ call proof, Pbt.getProof blake3 t key = .ok call ∧ tree.getProof key = .ok proof ∧
      call.val = proof.toReference ∧
      ∃ w, Pbt.verifyProof blake3 (Pbt.rootHash blake3 t).val.val call.val = .ok w ∧
        w.val = tree.verifyProof tree.rootHash proof := by
  obtain ⟨s, i, hsplit, -⟩ := Pbt.exists_splitKey hkey
  obtain ⟨call, hcall, -⟩ := Pbt.getProof_spec (H := blake3) t hsplit
  obtain ⟨proof, hproof, hsame⟩ := Tree.refines_getProof h.represents _ _ hcall
  have heq := sameProof_iff.mp hsame
  obtain ⟨hcallKey, -, -, -, -, -, hcallBits⟩ := Pbt.getProof_widths hcall
  refine ⟨call, proof, hcall, hproof, heq, ?_⟩
  have hproofKey : 2 ≤ proof.key.length := by
    rw [← hsame.key, hcallKey]
    exact hkey
  have hbits : ∀ bit ∈ proof.pathBits, bit = 0 ∨ bit = 1 := by
    intro bit hbit
    have hint : (bit.toNat : ℤ) ∈ call.val.pathBits := by
      rw [hsame.pathBits]
      exact List.mem_map_of_mem hbit
    rcases hcallBits _ hint with h0 | h1
    · exact Or.inl (UInt8.toNat_inj.mp (by exact_mod_cast h0))
    · exact Or.inr (UInt8.toNat_inj.mp (by exact_mod_cast h1))
  obtain ⟨w, hw, hverdict⟩ := sameVerdict_of_bits tree tree.rootHash hproofKey hbits
  rw [h.represents.hasher_eq] at hw
  exact ⟨w, by rw [heq, h.rootHash_eq]; exact hw, hverdict⟩

/-- **One proof** in both runners. -/
theorem Holds.sameResult_runProof (hcrate : crate.Lawful) (h : Holds blake3 t tree)
    {proofs : OrderedDict String Json} {proofs' : BTreeMap ProofResult}
    (hproofs : OrderedDict.SameEntries ProofResult.toJson proofs proofs') {text : String}
    (htext : Unspaced text) :
    SameResult (OrderedDict.SameEntries ProofResult.toJson)
      (Pbt.runPythonProof texts blake3 t proofs (.str text))
      (runProof crate tree proofs' text) := by
  unfold Pbt.runPythonProof runProof
  apply (sameResult_decodeHex hcrate htext).bind
  rintro _ key rfl
  dsimp only
  by_cases hkey : 2 ≤ key.length
  · obtain ⟨call, proof, hpy, hrust, hproof, w, hw, hverdict⟩ := h.exists_proof hkey
    rw [hpy, hrust, Pbt.py_ok_bind, hw, Pbt.py_ok_bind, hproof, hverdict]
    show SameResult _ _ (Except.ok (proofs'.insert text ⟨crate.encode proof.value.val, _⟩))
    rw [hcrate.encode_eq]
    exact SameResult.ok (hproofs.setItem text
      ⟨Pbt.hexText proof.value.val, tree.verifyProof tree.rootHash proof⟩)
  · rw [Pbt.getProof, Pbt.splitKey_of_short (not_le.mp hkey), Tree.getProof,
      splitKey_of_short (not_le.mp hkey)]
    exact SameResult.error _ _

/-! ## Cases and suites -/

/-- The texts of bytes that a case reads. -/
def Case.hexTexts (case : Case) : List String :=
  case.operations.flatMap Operation.hexTexts ++ case.reads ++ case.proofQueries

/-- The texts of bytes that a suite reads. -/
def Suite.hexTexts (suite : Suite) : List String := suite.cases.flatMap Case.hexTexts

theorem loopItems_list (items : List Json) : (Json.list items).loopItems = .ok items := rfl

/-- **One case** in both runners. -/
theorem sameResult_runCase (hcrate : crate.Lawful) {case : Case} {json : Json}
    (hread : case.ReadFrom json) (htexts : ∀ text ∈ case.hexTexts, Unspaced text) :
    SameResult (fun result result' => result = result'.toJson)
      (Pbt.runPythonCase texts blake3 json) (runCase crate blake3 case) := by
  obtain ⟨fields, operations, rfl, hid, hops, hreadOps, hreads, hproofs⟩ := hread.fields
  unfold Case.hexTexts at htexts
  simp only [List.forall_mem_append, List.forall_mem_flatMap] at htexts
  obtain ⟨⟨htextsOps, htextsReads⟩, htextsProofs⟩ := htexts
  unfold Pbt.runPythonCase runCase
  simp only [item_of_lookup hops, item_of_lookup hreads, item_of_lookup hproofs,
    item_of_lookup hid, loopItems_list, Pbt.py_ok_bind]
  -- the two trees after the operations
  have hlists := (List.forall₂_and_left (p := fun operation : Operation =>
    ∀ text ∈ operation.hexTexts, Unspaced text) _ _).mpr ⟨htextsOps, hreadOps⟩
  have hstart : Holds blake3 .emptyNode (Tree.new (Blake3Hasher.mk blake3)) :=
    ⟨Tree.represents_new, Pbt.wellFormed_emptyNode⟩
  refine (SameResult.foldlM (R := Holds blake3) ?_ hlists.flip hstart).bind ?_
  · rintro t tree json operation h ⟨htext, hread⟩
    exact h.sameResult_runOperation hcrate hread htext
  intro t tree h
  -- the two maps of values, and of proofs
  have htextsOf : ∀ {keys : List String}, (∀ text ∈ keys, Unspaced text) →
      List.Forall₂ (fun json text => json = Json.str text ∧ Unspaced text) (keys.map .str) keys :=
    fun hkeys => List.forall₂_map_left_iff.mpr
      (List.forall₂_same.mpr fun text htext => ⟨rfl, hkeys text htext⟩)
  refine (SameResult.foldlM (R := OrderedDict.SameEntries Json.str) ?_ (htextsOf htextsReads)
    OrderedDict.sameEntries_empty).bind ?_
  · rintro reads reads' _ text hsame ⟨rfl, htext⟩
    exact h.sameResult_runRead hcrate hsame htext
  intro reads reads' hreads
  refine (SameResult.foldlM (R := OrderedDict.SameEntries ProofResult.toJson) ?_
    (htextsOf htextsProofs) OrderedDict.sameEntries_empty).bind ?_
  · rintro proofs proofs' _ text hsame ⟨rfl, htext⟩
    exact h.sameResult_runProof hcrate hsame htext
  intro proofs proofs' hproofs
  apply SameResult.ok
  unfold CaseResult.toJson
  rw [OrderedDict.sortedItems_eq hreads, OrderedDict.sortedItems_eq hproofs, h.rootHash_eq]
  dsimp only
  rw [hcrate.encode_eq]

theorem isStr_eq_true_iff {value : Json} {text : String} :
    value.isStr text = true ↔ value = .str text := by
  cases value <;> simp [Pbt.Json.isStr]

theorem expectList_eq_ok_iff {value : Json} {message : String} {items : List Json} :
    Pbt.expectList value message = .ok items ↔ value = .list items := by
  cases value <;> simp [Pbt.expectList, Pbt.raiseValueError]

/-- What `_normalize_suite` takes. -/
theorem normalizeSuite_eq_ok_iff {fields fields' : Pbt.Fields} :
    Pbt.normalizeSuite texts fields = .ok fields' ↔
      fields.get "schema_version" = .str "1.0.0" ∧ (∃ cases, fields.get "cases" = .list cases) ∧
        fields' = fields := by
  unfold Pbt.normalizeSuite
  simp only [Pbt.py_bind_eq_ok_iff, Pbt.raiseIf_eq_ok_iff, not_not, exists_const,
    isStr_eq_true_iff, expectList_eq_ok_iff, pure, Except.pure, Except.ok.injEq, exists_and_right,
    eq_comm (a := fields)]

/-- **A suite** in both runners. -/
theorem sameResult_runSuite (hcrate : crate.Lawful) {suite : Suite} {fields : Pbt.Fields}
    (hread : suite.ReadFrom fields) (htexts : ∀ text ∈ suite.hexTexts, Unspaced text) :
    SameResult (fun result result' => result = result'.toFields)
      (Pbt.normalizeSuite texts fields >>= Pbt.runPythonSuite texts blake3)
      (runSuite crate blake3 suite) := by
  obtain ⟨cases, hversion, hcases, hreadCases⟩ := hread.fields
  have hget : fields.get "schema_version" = .str suite.schemaVersion := by
    rw [Pbt.Fields.get, hversion]
    rfl
  have hgetCases : fields.get "cases" = .list cases := by
    rw [Pbt.Fields.get, hcases]
    rfl
  unfold runSuite
  by_cases h : suite.schemaVersion = "1.0.0"
  · have hnormal : Pbt.normalizeSuite texts fields = .ok fields :=
      normalizeSuite_eq_ok_iff.mpr ⟨by rw [hget, h], ⟨cases, hgetCases⟩, rfl⟩
    rw [hnormal, if_neg (not_not.mpr h), Pbt.py_ok_bind]
    unfold Pbt.runPythonSuite
    simp only [item_of_lookup hversion, item_of_lookup hcases, loopItems_list, Pbt.py_ok_bind]
    have hlists := (List.forall₂_and_left (p := fun case : Case =>
      ∀ text ∈ case.hexTexts, Unspaced text) _ _).mpr
        ⟨List.forall_mem_flatMap.mp htexts, hreadCases⟩
    refine (SameResult.mapM (R := fun result result' => result = CaseResult.toJson result') ?_
      hlists.flip).bind ?_
    · rintro json case ⟨htext, hread⟩
      exact sameResult_runCase hcrate hread htext
    intro results results' hresults
    apply SameResult.ok
    have hlist := List.forall₂_map_right_iff.mpr hresults
    rw [List.forall₂_eq_eq_eq] at hlist
    rw [SuiteResult.toFields, hlist]
  · have hnormal : ∃ e, Pbt.normalizeSuite texts fields = .error e := by
      cases hcall : Pbt.normalizeSuite texts fields with
      | error e => exact ⟨e, rfl⟩
      | ok fields' =>
          have hversion' := (normalizeSuite_eq_ok_iff.mp hcall).1
          rw [hget, Json.str.injEq] at hversion'
          exact absurd hversion' h
    obtain ⟨e, he⟩ := hnormal
    rw [he, if_pos h]
    exact SameResult.error _ _

/-! ## What the Rust runner takes -/

theorem unspaced_of_runOperation (hcrate : crate.Lawful) {tree' : Tree Blake3Hasher}
    {operation : Operation} (h : runOperation crate tree operation = .ok tree') :
    ∀ text ∈ operation.hexTexts, Unspaced text := by
  obtain ⟨key, hkey, hrest⟩ := except_bind_eq_ok_iff.mp h
  rw [Operation.hexTexts, List.forall_mem_cons]
  refine ⟨unspaced_of_decodeHex hcrate hkey, ?_⟩
  split_ifs at hrest ⊢ with hshort hinsert hdelete
  · cases hvalue : operation.value with
    | none => exact List.forall_mem_nil _
    | some valueHex =>
        rw [hvalue] at hrest
        obtain ⟨value, hdecode, -⟩ := except_bind_eq_ok_iff.mp hrest
        obtain ⟨data, hdata, -⟩ := except_bind_eq_ok_iff.mp hdecode
        intro text htext
        rw [Option.toList_some, List.mem_singleton] at htext
        rw [htext]
        exact unspaced_of_decodeHex hcrate hdata
  all_goals exact List.forall_mem_nil _

/-- A case that the Rust runner finishes has no white space in its texts of bytes. -/
theorem unspaced_of_runCase (hcrate : crate.Lawful) {case : Case} {result : CaseResult}
    (h : runCase crate blake3 case = .ok result) : ∀ text ∈ case.hexTexts, Unspaced text := by
  obtain ⟨tree, hops, h⟩ := except_bind_eq_ok_iff.mp h
  obtain ⟨reads, hreads, h⟩ := except_bind_eq_ok_iff.mp h
  obtain ⟨proofs, hproofs, -⟩ := except_bind_eq_ok_iff.mp h
  unfold Case.hexTexts
  simp only [List.forall_mem_append, List.forall_mem_flatMap]
  refine ⟨⟨?_, ?_⟩, ?_⟩
  · exact forall_of_foldlM_eq_ok (fun _ _ _ hstep => unspaced_of_runOperation hcrate hstep) hops
  · refine forall_of_foldlM_eq_ok (fun _ _ _ hstep => ?_) hreads
    obtain ⟨key, hkey, -⟩ := except_bind_eq_ok_iff.mp hstep
    exact unspaced_of_decodeHex hcrate hkey
  · refine forall_of_foldlM_eq_ok (fun _ _ _ hstep => ?_) hproofs
    obtain ⟨key, hkey, -⟩ := except_bind_eq_ok_iff.mp hstep
    exact unspaced_of_decodeHex hcrate hkey

/-- A suite that the Rust runner finishes has no white space in its texts of bytes. -/
theorem unspaced_of_runSuite (hcrate : crate.Lawful) {suite : Suite} {result : SuiteResult}
    (h : runSuite crate blake3 suite = .ok result) : ∀ text ∈ suite.hexTexts, Unspaced text := by
  unfold runSuite at h
  split_ifs at h
  obtain ⟨cases, hcases, -⟩ := except_bind_eq_ok_iff.mp h
  rw [Suite.hexTexts, List.forall_mem_flatMap]
  exact forall_of_mapM_eq_ok (fun _ _ hcase => unspaced_of_runCase hcrate hcase) hcases

/-- What the Rust runner prints has the schema version that the script asks for. -/
theorem normalizeSuite_toFields {suite : Suite} {result : SuiteResult}
    (h : runSuite crate blake3 suite = .ok result) :
    Pbt.normalizeSuite texts result.toFields = .ok result.toFields := by
  unfold runSuite at h
  split_ifs at h with hversion
  obtain ⟨cases, -, h⟩ := except_bind_eq_ok_iff.mp h
  cases h
  refine normalizeSuite_eq_ok_iff.mpr ⟨?_, ⟨cases.map CaseResult.toJson, rfl⟩, rfl⟩
  rw [← not_not.mp hversion]
  rfl

end

end PbtRs

namespace Pbt

/-- **The clients never differ.**  The script finishes a suite exactly when the reference
client does and no text of bytes of the suite has white space, and the two results that it
compares are then equal. -/
theorem crossClientConformance_eq_ok_iff {texts : PyTexts} {crate : PbtRs.HexCrate}
    (hcrate : crate.Lawful) (blake3 : HashFunction) {suite : PbtRs.Suite} {json : Fields}
    (hread : suite.ReadFrom json) (report : ConformanceReport) :
    crossClientConformance texts crate blake3 json (.ok suite) = .ok report ↔
      (normalizeSuite texts json >>= runPythonSuite texts blake3) = .ok report.python ∧
        (∀ text ∈ suite.hexTexts, PbtRs.Unspaced text) ∧ report.rust = report.python ∧
        report.schemaVersion = .str "1.0.0" := by
  have hversion : ∀ {fields : Fields}, normalizeSuite texts json = .ok fields →
      (Json.dict fields).item texts "schema_version" = .ok (.str "1.0.0") := by
    intro fields hnormal
    obtain ⟨hversion, -, rfl⟩ := PbtRs.normalizeSuite_eq_ok_iff.mp hnormal
    exact PbtRs.item_of_lookup (PbtRs.lookup_of_get_str hversion)
  unfold crossClientConformance runRustSuite
  simp only [py_bind_eq_ok_iff]
  constructor
  · rintro ⟨fields, hnormal, python, hpython, rust, hrust, version, hitem, hreport⟩
    cases hreport
    rw [hversion hnormal] at hitem
    cases hitem
    cases hrun : PbtRs.runSuite crate blake3 suite with
    | error failure =>
        rw [hrun] at hrust
        cases hrust
    | ok result =>
        have htexts := PbtRs.unspaced_of_runSuite hcrate hrun
        obtain ⟨python', hpython', rfl⟩ :=
          SameResult.exists_ok' (x := normalizeSuite texts json >>= runPythonSuite texts blake3)
            (PbtRs.sameResult_runSuite hcrate hread htexts) hrun
        rw [hnormal, py_ok_bind, hpython] at hpython'
        cases hpython'
        rw [hrun] at hrust
        dsimp only at hrust
        rw [PbtRs.normalizeSuite_toFields hrun] at hrust
        cases hrust
        exact ⟨⟨fields, hnormal, hpython⟩, htexts, rfl, rfl⟩
  · obtain ⟨schemaVersion, python, rust⟩ := report
    rintro ⟨⟨fields, hnormal, hpython⟩, htexts, hrust, hschema⟩
    dsimp only at hpython hrust hschema
    subst hrust hschema
    have hboth : (normalizeSuite texts json >>= runPythonSuite texts blake3) = .ok rust := by
      rw [hnormal, py_ok_bind, hpython]
    obtain ⟨result, hrun, rfl⟩ := (PbtRs.sameResult_runSuite hcrate hread htexts).exists_ok hboth
    refine ⟨fields, hnormal, _, hpython, _, ?_, _, hversion hnormal, rfl⟩
    rw [hrun]
    exact PbtRs.normalizeSuite_toFields hrun

end Pbt

namespace PbtRs

open Pbt (Json)

/-- `hex::decode` and `hex::encode` by the functions of the reference client's runtime. -/
def HexCrate.reference : HexCrate where
  decode text :=
    if text.toList.any Pbt.isAsciiSpace then .error "invalid character"
    else
      match Pbt.bytesFromHex text.toList with
      | some data => .ok data
      | none => .error "invalid character or odd number of digits"
  encode := Pbt.hexText

theorem HexCrate.lawful_reference : HexCrate.reference.Lawful := by
  refine ⟨fun text data => ?_, fun data => rfl⟩
  unfold HexCrate.reference
  dsimp only
  by_cases hspace : text.toList.any Pbt.isAsciiSpace = true
  · rw [if_pos hspace]
    obtain ⟨c, hc, hcspace⟩ := List.any_eq_true.mp hspace
    refine iff_of_false (fun h => by cases h) fun hpairs => ?_
    rw [hpairs.not_space c hc] at hcspace
    cases hcspace
  · rw [if_neg hspace]
    have hunspaced : Unspaced text := fun c hc => by
      simpa using fun hcspace => hspace (List.any_eq_true.mpr ⟨c, hc, hcspace⟩)
    constructor
    · intro h
      split at h
      case h_1 bytes hbytes =>
        cases h
        exact (Pbt.bytesFromHex_eq_some_iff.mp hbytes).strict hunspaced
      case h_2 => cases h
    · intro hpairs
      rw [Pbt.bytesFromHex_eq_some_iff.mpr hpairs.spaced]

/-- A case that inserts a value, deletes it and reads it. -/
def insertDeleteCase : Case where
  id := "insert_delete"
  operations :=
    [⟨"insert", "010203", some (Pbt.hexText (zeroBytes 32))⟩, ⟨"delete", "010203", none⟩]
  reads := ["010203"]
  proofQueries := []

/-- The JSON value of the suite with this case. -/
def insertDeleteJson : Pbt.Fields :=
  [("schema_version", .str "1.0.0"),
    ("cases", .list [.dict [("id", .str "insert_delete"),
      ("operations", .list [
        .dict [("op", .str "insert"), ("key", .str "010203"),
          ("value", .str (Pbt.hexText (zeroBytes 32)))],
        .dict [("op", .str "delete"), ("key", .str "010203")]]),
      ("reads", .list [.str "010203"]),
      ("proof_queries", .list [])]])]

theorem readFrom_insertDeleteJson :
    Suite.ReadFrom ⟨"1.0.0", [insertDeleteCase]⟩ insertDeleteJson := by
  refine ⟨_, rfl, rfl, List.Forall₂.cons ⟨_, _, rfl, rfl, rfl, ?_, rfl, rfl⟩ List.Forall₂.nil⟩
  exact List.Forall₂.cons ⟨_, rfl, rfl, rfl, rfl⟩
    (List.Forall₂.cons ⟨_, rfl, rfl, rfl, rfl⟩ List.Forall₂.nil)

end PbtRs

namespace Pbt

/-- The script finishes that suite, with two equal results. -/
theorem crossClientConformance_insertDelete :
    ∃ report, crossClientConformance ⟨id, fun _ => "", id⟩ PbtRs.HexCrate.reference
        (fun _ => emptyValue) PbtRs.insertDeleteJson (.ok ⟨"1.0.0", [PbtRs.insertDeleteCase]⟩) =
          .ok report ∧
      report.rust = report.python :=
  ⟨⟨.str "1.0.0", _, _⟩, (crossClientConformance_eq_ok_iff PbtRs.HexCrate.lawful_reference
    (fun _ => emptyValue) PbtRs.readFrom_insertDeleteJson ⟨.str "1.0.0", _, _⟩).mpr
      ⟨rfl, by decide, rfl, rfl⟩, rfl⟩

end Pbt
