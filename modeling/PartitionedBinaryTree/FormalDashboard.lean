/-
# The release dashboard (`pbt/formal.py`, `pbt/formal_dashboard.py`)

A policy names components that a release requires, and lists what is wrong with the proof
artifacts for them.  The dashboard makes a row for each component, required or not, counts the
required ones that are fully verified, and passes the release when the policy has nothing to say
and the count is complete.

The policy, the rows and the counts are computed apart from each other.  They agree
(`dashboard_agrees`), and a release passes exactly when no component is named twice and each
required one has a checked artifact (`overallStatus_eq_pass_iff`).
-/
import Mathlib.Data.Finset.Sort
import Mathlib.Data.String.Basic
import PartitionedBinaryTree.Lib.OrderedDict
import PartitionedBinaryTree.PyRuntime

namespace Pbt

/-! ## The policy -/

/-- `ProofArtifact`. -/
structure ProofArtifact where
  component : String
  proofSystem : String
  machineChecked : Bool
  checkerCommands : List String
  aiAssisted : Bool := false
  independentRecheckCommands : List String := []
  deriving DecidableEq, Repr

/-- `FormalVerificationPolicy`. -/
structure FormalVerificationPolicy where
  requiredComponents : List String
  requiredComponents_ne : requiredComponents ≠ []

/-- `FormalVerificationPolicy(required_components)`. -/
def FormalVerificationPolicy.make (requiredComponents : List String) :
    Py FormalVerificationPolicy :=
  if h : requiredComponents ≠ [] then .ok ⟨requiredComponents, h⟩
  else raiseValueError "required_components must not be empty"

/-- The dictionary of artifacts by component, where a later artifact takes the place of an
earlier one. -/
def byComponent (artifacts : List ProofArtifact) : OrderedDict String ProofArtifact :=
  artifacts.foldl (fun d a => OrderedDict.setItem a.component a d) ∅

/-- The errors of `validate` for one required component. -/
def componentErrors (artifacts : List ProofArtifact) (component : String) : List String :=
  match (byComponent artifacts).lookup component with
  | none => ["missing proof artifact for required component: " ++ component]
  | some artifact =>
      (if ¬ artifact.machineChecked then
        ["component " ++ component ++ " is not machine-checked"] else []) ++
      (if artifact.checkerCommands = [] then
        ["component " ++ component ++ " missing checker_commands"] else []) ++
      (if artifact.aiAssisted then
        (if ¬ artifact.machineChecked then
          ["AI-assisted component " ++ component ++ " must be machine-checked"] else []) ++
        (if artifact.independentRecheckCommands = [] then
          ["AI-assisted component " ++ component ++ " missing independent recheck commands"]
          else [])
      else [])

/-- `FormalVerificationPolicy.validate`. -/
def FormalVerificationPolicy.validate (policy : FormalVerificationPolicy)
    (artifacts : List ProofArtifact) : List String :=
  policy.requiredComponents.flatMap (componentErrors artifacts)

/-! ## The dashboard -/

/-- The `status` of a row: `VERIFIED`, `GAP` or `OPTIONAL`. -/
inductive RowStatus
  | verified
  | gap
  | optional
  deriving DecidableEq, Repr

/-- The `overall_status`: `PASS` or `ATTENTION`. -/
inductive OverallStatus
  | pass
  | attention
  deriving DecidableEq, Repr

/-- `DashboardComponentRow`. -/
structure DashboardComponentRow where
  component : String
  required : Bool
  present : Bool
  machineChecked : Bool
  hasCheckerCommands : Bool
  aiAssisted : Bool
  hasIndependentRecheck : Bool
  status : RowStatus
  gapReasons : List String
  deriving DecidableEq, Repr

/-- `FormalVerificationDashboardSnapshot`. -/
structure FormalVerificationDashboardSnapshot where
  generatedAtUtc : String
  overallStatus : OverallStatus
  totalRequired : ℕ
  requiredPresent : ℕ
  requiredFullyVerified : ℕ
  totalArtifacts : ℕ
  machineCheckedArtifacts : ℕ
  aiAssistedArtifacts : ℕ
  aiAssistedWithRecheck : ℕ
  policyErrors : List String
  componentRows : List DashboardComponentRow
  deriving DecidableEq, Repr

/-- The reasons of a gap for an artifact that is there. -/
def gapReasons (required : Bool) (artifact : ProofArtifact) : List String :=
  (if required ∧ ¬ artifact.machineChecked then ["not machine-checked"] else []) ++
  (if required ∧ artifact.checkerCommands = [] then ["missing checker_commands"] else []) ++
  (if required ∧ artifact.aiAssisted ∧ artifact.independentRecheckCommands = [] then
    ["AI-assisted artifact missing independent_recheck_commands"] else [])

/-- The row of a component. -/
def componentRow (component : String) (required : Bool) (artifact : Option ProofArtifact) :
    DashboardComponentRow :=
  match artifact with
  | none => {
      component := component
      required := required
      present := false
      machineChecked := false
      hasCheckerCommands := false
      aiAssisted := false
      hasIndependentRecheck := false
      status := if required then .gap else .optional
      gapReasons := if required then ["missing required proof artifact"] else [] }
  | some artifact => {
      component := component
      required := required
      present := true
      machineChecked := artifact.machineChecked
      hasCheckerCommands := artifact.checkerCommands ≠ []
      aiAssisted := artifact.aiAssisted
      hasIndependentRecheck := artifact.independentRecheckCommands ≠ []
      status :=
        if required then if gapReasons required artifact = [] then .verified else .gap
        else .optional
      gapReasons := gapReasons required artifact }

/-- What the loop over the components carries along. -/
structure DashboardLoop where
  rows : List DashboardComponentRow
  requiredPresent : ℕ
  requiredFullyVerified : ℕ

/-- One round of the loop over the components. -/
def DashboardLoop.step (required : Finset String) (artifacts : OrderedDict String ProofArtifact)
    (loop : DashboardLoop) (component : String) : DashboardLoop :=
  let row := componentRow component (decide (component ∈ required)) (artifacts.lookup component)
  { rows := loop.rows ++ [row]
    requiredPresent := loop.requiredPresent + if row.present ∧ row.required then 1 else 0
    requiredFullyVerified :=
      loop.requiredFullyVerified + if row.status = .verified then 1 else 0 }

/-- The first loop of `build_snapshot`: the artifacts by component, and the components that were
there already when an artifact came. -/
def collectArtifacts (artifacts : List ProofArtifact) :
    OrderedDict String ProofArtifact × List String :=
  artifacts.foldl
    (fun seen a => (OrderedDict.setItem a.component a seen.1,
      if a.component ∈ seen.1 then seen.2 ++ [a.component] else seen.2)) (∅, [])

/-- `build_snapshot`; `now` is the text of the current time. -/
def FormalVerificationPolicy.buildSnapshot (policy : FormalVerificationPolicy) (now : String)
    (artifacts : List ProofArtifact) (generatedAtUtc : Option String) :
    FormalVerificationDashboardSnapshot :=
  let (found, duplicateComponents) := collectArtifacts artifacts
  let required := policy.requiredComponents.toFinset
  let componentNames := (required ∪ found.keys.toFinset).sort (· ≤ ·)
  let loop := componentNames.foldl (DashboardLoop.step required found) ⟨[], 0, 0⟩
  let policyErrors := policy.validate artifacts ++ duplicateComponents.map fun component =>
    "duplicate proof artifact for component: " ++ component
  { generatedAtUtc :=
      match generatedAtUtc with
      | some text => if text = "" then now else text
      | none => now
    overallStatus :=
      if policyErrors = [] ∧ loop.requiredFullyVerified = policy.requiredComponents.length then
        .pass
      else .attention
    totalRequired := policy.requiredComponents.length
    requiredPresent := loop.requiredPresent
    requiredFullyVerified := loop.requiredFullyVerified
    totalArtifacts := artifacts.length
    machineCheckedArtifacts := artifacts.countP (·.machineChecked)
    aiAssistedArtifacts := artifacts.countP (·.aiAssisted)
    aiAssistedWithRecheck := artifacts.countP fun a =>
      a.aiAssisted && decide (a.independentRecheckCommands ≠ [])
    policyErrors := policyErrors
    componentRows := loop.rows }

/-! ## Artifacts by component -/

/-- What a release asks of the artifact of a required component. -/
def ProofArtifact.Checked (artifact : ProofArtifact) : Prop :=
  artifact.machineChecked = true ∧ artifact.checkerCommands ≠ [] ∧
    (artifact.aiAssisted = true → artifact.independentRecheckCommands ≠ [])

instance (artifact : ProofArtifact) : Decidable artifact.Checked :=
  inferInstanceAs (Decidable (_ ∧ _ ∧ _))

/-- The last artifact of a component is the one that counts. -/
theorem lookup_byComponent (artifacts : List ProofArtifact) (component : String) :
    (byComponent artifacts).lookup component =
      (artifacts.filter (·.component = component)).getLast? := by
  induction artifacts using List.reverseRecOn with
  | nil => rfl
  | append_singleton artifacts a ih =>
      have hfold : byComponent (artifacts ++ [a]) =
          OrderedDict.setItem a.component a (byComponent artifacts) := List.foldl_concat _ _ _ _
      rw [hfold, OrderedDict.lookup_setItem, List.filter_append]
      by_cases h : component = a.component
      · rw [if_pos h, List.filter_cons_of_pos (by simpa using h.symm), List.filter_nil,
          List.getLast?_concat]
      · rw [if_neg h, List.filter_cons_of_neg (by simpa using Ne.symm h), List.filter_nil,
          List.append_nil, ih]

theorem mem_byComponent_iff {artifacts : List ProofArtifact} {component : String} :
    component ∈ byComponent artifacts ↔ component ∈ artifacts.map ProofArtifact.component := by
  rw [← AList.lookup_isSome, lookup_byComponent, List.getLast?_isSome, List.mem_map, Ne,
    List.filter_eq_nil_iff]
  push Not
  simp only [decide_eq_true_eq]

/-- Among artifacts of different components each one counts. -/
theorem lookup_byComponent_eq_some_iff {artifacts : List ProofArtifact}
    (h : (artifacts.map ProofArtifact.component).Nodup) {component : String}
    {artifact : ProofArtifact} :
    (byComponent artifacts).lookup component = some artifact ↔
      artifact ∈ artifacts ∧ artifact.component = component := by
  have hsound : ∀ {a : ProofArtifact}, (byComponent artifacts).lookup component = some a →
      a ∈ artifacts ∧ a.component = component := by
    intro a hlast
    rw [lookup_byComponent] at hlast
    have hmem := List.mem_of_getLast? hlast
    exact ⟨List.mem_of_mem_filter hmem, by simpa using List.of_mem_filter hmem⟩
  refine ⟨hsound, ?_⟩
  rintro ⟨hmem, rfl⟩
  have hin : artifact.component ∈ byComponent artifacts :=
    mem_byComponent_iff.mpr (List.mem_map_of_mem hmem)
  obtain ⟨a, hlookup⟩ := Option.isSome_iff_exists.mp (AList.lookup_isSome.mpr hin)
  obtain ⟨hamem, hcomponent⟩ := hsound hlookup
  rw [hlookup, List.inj_on_of_nodup_map h hamem hmem hcomponent]

theorem collectArtifacts_fst (artifacts : List ProofArtifact) :
    (collectArtifacts artifacts).1 = byComponent artifacts := by
  induction artifacts using List.reverseRecOn with
  | nil => rfl
  | append_singleton artifacts a ih =>
      unfold collectArtifacts byComponent at *
      rw [List.foldl_concat, List.foldl_concat, ← ih]

/-- No artifact is reported as a duplicate when no component comes twice. -/
theorem collectArtifacts_snd_eq_nil_iff (artifacts : List ProofArtifact) :
    (collectArtifacts artifacts).2 = [] ↔ (artifacts.map ProofArtifact.component).Nodup := by
  induction artifacts using List.reverseRecOn with
  | nil => simp [collectArtifacts]
  | append_singleton artifacts a ih =>
      have hfold : (collectArtifacts (artifacts ++ [a])).2 =
          if a.component ∈ byComponent artifacts
          then (collectArtifacts artifacts).2 ++ [a.component]
          else (collectArtifacts artifacts).2 := by
        rw [← collectArtifacts_fst]
        unfold collectArtifacts
        rw [List.foldl_concat]
      rw [hfold, List.map_append, List.map_singleton, List.nodup_append]
      split_ifs with hmem
      · have hin := mem_byComponent_iff.mp hmem
        refine iff_of_false (by simp) fun h => ?_
        exact h.2.2 _ hin _ (List.mem_singleton_self _) rfl
      · have hnot := mem_byComponent_iff.not.mp hmem
        rw [ih]
        refine ⟨fun h => ⟨h, List.nodup_singleton _, fun b hb b' hb' => ?_⟩, fun h => h.1⟩
        rw [List.mem_singleton.mp hb']
        exact fun heq => hnot (heq ▸ hb)

/-! ## Components -/

theorem componentErrors_eq_nil_iff {artifacts : List ProofArtifact} {component : String} :
    componentErrors artifacts component = [] ↔
      ∃ a, (byComponent artifacts).lookup component = some a ∧ a.Checked := by
  unfold componentErrors ProofArtifact.Checked
  cases (byComponent artifacts).lookup component with
  | none => simp
  | some a =>
      simp only [List.append_eq_nil_iff, Option.some.injEq, exists_eq_left']
      split_ifs <;> simp_all

theorem gapReasons_eq_nil_iff {artifact : ProofArtifact} :
    gapReasons true artifact = [] ↔ artifact.Checked := by
  unfold gapReasons ProofArtifact.Checked
  simp only [List.append_eq_nil_iff]
  split_ifs <;> simp_all

/-- The status of a row is what the policy says about its component. -/
theorem status_componentRow (artifacts : List ProofArtifact) (component : String)
    (required : Bool) :
    (componentRow component required ((byComponent artifacts).lookup component)).status =
      if required then if componentErrors artifacts component = [] then .verified else .gap
      else .optional := by
  unfold componentRow
  cases hlookup : (byComponent artifacts).lookup component with
  | none => cases required <;> simp [componentErrors, hlookup]
  | some a =>
      cases required with
      | false => rfl
      | true =>
          simp only [if_true, gapReasons_eq_nil_iff, componentErrors_eq_nil_iff, hlookup,
            Option.some.injEq, exists_eq_left']

theorem component_componentRow (component : String) (required : Bool)
    (artifact : Option ProofArtifact) :
    (componentRow component required artifact).component = component := by
  cases artifact <;> rfl

/-- A row has reasons when it shows a gap, and only then. -/
theorem gapReasons_componentRow_eq_nil_iff (component : String) (required : Bool)
    (artifact : Option ProofArtifact) :
    (componentRow component required artifact).gapReasons = [] ↔
      (componentRow component required artifact).status ≠ .gap := by
  cases artifact with
  | none => cases required <;> simp [componentRow]
  | some a =>
      cases required with
      | false => simp [componentRow, gapReasons]
      | true => by_cases h : gapReasons true a = [] <;> simp [componentRow, h]

/-! ## The loop -/

/-- The rows of the components, and how many of them count. -/
theorem foldl_step (required : Finset String) (found : OrderedDict String ProofArtifact)
    (names : List String) (loop : DashboardLoop) :
    names.foldl (DashboardLoop.step required found) loop = {
      rows := loop.rows ++ names.map fun c =>
        componentRow c (decide (c ∈ required)) (found.lookup c)
      requiredPresent := loop.requiredPresent + names.countP fun c =>
        decide (c ∈ required ∧ c ∈ found)
      requiredFullyVerified := loop.requiredFullyVerified + names.countP fun c =>
        (componentRow c (decide (c ∈ required)) (found.lookup c)).status = .verified } := by
  induction names generalizing loop with
  | nil => simp
  | cons c names ih =>
      have hpresent : ((componentRow c (decide (c ∈ required)) (found.lookup c)).present = true ∧
          (componentRow c (decide (c ∈ required)) (found.lookup c)).required = true) ↔
            c ∈ required ∧ c ∈ found := by
        rw [← AList.lookup_isSome]
        cases found.lookup c <;> simp [componentRow]
      rw [List.foldl_cons, ih]
      simp only [DashboardLoop.step, hpresent, List.map_cons, List.countP_cons,
        List.append_assoc, List.singleton_append, decide_eq_true_eq, DashboardLoop.mk.injEq,
        true_and]
      omega

namespace FormalVerificationPolicy

variable (policy : FormalVerificationPolicy) (now : String) (artifacts : List ProofArtifact)
variable (generatedAtUtc : Option String)

/-- The components of the rows. -/
def componentNames : List String :=
  (policy.requiredComponents.toFinset ∪
    (artifacts.map ProofArtifact.component).toFinset).sort (· ≤ ·)

/-- The loop of `build_snapshot`, from its start. -/
theorem foldl_step_collectArtifacts :
    let found := (collectArtifacts artifacts).1
    let required := policy.requiredComponents.toFinset
    ((required ∪ found.keys.toFinset).sort (· ≤ ·)).foldl (DashboardLoop.step required found)
        ⟨[], 0, 0⟩ = {
      rows := (policy.componentNames artifacts).map fun c =>
        componentRow c (decide (c ∈ required)) ((byComponent artifacts).lookup c)
      requiredPresent := (policy.componentNames artifacts).countP fun c =>
        decide (c ∈ required ∧ c ∈ byComponent artifacts)
      requiredFullyVerified := (policy.componentNames artifacts).countP fun c =>
        (componentRow c (decide (c ∈ required)) ((byComponent artifacts).lookup c)).status =
          .verified } := by
  intro found required
  have hkeys : found.keys.toFinset = (artifacts.map ProofArtifact.component).toFinset := by
    ext c
    rw [List.mem_toFinset, List.mem_toFinset, ← AList.mem_keys, ← mem_byComponent_iff]
    exact collectArtifacts_fst artifacts ▸ Iff.rfl
  rw [foldl_step, hkeys, List.nil_append, Nat.zero_add, Nat.zero_add]
  show DashboardLoop.mk _ _ _ = _
  rw [show found = byComponent artifacts from collectArtifacts_fst artifacts]
  rfl

theorem mem_componentNames {c : String} :
    c ∈ policy.componentNames artifacts ↔
      c ∈ policy.requiredComponents ∨ c ∈ artifacts.map ProofArtifact.component := by
  rw [componentNames, Finset.mem_sort, Finset.mem_union, List.mem_toFinset, List.mem_toFinset]

/-- A property of required components is counted over the rows as over the policy. -/
theorem countP_componentNames (p : String → Prop) [DecidablePred p]
    (h : ∀ c, p c → c ∈ policy.requiredComponents) :
    (policy.componentNames artifacts).countP (fun c => p c) =
      (policy.requiredComponents.toFinset.filter p).card := by
  have hnodup : (policy.componentNames artifacts).Nodup := Finset.sort_nodup _ _
  rw [List.countP_eq_length_filter, ← List.toFinset_card_of_nodup (hnodup.filter _)]
  congr 1
  ext c
  rw [List.mem_toFinset, List.mem_filter, decide_eq_true_eq, mem_componentNames,
    Finset.mem_filter, List.mem_toFinset]
  exact ⟨fun hc => ⟨h c hc.2, hc.2⟩, fun hc => ⟨.inl hc.1, hc.2⟩⟩

/-- A component is a verified row when it is required and the policy finds nothing wrong. -/
theorem status_eq_verified_iff (c : String) :
    (componentRow c (decide (c ∈ policy.requiredComponents.toFinset))
        ((byComponent artifacts).lookup c)).status = .verified ↔
      c ∈ policy.requiredComponents ∧ componentErrors artifacts c = [] := by
  rw [status_componentRow]
  by_cases hc : c ∈ policy.requiredComponents
  · by_cases herr : componentErrors artifacts c = [] <;> simp [hc, herr]
  · simp [hc]

theorem componentRows_buildSnapshot :
    (policy.buildSnapshot now artifacts generatedAtUtc).componentRows =
      (policy.componentNames artifacts).map fun c =>
        componentRow c (decide (c ∈ policy.requiredComponents.toFinset))
          ((byComponent artifacts).lookup c) :=
  congrArg DashboardLoop.rows (policy.foldl_step_collectArtifacts artifacts)

theorem requiredPresent_buildSnapshot :
    (policy.buildSnapshot now artifacts generatedAtUtc).requiredPresent =
      (policy.requiredComponents.toFinset.filter
        (· ∈ artifacts.map ProofArtifact.component)).card := by
  have hloop := congrArg DashboardLoop.requiredPresent
    (policy.foldl_step_collectArtifacts artifacts)
  rw [show (policy.buildSnapshot now artifacts generatedAtUtc).requiredPresent = _ from hloop]
  simp only [List.mem_toFinset, mem_byComponent_iff]
  rw [countP_componentNames policy artifacts _ fun c hc => hc.1]
  congr 1
  ext c
  rw [Finset.mem_filter, Finset.mem_filter, List.mem_toFinset]
  exact ⟨fun hc => hc.2, fun hc => ⟨hc.1, hc⟩⟩

theorem requiredFullyVerified_buildSnapshot :
    (policy.buildSnapshot now artifacts generatedAtUtc).requiredFullyVerified =
      (policy.requiredComponents.toFinset.filter
        fun c => componentErrors artifacts c = []).card := by
  have hloop := congrArg DashboardLoop.requiredFullyVerified
    (policy.foldl_step_collectArtifacts artifacts)
  rw [show (policy.buildSnapshot now artifacts generatedAtUtc).requiredFullyVerified = _
    from hloop]
  simp only [status_eq_verified_iff]
  rw [countP_componentNames policy artifacts _ fun c hc => hc.1]
  congr 1
  ext c
  rw [Finset.mem_filter, Finset.mem_filter, List.mem_toFinset]
  exact ⟨fun hc => hc.2, fun hc => ⟨hc.1, hc⟩⟩

/-- Every component counts as verified when the policy says nothing about any, and none is
required twice. -/
theorem card_filter_eq_length_iff (p : String → Prop) [DecidablePred p]
    (hall : ∀ c ∈ policy.requiredComponents, p c) :
    (policy.requiredComponents.toFinset.filter p).card = policy.requiredComponents.length ↔
      policy.requiredComponents.Nodup := by
  have hfilter : policy.requiredComponents.toFinset.filter p =
      policy.requiredComponents.toFinset :=
    Finset.filter_true_of_mem fun c hc => hall c (List.mem_toFinset.mp hc)
  rw [hfilter]
  constructor
  · intro hcard
    rw [List.card_toFinset] at hcard
    have hdedup := (List.dedup_sublist policy.requiredComponents).eq_of_length hcard
    exact hdedup ▸ List.nodup_dedup _
  · exact List.toFinset_card_of_nodup

theorem policyErrors_buildSnapshot_eq_nil_iff :
    (policy.buildSnapshot now artifacts generatedAtUtc).policyErrors = [] ↔
      (∀ c ∈ policy.requiredComponents, componentErrors artifacts c = []) ∧
        (artifacts.map ProofArtifact.component).Nodup := by
  show policy.validate artifacts ++ (collectArtifacts artifacts).2.map _ = [] ↔ _
  rw [List.append_eq_nil_iff, List.map_eq_nil_iff, collectArtifacts_snd_eq_nil_iff, validate,
    List.flatMap_eq_nil_iff]

/-- **When a release passes.**  No component is required twice, none has two artifacts, and each
required one has an artifact that is checked as the policy wants. -/
theorem overallStatus_eq_pass_iff :
    (policy.buildSnapshot now artifacts generatedAtUtc).overallStatus = .pass ↔
      policy.requiredComponents.Nodup ∧ (artifacts.map ProofArtifact.component).Nodup ∧
        ∀ c ∈ policy.requiredComponents, ∃ a ∈ artifacts, a.component = c ∧ a.Checked := by
  have hpass : (policy.buildSnapshot now artifacts generatedAtUtc).overallStatus = .pass ↔
      (policy.buildSnapshot now artifacts generatedAtUtc).policyErrors = [] ∧
        (policy.buildSnapshot now artifacts generatedAtUtc).requiredFullyVerified =
          policy.requiredComponents.length := by
    show (if _ ∧ _ then OverallStatus.pass else .attention) = .pass ↔ _
    split_ifs with h
    · exact iff_of_true rfl h
    · exact iff_of_false id h
  rw [hpass, policyErrors_buildSnapshot_eq_nil_iff, requiredFullyVerified_buildSnapshot]
  constructor
  · rintro ⟨⟨herrors, hnodup⟩, hcount⟩
    refine ⟨(policy.card_filter_eq_length_iff _ herrors).mp hcount, hnodup, ?_⟩
    intro c hc
    obtain ⟨a, hlookup, hchecked⟩ := componentErrors_eq_nil_iff.mp (herrors c hc)
    obtain ⟨hmem, hcomponent⟩ := (lookup_byComponent_eq_some_iff hnodup).mp hlookup
    exact ⟨a, hmem, hcomponent, hchecked⟩
  · rintro ⟨hrequired, hnodup, hchecked⟩
    have herrors : ∀ c ∈ policy.requiredComponents, componentErrors artifacts c = [] := by
      intro c hc
      obtain ⟨a, hmem, hcomponent, ha⟩ := hchecked c hc
      exact componentErrors_eq_nil_iff.mpr
        ⟨a, (lookup_byComponent_eq_some_iff hnodup).mpr ⟨hmem, hcomponent⟩, ha⟩
    exact ⟨⟨herrors, hnodup⟩, (policy.card_filter_eq_length_iff _ herrors).mpr hrequired⟩

/-- **The dashboard agrees with the policy.**  The rows are the components that are required or
have an artifact, each once and in order.  A row shows a gap exactly when its component is
required and the policy finds something wrong with it; the counts are the required components
with an artifact and those that the policy has nothing against. -/
theorem dashboard_agrees :
    let snapshot := policy.buildSnapshot now artifacts generatedAtUtc
    (snapshot.componentRows.map (·.component)).Pairwise (· < ·) ∧
      (∀ c, c ∈ snapshot.componentRows.map (·.component) ↔
        c ∈ policy.requiredComponents ∨ c ∈ artifacts.map ProofArtifact.component) ∧
      (∀ row ∈ snapshot.componentRows, row.status =
        if row.component ∈ policy.requiredComponents then
          if componentErrors artifacts row.component = [] then .verified else .gap
        else .optional) ∧
      (∀ row ∈ snapshot.componentRows, row.gapReasons = [] ↔ row.status ≠ .gap) ∧
      snapshot.requiredPresent = (policy.requiredComponents.toFinset.filter
        (· ∈ artifacts.map ProofArtifact.component)).card ∧
      snapshot.requiredFullyVerified = (policy.requiredComponents.toFinset.filter
        fun c => componentErrors artifacts c = []).card := by
  intro snapshot
  have hrows : snapshot.componentRows = _ :=
    policy.componentRows_buildSnapshot now artifacts generatedAtUtc
  have hnames : snapshot.componentRows.map (·.component) = policy.componentNames artifacts := by
    rw [hrows, List.map_map]
    refine (List.map_congr_left fun c _ => ?_).trans (List.map_id _)
    exact component_componentRow c _ _
  refine ⟨?_, ?_, ?_, ?_, policy.requiredPresent_buildSnapshot now artifacts generatedAtUtc,
    policy.requiredFullyVerified_buildSnapshot now artifacts generatedAtUtc⟩
  · rw [hnames]
    exact (policy.requiredComponents.toFinset ∪
      (artifacts.map ProofArtifact.component).toFinset).sortedLT_sort.pairwise
  · intro c
    rw [hnames, mem_componentNames]
  · intro row hrow
    rw [hrows] at hrow
    obtain ⟨c, -, rfl⟩ := List.mem_map.mp hrow
    rw [status_componentRow, component_componentRow]
    simp only [decide_eq_true_eq, List.mem_toFinset]
  · intro row hrow
    rw [hrows] at hrow
    obtain ⟨c, -, rfl⟩ := List.mem_map.mp hrow
    exact gapReasons_componentRow_eq_nil_iff c _ _

end FormalVerificationPolicy

end Pbt
