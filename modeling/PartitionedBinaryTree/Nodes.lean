/-
# Node types and node hashes (`pbt/nodes.py`, `pbt/constants.py`, `pbt/hash.py`)

The three node types of the tree, as its logical state: an `InternalNode` is its
two children and a `StemNode` is its prefix and its 256 values.  The memoised
`_hash_cache` fields are the subject of `PartitionedBinaryTree.HashCache`, which
shows that they never change what is described here.

The tree is hash-agnostic, so the active hash function is a parameter.  `tree_hash`
asserts that the result has 32 bytes, which the type `HashFunction` records.
-/
import PartitionedBinaryTree.Lib.BitTrie
import PartitionedBinaryTree.Lib.QueryLog
import PartitionedBinaryTree.PyRuntime

namespace Pbt

/-! ## Constants -/

/-- `STEM_SUBTREE_WIDTH`: the number of leaf slots per stem. -/
abbrev stemSubtreeWidth : ℕ := 256

instance instNeZeroStemSubtreeWidth : NeZero stemSubtreeWidth := inferInstance

theorem stemSubtreeWidth_pos : 0 < stemSubtreeWidth := by decide

/-- A 32-byte leaf value. -/
abbrev Value := BytesN 32

/-- A 32-byte hash. -/
abbrev Digest := BytesN 32

/-- `EMPTY_VALUE`: the sentinel for an empty leaf slot. -/
def emptyValue : Value := BytesN.zero 32

/-- `STEM_HASH_DOMAIN = b"PBT:STEM:v1"`. -/
def stemHashDomain : Bytes := [80, 66, 84, 58, 83, 84, 69, 77, 58, 118, 49]

/-! ## The hash function -/

/-- A hash function that takes bytes and returns exactly 32 bytes. -/
abbrev HashFunction := Bytes → Digest

/-- `tree_hash(data)` with the active hash function `H`, recording `data`. -/
def treeHash (H : HashFunction) (data : Bytes) : Logged Bytes Digest := Logged.query H data

@[simp] theorem val_treeHash (H : HashFunction) (data : Bytes) :
    (treeHash H data).val = H data := rfl

@[simp] theorem queries_treeHash (H : HashFunction) (data : Bytes) :
    (treeHash H data).queries = [data] := rfl

/-- A hash function for concrete runs: it adds up the bytes by their places. -/
def placeHash : HashFunction := fun x =>
  .ofNat 32 (x.foldl (fun total b => 31 * total + b.toNat) x.length)

/-- A call that may hash and may raise. -/
abbrev HashPy (α : Type) := ExceptT PyError (Logged Bytes) α

namespace HashPy

variable {α β : Type}

/-- A call that hashes nothing. -/
def ofPy (x : Py α) : HashPy α := ExceptT.mk ⟨x, []⟩

/-- A call that raises nothing. -/
def ofHash (x : Logged Bytes α) : HashPy α := ExceptT.mk ⟨.ok x.val, x.queries⟩

/-- A call that raises before it hashes. -/
def ofPyHash : Py (Logged Bytes α) → HashPy α
  | .error e => ofPy (.error e)
  | .ok x => ofHash x

@[simp] theorem run_ofPy (x : Py α) : (ofPy x).run = ⟨x, []⟩ := rfl

@[simp] theorem run_ofHash (x : Logged Bytes α) : (ofHash x).run = ⟨.ok x.val, x.queries⟩ := rfl

/-- The call returns `a` and has hashed the strings `qs`. -/
def Returns (x : HashPy α) (a : α) (qs : List Bytes) : Prop := x.run = ⟨.ok a, qs⟩

/-- A sequence of two calls returns when both return, and hashes what both hash. -/
theorem returns_bind_iff {x : HashPy α} {f : α → HashPy β} {b : β} {qs : List Bytes} :
    Returns (x >>= f) b qs ↔
      ∃ a qs₁ qs₂, Returns x a qs₁ ∧ Returns (f a) b qs₂ ∧ qs = qs₁ ++ qs₂ := by
  unfold Returns
  rw [ExceptT.run_bind]
  obtain ⟨val, queries⟩ := x.run
  cases val with
  | error e =>
      -- neither side returns
      constructor
      · intro h
        cases congrArg Logged.val h
      · rintro ⟨a, qs₁, qs₂, h, -⟩
        cases congrArg Logged.val h
  | ok a =>
      constructor
      · intro h
        refine ⟨a, queries, (f a).run.queries, rfl, ?_, ?_⟩
        · have hval : (f a).run.val = .ok b := congrArg Logged.val h
          rw [← hval]
        · exact (congrArg Logged.queries h).symm
      · rintro ⟨a', qs₁, qs₂, h, hf, rfl⟩
        cases h
        show Logged.mk (f a).run.val (queries ++ (f a).run.queries) = _
        rw [hf]

@[simp] theorem returns_pure_iff {a b : α} {qs : List Bytes} :
    Returns (pure a : HashPy α) b qs ↔ a = b ∧ qs = [] := by
  unfold Returns
  constructor
  · intro h
    exact ⟨Except.ok.inj (congrArg Logged.val h), (congrArg Logged.queries h).symm⟩
  · rintro ⟨rfl, rfl⟩
    rfl

@[simp] theorem returns_ofPy_iff {x : Py α} {a : α} {qs : List Bytes} :
    Returns (ofPy x) a qs ↔ x = .ok a ∧ qs = [] := by
  simp only [Returns, run_ofPy, Logged.mk.injEq, eq_comm (a := qs)]

@[simp] theorem returns_ofHash_iff {x : Logged Bytes α} {a : α} {qs : List Bytes} :
    Returns (ofHash x) a qs ↔ x.val = a ∧ x.queries = qs := by
  simp only [Returns, run_ofHash, Logged.mk.injEq, Except.ok.injEq]

@[simp] theorem returns_ofPyHash_iff {x : Py (Logged Bytes α)} {a : α} {qs : List Bytes} :
    Returns (ofPyHash x) a qs ↔ x = .ok ⟨a, qs⟩ := by
  cases x with
  | error e => simp [ofPyHash]
  | ok w =>
      rw [ofPyHash, returns_ofHash_iff]
      cases w
      simp

theorem Returns.bind {x : HashPy α} {f : α → HashPy β} {a : α} {b : β} {qs₁ qs₂ : List Bytes}
    (hx : Returns x a qs₁) (hf : Returns (f a) b qs₂) : Returns (x >>= f) b (qs₁ ++ qs₂) :=
  returns_bind_iff.mpr ⟨a, qs₁, qs₂, hx, hf, rfl⟩

theorem Returns.ofPy {x : Py α} {a : α} (h : x = .ok a) : Returns (ofPy x) a [] :=
  returns_ofPy_iff.mpr ⟨h, rfl⟩

/-- A check that passes is followed by the rest of the call. -/
theorem Returns.check {x : Py Unit} {f : Unit → HashPy β} {b : β} {qs : List Bytes}
    (hx : x = .ok ()) (hf : Returns (f ()) b qs) : Returns (HashPy.ofPy x >>= f) b qs :=
  Returns.bind (Returns.ofPy hx) hf

/-- A call that hashes nothing hands its result on. -/
theorem returns_ofPy_bind_iff {x : Py α} {f : α → HashPy β} {b : β} {qs : List Bytes} :
    Returns (HashPy.ofPy x >>= f) b qs ↔ ∃ a, x = .ok a ∧ Returns (f a) b qs := by
  rw [returns_bind_iff]
  constructor
  · rintro ⟨a, qs₁, qs₂, hx, hf, rfl⟩
    obtain ⟨hval, rfl⟩ := returns_ofPy_iff.mp hx
    exact ⟨a, hval, hf⟩
  · rintro ⟨a, hx, hf⟩
    exact ⟨a, [], qs, returns_ofPy_iff.mpr ⟨hx, rfl⟩, hf, rfl⟩

/-- A call that raises nothing hands its value on, and what it hashed stands first. -/
theorem returns_ofHash_bind_iff {x : Logged Bytes α} {f : α → HashPy β} {b : β}
    {qs : List Bytes} :
    Returns (HashPy.ofHash x >>= f) b qs ↔
      ∃ rest, Returns (f x.val) b rest ∧ qs = x.queries ++ rest := by
  rw [returns_bind_iff]
  constructor
  · rintro ⟨a, qs₁, rest, hx, hf, rfl⟩
    obtain ⟨rfl, rfl⟩ := returns_ofHash_iff.mp hx
    exact ⟨rest, hf, rfl⟩
  · rintro ⟨rest, hf, rfl⟩
    exact ⟨x.val, x.queries, rest, returns_ofHash_iff.mpr ⟨rfl, rfl⟩, hf, rfl⟩

/-- A call that keeps one part of what another call returns. -/
theorem returns_bind_pure_iff {x : HashPy α} {f : α → β} {b : β} {qs : List Bytes} :
    Returns (x >>= fun a => pure (f a)) b qs ↔ ∃ a, Returns x a qs ∧ f a = b := by
  rw [returns_bind_iff]
  constructor
  · rintro ⟨a, qs₁, qs₂, hx, hpure, rfl⟩
    obtain ⟨rfl, rfl⟩ := returns_pure_iff.mp hpure
    exact ⟨a, (List.append_nil qs₁).symm ▸ hx, rfl⟩
  · rintro ⟨a, hx, rfl⟩
    exact ⟨a, qs, [], hx, returns_pure_iff.mpr ⟨rfl, rfl⟩, (List.append_nil qs).symm⟩

/-- A call behind a check returns when the check passes and the call returns. -/
theorem returns_check_iff {x : Py Unit} {f : Unit → HashPy β} {b : β} {qs : List Bytes} :
    Returns (HashPy.ofPy x >>= f) b qs ↔ x = .ok () ∧ Returns (f ()) b qs := by
  rw [returns_ofPy_bind_iff]
  constructor
  · rintro ⟨⟨⟩, hx, hf⟩
    exact ⟨hx, hf⟩
  · rintro ⟨hx, hf⟩
    exact ⟨(), hx, hf⟩

theorem Returns.pure (a : α) : Returns (Pure.pure a : HashPy α) a [] :=
  returns_pure_iff.mpr ⟨rfl, rfl⟩

/-! ### The outcome alone -/

/-- What the call returns or raises, without what it hashed. -/
def outcome (x : HashPy α) : Py α := x.run.val

theorem outcome_bind (x : HashPy α) (f : α → HashPy β) :
    outcome (x >>= f) = outcome x >>= fun a => outcome (f a) := by
  unfold outcome
  rw [ExceptT.run_bind]
  obtain ⟨val, queries⟩ := x.run
  cases val <;> rfl

@[simp] theorem outcome_ofPy (x : Py α) : outcome (ofPy x) = x := rfl

@[simp] theorem outcome_ofHash (x : Logged Bytes α) : outcome (ofHash x) = .ok x.val := rfl

@[simp] theorem outcome_ofPyHash (x : Py (Logged Bytes α)) :
    outcome (ofPyHash x) = x.map Logged.val := by
  cases x <;> rfl

@[simp] theorem outcome_pure (a : α) : outcome (pure a : HashPy α) = .ok a := rfl

/-- A loop returns or raises what the loop of the outcomes does. -/
theorem outcome_foldlM {σ : Type} (f : σ → α → HashPy σ) (start : σ) (items : List α) :
    outcome (items.foldlM f start) = items.foldlM (fun s x => outcome (f s x)) start := by
  induction items generalizing start with
  | nil => rfl
  | cons x items ih =>
      rw [List.foldlM_cons, List.foldlM_cons, outcome_bind]
      congr 1
      funext s
      exact ih s

/-- A comprehension returns or raises what the comprehension of the outcomes does. -/
theorem outcome_mapM (f : α → HashPy β) (items : List α) :
    outcome (items.mapM f) = items.mapM fun x => outcome (f x) := by
  induction items with
  | nil => rfl
  | cons x items ih =>
      rw [List.mapM_cons, List.mapM_cons, outcome_bind, ← ih]
      congr 1
      funext y
      rw [outcome_bind]
      rfl

theorem outcome_eq_ok_iff {x : HashPy α} {a : α} : outcome x = .ok a ↔ ∃ qs, Returns x a qs := by
  constructor
  · intro h
    refine ⟨x.run.queries, ?_⟩
    show x.run = ⟨.ok a, x.run.queries⟩
    rw [← h]
    rfl
  · rintro ⟨qs, h⟩
    exact congrArg Logged.val h

end HashPy

/-! ## Nodes -/

/-- The leaf values of a stem. -/
abbrev StemValues := Vector Value stemSubtreeWidth

/-- A node: `EmptyNode`, `InternalNode` or `StemNode`. -/
abbrev Node := BitTrie Bytes StemValues

namespace Node

/-- `EmptyNode()`. -/
@[match_pattern] abbrev emptyNode : Node := BitTrie.empty

/-- `InternalNode(left, right)`. -/
@[match_pattern] abbrev internalNode (left right : Node) : Node := BitTrie.node left right

/-- `StemNode(stem_prefix, values)`. -/
@[match_pattern] abbrev stemNode (stemPrefix : Bytes) (values : StemValues) : Node :=
  BitTrie.leaf stemPrefix values

end Node

/-- `[EMPTY_VALUE] * STEM_SUBTREE_WIDTH`. -/
def emptyStem : StemValues := Vector.replicate stemSubtreeWidth emptyValue

/-- `StemNode.is_empty`. -/
def stemIsEmpty (values : StemValues) : Bool := values.all (· == emptyValue)

/-- The values of a stem as the list of byte strings that is joined into a payload. -/
def stemBytes (values : StemValues) : List Bytes := values.toList.map Subtype.val

/-- The payload a stem hash commits to: `STEM_HASH_DOMAIN + stem_prefix + b"".join(values)`. -/
def stemPayload (stemPrefix : Bytes) (values : List Bytes) : Bytes :=
  stemHashDomain ++ stemPrefix ++ values.flatten

/-- `node_hash` of the three node types. -/
def nodeHash (H : HashFunction) : Node → Logged Bytes Digest
  | .emptyNode => treeHash H []
  | .internalNode left right => do
      let leftHash ← nodeHash H left
      let rightHash ← nodeHash H right
      treeHash H (leftHash.val ++ rightHash.val)
  | .stemNode stemPrefix values => treeHash H (stemPayload stemPrefix (stemBytes values))

/-! ## Slots of a stem -/

theorem stemIsEmpty_iff (values : StemValues) :
    stemIsEmpty values = true ↔ ∀ i : Fin stemSubtreeWidth, values[i] = emptyValue := by
  simp only [stemIsEmpty, Vector.all_eq_true, beq_iff_eq]
  exact ⟨fun h i => h i i.isLt, fun h i hi => h ⟨i, hi⟩⟩

@[simp] theorem getElem_emptyStem (i : ℕ) (hi : i < stemSubtreeWidth) :
    emptyStem[i] = emptyValue := by
  simp [emptyStem]

/-- Reading a slot after one slot was written. -/
theorem getElem_set_slot (values : StemValues) (i j : Fin stemSubtreeWidth) (v : Value) :
    (values.set i v)[j] = if j = i then v else values[j] := by
  simp only [Fin.getElem_fin, Vector.getElem_set, Fin.ext_iff, eq_comm]

@[simp] theorem length_stemBytes (values : StemValues) :
    (stemBytes values).length = stemSubtreeWidth := by
  simp [stemBytes]

theorem length_of_mem_stemBytes {values : StemValues} :
    ∀ x ∈ stemBytes values, x.length = 32 := by
  intro x hx
  obtain ⟨v, -, rfl⟩ := List.mem_map.mp hx
  exact v.property

theorem getElem?_stemBytes (values : StemValues) (i : Fin stemSubtreeWidth) :
    (stemBytes values)[i.val]? = some values[i].val := by
  simp [stemBytes]

/-- The byte strings of a stem determine its values. -/
theorem stemBytes_injective : Function.Injective stemBytes := by
  intro a b h
  exact Vector.toList_inj.mp (List.map_injective_iff.mpr Subtype.val_injective h)

end Pbt
