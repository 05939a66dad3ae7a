/-
# The recursion of `_split_stems` (`pbt/tree.py`)

`_split_stems` descends until the path bits of two prefixes differ, and no bound appears in it.
`Splits` is its recursion without the fuel of `splitStems`, with the number of further levels
that it descends; `splitStems_eq_ok_iff` says that the fuel bounds this number and does nothing
else.

Two distinct prefixes part at the terminator of the longer one at the latest, and a tree that a
run has made has the two prefixes agree above the depth where the walk ends.
`splitStems_terminates` puts the two together.
-/
import PartitionedBinaryTree.TreeRuns

namespace Pbt

open Node

/-! ## The recursion without fuel -/

section

variable (existingPrefix : Bytes) (existingValues : StemValues) (newPrefix : Bytes)
  (subindex : Fin stemSubtreeWidth) (value : Value)

/-- `_split_stems` at a depth returns a node, after it has descended some further levels. -/
inductive Splits : ℕ → ℕ → Node → Prop
  | part {depth : ℕ} : pathBitAt existingPrefix depth ≠ pathBitAt newPrefix depth →
      Splits depth 0
        (if pathBitAt newPrefix depth = 0 then
          internalNode (stemNode newPrefix (emptyStem.set subindex value subindex.isLt))
            (stemNode existingPrefix existingValues)
        else
          internalNode (stemNode existingPrefix existingValues)
            (stemNode newPrefix (emptyStem.set subindex value subindex.isLt)))
  | descend {depth levels : ℕ} {child : Node} :
      pathBitAt existingPrefix depth = pathBitAt newPrefix depth →
      Splits (depth + 1) levels child →
      Splits depth (levels + 1)
        (if pathBitAt existingPrefix depth = 0 then internalNode child emptyNode
        else internalNode emptyNode child)

end

variable {existingPrefix newPrefix stemPrefix : Bytes} {existingValues : StemValues}
  {subindex : Fin stemSubtreeWidth} {value : Value}

/-- **The fuel bounds the further levels** and does nothing else. -/
theorem splitStems_eq_ok_iff {fuel depth : ℕ} {node : Node} :
    splitStems existingPrefix existingValues newPrefix subindex value fuel depth = .ok node ↔
      ∃ levels < fuel, Splits existingPrefix existingValues newPrefix subindex value depth levels
        node := by
  induction fuel generalizing depth node with
  | zero =>
      refine iff_of_false (fun h => by cases h) ?_
      rintro ⟨levels, hlevels, -⟩
      exact absurd hlevels (Nat.not_lt_zero levels)
  | succ fuel ih =>
      rw [splitStems]
      dsimp only
      by_cases hbit : pathBitAt existingPrefix depth = pathBitAt newPrefix depth
      · rw [if_pos hbit, py_bind_eq_ok_iff]
        constructor
        · rintro ⟨child, hchild, hnode⟩
          obtain ⟨levels, hlevels, hsplits⟩ := ih.mp hchild
          refine ⟨levels + 1, Nat.succ_lt_succ hlevels, ?_⟩
          rw [py_ite_pure] at hnode
          cases hnode
          exact .descend hbit hsplits
        · rintro ⟨levels, hlevels, hsplits⟩
          cases hsplits with
          | part hne => exact absurd hbit hne
          | @descend _ levels child _ hchild =>
              exact ⟨child, ih.mpr ⟨levels, Nat.lt_of_succ_lt_succ hlevels, hchild⟩,
                py_ite_pure _ _⟩
      · rw [if_neg hbit, py_ite_pure]
        constructor
        · intro hnode
          cases hnode
          exact ⟨0, Nat.succ_pos fuel, .part hbit⟩
        · rintro ⟨levels, hlevels, hsplits⟩
          cases hsplits with
          | part _ => rfl
          | descend heq _ => exact absurd heq hbit

/-- **The recursion ends** at a position where the prefixes differ, at the latest. -/
theorem exists_splits {p depth : ℕ} (hdepth : depth ≤ p)
    (hp : pathBitAt existingPrefix p ≠ pathBitAt newPrefix p) :
    ∃ levels node, Splits existingPrefix existingValues newPrefix subindex value depth levels node ∧
      levels + depth ≤ p := by
  induction hgap : p - depth generalizing depth with
  | zero =>
      have heq : depth = p := by omega
      rw [heq]
      exact ⟨0, _, .part hp, by omega⟩
  | succ gap ih =>
      by_cases hbit : pathBitAt existingPrefix depth = pathBitAt newPrefix depth
      · have hsucc : depth + 1 ≤ p := by omega
        obtain ⟨levels, child, hsplits, hle⟩ := ih hsucc (by omega)
        exact ⟨levels + 1, _, .descend hbit hsplits, by omega⟩
      · exact ⟨0, _, .part hbit, by omega⟩

/-! ## The call in an insert -/

/-- A call of `_split_stems`: the stem that was found, and the depth. -/
structure SplitCall where
  existingPrefix : Bytes
  existingValues : StemValues
  depth : ℕ

/-- The call of `_split_stems` that `_insert` makes, if it makes one. -/
def splitCall : Node → Bytes → ℕ → Option SplitCall
  | .emptyNode, _, _ => none
  | .stemNode existingPrefix values, stemPrefix, depth =>
      if existingPrefix = stemPrefix then none else some ⟨existingPrefix, values, depth⟩
  | .internalNode left right, stemPrefix, depth =>
      let bit := pathBitAt stemPrefix depth
      if bit = 0 then splitCall left stemPrefix (depth + 1)
      else splitCall right stemPrefix (depth + 1)

/-- The tree with `new` in the place where the walk along a prefix ends. -/
def graft (new : Node) : Node → Bytes → ℕ → Node
  | .internalNode left right, stemPrefix, depth =>
      if pathBitAt stemPrefix depth = 0 then
        internalNode (graft new left stemPrefix (depth + 1)) right
      else internalNode left (graft new right stemPrefix (depth + 1))
  | _, _, _ => new

theorem splitCall_leaf_eq_some_iff {values : StemValues} {depth : ℕ} {call : SplitCall} :
    splitCall (stemNode existingPrefix values) stemPrefix depth = some call ↔
      existingPrefix ≠ stemPrefix ∧ call = ⟨existingPrefix, values, depth⟩ := by
  rw [splitCall]
  split_ifs with hs
  · exact iff_of_false (fun h => by cases h) fun h => h.1 hs
  · rw [Option.some.injEq, eq_comm]
    exact (and_iff_right hs).symm

/-- **An insert that makes the call** puts what the call returns where its walk ends. -/
theorem insertNode_of_splitCall {t : Node} {depth : ℕ} {call : SplitCall}
    (h : splitCall t stemPrefix depth = some call) :
    insertNode t stemPrefix subindex value depth =
      (splitStems call.existingPrefix call.existingValues stemPrefix subindex value
        (splitFuel call.existingPrefix stemPrefix call.depth) call.depth).map
          fun new => graft new t stemPrefix depth := by
  induction t generalizing depth with
  | empty => cases h
  | leaf existingPrefix values =>
      obtain ⟨hne, rfl⟩ := splitCall_leaf_eq_some_iff.mp h
      rw [insertNode, if_neg hne]
      dsimp only
      cases splitStems existingPrefix values stemPrefix subindex value
        (splitFuel existingPrefix stemPrefix depth) depth <;> rfl
  | node left right ihl ihr =>
      rw [splitCall] at h
      rw [insertNode]
      simp only [graft]
      split_ifs at h ⊢ with hbit
      · rw [ihl h]
        cases splitStems call.existingPrefix call.existingValues stemPrefix subindex value
          (splitFuel call.existingPrefix stemPrefix call.depth) call.depth <;> rfl
      · rw [ihr h]
        cases splitStems call.existingPrefix call.existingValues stemPrefix subindex value
          (splitFuel call.existingPrefix stemPrefix call.depth) call.depth <;> rfl

/-- **The prefixes of the call** are distinct, and agree above its depth in a tree whose stems
lie on their paths. -/
theorem prefixes_of_splitCall {t : Node} {depth : ℕ} {call : SplitCall}
    (ht : BitTrie.Placed pathBit depth t) (hu : BitTrie.Under pathBit depth stemPrefix t)
    (h : splitCall t stemPrefix depth = some call) :
    call.existingPrefix ≠ stemPrefix ∧
      BitTrie.Agree pathBit call.depth call.existingPrefix stemPrefix := by
  induction t generalizing depth with
  | empty => cases h
  | leaf existingPrefix values =>
      obtain ⟨hne, rfl⟩ := splitCall_leaf_eq_some_iff.mp h
      exact ⟨hne, hu (existingPrefix, values) List.mem_cons_self⟩
  | node left right ihl ihr =>
      rw [splitCall] at h
      split_ifs at h with hbit
      · exact ihl ht.2.2.1 (hu.left ht (pathBit_eq_false_iff.mpr hbit)) h
      · exact ihr ht.2.2.2 (hu.right ht (pathBit_eq_true_iff.mpr hbit)) h

/-! ## Termination -/

/-- Two distinct prefixes have different path bits at the terminator of the longer one, at the
latest. -/
theorem exists_pathBitAt_ne {a b : Bytes} (h : a ≠ b) :
    ∃ p ≤ 8 * max a.length b.length, pathBitAt a p ≠ pathBitAt b p := by
  obtain ⟨p, hp, hne⟩ := exists_pathBit_ne h
  exact ⟨p, hp, mt pathBitAt_eq_iff.mp hne⟩

/-- Prefixes that agree above a depth differ at that depth or below. -/
theorem exists_splits_of_agree {depth : ℕ} (hne : existingPrefix ≠ newPrefix)
    (hagree : BitTrie.Agree pathBit depth existingPrefix newPrefix) :
    ∃ levels node, Splits existingPrefix existingValues newPrefix subindex value depth levels node ∧
      levels + depth ≤ 8 * max existingPrefix.length newPrefix.length := by
  obtain ⟨p, hp, hbits⟩ := exists_pathBitAt_ne hne
  have hdepth : depth ≤ p := not_lt.mp fun hlt => hbits (pathBitAt_eq_iff.mpr (hagree p hlt))
  obtain ⟨levels, node, hsplits, hle⟩ := exists_splits hdepth hbits
  exact ⟨levels, node, hsplits, hle.trans hp⟩

/-- **The recursion of `_split_stems` ends**: distinct byte strings have a different path bit at
the terminator of the longer one at the latest, and every call that an insert into a reachable
tree makes has distinct prefixes that agree above its depth, so that it descends no further than
this terminator. -/
theorem splitStems_terminates :
    (∀ a b : Bytes, a ≠ b →
      ∃ p ≤ 8 * max a.length b.length, pathBitAt a p ≠ pathBitAt b p) ∧
    ∀ t, Reachable t → ∀ stemPrefix subindex value call, splitCall t stemPrefix 0 = some call →
      call.existingPrefix ≠ stemPrefix ∧
      (∀ p < call.depth, pathBitAt call.existingPrefix p = pathBitAt stemPrefix p) ∧
      ∃ levels node, Splits call.existingPrefix call.existingValues stemPrefix subindex value
          call.depth levels node ∧
        levels + call.depth ≤ 8 * max call.existingPrefix.length stemPrefix.length ∧
        insertNode t stemPrefix subindex value 0 = .ok (graft node t stemPrefix 0) := by
  refine ⟨fun a b => exists_pathBitAt_ne, ?_⟩
  intro t ht stemPrefix subindex value call hcall
  obtain ⟨hne, hagree⟩ := prefixes_of_splitCall ht.wellFormed.placed
    (BitTrie.under_zero stemPrefix t) hcall
  obtain ⟨levels, node, hsplits, hle⟩ : ∃ levels node, Splits call.existingPrefix
      call.existingValues stemPrefix subindex value call.depth levels node ∧
      levels + call.depth ≤ 8 * max call.existingPrefix.length stemPrefix.length :=
    exists_splits_of_agree hne hagree
  have hreturns : splitStems call.existingPrefix call.existingValues stemPrefix subindex value
      (splitFuel call.existingPrefix stemPrefix call.depth) call.depth = .ok node := by
    rw [splitStems_eq_ok_iff]
    exact ⟨levels, by rw [splitFuel]; omega, hsplits⟩
  refine ⟨hne, fun p hp => pathBitAt_eq_iff.mpr (hagree p hp), levels, node, hsplits, hle, ?_⟩
  rw [insertNode_of_splitCall hcall, hreturns]
  rfl

/-- A stem, and an extension of it by its terminator and a zero byte. -/
theorem splitStems_terminates_extension :
    (∃ p ≤ 8 * 3, pathBitAt [1] p ≠ pathBitAt [1, 128, 0] p) ∧
    ∃ levels node, Splits [1] (emptyStem.set 0 emptyValue) [1, 128, 0] 0 emptyValue 0 levels node ∧
      levels + 0 ≤ 8 * 3 := by
  have ht : Reachable (stemNode [1] (emptyStem.set 0 emptyValue)) :=
    ⟨[.insert (joinKey [1] 0) emptyValue.val], (run_lone (by decide) 0 emptyValue).symm⟩
  have hcall : splitCall (stemNode [1] (emptyStem.set 0 emptyValue)) [1, 128, 0] 0 =
      some ⟨[1], emptyStem.set 0 emptyValue, 0⟩ :=
    splitCall_leaf_eq_some_iff.mpr ⟨by decide, rfl⟩
  obtain ⟨-, -, levels, node, hsplits, hle, -⟩ :=
    splitStems_terminates.2 _ ht [1, 128, 0] 0 emptyValue _ hcall
  exact ⟨splitStems_terminates.1 [1] [1, 128, 0] (by decide), levels, node, hsplits, hle⟩

end Pbt
