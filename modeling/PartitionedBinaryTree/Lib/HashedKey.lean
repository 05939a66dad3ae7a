/-
# Keys that name their place by hashes

A `HashedKey` says how a key comes about: a partition byte, a position that is the
digests of some preimages side by side, and a slot byte.  Two such keys are the
same bytes exactly when their digests are (`bytes_eq_iff`); so keys that are made
differently are different, unless two preimages collide (`bytes_inj`).  The stem
of a key is what stands in front of its slot.
-/
import PartitionedBinaryTree.Lib.ByteString
import PartitionedBinaryTree.Lib.QueryLog

/-- The parts of a key: partition, preimages of its position, slot. -/
structure HashedKey where
  partition : UInt8
  preimages : List Bytes
  slot : UInt8
  deriving DecidableEq, Repr

namespace HashedKey

variable {n : ℕ} (H : Bytes → BytesN n)

/-- The digests of the preimages, side by side. -/
def position (k : HashedKey) : Bytes := ((k.preimages.map H).map Subtype.val).flatten

/-- The partition and the position. -/
def stem (k : HashedKey) : Bytes := [k.partition] ++ k.position H

/-- The key itself. -/
def bytes (k : HashedKey) : Bytes := k.stem H ++ [k.slot]

omit H in
/-- Digests are of one width. -/
theorem width_of_mem_map (ds : List (BytesN n)) : ∀ x ∈ ds.map Subtype.val, x.length = n := by
  intro x hx
  obtain ⟨d, -, rfl⟩ := List.mem_map.mp hx
  exact d.property

theorem length_position (k : HashedKey) :
    (k.position H).length = k.preimages.length * n := by
  rw [position, length_flatten_of_widths (width_of_mem_map _), List.length_map, List.length_map]

/-- A position of one digest. -/
theorem bytes_singleton (p i : UInt8) (x : Bytes) :
    (HashedKey.mk p [x] i).bytes H = [p] ++ (H x).val ++ [i] := by
  simp [bytes, stem, position]

/-- A position of two digests. -/
theorem bytes_pair (p i : UInt8) (x y : Bytes) :
    (HashedKey.mk p [x, y] i).bytes H = [p] ++ ((H x).val ++ (H y).val) ++ [i] := by
  simp [bytes, stem, position]

/-- A key has at least its partition and its slot. -/
theorem two_le_length_bytes (k : HashedKey) : 2 ≤ (k.bytes H).length := by
  rw [bytes, stem, List.length_append, List.length_append, List.length_singleton,
    List.length_singleton]
  omega

variable {H} {k k' : HashedKey}

theorem stem_ne_nil : k.stem H ≠ [] := List.cons_ne_nil _ _

/-- **Equal stems** have equal partitions and equal digests. -/
theorem stem_eq_iff (hn : 0 < n) :
    k.stem H = k'.stem H ↔
      k.partition = k'.partition ∧ k.preimages.map H = k'.preimages.map H := by
  constructor
  · intro h
    obtain ⟨hpartition, hposition⟩ := List.cons.inj h
    refine ⟨hpartition, ?_⟩
    -- positions of one length are made of equally many digests
    have hcount : k.preimages.length = k'.preimages.length := by
      have hlen := congrArg List.length hposition
      change (k.position H).length = (k'.position H).length at hlen
      rw [length_position, length_position] at hlen
      exact Nat.eq_of_mul_eq_mul_right hn hlen
    have hdigests := flatten_inj_of_widths (width_of_mem_map _) (width_of_mem_map _)
      (by simp only [List.length_map, hcount]) hposition
    exact List.map_injective_iff.mpr Subtype.val_injective hdigests
  · rintro ⟨hpartition, hdigests⟩
    rw [stem, stem, position, position, hpartition, hdigests]

/-- **Equal keys** have equal partitions, equal digests and equal slots. -/
theorem bytes_eq_iff (hn : 0 < n) :
    k.bytes H = k'.bytes H ↔ k.partition = k'.partition ∧
      k.preimages.map H = k'.preimages.map H ∧ k.slot = k'.slot := by
  have hparts : k.bytes H = k'.bytes H ↔ k.stem H = k'.stem H ∧ k.slot = k'.slot := by
    constructor
    · intro h
      obtain ⟨hstem, hslot⟩ := List.append_inj' h rfl
      exact ⟨hstem, List.singleton_inj.mp hslot⟩
    · rintro ⟨hstem, hslot⟩
      rw [bytes, bytes, hstem, hslot]
  rw [hparts, stem_eq_iff hn, and_assoc]

/-- **Keys are injective up to a collision** of their preimages. -/
theorem bytes_inj (hn : 0 < n) {qs : List Bytes} (hk : k.preimages ⊆ qs) (hk' : k'.preimages ⊆ qs)
    (h : k.bytes H = k'.bytes H) : k = k' ∨ Collision H qs := by
  obtain ⟨hpartition, hdigests, hslot⟩ := (bytes_eq_iff hn).mp h
  rcases map_eq_or_collision hk hk' hdigests with hpreimages | hcol
  · left
    obtain ⟨p, ps, i⟩ := k
    obtain ⟨p', ps', i'⟩ := k'
    cases hpartition
    cases hpreimages
    cases hslot
    rfl
  · exact Or.inr hcol

end HashedKey
