/-
# Reading a byte string from an offset

Readers of binary formats carry an offset into one fixed byte string.  `Spans`
says what lies between two offsets, and its rules are all that a proof about
such a reader needs: adjacent spans join (`Spans.append`) and split
(`Spans.of_append`), a span is determined by its start and its length
(`Spans.unique`), and the span of the whole string is the string
(`spans_zero_iff`).
-/
import PartitionedBinaryTree.Lib.ByteString

/-- `blob[offset : offset + size]`. -/
def slice (blob : Bytes) (offset size : ℕ) : Bytes := (blob.drop offset).take size

/-- The piece that stands between two others. -/
theorem slice_append {before x after : Bytes} {offset size : ℕ} (hbefore : before.length = offset)
    (hx : x.length = size) : slice (before ++ x ++ after) offset size = x := by
  rw [slice, List.append_assoc, List.drop_left' hbefore, List.take_left' hx]

/-- The data cut into pieces of `size` bytes, the last of which may be shorter. -/
def chunks (size : ℕ) (data : Bytes) : List Bytes :=
  (List.range ((data.length + size - 1) / size)).map fun i => slice data (size * i) size

/-- Two full pieces. -/
theorem chunks_append {size : ℕ} (hsize : 0 < size) {x y : Bytes} (hx : x.length = size)
    (hy : y.length = size) : chunks size (x ++ y) = [x, y] := by
  have hcount : ((x ++ y).length + size - 1) / size = 2 := by
    rw [List.length_append, hx, hy]
    exact Nat.div_eq_of_lt_le (by omega) (by omega)
  have hfirst : slice (x ++ y) (size * 0) size = x := by
    rw [slice, Nat.mul_zero, List.drop_zero, List.take_left' hx]
  have hsecond : slice (x ++ y) (size * 1) size = y := by
    rw [slice, Nat.mul_one, List.drop_left' hx, List.take_of_length_le hy.le]
  rw [chunks, hcount]
  show [slice (x ++ y) (size * 0) size, slice (x ++ y) (size * 1) size] = [x, y]
  rw [hfirst, hsecond]

/-- There is one piece for each `size` bytes, and one for what remains. -/
@[simp] theorem length_chunks (size : ℕ) (data : Bytes) :
    (chunks size data).length = (data.length + size - 1) / size := by
  rw [chunks, List.length_map, List.length_range]

@[simp] theorem chunks_nil (size : ℕ) : chunks size [] = [] := by
  have hcount : (chunks size []).length = 0 := by
    rw [length_chunks, List.length_nil, Nat.zero_add]
    cases size with
    | zero => rfl
    | succ n => exact Nat.div_eq_of_lt (by omega)
  exact List.length_eq_zero_iff.mp hcount

/-- The first pieces are the front of the data. -/
theorem flatten_slices (size k : ℕ) (data : Bytes) :
    ((List.range k).map fun i => slice data (size * i) size).flatten = data.take (size * k) := by
  induction k with
  | zero => simp
  | succ k ih =>
      rw [List.range_succ, List.map_append, List.flatten_append, ih, List.map_singleton,
        List.flatten_singleton, Nat.mul_succ, List.take_add, slice]

/-- **The pieces of some data** are the data, and all of them are full except the last one. -/
theorem chunks_eq {size : ℕ} (hsize : 0 < size) {data : Bytes} (hne : data ≠ []) :
    ∃ full last, chunks size data = full ++ [last] ∧ full.flatten ++ last = data ∧
      (∀ x ∈ full, x.length = size) ∧ last.length ≤ size := by
  have hpos : 0 < data.length := List.length_pos_iff.mpr hne
  obtain ⟨k, hk⟩ : ∃ k, (data.length + size - 1) / size = k + 1 :=
    Nat.exists_eq_succ_of_ne_zero (Nat.div_pos (by omega) hsize).ne'
  have hmod := Nat.div_add_mod (data.length + size - 1) size
  have hlt := Nat.mod_lt (data.length + size - 1) hsize
  rw [hk, Nat.mul_succ] at hmod
  refine ⟨_, slice data (size * k) size, by rw [chunks, hk, List.range_succ, List.map_append,
    List.map_singleton], ?_, ?_, ?_⟩
  · rw [flatten_slices, slice, ← List.take_add]
    exact List.take_of_length_le (by omega)
  · intro x hx
    obtain ⟨i, hi, rfl⟩ := List.mem_map.mp hx
    have hstep : size * (i + 1) ≤ size * k := Nat.mul_le_mul_left size (List.mem_range.mp hi)
    rw [Nat.mul_succ] at hstep
    rw [slice, List.length_take, List.length_drop]
    omega
  · rw [slice, List.length_take]
    omega

/-- A piece of a concatenation of equally wide pieces. -/
theorem slice_flatten {n : ℕ} {l : List Bytes} (h : ∀ x ∈ l, x.length = n) {i : ℕ}
    (hi : i < l.length) : slice l.flatten (n * i) n = l[i] := by
  induction l generalizing i with
  | nil => simp at hi
  | cons x l ih =>
      have hx : x.length = n := h x List.mem_cons_self
      rw [List.flatten_cons, slice]
      cases i with
      | zero =>
          rw [Nat.mul_zero, List.drop_zero, List.take_left' hx]
          rfl
      | succ i =>
          have hdrop : (x ++ l.flatten).drop (n * (i + 1)) = l.flatten.drop (n * i) := by
            rw [Nat.mul_succ, Nat.add_comm, ← List.drop_drop, List.drop_left' hx]
          rw [hdrop]
          exact ih (fun y hy => h y (List.mem_cons_of_mem _ hy)) (by simpa using hi)

/-- The bytes of `blob` from `offset` up to `offset'` are `x`. -/
def Spans (blob : Bytes) (offset : ℕ) (x : Bytes) (offset' : ℕ) : Prop :=
  ∃ before after, blob = before ++ x ++ after ∧ offset = before.length ∧
    offset' = offset + x.length

namespace Spans

variable {blob x y : Bytes} {o m o' : ℕ}

/-- A slice that fits is a span. -/
theorem of_slice {size : ℕ} (h : o + size ≤ blob.length) :
    Spans blob o (slice blob o size) (o + size) := by
  refine ⟨blob.take o, (blob.drop o).drop size, ?_, ?_, ?_⟩
  · rw [slice, List.append_assoc, List.take_append_drop, List.take_append_drop]
  · rw [List.length_take, Nat.min_eq_left (by omega)]
  · rw [slice, List.length_take, List.length_drop, Nat.min_eq_left (by omega)]

/-- A span is the slice of its length. -/
theorem slice_eq (h : Spans blob o x o') : slice blob o x.length = x := by
  obtain ⟨before, after, rfl, rfl, -⟩ := h
  exact slice_append rfl rfl

theorem end_eq (h : Spans blob o x o') : o' = o + x.length := h.choose_spec.choose_spec.2.2

theorem end_le (h : Spans blob o x o') : o' ≤ blob.length := by
  obtain ⟨before, after, rfl, rfl, rfl⟩ := h
  simp only [List.length_append]
  omega

/-- Two spans of one length with one start are the same. -/
theorem unique {m' : ℕ} (hx : Spans blob o x m) (hy : Spans blob o y m')
    (hlen : x.length = y.length) : x = y ∧ m = m' := by
  refine ⟨?_, ?_⟩
  · rw [← hx.slice_eq, ← hy.slice_eq, hlen]
  · rw [hx.end_eq, hy.end_eq, hlen]

/-- Adjacent spans join. -/
theorem append (hx : Spans blob o x m) (hy : Spans blob m y o') : Spans blob o (x ++ y) o' := by
  obtain ⟨before, after, hblob, rfl, rfl⟩ := hx
  have hfit := hy.end_le
  have hend := hy.end_eq
  have hafter : slice blob (before.length + x.length) y.length = y := hy.slice_eq
  rw [hblob, slice, ← List.length_append, List.drop_left] at hafter
  refine ⟨before, after.drop y.length, ?_, rfl, ?_⟩
  · rw [hblob]
    conv_lhs => rw [← List.take_append_drop y.length after, hafter]
    simp only [List.append_assoc]
  · rw [hend, List.length_append]
    omega

/-- A span of two pieces splits between them. -/
theorem of_append (h : Spans blob o (x ++ y) o') :
    Spans blob o x (o + x.length) ∧ Spans blob (o + x.length) y o' := by
  obtain ⟨before, after, rfl, rfl, rfl⟩ := h
  refine ⟨⟨before, y ++ after, by simp only [List.append_assoc], rfl, rfl⟩,
    ⟨before ++ x, after, by simp only [List.append_assoc], ?_, ?_⟩⟩
  · rw [List.length_append]
  · rw [List.length_append]
    omega

/-- Joining and splitting in one rule. -/
theorem append_iff : Spans blob o (x ++ y) o' ↔
    ∃ m, Spans blob o x m ∧ Spans blob m y o' :=
  ⟨fun h => ⟨_, h.of_append⟩, fun ⟨_, hx, hy⟩ => hx.append hy⟩

end Spans

/-- The span from the start to the end is the whole string. -/
theorem spans_zero_iff {blob x : Bytes} : Spans blob 0 x blob.length ↔ x = blob := by
  constructor
  · rintro ⟨before, after, hblob, hbefore, hlen⟩
    have hnil := List.length_eq_zero_iff.mp hbefore.symm
    subst hnil
    have hafter : after.length = 0 := by
      have := congrArg List.length hblob
      simp only [List.nil_append, List.length_append] at this
      omega
    rw [hblob, List.length_eq_zero_iff.mp hafter]
    simp
  · rintro rfl
    exact ⟨[], [], by simp, rfl, by simp⟩

/-- The empty span. -/
theorem spans_nil_iff {blob : Bytes} {o o' : ℕ} :
    Spans blob o [] o' ↔ o' = o ∧ o ≤ blob.length := by
  constructor
  · intro h
    have hend := h.end_eq
    rw [List.length_nil, Nat.add_zero] at hend
    exact ⟨hend, hend ▸ h.end_le⟩
  · rintro ⟨rfl, h⟩
    have hspan := Spans.of_slice (by simpa using h : o' + 0 ≤ blob.length)
    rwa [slice, List.take_zero, Nat.add_zero] at hspan
