/-
# The hash modes of the Rust client (`pbt-rs/src/hash.rs`)

Three modes, two primitives: the `blake3` crate, and the compressor
`gemini_compress` of the source on two blocks of 32 bytes.  The functions that
are built from them take the two as a parameter (`Primitives`) and record what
they apply them to (`Query`); `Primitives.source` has the compressor of the
source.  `ModeHasher` of `tree.rs` is a hasher of `PartitionedBinaryTree.RustTree`.

* `hash_stemPayload` : `ModeHasher::hash` cuts the payload of a stem where it was
  put together, so that it is `hash_stem`;
* `contentHashLog` : the hash of a tree computed from scratch, with what is hashed.
-/
import PartitionedBinaryTree.Lib.ByteCursor
import PartitionedBinaryTree.Lib.PairFold
import PartitionedBinaryTree.Commitment
import PartitionedBinaryTree.ClientAgreement

namespace PbtRs

open Pbt (StemValues Value Digest stemSubtreeWidth emptyValue stemHashDomain)

/-- `enum HashFunction`. -/
inductive HashFunction
  | blake3
  | poseidon2
  | gemini
  deriving DecidableEq, Repr

/-! ## The compressor -/

/-- `enum GeminiField`. -/
inductive GeminiField
  | babyBear
  | goldilocks64
  deriving DecidableEq, Repr

/-- `struct GeminiParameters`. -/
structure GeminiParameters where
  field : GeminiField
  rounds : UInt8
  deriving DecidableEq, Repr

/-- `GeminiParameters::default()`. -/
def GeminiParameters.default : GeminiParameters := ⟨.goldilocks64, 10⟩

/-- `word.rotate_left(n)`. -/
def rotateLeft (word : UInt64) (n : ℕ) : UInt64 :=
  (word <<< UInt64.ofNat (n % 64)) ||| (word >>> UInt64.ofNat (64 - n % 64))

/-- `word.to_le_bytes()`. -/
def toLeBytes (word : UInt64) : Bytes := (natToBE 8 word.toNat).reverse

/-- `u64::from_le_bytes(bytes)`. -/
def fromLeBytes (bytes : Bytes) : UInt64 := UInt64.ofNat (beToNat bytes.reverse)

/-- `bytes32_to_u64s(value)`. -/
def bytes32ToU64s (value : Digest) : Vector UInt64 4 :=
  Vector.ofFn fun i => fromLeBytes (slice value.val (8 * i) 8)

/-- `u64s_to_bytes32(value)`. -/
def u64sToBytes32 (value : Vector UInt64 4) : Digest :=
  ⟨toLeBytes value[0] ++ toLeBytes value[1] ++ toLeBytes value[2] ++ toLeBytes value[3], by
    simp [toLeBytes]⟩

/-- The constants `(c0, c1, c2)` of `gemini_mix_round`. -/
def GeminiField.constants : GeminiField → UInt64 × UInt64 × UInt64
  | .babyBear => (0xA24B1C627E7799A5, 0xC3A5C85C97CB3127, 0xB492B66FBE98F273)
  | .goldilocks64 => (0x9E3779B97F4A7C15, 0xBF58476D1CE4E5B9, 0x94D049BB133111EB)

/-- `gemini_mix_round(state, params, round)`: the state after the round. -/
def geminiMixRound (state : Vector UInt64 8) (params : GeminiParameters) (round : UInt64) :
    Vector UInt64 8 :=
  let (c0, c1, c2) := params.field.constants
  let state := Vector.ofFn fun (i : Fin 8) =>
    let tweak := (round + UInt64.ofNat i) * c0
    rotateLeft (state[i] + tweak) ((11 + i) % 64)
  -- the second loop reads and writes the places `i` and `i + 4` only
  let sums := Vector.ofFn fun (i : Fin 4) =>
    (state[i.val] + state[i.val + 4]) * rotateLeft c1 (i * 7)
  let xors := Vector.ofFn fun (i : Fin 4) =>
    (state[i.val] ^^^ state[i.val + 4]) + rotateLeft c2 (i * 9)
  let state : Vector UInt64 8 := sums ++ xors
  -- `state.rotate_left(1)`
  Vector.ofFn fun (i : Fin 8) => state[i + 1]

/-- `gemini_compress_with_params(left, right, params)`. -/
def geminiCompressWithParams (left right : Digest) (params : GeminiParameters) : Digest :=
  let state : Vector UInt64 8 := bytes32ToU64s left ++ bytes32ToU64s right
  let state := (List.range params.rounds.toNat).foldl
    (fun state round => geminiMixRound state params (UInt64.ofNat round)) state
  u64sToBytes32 (Vector.ofFn fun (i : Fin 4) => state[i.val] ^^^ state[i.val + 4])

/-- `gemini_compress(left, right)`. -/
def geminiCompress (left right : Digest) : Digest :=
  geminiCompressWithParams left right .default

/-! ## The primitives -/

/-- The two primitives. -/
structure Primitives where
  blake3 : Pbt.HashFunction
  geminiCompress : Digest → Digest → Digest

/-- The primitives of the source, over the function of the `blake3` crate. -/
def Primitives.source (blake3 : Pbt.HashFunction) : Primitives := ⟨blake3, PbtRs.geminiCompress⟩

/-- An input of a primitive. -/
inductive Query
  | blake3 (input : Bytes)
  | compress (left right : Digest)
  deriving DecidableEq, Repr

/-- The primitives as one function. -/
def Primitives.answer (primitives : Primitives) : Query → Digest
  | .blake3 input => primitives.blake3 input
  | .compress left right => primitives.geminiCompress left right

section Modes

variable (primitives : Primitives)

/-- `blake3_hash(input)`. -/
def blake3Hash (input : Bytes) : Logged Query Digest := .query primitives.answer (.blake3 input)

/-- A call of `gemini_compress`. -/
def compress (left right : Digest) : Logged Query Digest :=
  .query primitives.answer (.compress left right)

/-- `b"poseidon2:"`. -/
def poseidon2Domain : Bytes := [112, 111, 115, 101, 105, 100, 111, 110, 50, 58]

/-- `poseidon2_hash_two(left, right)`. -/
def poseidon2HashTwo (left right : Digest) : Logged Query Digest :=
  blake3Hash primitives (poseidon2Domain ++ left.val ++ right.val)

/-- `tree_hash(left, right, mode)`. -/
def treeHash (left right : Digest) : HashFunction → Logged Query Digest
  | .blake3 => blake3Hash primitives (left.val ++ right.val)
  | .poseidon2 => poseidon2HashTwo primitives left right
  | .gemini => compress primitives left right

/-- The start of `acc` in `hash_bytes`: `b"gemini:v"` and zero bytes. -/
def geminiStart : Digest := .copyFrom 32 [103, 101, 109, 105, 110, 105, 58, 118]

/-- `hash_bytes(input, mode)`. -/
def hashBytes (input : Bytes) : HashFunction → Logged Query Digest
  | .blake3 => blake3Hash primitives input
  | .poseidon2 => blake3Hash primitives (poseidon2Domain ++ input)
  | .gemini => (chunks 32 input).foldlM
      (fun acc part => compress primitives acc (.copyFrom 32 part)) geminiStart

/-- `prefix_block`: the first 32 bytes of a stem prefix, zero-padded. -/
def stemBlock (stemPrefix : Bytes) : Digest := .copyFrom 32 stemPrefix

/-- The `while` loop of `hash_stem`, and `level[0]`. -/
def foldValues (values : StemValues) : Logged Query Digest := do
  let level ← PairFold.foldWhile primitives.answer .compress values.toList.length values.toList
  pure (level.headD emptyValue)

/-- `hash_stem(prefix, values, mode)` of `hash.rs`. -/
def hashStemMode (stemPrefix : Bytes) (values : StemValues) (mode : HashFunction) :
    Logged Query Digest :=
  if mode = .gemini then do
    let root ← foldValues primitives values
    compress primitives (stemBlock stemPrefix) root
  else hashBytes primitives (Pbt.stemPayload stemPrefix (Pbt.stemBytes values)) mode

end Modes

/-! ## A stem with one value -/

/-- The values of a stem with the first slot set. -/
def headSlot (v : Value) : StemValues := Pbt.emptyStem.set 0 v

theorem toList_headSlot (v : Value) : (headSlot v).toList = PairFold.spike 8 v emptyValue := rfl

/-- The fold of these values: two elements and two inputs a level. -/
theorem foldValues_headSlot (primitives : Primitives) (v : Value) :
    (foldValues primitives (headSlot v)).val =
      PairFold.spikeRoot primitives.answer .compress 8 v emptyValue ∧
    (foldValues primitives (headSlot v)).queries ⊆
      PairFold.spikeQueries primitives.answer .compress 8 v emptyValue := by
  obtain ⟨hval, hqueries⟩ := PairFold.foldWhile_spike primitives.answer Query.compress
    (show 8 ≤ 2 ^ 8 by decide) v emptyValue
  have hlen : (headSlot v).toList.length = 2 ^ 8 := Vector.length_toList
  unfold foldValues
  rw [hlen, toList_headSlot, Logged.val_bind, Logged.queries_bind, hval, Logged.queries_pure,
    List.append_nil]
  exact ⟨rfl, hqueries⟩

/-! ## `ModeHasher` -/

/-- `struct ModeHasher`, over the primitives. -/
structure ModeHasher where
  mode : HashFunction
  primitives : Primitives

namespace ModeHasher

/-- `ModeHasher::hash(input)`. -/
def hash (hasher : ModeHasher) (input : Bytes) : Logged Query Digest :=
  let tagLen := stemHashDomain.length
  let valuesBytes := stemSubtreeWidth * 32
  if hasher.mode = .gemini ∧ stemHashDomain <+: input ∧ tagLen + valuesBytes ≤ input.length then
    let prefixLen := input.length - tagLen - valuesBytes
    let stemPrefix := slice input tagLen prefixLen
    let valuesSlice := input.drop (tagLen + prefixLen)
    let values := Vector.ofFn fun (i : Fin stemSubtreeWidth) =>
      BytesN.copyFrom 32 (slice valuesSlice (32 * i) 32)
    hashStemMode hasher.primitives stemPrefix values hasher.mode
  else hashBytes hasher.primitives input hasher.mode

/-- `ModeHasher::hash_pair(left, right)`. -/
def hashPair (hasher : ModeHasher) (left right : Digest) : Logged Query Digest :=
  treeHash hasher.primitives left right hasher.mode

end ModeHasher

instance : TreeHasher ModeHasher where
  hash hasher input := (hasher.hash input).val
  hashPair hasher left right := (hasher.hashPair left right).val

/-! ## The payload of a stem -/

variable {hasher : ModeHasher}

/-- Outside the Gemini mode the payload is hashed as it is. -/
theorem hash_of_ne_gemini (hmode : hasher.mode ≠ .gemini) (input : Bytes) :
    hasher.hash input = hashBytes hasher.primitives input hasher.mode :=
  if_neg fun h => hmode h.1

/-- A payload that is shorter than any stem's is hashed as it is. -/
theorem hash_of_short {input : Bytes} (h : input.length < 8203) :
    hasher.hash input = hashBytes hasher.primitives input hasher.mode := by
  refine if_neg fun hlong => ?_
  have hlen : 11 + 256 * 32 ≤ input.length := hlong.2.2
  omega

/-- The values of a stem, cut out of their concatenation. -/
theorem values_of_flatten (values : StemValues) :
    (Vector.ofFn fun (i : Fin stemSubtreeWidth) =>
      BytesN.copyFrom 32 (slice (Pbt.stemBytes values).flatten (32 * i) 32)) = values := by
  apply Vector.ext
  intro i hi
  have hlen : i < (Pbt.stemBytes values).length := by
    rw [Pbt.length_stemBytes]
    exact hi
  have hslot : (Pbt.stemBytes values)[i] = values[i].val := by
    have hget := Pbt.getElem?_stemBytes values ⟨i, hi⟩
    rw [List.getElem?_eq_getElem hlen] at hget
    exact Option.some.inj hget
  rw [Vector.getElem_ofFn, slice_flatten Pbt.length_of_mem_stemBytes hlen, hslot]
  exact BytesN.copyFrom_val _

/-- **The payload of a stem is cut where it was put together.** -/
theorem hash_stemPayload (stemPrefix : Bytes) (values : StemValues) :
    hasher.hash (Pbt.stemPayload stemPrefix (Pbt.stemBytes values)) =
      hashStemMode hasher.primitives stemPrefix values hasher.mode := by
  by_cases hmode : hasher.mode = .gemini
  · have hlen : (Pbt.stemPayload stemPrefix (Pbt.stemBytes values)).length =
        8203 + stemPrefix.length :=
      Pbt.length_stemPayload (Pbt.length_stemBytes values) Pbt.length_of_mem_stemBytes
    have hsplit : Pbt.stemPayload stemPrefix (Pbt.stemBytes values) =
        stemHashDomain ++ (stemPrefix ++ (Pbt.stemBytes values).flatten) :=
      List.append_assoc _ _ _
    have hcond : hasher.mode = .gemini ∧
        stemHashDomain <+: Pbt.stemPayload stemPrefix (Pbt.stemBytes values) ∧
        stemHashDomain.length + stemSubtreeWidth * 32 ≤
          (Pbt.stemPayload stemPrefix (Pbt.stemBytes values)).length := by
      refine ⟨hmode, ⟨_, hsplit.symm⟩, ?_⟩
      rw [hlen]
      show 11 + 256 * 32 ≤ _
      omega
    have hprefixLen : (Pbt.stemPayload stemPrefix (Pbt.stemBytes values)).length -
        stemHashDomain.length - stemSubtreeWidth * 32 = stemPrefix.length := by
      rw [hlen]
      show 8203 + stemPrefix.length - 11 - 256 * 32 = _
      omega
    have hstem : slice (Pbt.stemPayload stemPrefix (Pbt.stemBytes values)) stemHashDomain.length
        stemPrefix.length = stemPrefix := by
      rw [hsplit, slice, List.drop_left, List.take_left]
    have hvalues : (Pbt.stemPayload stemPrefix (Pbt.stemBytes values)).drop
        (stemHashDomain.length + stemPrefix.length) = (Pbt.stemBytes values).flatten := by
      rw [hsplit, ← List.drop_drop, List.drop_left, List.drop_left]
    unfold ModeHasher.hash
    dsimp only
    rw [if_pos hcond, hprefixLen, hstem, hvalues, values_of_flatten]
  · rw [hash_of_ne_gemini hmode, hashStemMode, if_neg hmode]

/-- So that the tree hashes its stems with `hash_stem` of `hash.rs`. -/
theorem hashStem_eq (stemPrefix : Bytes) (values : StemValues) :
    hashStem hasher stemPrefix values.toList =
      (hashStemMode hasher.primitives stemPrefix values hasher.mode).val := by
  rw [← hash_stemPayload]
  rfl

/-! ## The hash of the contents -/

/-- The hash of a tree computed from scratch, with what is hashed for it. -/
def contentHashLog (hasher : ModeHasher) : Pbt.Node → Logged Query Digest
  | .emptyNode => hasher.hash []
  | .internalNode left right => do
      let leftHash ← contentHashLog hasher left
      let rightHash ← contentHashLog hasher right
      hasher.hashPair leftHash rightHash
  | .stemNode stemPrefix values =>
      hashStemMode hasher.primitives stemPrefix values hasher.mode

/-- It is the hash of the contents. -/
theorem val_contentHashLog (t : Pbt.Node) :
    (contentHashLog hasher t).val = contentHash hasher t := by
  induction t with
  | empty => rfl
  | leaf s vs => exact (hashStem_eq s vs).symm
  | node l r ihl ihr =>
      show (hasher.hashPair (contentHashLog hasher l).val (contentHashLog hasher r).val).val =
        (hasher.hashPair (contentHash hasher l) (contentHash hasher r)).val
      rw [ihl, ihr]

end PbtRs
