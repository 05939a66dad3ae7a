/-
# `STEM_PKT_V1` is canonical

The reader of `pbt/stem_subscription.py` answers every byte string: it raises
`ValueError`, or it returns a packet whose wire form is that string.  The first
half is a statement about every exception on every path of the reader
(`onlyValueErrors_decodePacketFields`), the second is what the characterisation
of the reader by the writer says.
-/
import PartitionedBinaryTree.StemPacket

namespace Pbt

/-! ## Calls that raise `ValueError` only -/

/-- Every exception of the call is a `ValueError`. -/
def OnlyValueErrors {α : Type} (x : Py α) : Prop := ∀ e, x = .error e → e.exc = .valueError

namespace OnlyValueErrors

variable {α β : Type}

theorem ok (a : α) : OnlyValueErrors (.ok a : Py α) := by
  intro e he
  cases he

theorem raise (message : String) : OnlyValueErrors (raiseValueError message : Py α) := by
  intro e he
  cases he
  rfl

theorem raiseIf (condition : Prop) [Decidable condition] (message : String) :
    OnlyValueErrors (Pbt.raiseIf condition message) := by
  unfold Pbt.raiseIf
  split_ifs
  · exact raise message
  · exact ok ()

theorem bind {x : Py α} {f : α → Py β} (hx : OnlyValueErrors x)
    (hf : ∀ a, OnlyValueErrors (f a)) : OnlyValueErrors (x >>= f) := by
  intro e he
  cases x with
  | error e' =>
      cases he
      exact hx e rfl
  | ok a => exact hf a e he

/-- A check, and the rest of the call. -/
theorem check {condition : Prop} [Decidable condition] {message : String} {x : Py β}
    (hx : OnlyValueErrors x) : OnlyValueErrors (Pbt.raiseIf condition message >>= fun _ => x) :=
  (raiseIf condition message).bind fun _ => hx

/-- A comprehension. -/
theorem mapM {γ : Type} {f : γ → Py α} (hf : ∀ x, OnlyValueErrors (f x)) (items : List γ) :
    OnlyValueErrors (items.mapM f) := by
  induction items with
  | nil => exact ok []
  | cons x items ih =>
      rw [List.mapM_cons]
      exact (hf x).bind fun _ => ih.bind fun _ => ok _

/-- A loop of checks. -/
theorem forM {γ : Type} {f : γ → Py Unit} (hf : ∀ x, OnlyValueErrors (f x)) (items : List γ) :
    OnlyValueErrors (items.forM f) := by
  induction items with
  | nil => exact ok ()
  | cons x items ih => exact (hf x).bind fun _ => ih

end OnlyValueErrors

/-! ## The reader of packets -/

theorem onlyValueErrors_readExact (blob : Bytes) (offset size : ℕ) :
    OnlyValueErrors (readExact blob offset size) := by
  unfold readExact
  split_ifs
  · exact .raise _
  · exact .ok _

theorem onlyValueErrors_readLen (lenBytes : ℕ) (blob : Bytes) (offset : ℕ) (maxSize : Option ℕ) :
    OnlyValueErrors (readLen lenBytes blob offset maxSize) := by
  unfold readLen
  refine (onlyValueErrors_readExact blob offset lenBytes).bind fun ⟨rawLen, offset⟩ => ?_
  exact .check (onlyValueErrors_readExact blob offset _)

theorem onlyValueErrors_readMany (blob : Bytes) (size count offset : ℕ) :
    OnlyValueErrors (readMany blob size count offset) := by
  induction count generalizing offset with
  | zero => exact .ok _
  | succ count ih =>
      unfold readMany
      refine (onlyValueErrors_readExact blob offset size).bind fun read => ?_
      exact (ih read.2).bind fun _ => .ok _

theorem onlyValueErrors_readPathBits (blob : Bytes) (count offset : ℕ) :
    OnlyValueErrors (readPathBits blob count offset) := by
  induction count generalizing offset with
  | zero => exact .ok _
  | succ count ih =>
      unfold readPathBits
      refine (onlyValueErrors_readExact blob offset 1).bind fun read => ?_
      exact .check ((ih read.2).bind fun _ => .ok _)

/-- `_decode_proof_blob` raises `ValueError` only. -/
theorem onlyValueErrors_decodeProofBlob (blob : Bytes) :
    OnlyValueErrors (decodeProofBlob blob) := by
  unfold decodeProofBlob
  refine .check ?_
  refine (onlyValueErrors_readLen 2 blob 0 _).bind fun ⟨proofKey, offset⟩ => ?_
  refine (onlyValueErrors_readExact blob offset 32).bind fun ⟨proofValue, offset⟩ => ?_
  refine (onlyValueErrors_readExact blob offset 2).bind fun ⟨stemCountRaw, offset⟩ => .check ?_
  refine (onlyValueErrors_readMany blob 32 _ offset).bind fun ⟨stemValues, offset⟩ => ?_
  refine (onlyValueErrors_readExact blob offset 2).bind fun ⟨siblingsCountRaw, offset⟩ =>
    .check ?_
  refine (onlyValueErrors_readMany blob 32 _ offset).bind fun ⟨siblings, offset⟩ => ?_
  refine (onlyValueErrors_readExact blob offset 2).bind fun ⟨pathBitsCountRaw, offset⟩ =>
    .check (.check ?_)
  refine (onlyValueErrors_readPathBits blob _ offset).bind fun ⟨pathBits, offset⟩ => ?_
  exact .check (.ok _)

/-- Reading the fields of a packet raises `ValueError` only. -/
theorem onlyValueErrors_decodePacketFields (blob : Bytes) :
    OnlyValueErrors (decodePacketFields blob) := by
  unfold decodePacketFields
  refine .check ?_
  refine (onlyValueErrors_readExact blob 0 1).bind fun ⟨versionRaw, offset⟩ => .check ?_
  refine (onlyValueErrors_readExact blob offset 8).bind fun ⟨epochRaw, offset⟩ => ?_
  refine (onlyValueErrors_readExact blob offset 8).bind fun ⟨blockNumberRaw, offset⟩ => ?_
  refine (onlyValueErrors_readExact blob offset 32).bind fun ⟨blockRoot, offset⟩ => ?_
  refine (onlyValueErrors_readExact blob offset 4).bind fun ⟨bucketIdRaw, offset⟩ => ?_
  refine (onlyValueErrors_readLen 2 blob offset _).bind fun ⟨stemPrefix, offset⟩ => ?_
  refine (onlyValueErrors_readLen 2 blob offset _).bind fun ⟨key, offset⟩ => ?_
  refine (onlyValueErrors_readExact blob offset 32).bind fun ⟨value, offset⟩ => ?_
  refine (onlyValueErrors_readLen 4 blob offset _).bind fun ⟨proofBlob, offset⟩ => ?_
  refine (onlyValueErrors_readExact blob offset 32).bind fun ⟨packetCommitment, offset⟩ =>
    .check ?_
  refine (onlyValueErrors_decodeProofBlob proofBlob).bind fun proof => ?_
  exact .check (.check (.ok _))

/-! ## Totality and canonicity -/

variable {H : HashFunction}

/-- **The reader is total**: it returns a packet, or raises `ValueError`. -/
theorem onlyValueErrors_decodeStemWitnessPacketV1 (blob : Bytes) :
    OnlyValueErrors (decodeStemWitnessPacketV1 H blob).outcome := by
  unfold decodeStemWitnessPacketV1
  rw [HashPy.outcome_bind, HashPy.outcome_ofPy]
  cases hfields : decodePacketFields blob with
  | error e =>
      intro e' he'
      cases he'
      exact onlyValueErrors_decodePacketFields blob e hfields
  | ok fields =>
      obtain ⟨packet, commitment⟩ := fields
      -- a packet that was read can be written, so computing its commitment raises nothing
      have hpayload :=
        packetPayload_eq_ok_iff.mpr ⟨(decodePacketFields_eq_ok_iff.mp hfields).1, rfl⟩
      have hcommitment : (packetCommitmentV1 H packet).outcome = .ok (H (packetBytes packet)) := by
        unfold packetCommitmentV1
        rw [HashPy.outcome_bind, HashPy.outcome_ofPy, hpayload]
        rfl
      show OnlyValueErrors (HashPy.outcome (packetCommitmentV1 H packet >>= _))
      rw [HashPy.outcome_bind, hcommitment]
      show OnlyValueErrors (HashPy.outcome (HashPy.ofPy _ >>= _))
      rw [HashPy.outcome_bind, HashPy.outcome_ofPy]
      exact .check (.ok _)

/-- A packet that was read is written back as the string it was read from. -/
theorem encode_of_decode {blob : Bytes} {packet : StemWitnessPacket}
    (h : (decodeStemWitnessPacketV1 H blob).outcome = .ok packet) :
    (encodeStemWitnessPacketV1 H packet).outcome = .ok blob := by
  obtain ⟨qs, hreturns⟩ := HashPy.outcome_eq_ok_iff.mp h
  exact HashPy.outcome_eq_ok_iff.mpr ⟨qs, (decodeStemWitnessPacketV1_returns_iff.mp hreturns).2⟩

/-- **`STEM_PKT_V1` is total and canonical.**  Every byte string makes the reader raise
`ValueError`, or return a packet that is written as that string; so no two strings are read
as one packet. -/
theorem decodeStemWitnessPacketV1_canonical (H : HashFunction) :
    (∀ blob, (∃ message, (decodeStemWitnessPacketV1 H blob).outcome = raiseValueError message) ∨
      ∃ packet, (decodeStemWitnessPacketV1 H blob).outcome = .ok packet ∧
        (encodeStemWitnessPacketV1 H packet).outcome = .ok blob) ∧
    ∀ blob blob' packet, (decodeStemWitnessPacketV1 H blob).outcome = .ok packet →
      (decodeStemWitnessPacketV1 H blob').outcome = .ok packet → blob = blob' := by
  constructor
  · intro blob
    cases hdecode : (decodeStemWitnessPacketV1 H blob).outcome with
    | ok packet => exact Or.inr ⟨packet, rfl, encode_of_decode hdecode⟩
    | error e =>
        have hexc := onlyValueErrors_decodeStemWitnessPacketV1 blob e hdecode
        obtain ⟨exc, message⟩ := e
        obtain rfl : exc = .valueError := hexc
        exact Or.inl ⟨message, rfl⟩
  · intro blob blob' packet h h'
    have hwritten := encode_of_decode h
    rw [encode_of_decode h'] at hwritten
    exact (Except.ok.inj hwritten).symm

end Pbt
