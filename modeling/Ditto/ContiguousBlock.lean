import Ditto.Spans
import Ditto.Words

/-! The byte blocks both reassemblers are built from. A block is a string with
the sequence numbers of its first byte and of the byte after its last; its
mutators read payload memory through a pointer and move the two numbers by
separate arithmetic, so nothing here makes them agree by construction. -/
namespace Ditto.Sniffer
open Windows Words

/-- TCP sequence numbers, a `u_int`. -/
abbrev TcpSeq := UInt32

/-- Memory as a `const u_char *` shows it: the byte at every offset from the
pointer, those outside the object it points into included. -/
abbrev Pointer := ℤ → UInt8

namespace Pointer

/-- Pointer arithmetic. -/
def advance (pointer : Pointer) (offset : ℤ) : Pointer := fun i => pointer (offset + i)

/-- The first `size` bytes at a pointer. -/
def bytes (pointer : Pointer) (size : ℕ) : List UInt8 := window (fun i => pointer i) 0 size

/-- The pointer to an object holding `held`, with `beyond` in the memory around. -/
def ofBytes (held : List UInt8) (beyond : ℤ → UInt8) : Pointer :=
  fun i => if 0 ≤ i ∧ i < held.length then held.getD i.toNat 0 else beyond i

@[simp] theorem length_bytes (pointer : Pointer) (size : ℕ) :
    (pointer.bytes size).length = size := by
  simp [bytes]

@[simp] theorem advance_zero (pointer : Pointer) : pointer.advance 0 = pointer := by
  funext i
  simp [advance]

@[simp] theorem advance_advance (pointer : Pointer) (first second : ℤ) :
    (pointer.advance first).advance second = pointer.advance (first + second) := by
  funext i
  simp [advance, Int.add_assoc]

theorem bytes_advance (pointer : Pointer) (offset size : ℕ) :
    (pointer.advance offset).bytes size = window (fun i => pointer i) offset (offset + size) := by
  simpa [bytes, advance] using window_shift (fun i : ℕ => pointer i) offset 0 size

theorem bytes_ofBytes (held : List UInt8) (beyond : ℤ → UInt8) :
    (ofBytes held beyond).bytes held.length = held := by
  have whole : (held.drop 0).take (held.length - 0) = _ :=
    take_drop_eq_window held 0 (Nat.le_refl _)
  rw [List.drop_zero, Nat.sub_zero, List.take_length] at whole
  conv_rhs => rw [whole]
  refine window_congr fun i _ within => ?_
  rw [ofBytes, if_pos ⟨by omega, by omega⟩, Int.toNat_natCast]

end Pointer

/-- `string::append (const char *, size_type)` with an `int` size: a negative
size converts to one no string can hold, and the call throws. -/
def appendChars (held : List UInt8) (chars : Pointer) (size : ℤ) : Option (List UInt8) :=
  if 0 ≤ size then some (held ++ chars.bytes size.toNat) else none

/-- A block of consecutive captured bytes. -/
structure ContiguousBlock where
  startingSeqNumber : TcpSeq
  nextExpectedSeqNumber : TcpSeq
  contiguousBlock : List UInt8
  bInit : Bool
  bModified : Bool
  deriving DecidableEq, Repr

namespace ContiguousBlock

/-- The default constructor. -/
def create : ContiguousBlock where
  startingSeqNumber := 0
  nextExpectedSeqNumber := 0
  contiguousBlock := []
  bInit := true
  bModified := true

/-- `append (const char *, int, tcp_seq)`: the first append sets the start. -/
def append (block : ContiguousBlock) (str : Pointer) (sizePayload : ℤ) (startSeqNumber : TcpSeq) :
    Option ContiguousBlock := do
  let block := if block.bInit then
    { block with
      startingSeqNumber := startSeqNumber, nextExpectedSeqNumber := startSeqNumber, bInit := false }
    else block
  let held ← appendChars block.contiguousBlock str sizePayload
  some { block with
    contiguousBlock := held
    nextExpectedSeqNumber := block.nextExpectedSeqNumber + UInt32.ofInt sizePayload
    bModified := true }

/-- `append (const string *, tcp_seq)`, the merge of a following block. -/
def appendString (block : ContiguousBlock) (str : List UInt8) (endSeqNumber : TcpSeq) :
    ContiguousBlock :=
  { block with
    contiguousBlock := block.contiguousBlock ++ str
    nextExpectedSeqNumber := endSeqNumber
    bModified := true }

/-- `overlapping_append`: the string from `offset` on. `string::append` throws
when the offset is past the end. -/
def overlappingAppend (block : ContiguousBlock) (str : List UInt8) (offset : UInt32)
    (endSeqNumber : TcpSeq) : Option ContiguousBlock :=
  if offset.toNat ≤ str.length then
    some { block with
      contiguousBlock := block.contiguousBlock ++ str.drop offset.toNat
      nextExpectedSeqNumber := endSeqNumber
      bModified := true }
  else none

/-- `prepend`. -/
def prepend (block : ContiguousBlock) (str : Pointer) (sizePayload : ℤ) (startSeqNumber : TcpSeq) :
    Option ContiguousBlock := do
  let held ← appendChars [] str sizePayload
  some { block with
    startingSeqNumber := startSeqNumber
    contiguousBlock := held ++ block.contiguousBlock
    bModified := true }

/-- The block holds what `source` has between its two sequence numbers. -/
structure Holds (source : ℕ → UInt8) (block : ContiguousBlock) : Prop where
  opened : block.bInit = false
  ordered : block.startingSeqNumber.toNat ≤ block.nextExpectedSeqNumber.toNat
  content : block.contiguousBlock =
    window source block.startingSeqNumber.toNat block.nextExpectedSeqNumber.toNat

variable {source : ℕ → UInt8} {block next : ContiguousBlock} {payload : Pointer} {size : ℕ}
  {seq : TcpSeq}

theorem Holds.length (holds : Holds source block) : block.contiguousBlock.length =
    block.nextExpectedSeqNumber.toNat - block.startingSeqNumber.toNat := by
  rw [holds.content, length_window]

theorem create_append (payload : Pointer) (size : ℕ) (seq : TcpSeq) :
    create.append payload size seq =
      some ⟨seq, seq + UInt32.ofInt size, payload.bytes size, false, true⟩ := by
  simp [append, create, appendChars]

theorem append_opened (payload : Pointer) (size : ℕ) (start : TcpSeq) (opened : block.bInit = false) :
    block.append payload size start = some { block with
      nextExpectedSeqNumber := block.nextExpectedSeqNumber + UInt32.ofInt size
      contiguousBlock := block.contiguousBlock ++ payload.bytes size
      bModified := true } := by
  simp [append, opened, appendChars]

theorem prepend_eq (payload : Pointer) (size : ℕ) (seq : TcpSeq) :
    block.prepend payload size seq = some { block with
      startingSeqNumber := seq
      contiguousBlock := payload.bytes size ++ block.contiguousBlock
      bModified := true } := by
  simp [prepend, appendChars]

/-- A fresh block filled from a payload holds exactly the payload's range. -/
theorem create_append_holds (fits : seq.toNat + size < 2 ^ 32)
    (agree : payload.bytes size = window source seq.toNat (seq.toNat + size)) :
    ∃ made, create.append payload size seq = some made ∧ Holds source made ∧
      made.startingSeqNumber = seq ∧ made.nextExpectedSeqNumber.toNat = seq.toNat + size := by
  have last := toNat_add_ofInt seq size fits
  refine ⟨_, create_append payload size seq, ⟨rfl, ?_, ?_⟩, rfl, last⟩
  · rw [last]
    exact Nat.le_add_right ..
  · simpa only [last] using agree

/-- Appending the bytes that follow the block extends it by them. -/
theorem append_holds (holds : Holds source block) (joins : block.nextExpectedSeqNumber = seq)
    (fits : seq.toNat + size < 2 ^ 32)
    (agree : payload.bytes size = window source seq.toNat (seq.toNat + size)) (start : TcpSeq) :
    ∃ made, block.append payload size start = some made ∧ Holds source made ∧
      made.startingSeqNumber = block.startingSeqNumber ∧
      made.nextExpectedSeqNumber.toNat = seq.toNat + size := by
  subst seq
  have last := toNat_add_ofInt block.nextExpectedSeqNumber size fits
  have ordered := holds.ordered
  refine ⟨_, append_opened payload size start holds.opened, ⟨holds.opened, ?_, ?_⟩, rfl, last⟩
  · rw [last]
    exact Nat.le_add_right_of_le ordered
  · simp only [last]
    rw [holds.content, agree, window_append source ordered (Nat.le_add_right ..)]

/-- Prepending the bytes just before the block extends it down to their start. -/
theorem prepend_holds (holds : Holds source block)
    (joins : seq.toNat + size = block.startingSeqNumber.toNat)
    (agree : payload.bytes size = window source seq.toNat (seq.toNat + size)) :
    ∃ made, block.prepend payload size seq = some made ∧ Holds source made ∧
      made.startingSeqNumber = seq ∧
      made.nextExpectedSeqNumber = block.nextExpectedSeqNumber := by
  have ordered := holds.ordered
  refine ⟨_, prepend_eq payload size seq, ⟨holds.opened, ?_, ?_⟩, rfl, rfl⟩
  · show seq.toNat ≤ block.nextExpectedSeqNumber.toNat
    omega
  · show payload.bytes size ++ block.contiguousBlock = _
    rw [agree, holds.content, joins, window_append source (by omega) ordered]

/-- Appending a string that starts inside the block or at its end, from the
offset where the block ends, extends the block to the string's end. -/
theorem overlapping_append_holds {first : TcpSeq} {str : List UInt8} (holds : Holds source block)
    (agree : str = window source first.toNat seq.toNat)
    (reached : first.toNat ≤ block.nextExpectedSeqNumber.toNat)
    (beyond : block.nextExpectedSeqNumber.toNat ≤ seq.toNat) :
    ∃ made, block.overlappingAppend str (block.nextExpectedSeqNumber - first) seq = some made ∧
      Holds source made ∧ made.startingSeqNumber = block.startingSeqNumber ∧
      made.nextExpectedSeqNumber = seq := by
  have ordered := holds.ordered
  have offset := toNat_sub_eq reached
  have within : (block.nextExpectedSeqNumber - first).toNat ≤ str.length := by
    rw [offset, agree, length_window]
    omega
  refine ⟨{ block with
      contiguousBlock := block.contiguousBlock ++ str.drop (block.nextExpectedSeqNumber - first).toNat
      nextExpectedSeqNumber := seq
      bModified := true }, by rw [overlappingAppend, if_pos within], ⟨holds.opened, ?_, ?_⟩, rfl, rfl⟩
  · exact Nat.le_trans ordered beyond
  · show block.contiguousBlock ++ str.drop _ = _
    rw [offset, agree, drop_window, holds.content, Nat.add_sub_cancel' reached,
      window_append source ordered beyond]

/-- Merging the block that starts where this one ends joins their ranges. -/
theorem append_string_holds (holds : Holds source block) (after : Holds source next)
    (joins : block.nextExpectedSeqNumber = next.startingSeqNumber) :
    Holds source (block.appendString next.contiguousBlock next.nextExpectedSeqNumber) := by
  have ordered := holds.ordered
  have later := after.ordered
  rw [← joins] at later
  refine ⟨holds.opened, Nat.le_trans ordered later, ?_⟩
  show block.contiguousBlock ++ next.contiguousBlock = _
  rw [holds.content, after.content, ← joins, window_append source ordered later]
  rfl

end ContiguousBlock
end Ditto.Sniffer
