import Ditto.Handovers
import Ditto.Runs

/-! Where the bytes of a sent chunk come from. A chunk is complete by the length field
of its record, but what is sent has the length that another field of the header
says. The two callers of the sender have at least the record, or the chunk, in
the string at hand, so the range is inside when the header's own lengths agree. -/
namespace Ditto.SentRanges
open Sniffer Buffers SniffTcp Runs Traces Traced SegmentHandling Handovers

/-- The bytes sent, from 68 past the record header on, are part of the string given and
of the record. -/
def Inside (chunk : PutChunk) : Prop :=
  68 + chunk.data.length ≤ chunk.held ∧ 68 + chunk.data.length ≤ chunk.payloadLength + 4

instance (chunk : PutChunk) : Decidable (Inside chunk) := inferInstanceAs (Decidable (_ ∧ _))

/-- The data length in the header fits the record length, and the length of the chunk
under reassembly. -/
def HeaderFits (chunk : PutChunk) : Prop :=
  68 + chunk.data.length ≤ chunk.payloadLength + 4 ∧
    ∀ length ∈ chunk.chunkLength, 68 + chunk.data.length ≤ length

/-- No block that a pass reads has more than `2 ^ 31` bytes. -/
def Readable (c : Capture) (event : Memory × SniffEvent) : Prop :=
  match event.2 with
  | .segment .. => True
  | .grepFlows => ∀ s, c.sniffer = some s → ∀ entry ∈ s.buffers.pFlowList, ∀ block ∈ entry.2,
      block.contiguousBlock.length ≤ 2 ^ 31

/-- A PUT_CHUNK is complete. -/
def SentComplete (call : Call) : Prop := ∀ flow chunk, call = .putChunk flow chunk → Complete chunk

variable {gMultiChances : Bool} {κ : Type} [Remembers κ] {s : SniffTcp κ} {c c' : Capture}
  {mem : Memory} {flow : FlowId} {payload : Pointer} {size : ℕ} {seq : TcpSeq} {chunk : PutChunk}

theorem sent_complete (complete : Complete chunk) : SentComplete (.putChunk flow chunk) := by
  intro other sent same
  cases same
  exact complete

/-- Whatever is handed to a chunk or a list, only sending counts. -/
theorem admits_complete {b : Buffers} {chunkId : ChunkId} {size : ℤ} :
    Admits SentComplete b chunkId flow size seq :=
  ⟨fun _ _ _ => nofun, fun _ _ _ _ _ _ => nofun, fun _ _ _ _ _ => nofun⟩

/-- What is inserted is not sent. -/
theorem insert_complete {first size held : ℤ} : SentComplete (.insert flow seq first size held) :=
  fun _ _ sent => by cases sent

theorem handle_ip_complete : Logs SentComplete (s.handleIp gMultiChances mem flow payload size seq) := by
  cases gMultiChances with
  | false =>
    by_cases empty : size = 0
    · rw [handleIp, if_pos empty]
      exact logs_pure _
    · rw [handle_ip_single empty]
      exact (insert_logs insert_complete).map
  | true =>
    apply handle_ip_logs
    · intro _
      exact front_logs (fun _ _ _ => admits_complete) (fun _ => insert_complete) fun _ => sent_complete
    · intro t chunkId chunkOffset _ _
      exact announce_logs (fun _ => True) admits_complete (fun _ _ _ => trivial)
        (fun _ _ _ _ _ => admits_complete) (fun _ _ _ _ _ _ _ _ _ _ _ => trivial) fun _ => sent_complete

theorem step_complete {event : Memory × SniffEvent} (readable : Readable c event)
    (before : ∀ call ∈ c.calls, SentComplete call) (ran : c.step gMultiChances event = some c') :
    ∀ call ∈ c'.calls, SentComplete call := by
  obtain ⟨s, running, rfl⟩ := Option.map_eq_some_iff.mp ran
  apply List.forall_mem_append.mpr ⟨before, ?_⟩
  obtain ⟨mem, event⟩ := event
  cases event with
  | segment flow bytes around seq => exact handle_ip_complete
  | grepFlows =>
    have pass : Logs SentComplete (grepFlows mem s.buffers.pFlowList) :=
      grep_flows_logs fun entry member block listed chunk complete =>
        sent_complete (complete (readable s running entry member block listed))
    exact Logs.bind (pass.bind fun _ _ => logs_pure _) fun _ _ => logs_pure _

theorem inside_of_fits (complete : Complete chunk) (fits : HeaderFits chunk) : Inside chunk := by
  obtain ⟨inRecord, inChunk⟩ := fits
  cases length : chunk.chunkLength with
  | none =>
    simp only [Complete, length] at complete
    exact ⟨by omega, inRecord⟩
  | some count =>
    simp only [Complete, length] at complete
    have := inChunk count length
    exact ⟨by omega, inRecord⟩

/-- **What is sent is inside when the header's lengths agree**, and, when the string at
hand has just the bytes it must have, only then. -/
theorem sent_inside (run : Reaches (Capture.step gMultiChances) Readable .start c)
    (sent : .putChunk flow chunk ∈ c.calls) :
    (HeaderFits chunk → Inside chunk) ∧
      ((∀ length ∈ chunk.chunkLength, chunk.held = length) → (Inside chunk ↔ HeaderFits chunk)) := by
  have complete : ∀ call ∈ c.calls, SentComplete call :=
    invariant (by simp [Capture.start]) (fun _ _ _ before readable ran =>
      step_complete readable before ran) run
  have complete := complete _ sent flow chunk rfl
  refine ⟨inside_of_fits complete, fun exactly => ⟨fun inside => ⟨inside.2, ?_⟩, inside_of_fits complete⟩⟩
  intro length given
  rw [← exactly length given]
  exact inside.1

/-- A record of 1104 bytes with a length of data that it can hold, and one of 1052 with a
length that it cannot. -/
def honestRecord : List UInt8 := recordHeader (.replicate 20 7) 1100 1024 ++ .replicate 1036 0
def boastfulRecord : List UInt8 := recordHeader (.replicate 20 7) 1048 2000 ++ .replicate 984 0

/-- A sniffer that stored a record, and then made a pass. -/
def passed (bytes : List UInt8) : Option Capture :=
  (Capture.step false .start (zeroMemory, .segment someFlow bytes (fun _ => 0) 0)).bind
    (Capture.step false · (zeroMemory, .grepFlows))

/-- The pass sent a chunk of these lengths. -/
def sentWith (dataLength held payloadLength : ℕ) : Call → Bool
  | .putChunk flow chunk => flow = someFlow ∧ chunk.data.length = dataLength ∧ chunk.held = held ∧
      chunk.payloadLength = payloadLength ∧ chunk.chunkLength = none
  | _ => false

theorem passed_run {bytes : List UInt8} (nonempty : bytes ≠ []) (short : bytes.length ≤ 2 ^ 31)
    (ran : passed bytes = some c) : Reaches (Capture.step false) Readable .start c := by
  rw [passed, first_segment_stored nonempty, Option.bind_some] at ran
  refine (Reaches.refl.snoc (zeroMemory, .segment someFlow bytes (fun _ => 0) 0) trivial
    (first_segment_stored nonempty ..)).snoc (zeroMemory, .grepFlows) ?_ ran
  intro s running
  cases running
  simpa using short

theorem sent_with {bytes : List UInt8} {dataLength held payloadLength : ℕ}
    (found : (passed bytes).any fun c => c.calls.any (sentWith dataLength held payloadLength)) :
    ∃ c ∈ passed bytes, ∃ chunk : PutChunk, .putChunk someFlow chunk ∈ c.calls ∧
      chunk.data.length = dataLength ∧ chunk.held = held ∧ chunk.payloadLength = payloadLength ∧
      chunk.chunkLength = none := by
  cases ran : passed bytes with
  | none => simp [ran] at found
  | some c =>
    rw [ran, Option.any_some, List.any_eq_true] at found
    obtain ⟨call, member, found⟩ := found
    cases call with
    | putChunk flow chunk =>
      simp only [sentWith, decide_eq_true_eq] at found
      obtain ⟨rfl, lengths⟩ := found
      exact ⟨c, rfl, chunk, member, lengths⟩
    | _ => simp [sentWith] at found

theorem sent_inside_of_honest_record : ∃ c ∈ passed honestRecord, ∃ chunk : PutChunk,
    .putChunk someFlow chunk ∈ c.calls ∧ Inside chunk := by
  obtain ⟨c, ran, chunk, sent, dataLength, held, payloadLength, unbounded⟩ :=
    @sent_with honestRecord 1024 1104 1100 (by decide +kernel)
  have run := passed_run (List.cons_ne_nil _ _) (by decide +kernel) ran
  exact ⟨c, ran, chunk, sent, (sent_inside run sent).1 ⟨by omega, by simp [unbounded]⟩⟩

/-- The sender goes past the record and the string. -/
theorem not_sent_inside : ¬ ∀ gMultiChances c flow chunk,
    Reaches (Capture.step gMultiChances) Readable .start c → .putChunk flow chunk ∈ c.calls →
      Inside chunk := by
  intro inside
  obtain ⟨c, ran, chunk, sent, dataLength, held, _⟩ :=
    @sent_with boastfulRecord 2000 1052 1048 (by decide +kernel)
  have run := passed_run (List.cons_ne_nil _ _) (by decide +kernel) ran
  have escaped := (inside false c someFlow chunk run sent).1
  omega

end Ditto.SentRanges
