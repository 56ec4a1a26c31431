import Ditto.ChunkHeadings

/-! Packet handling in one line: the front of a segment goes to a chunk or to the
list of its flow, and what starts with a record goes to the record's chunk. The two
branches of `handle_ip` for new and known flows do the same when the chunks known
of a new flow are taken to be none. -/
namespace Ditto.SegmentHandling
open Sniffer Buffers SniffTcp Traces Traced ChunkHeadings

variable {κ : Type} [Remembers κ] {s s' : SniffTcp κ} {mem : Memory} {flow : FlowId}
  {payload : Pointer} {size : ℕ} {seq : TcpSeq} {held : ℤ} {chunkId : ChunkId} {b' : Buffers}

/-- The size of what is in front of the record a segment shows, all of the segment
if it shows none. -/
def headSize (payload : Pointer) (size : ℕ) : ℕ :=
  match getChunkId payload size with
  | none => size
  | some (_, chunkOffset) => chunkOffset

/-- The chunks known of a flow. -/
def infosOf (s : SniffTcp κ) (flow : FlowId) : List κ := (s.flowChunkMap flow.toString).getD []

/-- The chunk that a segment of a flow goes to if it shows none. -/
def routed (s : SniffTcp κ) (flow : FlowId) (seq : TcpSeq) : Option κ :=
  s.chunkFor flow (infosOf s flow) seq

/-- What is done with the front of a segment. -/
def front (s : SniffTcp κ) (mem : Memory) (flow : FlowId) (payload : Pointer) (size : ℕ)
    (seq : TcpSeq) (held : ℤ) : Traced Call Buffers :=
  if size = 0 then pure s.buffers
  else
    match routed s flow seq with
    | some ci => Prod.fst <$> s.buffers.fillAndSend mem (Remembers.chunkId ci) flow payload size seq
    | none => Prod.fst <$> s.buffers.insert flow payload size seq 0 held

/-- What is done with a record that a segment shows. -/
def showRecord (s : SniffTcp κ) (b : Buffers) (mem : Memory) (flow : FlowId) (chunkId : ChunkId)
    (payload : Pointer) (size : ℕ) (seq : TcpSeq) : Traced Call (SniffTcp κ) := do
  let buffers ← b.announceChunk mem flow chunkId payload size seq
  let infos := noteChunk (infosOf s flow) chunkId seq (getLengthFromByteStream payload)
  pure { s.setInfos flow infos with buffers := buffers }

theorem head_size_le (payload : Pointer) (size : ℕ) : headSize payload size ≤ size := by
  rw [headSize]
  split
  · exact Nat.le_refl _
  · rename_i shown
    exact Nat.le_of_lt (get_chunk_id_offset shown)

theorem front_of_unknown (unknown : s.flowChunkMap flow.toString = none) :
    front s mem flow payload size seq held =
      if size = 0 then pure s.buffers
      else Prod.fst <$> s.buffers.insert flow payload size seq 0 held := by
  simp [front, routed, infosOf, unknown, chunkFor]

theorem insert_before_eq (mem : Memory) (unknown : s.flowChunkMap flow.toString = none) :
    s.buffers.insertBefore flow payload size seq held = front s mem flow payload size seq held := by
  rw [front_of_unknown unknown, insertBefore]
  by_cases empty : size = 0
  · simp [empty]
  · rw [if_neg empty, if_pos (by omega)]
    simp

theorem deal_eq {infos : List κ} (known : s.flowChunkMap flow.toString = some infos)
    (nonempty : size ≠ 0) : s.dealWithPktWithoutChunkid mem flow payload size seq held =
      (fun b => { s with buffers := b }) <$> front s mem flow payload size seq held := by
  rw [dealWithPktWithoutChunkid, front, if_neg nonempty]
  simp only [known]
  have same : routed s flow seq = s.chunkFor flow infos seq := by simp [routed, infosOf, known]
  rw [same]
  cases s.chunkFor flow infos seq <;> simp

theorem deal_before_eq {infos : List κ} (known : s.flowChunkMap flow.toString = some infos) :
    s.dealBefore mem flow payload size seq held =
      (fun b => { s with buffers := b }) <$> front s mem flow payload size seq held := by
  rw [dealBefore]
  by_cases empty : size = 0
  · simp [empty, front]
  · rw [if_pos (by omega), deal_eq known empty]

theorem front_headings (ran : (front s mem flow payload size seq held).result = some b') :
    headings b' = headings s.buffers := by
  rw [front] at ran
  split at ran
  · cases ran
    rfl
  · split at ran
    · obtain ⟨⟨t, edit⟩, filled, ran⟩ := map_eq_some.mp ran
      cases ran
      exact fill_and_send_headings filled
    · obtain ⟨⟨t, edit⟩, stored, ran⟩ := map_eq_some.mp ran
      cases ran
      rw [(insert_frame stored).2]
      rfl

/-- **Multi-chance packet handling.** -/
theorem handle_ip_multi (nonempty : size ≠ 0) : s.handleIp true mem flow payload size seq = (do
    let buffers ← front s mem flow payload (headSize payload size) seq size
    match getChunkId payload size with
    | none => pure { s with buffers := buffers }
    | some (chunkId, chunkOffset) =>
      showRecord s buffers mem flow chunkId (payload.advance chunkOffset) (size - chunkOffset)
        (seq + UInt32.ofInt chunkOffset)) := by
  rw [handleIp, if_neg nonempty]
  simp only [Bool.not_true, Bool.false_eq_true, if_false]
  cases known : s.flowChunkMap flow.toString with
  | none =>
    cases shown : getChunkId payload size with
    | none =>
      simp only [headSize, shown, front_of_unknown known, if_neg nonempty]
      simp
    | some found =>
      obtain ⟨chunkId, chunkOffset⟩ := found
      simp only [headSize, shown, insert_before_eq mem known, showRecord, infosOf, known, noteChunk]
      simp
  | some infos =>
    cases shown : getChunkId payload size with
    | none =>
      simp only [headSize, shown, deal_eq known nonempty]
      simp
    | some found =>
      obtain ⟨chunkId, chunkOffset⟩ := found
      simp only [headSize, shown, deal_before_eq known, showRecord, infosOf, known]
      simp [setInfos]

/-- Single-chance packet handling. -/
theorem handle_ip_single (nonempty : size ≠ 0) : s.handleIp false mem flow payload size seq =
    (fun r => { s with buffers := r.1 }) <$> s.buffers.insert flow payload size seq 0 size := by
  rw [handleIp, if_neg nonempty]
  simp

/-- What an event captures of a flow. -/
def captures (flow : FlowId) (event : Memory × SniffEvent) : Option (ℕ × List UInt8) :=
  match event.2 with
  | .segment other payload _ seqNum => if other = flow then some (seqNum.toNat, payload) else none
  | .grepFlows => none

/-! ## A small capture -/

/-- A flow, and memory that is zero wherever it is read by mistake, for 128 kilobytes
from a `string` object on. -/
def someFlow : FlowId := ⟨"10.0.0.1", "10.0.0.2", 80, 4000⟩
def zeroMemory : Memory := ⟨fun _ _ => 0, fun _ => 0, fun _ => 2 ^ 17⟩

/-- The 68 bytes from a record header to the data, for lengths of two bytes. -/
def recordHeader (chunkId : List UInt8) (payloadLength chunkDataLen : UInt16) : List UInt8 :=
  let word (length : UInt16) : List UInt8 := [(length >>> 8).toUInt8, length.toUInt8]
  let zeros (count : ℕ) : List UInt8 := .replicate count 0
  [rpcHeader] ++ zeros 1 ++ word payloadLength ++ zeros 4 ++ mask ++ zeros 11 ++ [(20 : UInt8)] ++
    chunkId ++ zeros 2 ++ word chunkDataLen

/-- The header alone, captured at a sequence number. -/
def headerAt (chunkId : ChunkId) (payloadLength chunkDataLen : UInt16) (seq : TcpSeq) :
    Memory × SniffEvent :=
  (zeroMemory, .segment someFlow (recordHeader chunkId payloadLength chunkDataLen) (fun _ => 0) seq)

/-- The single-chance mode stores the first segment as a block. -/
theorem first_segment_stored {bytes : List UInt8} (nonempty : bytes ≠ []) (mem : Memory) (flow : FlowId)
    (around : ℤ → UInt8) (seq : TcpSeq) :
    Capture.step false .start (mem, .segment flow bytes around seq) = some
      { sniffer := some ⟨⟨[(flow, [⟨seq, seq + UInt32.ofInt bytes.length, bytes, false, true⟩])],
          fun _ => none, 0⟩, fun _ => none⟩
        calls := [.insert flow seq 0 bytes.length bytes.length] } := by
  have some_bytes : bytes.length ≠ 0 := fun empty => nonempty (List.length_eq_zero_iff.mp empty)
  simp only [Capture.step, Capture.start, SniffTcp.step, Option.map_some, handle_ip_single some_bytes]
  have made := ContiguousBlock.create_append (.ofBytes bytes around) bytes.length seq
  rw [Pointer.bytes_ofBytes] at made
  simp [Buffers.insert, SniffTcp.create, Buffers.empty, insertFlow, made, calls_bind]

end Ditto.SegmentHandling
