import Ditto.ChunkClaiming

/-! How `fill_gaps_in_chunk` cuts a payload at the end of a chunk. The cut is computed from sums
that wrap and read as an `int`; for a segment that starts inside the chunk it is where the chunk
ends, wherever the sequence numbers wrap. -/
namespace Ditto.PayloadSplit
open Sniffer Buffers SniffTcp Words Windows Traces Traced ChunkHeadings

variable {b : Buffers} {pRc : ReconstructedChunk} {chunkId : ChunkId} {flow : FlowId} {payload : Pointer}
  {start seq : TcpSeq} {size length head rest : ℕ}

/-- A payload in two parts, the first of them for the chunk from `place` on. -/
structure Split (payload : Pointer) (size place length head rest : ℕ) : Prop where
  first : head = min size (length - place)
  whole : head + rest = size
  nonempty : 0 < head
  inside : place + head ≤ length
  parts : payload.bytes head ++ (payload.advance head).bytes rest = payload.bytes size

/-- The second part, if there is one, goes to the flow's list at the number of the chunk's end. -/
def insertRest (b : Buffers) (flow : FlowId) (payload : Pointer) (head rest length : ℕ) (start : TcpSeq) :
    Traced Call (Buffers × Edit) :=
  if 0 < rest then
    b.insert flow (payload.advance head) rest (start + UInt32.ofNat length) head (head + rest : ℕ)
  else pure (b, .kept)

/-- The first part goes to the chunk at the number of the segment. -/
def fillSplit (b : Buffers) (chunkId : ChunkId) (flow : FlowId) (pRc : ReconstructedChunk) (payload : Pointer)
    (head rest : ℕ) (seq start : TcpSeq) : Traced Call (Buffers × Bool × Edit) := do
  let (b, edit) ← insertRest b flow payload head rest pRc.length start
  Traced.note (.fill flow chunkId seq head start pRc.length)
  let (pRc, numDuplicateBytes, bChunkDone) ← Traced.lift <|
    pRc.fillGapsInChunk flow.toString payload head seq b.numDuplicateBytes
  pure ({ b.setChunk chunkId pRc with numDuplicateBytes := numDuplicateBytes }, bChunkDone, edit)

theorem bytes_split (payload : Pointer) (head rest : ℕ) :
    payload.bytes head ++ (payload.advance head).bytes rest = payload.bytes (head + rest) := by
  rw [Pointer.bytes_advance]
  exact window_append _ (Nat.zero_le _) (Nat.le_add_right _ _)

/-- A segment that starts inside the chunk has a part for it. -/
theorem split_inside (inside : (seq - start).toNat < length) (positive : 0 < size) :
    Split payload size (seq - start).toNat length (min size (length - (seq - start).toNat))
      (size - min size (length - (seq - start).toNat)) where
  first := rfl
  whole := by omega
  nonempty := by omega
  inside := by omega
  parts := by
    rw [bytes_split]
    congr 1
    omega

/-- The `int` that cuts the payload is the length of the second part. -/
theorem cut_exact (split : Split payload size (seq - start).toNat length head rest)
    (small : length + size < 2 ^ 31) : pastChunk start length size seq = rest := by
  obtain ⟨first, whole, nonempty, inside, _⟩ := split
  rw [past_inside (by omega) (by omega) (by omega)]
  omega

/-- The second part begins at the end of the chunk, though the number before it or the number of
the chunk's end may have wrapped. -/
theorem rest_starts_at_end (split : Split payload size (seq - start).toNat length head rest)
    (small : length + size < 2 ^ 31) (more : 0 < rest) :
    seq + UInt32.ofInt size - UInt32.ofInt rest = start + UInt32.ofNat length := by
  obtain ⟨first, whole, nonempty, inside, _⟩ := split
  have bound := seq.toNat_lt
  have bound' := start.toNat_lt
  rw [UInt32.toNat_sub] at first inside
  rw [← UInt32.toNat_inj, UInt32.toNat_sub, UInt32.toNat_add, UInt32.toNat_add, toNat_ofInt, toNat_ofInt,
    UInt32.toNat_ofNat']
  omega

theorem insert_past_split (split : Split payload size (seq - start).toNat length head rest)
    (small : length + size < 2 ^ 31) : b.insertPast flow payload rest size seq =
      insertRest b flow payload head rest length start := by
  have whole := split.whole
  have before : (size : ℤ) - rest = head := by omega
  rw [insertPast, insertRest]
  by_cases more : 0 < rest
  · rw [if_pos (Int.natCast_pos.mpr more), if_pos more, before, rest_starts_at_end split small more, whole]
  · rw [if_neg (by omega), if_neg more]

/-- **The payload is cut at the end of the chunk.** -/
theorem payload_split (found : b.chunkIdReconstructedChunkMap chunkId = some pRc)
    (known : pRc.flowSeqMap flow.toString = some start) (inside : (seq - start).toNat < pRc.length)
    (positive : 0 < size) (small : pRc.length + size < 2 ^ 31) (payload : Pointer) :
    ∃ head rest, Split payload size (seq - start).toNat pRc.length head rest ∧
      b.fillGapsInChunk chunkId flow payload size seq =
        fillSplit b chunkId flow pRc payload head rest seq start := by
  have split : Split payload size _ _ _ _ := split_inside inside positive
  refine ⟨_, _, split, ?_⟩
  generalize min size (pRc.length - (seq - start).toNat) = head at split ⊢
  generalize size - head = rest at split ⊢
  have whole := split.whole
  have left : (size : ℤ) - rest = head := by omega
  rw [fillGapsInChunk, found, lift_some_bind]
  simp only [known]
  rw [cut_exact split small, insert_past_split split small, left]
  rfl

/-- A chunk of 100 bytes that begins 50 bytes before the numbers wrap. -/
def wrappingChunk : ReconstructedChunk :=
  { ReconstructedChunk.create [7] 100 with flowSeqMap := fun _ => some 4294967246 }

def smallFlow : FlowId := ⟨"10.0.0.1", "10.0.0.2", 1, 2⟩

/-- A segment of 200 bytes from 10 bytes after the wrap on: the chunk takes 40 of them. -/
theorem wrapping_payload_split : ∃ head rest, Split (fun _ => 0) 200 60 100 head rest ∧
    (Buffers.empty.setChunk [7] wrappingChunk).fillGapsInChunk [7] smallFlow (fun _ => 0) (200 : ℕ) 10 =
      fillSplit (Buffers.empty.setChunk [7] wrappingChunk) [7] smallFlow wrappingChunk (fun _ => 0)
        head rest 10 4294967246 :=
  @payload_split (Buffers.empty.setChunk [7] wrappingChunk) wrappingChunk [7] smallFlow 4294967246 10 200
    (by simp [setChunk]) rfl (by decide) (by decide) (by decide) _

end Ditto.PayloadSplit
