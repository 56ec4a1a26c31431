import Ditto.FirstHeader
import Ditto.FlowInsertion
import Ditto.RecordExtraction

/-! Streams with records in them. What a sniffer reads of a record, by the header that a
segment shows, in a block or in a chunk, it reads of the bytes that the stream has there; the
transaction id, which differs between two replies with one chunk, is never read. -/
namespace Ditto.RecordFraming
open Sniffer Buffers ContiguousBlock ChunkReassembly Windows Words RecordHeaders RecordExtraction
open ChunkIdReach FirstHeader FlowStore Handovers RecordScan SegmentHandling

/-- The bytes of a stream from a position on. -/
def streamAt (source : ℕ → UInt8) (p : ℕ) : Pointer := fun i => source (p + i.toNat)

/-- The mark and the mask of a record stand at a position of a stream. -/
def Marked (source : ℕ → UInt8) (p : ℕ) : Prop := Shows (streamAt source p) 0

/-- The length field of a record, and the reply that is read from it. -/
def lengthAt (source : ℕ → UInt8) (p : ℕ) : ℕ := getLengthFromByteStream (streamAt source p)
def replyAt (source : ℕ → UInt8) (p : ℕ) : Option DotChunkRes := extractChunkResponse (streamAt source p)

/-- The bytes of a record that do not belong to its transaction id. -/
def Lasting (i : ℕ) : Prop := i < 4 ∨ 8 ≤ i

/-- The streams of the flows as a peer writes them: a record ends before the next one starts,
its data end within what its length field counts, and the records with one chunk id are the
same but for the transaction id. -/
structure Framing (streams : Streams) where
  record : ChunkId → ℕ → UInt8
  apart : ∀ flow p q, Marked (streams flow) p → Marked (streams flow) q → p < q →
    p + (lengthAt (streams flow) p + 4) ≤ q
  whole : ∀ flow p reply, Marked (streams flow) p → replyAt (streams flow) p = some reply →
    68 + reply.chunkData.length ≤ lengthAt (streams flow) p
  alike : ∀ flow p reply, Marked (streams flow) p → replyAt (streams flow) p = some reply →
    ∀ i < lengthAt (streams flow) p, Lasting i → streams flow (p + i) = record reply.chunkId i

variable {p q : Pointer} {n first last place : ℕ} {reply : DotChunkRes} {source other : ℕ → UInt8} {size : ℕ}
  {seq : TcpSeq} {block : ContiguousBlock} {mem : Memory}

/-! ## What is read of a record -/

theorem bytes_congr (same : ∀ i : ℕ, i < n → p i = q i) : p.bytes n = q.bytes n :=
  window_congr fun i _ inside => same i inside

/-- The two memories show the same of a record, up to a number of bytes. -/
def Same (p q : Pointer) (n : ℕ) : Prop := ∀ i : ℕ, i < n → Lasting i → p i = q i

theorem Same.symm (same : Same p q n) : Same q p n := fun i inside lasting => (same i inside lasting).symm

theorem Same.trans {r : Pointer} (same : Same p q n) (next : Same q r n) : Same p r n :=
  fun i inside lasting => (same i inside lasting).trans (next i inside lasting)

theorem Same.mono {fewer : ℕ} (same : Same p q n) (less : fewer ≤ n) : Same p q fewer :=
  fun i inside lasting => same i (by omega) lasting

/-- A field behind the transaction id. -/
theorem Same.field (same : Same p q n) (offset count : ℕ) (behind : 8 ≤ offset) (inside : offset + count ≤ n) :
    (p.advance offset).bytes count = (q.advance offset).bytes count :=
  bytes_congr fun i within => same (offset + i) (by omega) (Or.inr (by omega))

theorem Same.number (same : Same p q n) (offset : ℕ) (behind : 8 ≤ offset) (inside : offset + 4 ≤ n) :
    ntohl (p.advance offset) = ntohl (q.advance offset) := by
  rw [ntohl_eq, ntohl_eq, same.field offset 4 behind inside]

theorem Same.length (same : Same p q n) (inside : 4 ≤ n) :
    getLengthFromByteStream p = getLengthFromByteStream q :=
  get_length_congr fun k within => same k (by omega) (Or.inl within)

/-- What is read of a header, and how much behind it. -/
theorem header_same (same : Same p q 68) (header : HeaderAt p 0) (shown : Shows q 0) :
    HeaderAt q 0 ∧ ntohl (q.advance 64) = ntohl (p.advance 64) := by
  obtain ⟨_, length, idLength, dataLength⟩ := header
  simp only [Nat.cast_zero, Pointer.advance_zero] at length
  refine ⟨⟨shown, ?_, ?_, ?_⟩, (same.number 64 (by omega) (by omega)).symm⟩
  · simp only [Nat.cast_zero, Pointer.advance_zero]
    rwa [← same.length (by omega)]
  · exact (same.number 40 (by omega) (by omega)).symm.trans idLength
  · exact dataLength.trans_eq (same.number 64 (by omega) (by omega))

/-- The reply of a header. -/
theorem reply_of_header (header : HeaderAt p 0) : extractChunkResponse p =
    some ⟨(p.advance 44).bytes 20, (p.advance 68).bytes (ntohl (p.advance 64))⟩ := by
  obtain ⟨_, length, idLength, dataLength⟩ := header
  simp only [Nat.cast_zero, Pointer.advance_zero] at length
  exact extract_eq length idLength dataLength

/-- A reply has a header. -/
theorem header_of_reply (shown : Shows p 0) (extracted : extractChunkResponse p = some reply) : HeaderAt p 0 :=
  header_of_extract shown (by simpa using extracted)

/-- Where the header is the same, so is the chunk id, and as many bytes are read. -/
theorem reply_alike (same : Same p q 68) (shown : Shows p 0) (shown' : Shows q 0)
    (extracted : extractChunkResponse p = some reply) :
    ∃ reply', extractChunkResponse q = some reply' ∧ reply'.chunkId = reply.chunkId ∧
      reply'.chunkData.length = reply.chunkData.length := by
  have header := header_of_reply shown extracted
  obtain ⟨header', count⟩ := header_same same header shown'
  rw [reply_of_header header] at extracted
  cases extracted
  refine ⟨_, reply_of_header header', (same.field 44 20 (by omega) (by omega)).symm, ?_⟩
  simp only [Pointer.length_bytes, count]

/-- Where all of the data are the same, so is the reply. -/
theorem reply_same (same : Same p q n) (shown : Shows p 0) (shown' : Shows q 0)
    (extracted : extractChunkResponse p = some reply) (inside : 68 + reply.chunkData.length ≤ n) :
    extractChunkResponse q = some reply := by
  have header := header_of_reply shown extracted
  obtain ⟨header', count⟩ := header_same (same.mono (by omega)) header shown'
  rw [reply_of_header header] at extracted
  cases extracted
  rw [Pointer.length_bytes] at inside
  rw [reply_of_header header', count]
  have id := same.field 44 20 (by omega) (by omega)
  have data := same.field 68 (ntohl (p.advance 64)) (by omega) inside
  exact congrArg some (congrArg₂ DotChunkRes.mk id.symm data.symm)

/-- The mark and the mask are outside the transaction id as well. -/
theorem shows_same (same : Same p q 32) (shown : Shows p 0) : Shows q 0 := by
  obtain ⟨mark, masked⟩ := shown
  exact ⟨(same 0 (by omega) (Or.inl (by omega))).symm.trans mark,
    (same.field 8 24 (by omega) (by omega)).symm.trans masked⟩

/-! ## Pointers into a stream -/

theorem stream_at (source : ℕ → UInt8) (p i : ℕ) : streamAt source p i = source (p + i) := rfl

/-- Memory that holds a window of a stream shows the stream. -/
theorem shows_stream (agree : q.bytes size = window source first (first + size)) {i : ℕ} (inside : i < size) :
    q i = source (first + i) := by
  have held := congrArg (·[i]?) agree
  simp only [Pointer.bytes] at held
  rw [getElem?_window _ (by omega), getElem?_window _ (by omega), Nat.zero_add] at held
  exact Option.some_inj.mp held

/-- From an offset on, memory that holds a window shows what the stream has there. -/
theorem same_stream (agree : q.bytes size = window source first (first + size)) {offset : ℕ}
    (inside : offset + n ≤ size) : Same (q.advance offset) (streamAt source (first + offset)) n := by
  intro i within _
  have := shows_stream agree (show offset + i < size by omega)
  rw [stream_at, Nat.add_assoc, ← this]
  rfl

/-- A header that a segment shows with all of its bytes stands in the stream. -/
theorem shown_in_stream (agree : q.bytes size = window source first (first + size)) {chunkId : ChunkId}
    {offset : ℕ} (shown : getChunkId q size = some (chunkId, offset)) (whole : offset + 68 ≤ size) :
    Marked source (first + offset) ∧
      lengthAt source (first + offset) = getLengthFromByteStream (q.advance offset) ∧
      ∃ reply, replyAt source (first + offset) = some reply ∧ reply.chunkId = chunkId := by
  obtain ⟨i, inside, shows, before⟩ | never := first_or_none q size
  · rw [get_chunk_id_first inside shows before, Option.map_eq_some_iff] at shown
    obtain ⟨reply, extracted, same⟩ := shown
    cases same
    have agrees := same_stream agree whole
    have here : Shows (q.advance offset) 0 := by
      obtain ⟨mark, masked⟩ := shows
      refine ⟨by simpa [Pointer.advance] using mark, ?_⟩
      rw [Pointer.advance_advance]
      simpa using masked
    have marked := shows_same (agrees.mono (by omega)) here
    obtain ⟨reply', read, id, _⟩ := reply_alike agrees here marked extracted
    exact ⟨marked, (agrees.length (by omega)).symm, reply', read, id⟩
  · rw [get_chunk_id_none never] at shown
    cases shown

/-- A record is longer than what is read of its header. -/
theorem long_of_reply (marked : Marked source place) (read : replyAt source place = some reply) :
    minPayloadLength ≤ lengthAt source place := by
  have header := header_of_reply marked read
  have long := header.payloadLength
  rwa [Nat.cast_zero, Pointer.advance_zero] at long

end Ditto.RecordFraming
