import Ditto.ChunkIdReach
import Ditto.SegmentHandling

/-! The header that the search for a chunk id finds. It stops at the first place that has a
record's mark and mask, and whether a reply with a chunk stands there is asked afterwards, of
that place alone. The first header of such a reply is found exactly if nothing before it
looks like a record. -/
namespace Ditto.FirstHeader
open Sniffer RecordHeaders ChunkIdReach SegmentHandling

variable {q : Pointer} {len i : ℕ}

/-- The header of a reply with a chunk. -/
structure HeaderAt (q : Pointer) (i : ℕ) : Prop where
  shows : Shows q i
  payloadLength : minPayloadLength ≤ getLengthFromByteStream (q.advance i)
  chunkIdLen : ntohl (q.advance (i + 40 : ℕ)) = 20
  chunkDataLen : minChunkSize ≤ ntohl (q.advance (i + 64 : ℕ))

/-- A header that the payload has all of. -/
structure ValidHeader (q : Pointer) (len i : ℕ) : Prop extends HeaderAt q i where
  whole : i + 68 ≤ len

/-- The bytes past the payload complete no header. -/
def Uncompleted (q : Pointer) (len : ℕ) : Prop := ∀ i < len, HeaderAt q i → i + 68 ≤ len

/-- No valid header is before this one. -/
def FirstValid (q : Pointer) (len i : ℕ) : Prop := ValidHeader q len i ∧ ∀ j < i, ¬ ValidHeader q len j

/-- The answer is the id and the offset of the first valid header, or none without one. -/
structure FindsFirst (q : Pointer) (len : ℕ) : Prop where
  found : ∀ i, FirstValid q len i → getChunkId q len = some ((q.advance (i + 44 : ℕ)).bytes 20, i)
  none : (∀ i, ¬ ValidHeader q len i) → getChunkId q len = none

/-- Nothing before the first valid header has a record's mark and mask. -/
def Unpreceded (q : Pointer) (len : ℕ) : Prop := ∀ i, FirstValid q len i → ∀ j < i, ¬ Shows q j

theorem extract_header (header : HeaderAt q i) :
    ∃ data, extractChunkResponse (q.advance i) = some ⟨(q.advance (i + 44 : ℕ)).bytes 20, data⟩ := by
  have idLength : ntohl ((q.advance i).advance 40) = 20 := by
    rw [Pointer.advance_advance]
    exact header.chunkIdLen
  have dataLength : minChunkSize ≤ ntohl ((q.advance i).advance 64) := by
    rw [Pointer.advance_advance]
    exact header.chunkDataLen
  rw [extract_eq header.payloadLength idLength dataLength, Pointer.advance_advance]
  exact ⟨_, rfl⟩

/-- What is extracted has a header. -/
theorem header_of_extract (shows : Shows q i) {reply : DotChunkRes}
    (extracted : extractChunkResponse (q.advance i) = some reply) : HeaderAt q i := by
  refine ⟨shows, ?_, ?_, ?_⟩
  · by_contra short
    rw [extract_none (Or.inl (Nat.lt_of_not_le short))] at extracted
    cases extracted
  · by_contra other
    have other : ntohl ((q.advance i).advance 40) ≠ 20 := by
      rw [Pointer.advance_advance]
      exact other
    rw [extract_none (Or.inr (Or.inl other))] at extracted
    cases extracted
  · by_contra small
    have small : ntohl ((q.advance i).advance 64) < minChunkSize := by
      rw [Pointer.advance_advance]
      exact Nat.lt_of_not_le small
    rw [extract_none (Or.inr (Or.inr small))] at extracted
    cases extracted

theorem found_header (header : HeaderAt q i) (inside : i < len) (before : ∀ j < i, ¬ Shows q j) :
    getChunkId q len = some ((q.advance (i + 44 : ℕ)).bytes 20, i) := by
  obtain ⟨data, extracted⟩ := extract_header header
  rw [get_chunk_id_first inside header.shows before, extracted]
  rfl

/-- Without a valid header there is no answer. -/
theorem none_of_no_header (uncompleted : Uncompleted q len) (without : ∀ i, ¬ ValidHeader q len i) :
    getChunkId q len = none := by
  obtain ⟨i, inside, shows, before⟩ | never := first_or_none q len
  · rw [get_chunk_id_first inside shows before, Option.map_eq_none_iff]
    cases extracted : extractChunkResponse (q.advance i) with
    | none => rfl
    | some reply =>
      have header := header_of_extract shows extracted
      exact absurd ⟨header, uncompleted i inside header⟩ (without i)
  · exact get_chunk_id_none never

/-- **The first valid header is found** exactly if nothing before it looks like a record. -/
theorem get_chunk_id_finds_first_iff (uncompleted : Uncompleted q len) : FindsFirst q len ↔ Unpreceded q len := by
  constructor
  · intro finds i first j earlier shows
    have answer := finds.found i first
    have whole := first.1.whole
    -- the search stops at a place no later than this one, and answers with that place
    obtain ⟨k, inside, shows', before⟩ | never := first_or_none q len
    · rw [get_chunk_id_first inside shows' before] at answer
      obtain ⟨reply, _, same⟩ := Option.map_eq_some_iff.mp answer
      obtain rfl : k = i := (Prod.mk.inj same).2
      exact before j earlier shows
    · exact never j (by omega) shows
  · intro clear
    refine ⟨fun i first => ?_, none_of_no_header uncompleted⟩
    have whole := first.1.whole
    exact found_header first.1.toHeaderAt (by omega) (clear i first)

/-! ## A small reply before a large one -/

/-- A header of a reply with 10 bytes, and one of a reply with 1024. -/
def twoHeaders : List UInt8 := recordHeader (.replicate 20 1) 100 10 ++ recordHeader (.replicate 20 2) 1100 1024

/-- The second header is the first valid one, and the search stops at the first. -/
theorem header_behind_small_reply : ¬ ∀ (payload : List UInt8) (around : ℤ → UInt8),
    Uncompleted (.ofBytes payload around) payload.length → FindsFirst (.ofBytes payload around) payload.length := by
  intro always
  have size : twoHeaders.length = 136 := rfl
  have marks : ∀ i : ℕ, i < 136 → Pointer.ofBytes twoHeaders (fun _ => 0) i = rpcHeader → i = 0 ∨ i = 68 := by
    decide +kernel
  have small : getLengthFromByteStream (Pointer.ofBytes twoHeaders fun _ => 0) < minPayloadLength := by decide +kernel
  have finds := always twoHeaders (fun _ => 0) fun i inside header => by
    have place := marks i (by omega) header.shows.1
    omega
  have second : FirstValid (.ofBytes twoHeaders fun _ => 0) twoHeaders.length 68 := by
    refine ⟨⟨⟨⟨?_, ?_⟩, ?_, ?_, ?_⟩, ?_⟩, fun j earlier valid => ?_⟩
    iterate 6 decide +kernel
    obtain rfl | rfl := marks j (by omega) valid.shows.1
    · have long := valid.payloadLength
      rw [Int.natCast_zero, Pointer.advance_zero] at long
      exact absurd small (Nat.not_lt.mpr long)
    · exact Nat.lt_irrefl _ earlier
  have nothing : getChunkId (.ofBytes twoHeaders fun _ => 0) twoHeaders.length = none := by decide +kernel
  cases nothing.symm.trans (finds.found 68 second)

/-- The second header alone. -/
theorem header_alone_found :
    FindsFirst (.ofBytes (recordHeader (.replicate 20 2) 1100 1024) fun _ => 0) 68 := by
  have marks : ∀ i : ℕ, i < 68 →
      Pointer.ofBytes (recordHeader (.replicate 20 2) 1100 1024) (fun _ => 0) i = rpcHeader → i = 0 := by
    decide +kernel
  refine (get_chunk_id_finds_first_iff fun i inside header => ?_).mpr fun i first j earlier shows => ?_
  · have place := marks i inside header.shows.1
    omega
  · have whole := first.1.whole
    omega

end Ditto.FirstHeader
