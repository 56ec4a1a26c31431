import Ditto.SniffTcp
import Ditto.Words

/-! Records with a chunk. All the fields of a record's header are inside its first 68
bytes, so what the sniffer makes of a header depends on these bytes alone, wherever
they stand; the data follows them. -/
namespace Ditto.RecordHeaders
open Sniffer Windows Words

/-- A record that carries a chunk: the mark of a last fragment with the record's
length, the mask, a chunk id of 20 bytes, and the data with its length. -/
structure ChunkRecord where
  bytes : List UInt8
  marked : bytes.head? = some rpcHeader
  sized : Xdr.number (bytes.take 4) % 2 ^ 31 + 4 = bytes.length
  masked : (bytes.drop 8).take maskSizeInBytes = mask
  identified : Xdr.number ((bytes.drop 40).take 4) = 20
  filled : minChunkSize ≤ Xdr.number ((bytes.drop 64).take 4)
  fits : 68 + Xdr.number ((bytes.drop 64).take 4) ≤ bytes.length

namespace ChunkRecord

/-- The chunk id. -/
def chunkId (r : ChunkRecord) : ChunkId := (r.bytes.drop 44).take 20

/-- The length of the data, and the data. -/
def dataLength (r : ChunkRecord) : ℕ := Xdr.number ((r.bytes.drop 64).take 4)
def data (r : ChunkRecord) : List UInt8 := (r.bytes.drop 68).take r.dataLength

end ChunkRecord

variable {p : Pointer} {r : ChunkRecord} {size n first count : ℕ} {bytes before middle after : List UInt8}

/-! ## Reading bytes -/

/-- What a pointer shows of the bytes it points to. -/
theorem slice_eq (first count : ℕ) (holds : p.bytes n = bytes.take n) (inside : first + count ≤ n) :
    (p.advance first).bytes count = (bytes.drop first).take count := by
  have cut := congrArg (fun bytes => (bytes.drop first).take count) holds
  simp only [Pointer.bytes, drop_window, List.drop_take] at cut
  rw [take_window _ (by omega), Nat.zero_add, List.take_take] at cut
  rw [Pointer.bytes_advance, cut, Nat.min_eq_left (by omega)]

/-- What a pointer to a window shows from inside it. -/
theorem window_part {source : ℕ → UInt8} {start : ℕ} (holds : p.bytes n = window source start (start + n))
    (first count : ℕ) (inside : first + count ≤ n) :
    (p.advance first).bytes count = window source (start + first) (start + first + count) := by
  have whole : p.bytes n = (window source start (start + n)).take n := by
    rw [holds, List.take_of_length_le (by simp)]
  rw [slice_eq first count whole inside, drop_window, take_window source (by omega)]

theorem bytes_of_front (around : ℤ → UInt8) (inside : n ≤ bytes.length) :
    (Pointer.ofBytes bytes around).bytes n = bytes.take n := by
  have whole : (Pointer.ofBytes bytes around).bytes bytes.length = bytes.take bytes.length := by
    rw [Pointer.bytes_ofBytes, List.take_length]
  simpa using slice_eq 0 n whole (by omega)

theorem ntohl_eq (p : Pointer) : ntohl p = Xdr.number (p.bytes 4) := by
  simp only [ntohl, Xdr.number, Pointer.bytes, window, Nat.sub_zero, List.range'_eq_map_range,
    List.range_succ_eq_map, List.range_zero]
  simp
  omega

/-- The length field, without the last-fragment bit. -/
theorem get_length_eq (p : Pointer) : getLengthFromByteStream p = ntohl p % 2 ^ 31 := by
  have second := (p 1).toNat_lt
  have third := (p 2).toNat_lt
  have fourth := (p 3).toNat_lt
  rw [getLengthFromByteStream, ntohl]
  omega

/-! ## Headers -/

/-- What is extracted of a record that is long enough. -/
theorem extract_eq (long : minPayloadLength ≤ getLengthFromByteStream p)
    (idLength : ntohl (p.advance 40) = 20) (dataLength : minChunkSize ≤ ntohl (p.advance 64)) :
    extractChunkResponse p =
      some ⟨(p.advance 44).bytes 20, (p.advance 68).bytes (ntohl (p.advance 64))⟩ := by
  rw [extractChunkResponse]
  simp only [Pointer.advance_advance, Int.reduceAdd, idLength]
  rw [if_neg (by omega), if_neg (by simp), if_neg (by omega)]

/-- The test for a record at an index. -/
theorem is_record_at (fits : n + 32 < 2 ^ 32) : isRecord p size (UInt32.ofNat n) ↔
    p n = rpcHeader ∧ n + 32 < size ∧ ((p.advance n).advance 8).bytes maskSizeInBytes = mask := by
  have index : (UInt32.ofNat n).toNat = n := by
    rw [UInt32.toNat_ofNat']
    omega
  have after : ∀ k : UInt32, k.toNat ≤ 32 → (UInt32.ofNat n + k).toNat = n + k.toNat := fun k small => by
    rw [UInt32.toNat_add, index]
    omega
  have third : (UInt32.ofNat n + 3).toNat = n + 3 := after 3 (by decide)
  have eighth : (UInt32.ofNat n + 8).toNat = n + 8 := after 8 (by decide)
  have last : (UInt32.ofNat n + 8 + UInt32.ofNat maskSizeInBytes).toNat = n + 32 := by
    rw [UInt32.add_assoc]
    exact after 32 (by decide)
  simp only [isRecord, decide_eq_true_eq, index, third, eighth, last, Pointer.advance_advance]
  push_cast
  constructor
  · rintro ⟨mark, _, inside, masked⟩
    exact ⟨mark, inside, masked⟩
  · rintro ⟨mark, inside, masked⟩
    exact ⟨mark, by omega, inside, masked⟩

/-- The test for a record at the start of a block. -/
theorem is_record_zero (p : Pointer) : isRecord p size 0 ↔
    p 0 = rpcHeader ∧ 32 < size ∧ (p.advance 8).bytes maskSizeInBytes = mask := by
  have at_zero := @is_record_at p size 0 (by omega)
  simpa using at_zero

/-- A record at the start of a block is the first there is. -/
theorem first_record_front (is : isRecord p size 0) :
    firstRecord p size = some (0, UInt32.ofInt (getLengthFromByteStream p + 4)) := by
  have wide : 32 < size := ((is_record_zero p).mp is).2.1
  obtain ⟨rest, rfl⟩ := Nat.exists_eq_add_of_lt wide
  have zero : UInt32.ofNat 0 = 0 := rfl
  rw [firstRecord, List.range_succ_eq_map, List.map_cons, zero, List.find?_cons_of_pos is]
  simp

/-- Where the first record of a block is: its header is inside, and its end is as far from
its start as its length field says. -/
theorem first_record_place {start last : UInt32} (found : firstRecord p size = some (start, last))
    (short : size ≤ 2 ^ 31) : start.toNat + 32 < size ∧
      last.toNat = start.toNat + (getLengthFromByteStream (p.advance start.toNat) + 4) := by
  obtain ⟨i, searched, ends⟩ := Option.bind_eq_some_iff.mp found
  have is := List.find?_some searched
  have member := List.mem_of_find?_eq_some searched
  cases ends
  obtain ⟨k, inside, rfl⟩ := List.mem_map.mp member
  have bound := List.mem_range.mp inside
  simp only [isRecord, decide_eq_true_eq] at is
  have small := get_length_small (p.advance (UInt32.ofNat k).toNat)
  have exactly : (UInt32.ofNat k).toNat = k := by
    rw [UInt32.toNat_ofNat']
    omega
  have header : k + 32 < size := by
    have last := is.2.2.1
    rw [UInt32.toNat_add, UInt32.toNat_add, exactly] at last
    simp [maskSizeInBytes] at last
    omega
  have total : (getLengthFromByteStream (p.advance (UInt32.ofNat k).toNat) : ℤ) + 4 =
      (getLengthFromByteStream (p.advance (UInt32.ofNat k).toNat) + 4 : ℕ) := by omega
  refine ⟨by omega, ?_⟩
  rw [total]
  exact toNat_add_ofInt _ _ (by omega)

namespace ChunkRecord

theorem long (r : ChunkRecord) : 68 + minChunkSize ≤ r.bytes.length := by
  have filled := r.filled
  have fits := r.fits
  omega

/-- The mark and the mask as the sniffer reads them, from the first 32 bytes. -/
theorem reads_mark (r : ChunkRecord) (holds : p.bytes 32 = r.bytes.take 32) :
    p 0 = rpcHeader ∧ (p.advance 8).bytes maskSizeInBytes = mask ∧
      getLengthFromByteStream p + 4 = r.bytes.length := by
  have first : p.bytes 4 = r.bytes.take 4 := by
    have cut := slice_eq 0 4 holds (by omega)
    simpa using cut
  refine ⟨?_, ?_, ?_⟩
  · have shown : (p.bytes 32).head? = some (p 0) := rfl
    rw [holds, List.head?_take, if_neg (by omega), r.marked] at shown
    exact (Option.some_inj.mp shown).symm
  · rw [← r.masked]
    exact slice_eq 8 maskSizeInBytes holds (by decide)
  · rw [get_length_eq, ntohl_eq, first, r.sized]

/-- The header as the sniffer reads it, from its 68 bytes. -/
theorem reads (r : ChunkRecord) (holds : p.bytes 68 = r.bytes.take 68) :
    p 0 = rpcHeader ∧ (p.advance 8).bytes maskSizeInBytes = mask ∧
      getLengthFromByteStream p + 4 = r.bytes.length ∧ ntohl (p.advance 40) = 20 ∧
      ntohl (p.advance 64) = r.dataLength ∧ (p.advance 44).bytes 20 = r.chunkId := by
  have start : p.bytes 32 = r.bytes.take 32 := by
    have cut := slice_eq 0 32 holds (by omega)
    simpa using cut
  obtain ⟨mark, masked, length⟩ := r.reads_mark start
  refine ⟨mark, masked, length, ?_, ?_, slice_eq 44 20 holds (by omega)⟩
  · rw [← r.identified, ntohl_eq]
    exact congrArg _ (slice_eq 40 4 holds (by omega))
  · rw [ntohl_eq]
    exact congrArg _ (slice_eq 64 4 holds (by omega))

/-- What is extracted of a record: its chunk id, and the bytes after its header. -/
theorem extract_header (r : ChunkRecord) (holds : p.bytes 68 = r.bytes.take 68) :
    extractChunkResponse p = some ⟨r.chunkId, (p.advance 68).bytes r.dataLength⟩ := by
  obtain ⟨_, _, length, idLength, dataLength, chunkId⟩ := r.reads holds
  have long := r.long
  have filled := r.filled
  rw [extract_eq (by simp only [minPayloadLength, minChunkSize, rpcHeaderLen] at long ⊢; omega)
    idLength (by rw [dataLength]; exact filled), dataLength, chunkId]

theorem header_of_bytes (r : ChunkRecord) (holds : p.bytes r.bytes.length = r.bytes) :
    p.bytes 68 = r.bytes.take 68 := by
  have long := r.long
  have whole : p.bytes r.bytes.length = r.bytes.take r.bytes.length := by rw [holds, List.take_length]
  simpa using slice_eq 0 68 whole (by omega)

/-- What is extracted of a record that is all there. -/
theorem extract (r : ChunkRecord) (holds : p.bytes r.bytes.length = r.bytes) :
    extractChunkResponse p = some ⟨r.chunkId, r.data⟩ := by
  have whole : p.bytes r.bytes.length = r.bytes.take r.bytes.length := by rw [holds, List.take_length]
  have shown : (p.advance 68).bytes r.dataLength = r.data := slice_eq 68 r.dataLength whole r.fits
  rw [r.extract_header (r.header_of_bytes holds), shown]

/-- A segment that starts with a record's header shows its chunk. -/
theorem get_chunk_id (r : ChunkRecord) (holds : p.bytes 68 = r.bytes.take 68) (nonempty : 0 < size) :
    getChunkId p size = some (r.chunkId, 0) := by
  obtain ⟨mark, masked, _⟩ := r.reads holds
  obtain ⟨rest, rfl⟩ := Nat.exists_eq_add_of_lt nonempty
  have search : rpcHeaderInStream p (0 + rest + 1) = some 0 := by
    rw [rpcHeaderInStream, List.range_succ_eq_map, List.find?_cons_of_pos]
    simpa using ⟨mark, masked⟩
  rw [getChunkId, search]
  simp [r.extract_header holds]

end ChunkRecord

end Ditto.RecordHeaders
