import Ditto.RecordScan

/-! What the pass makes of one block. Behind bytes that show no record it takes out
the records that are all there, one by one, as long as it can copy the bytes before
them; and then it comes to an end whatever the bytes are, since the length of a record,
as large as the field may be, never brings the search back into the block. -/
namespace Ditto.RecordExtraction
open Sniffer Buffers ContiguousBlock Words Traces Traced RecordHeaders RecordScan Handovers SegmentHandling

/-- The bytes show the header of a record at an index. -/
def ShowsHeader (bytes : List UInt8) (i : ℕ) : Prop :=
  bytes[i]? = some rpcHeader ∧ (bytes.drop (i + 8)).take maskSizeInBytes = mask

instance (bytes : List UInt8) (i : ℕ) : Decidable (ShowsHeader bytes i) :=
  inferInstanceAs (Decidable (_ ∧ _))

variable {mem : Memory} {flow : FlowId} {block : ContiguousBlock} {p : Pointer} {size : ℕ}
  {bytes lead rest tail : List UInt8}

/-! ## Records behind other bytes -/

theorem c_str_at (mem : Memory) {i : ℕ} (inside : i < bytes.length) : some (mem.cStr bytes i) = bytes[i]? := by
  rw [Memory.cStr, Pointer.ofBytes, if_pos ⟨by omega, by omega⟩, Int.toNat_natCast,
    List.getD_eq_getElem?_getD, List.getElem?_eq_getElem inside, Option.getD_some]

/-- The test of the pass finds the headers whose last byte is not the block's last. -/
theorem is_record_shows (mem : Memory) (short : bytes.length < 2 ^ 31) {i : ℕ} (inside : i < bytes.length) :
    isRecord (mem.cStr bytes) bytes.length (UInt32.ofNat i) ↔ i + 32 < bytes.length ∧ ShowsHeader bytes i := by
  have whole : (mem.cStr bytes).bytes bytes.length = bytes.take bytes.length := by
    rw [Memory.cStr, Pointer.bytes_ofBytes, List.take_length]
  have mark : mem.cStr bytes i = rpcHeader ↔ bytes[i]? = some rpcHeader := by
    rw [← c_str_at mem inside, Option.some_inj]
  rw [is_record_at (by omega), mark]
  constructor
  · rintro ⟨shown, room, masked⟩
    refine ⟨room, shown, ?_⟩
    rw [← masked, Pointer.advance_advance]
    exact (slice_eq (i + 8) maskSizeInBytes whole (by simp only [maskSizeInBytes]; omega)).symm
  · rintro ⟨room, shown, masked⟩
    refine ⟨shown, room, ?_⟩
    rw [← masked, Pointer.advance_advance]
    exact slice_eq (i + 8) maskSizeInBytes whole (by simp only [maskSizeInBytes]; omega)

/-- The first index at which the test holds is the one that is found. -/
theorem first_record_at {i : ℕ} (is : isRecord p size (UInt32.ofNat i)) (inside : i < size)
    (before : ∀ j < i, ¬ isRecord p size (UInt32.ofNat j)) :
    firstRecord p size = some (UInt32.ofNat i, UInt32.ofNat i +
      UInt32.ofInt (getLengthFromByteStream (p.advance (UInt32.ofNat i).toNat) + 4)) := by
  have searched : (List.range size).find? (fun j => isRecord p size (UInt32.ofNat j)) = some i := by
    rw [List.find?_range_eq_some]
    exact ⟨is, List.mem_range.mpr inside, fun j earlier => by simpa using before j earlier⟩
  rw [firstRecord, List.find?_map]
  simp only [Function.comp_def, searched, Option.map_some]
  rfl

/-- No index, no record. -/
theorem first_record_none (without : ∀ i < size, ¬ isRecord p size (UInt32.ofNat i)) :
    firstRecord p size = none := by
  have searched : (List.range size).find? (fun j => isRecord p size (UInt32.ofNat j)) = none := by
    rw [List.find?_eq_none]
    exact fun i member => without i (List.mem_range.mp member)
  rw [firstRecord, List.find?_map]
  simp only [Function.comp_def, searched]
  rfl

/-- A pointer into a block shows what the block holds from there on. -/
theorem c_str_advance (mem : Memory) (lead rest : List UInt8) {n : ℕ} (inside : n ≤ rest.length) :
    ((mem.cStr (lead ++ rest)).advance lead.length).bytes n = rest.take n := by
  have whole : (mem.cStr (lead ++ rest)).bytes (lead ++ rest).length =
      (lead ++ rest).take (lead ++ rest).length := by
    rw [Memory.cStr, Pointer.bytes_ofBytes, List.take_length]
  rw [slice_eq lead.length n whole (by rw [List.length_append]; omega), List.drop_left]

/-- No header shows at an index of the bytes in front. -/
def Quiet (bytes : List UInt8) (n : ℕ) : Prop := ∀ i < n, ¬ ShowsHeader bytes i

/-- Zeros show none. -/
theorem quiet_zeros {count : ℕ} (content : bytes = List.replicate count 0 ++ rest) :
    Quiet bytes (List.replicate count (0 : UInt8)).length := by
  rintro i inside ⟨mark, _⟩
  rw [content, List.getElem?_append_left inside, List.getElem?_replicate_of_lt (by simpa using inside)] at mark
  exact absurd mark (by decide)

/-- A record behind bytes that show none is the first, and what is extracted of it is its data. -/
theorem record_behind (mem : Memory) (r : ChunkRecord) (content : bytes = lead ++ (r.bytes ++ rest))
    (quiet : Quiet bytes lead.length) (short : bytes.length < 2 ^ 31) :
    firstRecord (mem.cStr bytes) bytes.length =
      some (UInt32.ofNat lead.length, UInt32.ofInt (lead.length + r.bytes.length : ℕ)) ∧
    extractChunkResponse ((mem.cStr bytes).advance lead.length) = some ⟨r.chunkId, r.data⟩ := by
  have long := r.long
  have size : bytes.length = lead.length + (r.bytes.length + rest.length) := by
    rw [content, List.length_append, List.length_append]
  have start : (UInt32.ofNat lead.length).toNat = lead.length := by
    rw [UInt32.toNat_ofNat']
    omega
  have holds : ((mem.cStr bytes).advance lead.length).bytes r.bytes.length = r.bytes := by
    rw [content, c_str_advance mem lead _ (by rw [List.length_append]; omega), List.take_left]
  obtain ⟨mark, masked, length, _⟩ := r.reads (r.header_of_bytes holds)
  have is : isRecord (mem.cStr bytes) bytes.length (UInt32.ofNat lead.length) := by
    refine (is_record_at (by omega)).mpr ⟨?_, by omega, masked⟩
    rw [← mark, Pointer.advance, Int.add_zero]
  have total : (getLengthFromByteStream ((mem.cStr bytes).advance lead.length) : ℤ) + 4 = (r.bytes.length : ℕ) := by
    omega
  have ends : UInt32.ofNat lead.length + UInt32.ofInt r.bytes.length =
      UInt32.ofInt (lead.length + r.bytes.length : ℕ) := by
    apply UInt32.toNat_inj.mp
    rw [toNat_add_ofInt _ _ (by omega), start, Words.toNat_ofInt]
    omega
  refine ⟨?_, r.extract holds⟩
  rw [first_record_at is (by omega) fun j earlier is =>
    quiet j earlier ((is_record_shows mem short (by omega)).mp is).2, start, total, ends]

/-- A round that finds a whole record hands it on, and logs nothing else. -/
theorem grep_once_calls {start last : UInt32}
    (found : firstRecord (mem.cStr block.contiguousBlock) block.contiguousBlock.length = some (start, last))
    (whole : last.toNat ≤ block.contiguousBlock.length) :
    (grepContiguousBlockForChunks mem flow block).calls =
      (sendChunkToSnifferPlugin flow ((mem.cStr block.contiguousBlock).advance start.toNat)
        (block.contiguousBlock.length - start.toNat) none).calls := by
  rw [grepContiguousBlockForChunks]
  simp only [found, if_pos whole]
  rw [calls_bind, send_total]
  refine (congrArg (_ ++ ·) ?_).trans (List.append_nil _)
  split
  · rfl
  · cases object : mem.tempPointer block.contiguousBlock (toInt start) with
    | none => rfl
    | some tempPointer =>
      cases copied : ContiguousBlock.create.append tempPointer (toInt start) block.startingSeqNumber <;>
        simp [calls_bind]

/-- A round sends that record. It puts the bytes before it in front, if it can copy them. -/
theorem grep_behind (r : ChunkRecord) (content : block.contiguousBlock = lead ++ (r.bytes ++ rest))
    (quiet : Quiet block.contiguousBlock lead.length) (short : block.contiguousBlock.length < 2 ^ 31) :
    (grepContiguousBlockForChunks mem flow block).calls.filterMap Call.sent = [(flow, r.data)] ∧
    (lead.length ≤ mem.readable block.contiguousBlock →
      ∃ front, (grepContiguousBlockForChunks mem flow block).result = some (front, { block with
        startingSeqNumber := block.startingSeqNumber + UInt32.ofInt (lead.length + r.bytes.length : ℕ)
        contiguousBlock := rest })) ∧
    (Scanned block → mem.readable block.contiguousBlock < lead.length → Stuck mem block) := by
  obtain ⟨found, extracted⟩ := record_behind mem r content quiet short
  have size : block.contiguousBlock.length = lead.length + (r.bytes.length + rest.length) := by
    rw [content, List.length_append, List.length_append]
  have start : (UInt32.ofNat lead.length).toNat = lead.length := by
    rw [UInt32.toNat_ofNat']
    omega
  have stop : (UInt32.ofInt (lead.length + r.bytes.length : ℕ)).toNat = lead.length + r.bytes.length := by
    rw [Words.toNat_ofInt]
    omega
  have whole : (UInt32.ofInt (lead.length + r.bytes.length : ℕ)).toNat ≤ block.contiguousBlock.length := by omega
  have remains : behind block (UInt32.ofInt (lead.length + r.bytes.length : ℕ)) = { block with
      startingSeqNumber := block.startingSeqNumber + UInt32.ofInt (lead.length + r.bytes.length : ℕ)
      contiguousBlock := rest } := by
    rw [behind, stop, content, ← List.append_assoc, ← List.length_append, List.drop_left]
  refine ⟨?_, fun near => ?_, fun scanned far => ?_⟩
  · rw [grep_once_calls found whole, start, sendChunkToSnifferPlugin, extracted]
    rfl
  · exact remains ▸ grep_once_takes found whole ⟨by omega, by omega⟩
  · exact .thrown scanned found whole fun copied => absurd copied.2 (by omega)

/-- A piece of a record behind such bytes keeps the pass waiting, or shows no record. -/
theorem grep_partial_behind (isPartial : Partial tail) (content : block.contiguousBlock = lead ++ tail)
    (quiet : Quiet block.contiguousBlock lead.length) (short : block.contiguousBlock.length < 2 ^ 31) :
    grepContiguousBlockForChunks mem flow block = pure ([], { block with bModified := false }) := by
  obtain ⟨r, shorter, isPrefix⟩ := isPartial
  have sized := r.sized
  have size : block.contiguousBlock.length = lead.length + tail.length := by rw [content, List.length_append]
  have early : ∀ j < lead.length, ¬ isRecord (mem.cStr block.contiguousBlock) block.contiguousBlock.length
      (UInt32.ofNat j) := fun j earlier is =>
    quiet j earlier ((is_record_shows mem short (by omega)).mp is).2
  have start : (UInt32.ofNat lead.length).toNat = lead.length := by
    rw [UInt32.toNat_ofNat']
    omega
  by_cases wide : 32 < tail.length
  · have holds : ((mem.cStr block.contiguousBlock).advance lead.length).bytes 32 = r.bytes.take 32 := by
      rw [content, c_str_advance mem lead tail (by omega), List.prefix_iff_eq_take.mp isPrefix,
        List.take_take, Nat.min_eq_left (by omega)]
    obtain ⟨mark, masked, length⟩ := r.reads_mark holds
    have is : isRecord (mem.cStr block.contiguousBlock) block.contiguousBlock.length
        (UInt32.ofNat lead.length) := by
      refine (is_record_at (by omega)).mpr ⟨?_, by omega, masked⟩
      rw [← mark, Pointer.advance, Int.add_zero]
    have total : (getLengthFromByteStream ((mem.cStr block.contiguousBlock).advance lead.length) : ℤ) + 4 =
        (r.bytes.length : ℕ) := by omega
    have waits : ¬ (UInt32.ofNat lead.length + UInt32.ofInt r.bytes.length).toNat ≤ block.contiguousBlock.length := by
      rw [UInt32.toNat_add, Words.toNat_ofInt, start]
      omega
    have found := first_record_at is (by omega) early
    rw [start, total] at found
    exact grep_waits found waits
  · have none : firstRecord (mem.cStr block.contiguousBlock) block.contiguousBlock.length = none := by
      apply first_record_none
      intro i inside is
      by_cases earlier : i < lead.length
      · exact early i earlier is
      · have room := ((is_record_shows mem short inside).mp is).1
        omega
    exact grep_nothing none (by omega)

/-- The loop over a block that has a record behind such bytes. -/
theorem grep_block_behind {r : ChunkRecord} {records : List ChunkRecord} (isPartial : Partial tail)
    (content : block.contiguousBlock = lead ++ (r.bytes ++ ((records.map ChunkRecord.bytes).flatten ++ tail)))
    (quiet : Quiet block.contiguousBlock lead.length) (short : block.contiguousBlock.length < 2 ^ 31)
    (bounds : block.nextExpectedSeqNumber.toNat =
      block.startingSeqNumber.toNat + block.contiguousBlock.length)
    (unread : block.bModified = true) :
    (lead.length ≤ mem.readable block.contiguousBlock →
      ∃ left, Sends (grepBlock mem flow (block.contiguousBlock.length + 2) block)
        ((r :: records).map fun r => (flow, r.data)) left) ∧
    (mem.readable block.contiguousBlock < lead.length →
      (grepBlock mem flow (block.contiguousBlock.length + 2) block).result = none ∧
        (grepBlock mem flow (block.contiguousBlock.length + 2) block).calls.filterMap Call.sent = [(flow, r.data)]) := by
  have size : block.contiguousBlock.length = lead.length + (r.bytes.length +
      ((records.map ChunkRecord.bytes).flatten ++ tail).length) := by
    rw [content, List.length_append, List.length_append]
  have long := r.long
  have limit := block.nextExpectedSeqNumber.toNat_lt
  have ahead : block.startingSeqNumber < block.nextExpectedSeqNumber :=
    UInt32.lt_iff_toNat_lt.mpr (by omega)
  obtain ⟨sent, takes, stuck⟩ := @grep_behind mem flow block lead _ r content quiet short
  constructor
  · intro near
    have moved := toNat_add_ofInt block.startingSeqNumber (lead.length + r.bytes.length) (by omega)
    obtain ⟨front, taken⟩ := takes near
    obtain ⟨left, others⟩ := @grep_records mem flow { block with
        startingSeqNumber := block.startingSeqNumber + UInt32.ofInt (lead.length + r.bytes.length : ℕ)
        contiguousBlock := (records.map ChunkRecord.bytes).flatten ++ tail }
      (block.contiguousBlock.length + 1) tail records isPartial rfl (by simp only [moved]; omega) unread
      (by simp only; omega)
    rw [grepBlock, if_pos ⟨unread, ahead⟩]
    exact ⟨_, Sends.bind ⟨taken, sent⟩ (others.finish _)⟩
  · intro far
    have stuck := stuck ⟨unread, ahead⟩ far
    refine ⟨grep_block_stuck stuck _, ?_⟩
    have once : (grepContiguousBlockForChunks mem flow block).result = none := by
      obtain ⟨found, _⟩ := record_behind mem r content quiet short
      have start : (UInt32.ofNat lead.length).toNat = lead.length := by
        rw [UInt32.toNat_ofNat']
        omega
      refine grep_once_faults found ?_ fun copied => absurd copied.2 (by omega)
      rw [Words.toNat_ofInt]
      omega
    rw [grepBlock, if_pos ⟨unread, ahead⟩, calls_bind, once, Option.elim_none, List.append_nil, sent]

/-- **A block is sent record by record**, whatever their data contain. Bytes in front of the
records that show no header and are more than can be read from the string object end the
program behind the first record. -/
theorem scan_extracts_records (records : List ChunkRecord) (isPartial : Partial tail)
    (content : block.contiguousBlock = lead ++ (records.map ChunkRecord.bytes).flatten ++ tail)
    (quiet : Quiet block.contiguousBlock lead.length) (short : block.contiguousBlock.length < 2 ^ 31)
    (bounds : block.nextExpectedSeqNumber.toNat =
      block.startingSeqNumber.toNat + block.contiguousBlock.length)
    (unread : block.bModified = true) :
    ((grepBlock mem flow (block.contiguousBlock.length + 2) block).calls.filterMap Call.sent =
        records.map (fun r => (flow, r.data)) ↔
      records.length ≤ 1 ∨ lead.length ≤ mem.readable block.contiguousBlock) ∧
    ((∃ left, Sends (grepBlock mem flow (block.contiguousBlock.length + 2) block)
        (records.map fun r => (flow, r.data)) left) ↔
      records = [] ∨ lead.length ≤ mem.readable block.contiguousBlock) := by
  cases records with
  | nil =>
    have sends : ∃ left, Sends (grepBlock mem flow (block.contiguousBlock.length + 2) block) [] left := by
      rw [grepBlock]
      by_cases empty : block.startingSeqNumber < block.nextExpectedSeqNumber
      · rw [if_pos ⟨unread, empty⟩, grep_partial_behind isPartial (by simpa using content) quiet short]
        exact ⟨_, rfl, rfl⟩
      · rw [if_neg fun both => empty both.2]
        exact ⟨_, sends_pure _⟩
    obtain ⟨left, sends⟩ := sends
    exact ⟨iff_of_true sends.calls (Or.inl (Nat.zero_le _)), iff_of_true ⟨left, sends⟩ (Or.inl rfl)⟩
  | cons r records =>
    obtain ⟨sends, ends⟩ := @grep_block_behind mem flow block lead tail r records isPartial (by simpa using content)
      quiet short bounds unread
    by_cases near : lead.length ≤ mem.readable block.contiguousBlock
    · obtain ⟨left, sends⟩ := sends near
      exact ⟨iff_of_true sends.calls (Or.inr near), iff_of_true ⟨left, sends⟩ (Or.inr near)⟩
    · obtain ⟨none, sent⟩ := ends (Nat.lt_of_not_le near)
      constructor
      · rw [sent, or_iff_left near, List.length_cons, List.map_cons, List.cons_eq_cons, and_iff_right rfl, eq_comm,
          List.map_eq_nil_iff, ← List.length_eq_zero_iff]
        omega
      · refine iff_of_false ?_ (by simp [near])
        rintro ⟨left, sends⟩
        cases none.symm.trans sends.result

/-- Two bytes and a record. -/
def afterTwo : ContiguousBlock where
  startingSeqNumber := 5
  nextExpectedSeqNumber := 1111
  contiguousBlock := [1, 2] ++ ([plainRecord 7].map ChunkRecord.bytes).flatten ++ []
  bInit := false
  bModified := true

theorem length_after_two : afterTwo.contiguousBlock.length = 1106 := by
  have length : (plainRecord 7).bytes.length = 1104 := length_plain 7
  simp [afterTwo, length]

theorem partial_nil : Partial [] :=
  ⟨plainRecord 7, Nat.lt_of_lt_of_le (by decide) (plainRecord 7).long, List.nil_prefix⟩

theorem scan_extracts_one_record :
    ((grepBlock zeroMemory someFlow (afterTwo.contiguousBlock.length + 2) afterTwo).calls.filterMap Call.sent =
        [plainRecord 7].map (fun r => (someFlow, r.data)) ↔
      [plainRecord 7].length ≤ 1 ∨ [1, 2].length ≤ zeroMemory.readable afterTwo.contiguousBlock) ∧
    ((∃ left, Sends (grepBlock zeroMemory someFlow (afterTwo.contiguousBlock.length + 2) afterTwo)
        ([plainRecord 7].map fun r => (someFlow, r.data)) left) ↔
      [plainRecord 7] = [] ∨ [1, 2].length ≤ zeroMemory.readable afterTwo.contiguousBlock) :=
  have quiet : Quiet afterTwo.contiguousBlock [1, 2].length := by
    rintro (_ | _ | i) inside ⟨mark, _⟩
    · cases mark
    · cases mark
    · exact absurd inside (by simp)
  scan_extracts_records [plainRecord 7] partial_nil rfl quiet (by rw [length_after_two]; decide)
    (by rw [length_after_two]; rfl) rfl

/-- Zeros, and two records. -/
def afterZeros (count : ℕ) : ContiguousBlock where
  startingSeqNumber := 0
  nextExpectedSeqNumber := UInt32.ofNat (count + 2208)
  contiguousBlock := List.replicate count 0 ++ ([plainRecord 7, plainRecord 8].map ChunkRecord.bytes).flatten ++ []
  bInit := false
  bModified := true

theorem length_after_zeros (count : ℕ) : (afterZeros count).contiguousBlock.length = count + 2208 := by
  have length : (plainRecord 7).bytes.length = 1104 := length_plain 7
  have length' : (plainRecord 8).bytes.length = 1104 := length_plain 8
  simp [afterZeros, length, length']

theorem after_zeros_behind {count : ℕ} (far : 2 ^ 17 < count) (short : count + 2208 < 2 ^ 31) :
    (grepBlock zeroMemory someFlow ((afterZeros count).contiguousBlock.length + 2) (afterZeros count)).result = none ∧
      (grepBlock zeroMemory someFlow ((afterZeros count).contiguousBlock.length + 2)
        (afterZeros count)).calls.filterMap Call.sent = [(someFlow, (plainRecord 7).data)] := by
  have lead : (List.replicate count (0 : UInt8)).length = count := List.length_replicate ..
  have length := length_after_zeros count
  have ends : (afterZeros count).nextExpectedSeqNumber.toNat = count + 2208 := by
    rw [afterZeros, UInt32.toNat_ofNat']
    omega
  have start : (afterZeros count).startingSeqNumber.toNat = 0 := rfl
  refine (@grep_block_behind zeroMemory someFlow (afterZeros count) (List.replicate count 0) []
    (plainRecord 7) [plainRecord 8] partial_nil ?_ (quiet_zeros (List.append_assoc ..)) (by omega) (by omega) rfl).2 ?_
  · simp [afterZeros]
  · rw [lead]
    exact far

/-- The claim at two records behind many zeros: one of them is sent. -/
theorem not_scan_extracts : ¬ ∀ (mem : Memory) (flow : FlowId) (block : ContiguousBlock) (lead tail : List UInt8)
    (records : List ChunkRecord), Partial tail →
    block.contiguousBlock = lead ++ (records.map ChunkRecord.bytes).flatten ++ tail →
    Quiet block.contiguousBlock lead.length → block.contiguousBlock.length < 2 ^ 31 →
    block.nextExpectedSeqNumber.toNat = block.startingSeqNumber.toNat + block.contiguousBlock.length →
    block.bModified = true →
    (grepBlock mem flow (block.contiguousBlock.length + 2) block).calls.filterMap Call.sent =
      records.map fun r => (flow, r.data) := by
  intro extracts
  have length := length_after_zeros (2 ^ 18)
  have sent := extracts zeroMemory someFlow (afterZeros (2 ^ 18)) (List.replicate (2 ^ 18) 0) []
    [plainRecord 7, plainRecord 8] partial_nil rfl
    (quiet_zeros (List.append_assoc ..)) (by omega) (by rw [length]; rfl) rfl
  rw [(after_zeros_behind (by omega) (by omega)).2] at sent
  cases sent

/-! ## The end of a pass -/

/-- A whole record is found behind more bytes than can be read from the string object on, once
some records and the bytes before them are taken off. -/
inductive Distant (mem : Memory) : ContiguousBlock → Prop
  | here {block : ContiguousBlock} {start last : UInt32} (scanned : Scanned block)
      (found : firstRecord (mem.cStr block.contiguousBlock) block.contiguousBlock.length = some (start, last))
      (whole : last.toNat ≤ block.contiguousBlock.length)
      (far : mem.readable block.contiguousBlock < start.toNat) : Distant mem block
  | later {block : ContiguousBlock} {start last : UInt32} (scanned : Scanned block)
      (found : firstRecord (mem.cStr block.contiguousBlock) block.contiguousBlock.length = some (start, last))
      (whole : last.toNat ≤ block.contiguousBlock.length) (rest : Distant mem (behind block last)) : Distant mem block

theorem Distant.stuck (distant : Distant mem block) : Stuck mem block := by
  induction distant with
  | here scanned found whole far => exact .thrown scanned found whole fun copied => Nat.not_lt.mpr copied.2 far
  | @later block start last scanned found whole _ ih =>
    by_cases near : Copied mem block start
    · exact .later scanned found whole near ih
    · exact .thrown scanned found whole near

end Ditto.RecordExtraction
