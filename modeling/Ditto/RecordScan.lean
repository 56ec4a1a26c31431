import Ditto.Handovers

/-! The pass over the blocks. It comes to an end over a block if each record it takes out
shortens the block and the bytes before it can be copied, as in every block of at most
`2 ^ 31` bytes that has its records in front; and from a block that is records one after
the other it sends their data in order. -/
namespace Ditto.RecordScan
open Sniffer Buffers SniffTcp ContiguousBlock Windows Words Traces Traced RecordHeaders Handovers SegmentHandling

variable {mem : Memory} {flow : FlowId} {block left : ContiguousBlock} {front : List ContiguousBlock}
  {blocks : List ContiguousBlock} {rounds : ℕ}

/-- A flow's calls send for that flow. -/
def SentBy (flow : FlowId) (call : Call) : Prop := ∀ other data, call.sent = some (other, data) → other = flow

theorem sent_by_put (chunk : PutChunk) : SentBy flow (.putChunk flow chunk) := by
  intro other data sent
  cases sent
  rfl

/-! ## What exactly is sent -/

/-- The computation has this result, and sends exactly this. -/
structure Sends {α : Type} (x : Traced Call α) (sent : List (FlowId × List UInt8)) (a : α) : Prop where
  result : x.result = some a
  calls : x.calls.filterMap Call.sent = sent

section

variable {α β : Type} {x : Traced Call α} {f : α → Traced Call β} {a : α} {b : β}
  {sent after : List (FlowId × List UInt8)}

theorem sends_pure (a : α) : Sends (pure a) [] a := ⟨rfl, rfl⟩

theorem sends_lift {value : Option α} (held : value = some a) : Sends (lift value) [] a := ⟨held, rfl⟩

theorem sends_note {call : Call} (silent : call.sent = none) : Sends (note call) [] () := by
  refine ⟨rfl, ?_⟩
  rw [calls_note, List.filterMap_cons_none silent, List.filterMap_nil]

theorem sends_put (chunk : PutChunk) : Sends (note (.putChunk flow chunk)) [(flow, chunk.data)] () := ⟨rfl, rfl⟩

theorem Sends.bind (first : Sends x sent a) (second : Sends (f a) after b) : Sends (x >>= f) (sent ++ after) b := by
  refine ⟨?_, ?_⟩
  · rw [result_bind, first.result, Option.bind_some, second.result]
  · rw [calls_bind_some first.result, List.filterMap_append, first.calls, second.calls]

/-- A first part that sends all of it. -/
theorem Sends.before (first : Sends x sent a) (second : Sends (f a) [] b) : Sends (x >>= f) sent b := by
  simpa using first.bind second

theorem Sends.finish (first : Sends x sent a) (h : α → β) : Sends (x >>= fun a => pure (h a)) sent (h a) :=
  first.before (f := fun a => pure (h a)) (sends_pure (h a))

theorem Sends.map (first : Sends x sent a) (h : α → β) : Sends (h <$> x) sent (h a) := by
  refine ⟨?_, ?_⟩
  · rw [result_map, first.result, Option.map_some]
  · rw [calls_map, first.calls]

end

/-! ## Where the pass ends -/

/-- The pass looks at the block. -/
def Scanned (block : ContiguousBlock) : Prop :=
  block.bModified = true ∧ block.startingSeqNumber < block.nextExpectedSeqNumber

/-- What is left of a block behind a record that ends at `last`. -/
def behind (block : ContiguousBlock) (last : UInt32) : ContiguousBlock :=
  { block with
    startingSeqNumber := block.startingSeqNumber + last
    contiguousBlock := block.contiguousBlock.drop last.toNat }

/-- Bytes before a record that can be copied: an `int` counts them, and so many can be
read from the string object on. -/
def Copied (mem : Memory) (block : ContiguousBlock) (start : UInt32) : Prop :=
  start.toNat < 2 ^ 31 ∧ start.toNat ≤ mem.readable block.contiguousBlock

theorem copied_zero (mem : Memory) (block : ContiguousBlock) : Copied mem block 0 :=
  ⟨Nat.zero_lt_of_lt (Nat.lt_succ_self _), Nat.zero_le _⟩

/-- A block that the pass does not come to the end of: there is no record and the search
does not stop, there are bytes before a record that cannot be copied, or the end of a
record is computed as 0. -/
inductive Stuck (mem : Memory) : ContiguousBlock → Prop
  | lost {block : ContiguousBlock} (scanned : Scanned block)
      (none : firstRecord (mem.cStr block.contiguousBlock) block.contiguousBlock.length = none)
      (long : 2 ^ 32 ≤ block.contiguousBlock.length) : Stuck mem block
  | thrown {block : ContiguousBlock} {start last : UInt32} (scanned : Scanned block)
      (found : firstRecord (mem.cStr block.contiguousBlock) block.contiguousBlock.length = some (start, last))
      (whole : last.toNat ≤ block.contiguousBlock.length) (far : ¬ Copied mem block start) : Stuck mem block
  | looping {block : ContiguousBlock} {start : UInt32} (scanned : Scanned block)
      (found : firstRecord (mem.cStr block.contiguousBlock) block.contiguousBlock.length = some (start, 0)) :
      Stuck mem block
  | later {block : ContiguousBlock} {start last : UInt32} (scanned : Scanned block)
      (found : firstRecord (mem.cStr block.contiguousBlock) block.contiguousBlock.length = some (start, last))
      (whole : last.toNat ≤ block.contiguousBlock.length) (near : Copied mem block start)
      (rest : Stuck mem (behind block last)) : Stuck mem block

theorem Stuck.scanned (stuck : Stuck mem block) : Scanned block := by
  cases stuck <;> assumption

theorem not_stuck_of_read (read : block.bModified = false) : ¬ Stuck mem block := fun stuck =>
  Bool.false_ne_true (read.symm.trans stuck.scanned.1)

theorem send_total (p : Pointer) (held : ℕ) (chunkLength : Option ℕ) :
    (sendChunkToSnifferPlugin flow p held chunkLength).result = some () := by
  rw [sendChunkToSnifferPlugin]
  split <;> rfl

/-- What is copied of the bytes before a record. -/
theorem copy_total {start : UInt32} {seq : TcpSeq} (near : Copied mem block start) :
    ∃ tempPointer pCb, mem.tempPointer block.contiguousBlock (toInt start) = some tempPointer ∧
      ContiguousBlock.create.append tempPointer (toInt start) seq = some pCb := by
  have count : toInt start = (start.toNat : ℕ) := toInt_of_small near.1
  refine ⟨mem.atString, _, ?_, count ▸ create_append ..⟩
  rw [Memory.tempPointer, count, if_pos (by exact_mod_cast near.2)]

/-- A round that takes a record out of a block. -/
theorem grep_once_takes {start last : UInt32}
    (found : firstRecord (mem.cStr block.contiguousBlock) block.contiguousBlock.length = some (start, last))
    (whole : last.toNat ≤ block.contiguousBlock.length) (near : Copied mem block start) :
    ∃ front, (grepContiguousBlockForChunks mem flow block).result = some (front, behind block last) := by
  rw [grepContiguousBlockForChunks]
  simp only [found, if_pos whole]
  rw [result_bind, send_total, Option.bind_some]
  split
  · exact ⟨_, rfl⟩
  · obtain ⟨tempPointer, pCb, object, copied⟩ := @copy_total mem block start block.startingSeqNumber near
    rw [result_bind, result_lift, object, Option.bind_some, result_bind, result_lift, copied]
    exact ⟨_, rfl⟩

/-- A round ends the program where the bytes before the record cannot be copied. -/
theorem grep_once_faults {start last : UInt32}
    (found : firstRecord (mem.cStr block.contiguousBlock) block.contiguousBlock.length = some (start, last))
    (whole : last.toNat ≤ block.contiguousBlock.length) (far : ¬ Copied mem block start) :
    (grepContiguousBlockForChunks mem flow block).result = none := by
  have middle : start ≠ 0 := fun zero => far (zero ▸ copied_zero mem block)
  rw [grepContiguousBlockForChunks]
  simp only [found, if_pos whole, if_neg middle]
  rw [result_bind, send_total, Option.bind_some, result_bind, result_lift, Memory.tempPointer]
  by_cases small : start.toNat < 2 ^ 31
  · have count : toInt start = (start.toNat : ℕ) := toInt_of_small small
    have past : ¬ (start.toNat : ℤ) ≤ mem.readable block.contiguousBlock := fun inside =>
      far ⟨small, by exact_mod_cast inside⟩
    rw [count, if_neg past]
    rfl
  · -- the number of bytes is negative, and the string throws
    have negative : toInt start < 0 := by
      have bound := start.toNat_lt
      rw [toInt, if_neg small]
      omega
    split
    · rw [Option.bind_some, result_bind, result_lift, ContiguousBlock.append, appendChars, if_neg (by omega)]
      rfl
    · rfl

/-- A round on a block that is not stuck does not throw, and leaves a shorter block to
look at, or none. -/
theorem grep_once_total (scanned : Scanned block) (free : ¬ Stuck mem block) :
    ∃ front left, (grepContiguousBlockForChunks mem flow block).result = some (front, left) ∧
      ¬ Stuck mem left ∧ (left.bModified = true → left.contiguousBlock.length < block.contiguousBlock.length) := by
  cases found : firstRecord (mem.cStr block.contiguousBlock) block.contiguousBlock.length with
  | none =>
    have short : block.contiguousBlock.length < 2 ^ 32 := by
      by_contra long
      exact free (.lost scanned found (by omega))
    refine ⟨[], { block with bModified := false }, ?_, not_stuck_of_read rfl, nofun⟩
    rw [grep_nothing found short]
    rfl
  | some place =>
    obtain ⟨start, last⟩ := place
    by_cases whole : last.toNat ≤ block.contiguousBlock.length
    · have near : Copied mem block start := by
        by_contra far
        exact free (.thrown scanned found whole far)
      obtain ⟨front, ran⟩ := @grep_once_takes mem flow block start last found whole near
      refine ⟨front, _, ran, fun stuck => free (.later scanned found whole near stuck), fun _ => ?_⟩
      have positive : last.toNat ≠ 0 := fun zero => by
        obtain rfl : last = 0 := UInt32.toNat_inj.mp zero
        exact free (.looping scanned found)
      simp only [behind, List.length_drop]
      omega
    · refine ⟨[], { block with bModified := false }, ?_, not_stuck_of_read rfl, nofun⟩
      rw [grep_waits found whole]
      rfl

theorem grep_block_total (free : ¬ Stuck mem block)
    (enough : block.bModified = true → block.contiguousBlock.length + 1 < rounds) (some_round : 0 < rounds) :
    ∃ left, (grepBlock mem flow rounds block).result = some left := by
  induction rounds generalizing block with
  | zero => omega
  | succ rounds ih =>
    rw [grepBlock]
    split
    · rename_i scanned
      have enough := enough scanned.1
      obtain ⟨front, after, ran, free', shorter⟩ := @grep_once_total mem flow block scanned free
      have no_longer := grep_once_shorter ran
      obtain ⟨rest, walked⟩ := @ih after free'
        (fun modified => by have := shorter modified; omega) (by omega)
      exact ⟨front ++ rest, by rw [result_bind, ran, Option.bind_some, result_bind, walked]; rfl⟩
    · exact ⟨_, rfl⟩

theorem grep_block_scanned (scanned : Scanned block) : (grepBlock mem flow (rounds + 1) block).result =
    (grepContiguousBlockForChunks mem flow block).result.bind fun made =>
      (grepBlock mem flow rounds made.2).result.bind fun left => some (made.1 ++ left) := by
  have scanned : block.bModified = true ∧ block.startingSeqNumber < block.nextExpectedSeqNumber := scanned
  rw [grepBlock, if_pos scanned, result_bind]
  congr 1
  funext made
  rw [result_bind]
  rfl

/-- Over a block that is stuck it does not end, whatever the rounds. -/
theorem grep_block_stuck (stuck : Stuck mem block) (rounds : ℕ) :
    (grepBlock mem flow rounds block).result = none := by
  induction stuck generalizing rounds with
  | lost scanned found long =>
    cases rounds with
    | zero => rfl
    | succ rounds =>
      rw [grep_block_scanned scanned, grepContiguousBlockForChunks]
      simp only [found, if_neg (Nat.not_lt.mpr long)]
      rfl
  | thrown scanned found whole far =>
    cases rounds with
    | zero => rfl
    | succ rounds =>
      rw [grep_block_scanned scanned, grep_once_faults found whole far]
      rfl
  | @looping block start scanned found =>
    have whole : (0 : UInt32).toNat ≤ block.contiguousBlock.length := Nat.zero_le _
    have same : behind block 0 = block := by simp [behind]
    induction rounds with
    | zero => rfl
    | succ rounds again =>
      rw [grep_block_scanned scanned]
      by_cases near : Copied mem block start
      · obtain ⟨front, ran⟩ := @grep_once_takes mem flow block start 0 found whole near
        rw [ran, Option.bind_some, same, again]
        rfl
      · rw [grep_once_faults found whole near]
        rfl
  | @later block start last scanned found whole near rest ih =>
    cases rounds with
    | zero => rfl
    | succ rounds =>
      obtain ⟨front, ran⟩ := @grep_once_takes mem flow block start last found whole near
      rw [grep_block_scanned scanned, ran, Option.bind_some, ih]
      rfl

/-- **The pass ends** over the blocks of a flow exactly if none of them is stuck. -/
theorem grep_blocks_none : (grepBlocks mem flow blocks).result = none ↔ ∃ block ∈ blocks, Stuck mem block := by
  induction blocks with
  | nil =>
    rw [grepBlocks]
    exact ⟨nofun, fun ⟨_, member, _⟩ => nomatch member⟩
  | cons block rest ih =>
    rw [grepBlocks, result_bind, List.exists_mem_cons_iff]
    by_cases stuck : Stuck mem block
    · rw [grep_block_stuck stuck]
      exact ⟨fun _ => Or.inl stuck, fun _ => rfl⟩
    · obtain ⟨left, ran⟩ := @grep_block_total mem flow block _ stuck (fun _ => Nat.lt_succ_self _) (Nat.succ_pos _)
      rw [ran, Option.bind_some, result_bind, or_iff_right stuck, ← ih]
      cases (grepBlocks mem flow rest).result with
      | none => exact ⟨fun _ => rfl, fun _ => rfl⟩
      | some left => exact ⟨nofun, nofun⟩

/-! ## A block of records -/

/-- A proper prefix of a record. -/
def Partial (bytes : List UInt8) : Prop := ∃ r : ChunkRecord, bytes.length < r.bytes.length ∧ bytes <+: r.bytes

/-- What the pass finds at the start of a block that starts with a record. -/
theorem record_in_front {bytes rest : List UInt8} (r : ChunkRecord) (content : bytes = r.bytes ++ rest)
    (mem : Memory) : firstRecord (mem.cStr bytes) bytes.length = some (0, UInt32.ofInt r.bytes.length) ∧
      (UInt32.ofInt r.bytes.length).toNat = r.bytes.length ∧
      extractChunkResponse (mem.cStr bytes) = some ⟨r.chunkId, r.data⟩ := by
  have long := r.long
  have sized := r.sized
  have size : bytes.length = r.bytes.length + rest.length := by rw [content, List.length_append]
  have holds : (mem.cStr bytes).bytes r.bytes.length = r.bytes := by
    rw [Memory.cStr, bytes_of_front _ (by omega), content, List.take_left]
  obtain ⟨mark, masked, length, _⟩ := r.reads (r.header_of_bytes holds)
  have is : isRecord (mem.cStr bytes) bytes.length 0 :=
    (is_record_zero _).mpr ⟨mark, by omega, masked⟩
  have total : (getLengthFromByteStream (mem.cStr bytes) : ℤ) + 4 = (r.bytes.length : ℕ) := by omega
  refine ⟨by rw [first_record_front is, total], ?_, r.extract holds⟩
  rw [Words.toNat_ofInt]
  omega

/-- A proper prefix of a record keeps the pass waiting, or shows no record. -/
theorem grep_partial (isPartial : Partial block.contiguousBlock) :
    grepContiguousBlockForChunks mem flow block = pure ([], { block with bModified := false }) := by
  obtain ⟨r, shorter, isPrefix⟩ := isPartial
  have sized := r.sized
  by_cases short : block.contiguousBlock.length ≤ 32
  · have none : firstRecord (mem.cStr block.contiguousBlock) block.contiguousBlock.length = none := by
      cases found : firstRecord (mem.cStr block.contiguousBlock) block.contiguousBlock.length with
      | none => rfl
      | some place =>
        have := (first_record_place found (by omega)).1
        omega
    exact grep_nothing none (by omega)
  · have start : (mem.cStr block.contiguousBlock).bytes 32 = r.bytes.take 32 := by
      rw [Memory.cStr, bytes_of_front _ (by omega), List.prefix_iff_eq_take.mp isPrefix, List.take_take,
        Nat.min_eq_left (by omega)]
    obtain ⟨mark, masked, length⟩ := r.reads_mark start
    have is : isRecord (mem.cStr block.contiguousBlock) block.contiguousBlock.length 0 :=
      (is_record_zero _).mpr ⟨mark, by omega, masked⟩
    have total : (getLengthFromByteStream (mem.cStr block.contiguousBlock) : ℤ) + 4 = (r.bytes.length : ℕ) := by
      omega
    have waits : ¬ (UInt32.ofInt r.bytes.length).toNat ≤ block.contiguousBlock.length := by
      rw [Words.toNat_ofInt]
      omega
    exact grep_waits (total ▸ first_record_front is) waits

/-- A round takes the record at the front and sends its data. -/
theorem grep_front {rest : List UInt8} (r : ChunkRecord)
    (content : block.contiguousBlock = r.bytes ++ rest) :
    Sends (grepContiguousBlockForChunks mem flow block) [(flow, r.data)]
      ([], { block with
        startingSeqNumber := block.startingSeqNumber + UInt32.ofInt r.bytes.length
        contiguousBlock := rest }) := by
  obtain ⟨found, length, extracted⟩ := record_in_front r content mem
  have whole : (UInt32.ofInt r.bytes.length).toNat ≤ block.contiguousBlock.length := by
    rw [length, content, List.length_append]
    omega
  have start : (mem.cStr block.contiguousBlock).advance (0 : UInt32).toNat = mem.cStr block.contiguousBlock :=
    Pointer.advance_zero _
  have remains : block.contiguousBlock.drop (UInt32.ofInt r.bytes.length).toNat = rest := by
    rw [length, content, List.drop_left]
  rw [grepContiguousBlockForChunks]
  simp only [found, if_pos whole, start, sendChunkToSnifferPlugin, extracted, remains]
  exact (sends_put _).bind (sends_pure _)

/-- **A block of records** is sent record by record. -/
theorem grep_records {tail : List UInt8} (records : List ChunkRecord) (isPartial : Partial tail)
    (content : block.contiguousBlock = (records.map ChunkRecord.bytes).flatten ++ tail)
    (bounds : block.nextExpectedSeqNumber.toNat =
      block.startingSeqNumber.toNat + block.contiguousBlock.length)
    (unread : block.bModified = true) (enough : block.contiguousBlock.length + 1 < rounds) :
    ∃ left, Sends (grepBlock mem flow rounds block) (records.map fun r => (flow, r.data)) left := by
  induction records generalizing block rounds with
  | nil =>
    obtain ⟨rounds, rfl⟩ := Nat.exists_eq_succ_of_ne_zero (show rounds ≠ 0 by omega)
    rw [grepBlock]
    by_cases empty : block.startingSeqNumber < block.nextExpectedSeqNumber
    · have isPartial' : Partial block.contiguousBlock := by simpa [content] using isPartial
      rw [if_pos ⟨unread, empty⟩, grep_partial isPartial']
      obtain ⟨rounds, rfl⟩ := Nat.exists_eq_succ_of_ne_zero (show rounds ≠ 0 by omega)
      exact ⟨_, rfl, rfl⟩
    · rw [if_neg fun both => empty both.2]
      exact ⟨_, sends_pure _⟩
  | cons r records ih =>
    obtain ⟨rounds, rfl⟩ := Nat.exists_eq_succ_of_ne_zero (show rounds ≠ 0 by omega)
    have content' : block.contiguousBlock =
        r.bytes ++ ((records.map ChunkRecord.bytes).flatten ++ tail) := by
      rw [content, List.map_cons, List.flatten_cons, List.append_assoc]
    have long := r.long
    have size : block.contiguousBlock.length =
        r.bytes.length + ((records.map ChunkRecord.bytes).flatten ++ tail).length := by
      rw [content', List.length_append]
    have limit := block.nextExpectedSeqNumber.toNat_lt
    have ahead : block.startingSeqNumber < block.nextExpectedSeqNumber :=
      UInt32.lt_iff_toNat_lt.mpr (by omega)
    have moved := Words.toNat_add_ofInt block.startingSeqNumber r.bytes.length (by omega)
    obtain ⟨left, rest⟩ := @ih { block with
        startingSeqNumber := block.startingSeqNumber + UInt32.ofInt r.bytes.length
        contiguousBlock := (records.map ChunkRecord.bytes).flatten ++ tail } rounds rfl
      (by simp only [moved]; omega) unread (by simp only; omega)
    rw [grepBlock, if_pos ⟨unread, ahead⟩]
    exact ⟨_, (grep_front r content').bind (rest.finish _)⟩

/-! ## A sample -/

theorem length_plain (mark : UInt8) :
    (recordHeader (.replicate 20 mark) 1100 1024 ++ List.replicate 1036 0).length = 1104 := by
  rw [List.length_append, List.length_replicate]
  rfl

/-- A record of 1024 zeros, with some chunk id. -/
def plainRecord (mark : UInt8) : ChunkRecord where
  bytes := recordHeader (.replicate 20 mark) 1100 1024 ++ List.replicate 1036 0
  marked := rfl
  sized := by
    have start : (recordHeader (.replicate 20 mark) 1100 1024 ++ List.replicate 1036 0).take 4 =
        [0x80, 0, 4, 0x4c] := rfl
    rw [length_plain, start]
    decide
  masked := rfl
  identified := rfl
  filled := Nat.le_of_eq rfl
  fits := by
    rw [length_plain]
    show 68 + 1024 ≤ 1104
    omega

end Ditto.RecordScan
