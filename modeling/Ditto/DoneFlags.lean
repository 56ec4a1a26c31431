import Ditto.FlagSteps
import Ditto.RecordExtraction

/-! Which chunks the ideal sniffer calls done: in every run, those whose data has been
transmitted, as long as an `int` can count the bytes behind each record that a pass takes
out of a block. -/
namespace Ditto.DoneFlags
open Sniffer ContiguousBlock Words Traces Traced Runs RecordHeaders ChunkFronts ChunkIdReach FlagSteps
  RecordScan SegmentHandling

/-! ## Over a run -/

/-- An `int` can count the bytes behind each reply that a pass takes. -/
def PassInside (c : IdealCapture) (event : Memory × SniffEvent) : Prop :=
  match event.2 with
  | .segment .. => True
  | .grepFlows => ∀ i, c.sniffer = some i →
      ∀ entry ∈ i.buffers.pFlowList, ∀ block ∈ entry.2, ¬ Oversized event.1 block

/-- The segments contain the headers they show, and the passes can be counted. -/
def Admitted (c : IdealCapture) (event : Memory × SniffEvent) : Prop := HeaderInside event ∧ PassInside c event

/-- A sniffer that is running has exact flags. -/
def ExactCapture (c : IdealCapture) : Prop := ∀ i, c.sniffer = some i → Exact c.told i

variable {p : Pointer} {x : ChunkId} {bytes : List UInt8} {n : ℕ} {li block : ContiguousBlock} {seq : TcpSeq}
  {flow : FlowId} {edit : Edit} {name : String} {cids : List ChunkId} {told : List DotChunkRes} {i : IdealSniffTcp}
  {mem : Memory} {c c' : IdealCapture} {gMultiChances : Bool} {event : Memory × SniffEvent}

theorem step_exact (exact : ExactCapture c) (header : HeaderInside event) (pass : PassInside c event)
    (ran : c.step gMultiChances event = some c') : ExactCapture c' := by
  obtain ⟨i, running, rfl⟩ := Option.map_eq_some_iff.mp ran
  obtain ⟨mem, what⟩ := event
  cases what with
  | segment flow payload around seqNum => exact handle_ip_leads (exact i running) gMultiChances header
  | grepFlows => exact grep_flows_for_chunks_leads (exact i running) (pass i running)

theorem start_exact : ExactCapture .start := by
  rintro _ ⟨⟩
  exact ⟨⟨nofun, nofun, fun x => ⟨nofun, nofun⟩⟩, nofun⟩

theorem run_exact (run : Reaches (IdealCapture.step gMultiChances) Admitted .start c) : ExactCapture c :=
  invariant start_exact (fun _ _ _ exact admitted ran => step_exact exact admitted.1 admitted.2 ran) run

/-- The chunks listed for a flow know the flow in every state that is reached: looking up
where they start adds nothing to them. -/
theorem listed_known (run : Reaches (IdealCapture.step gMultiChances) Admitted .start c)
    (running : c.sniffer = some i) (listed : i.flowChunkMap name = some cids) (member : x ∈ cids) :
    ∃ pRc, i.buffers.chunkIdReconstructedChunkMap x = some pRc ∧ pRc.flowSeqMap name ≠ none :=
  (run_exact run i running).listed name cids listed x member

/-- **The flags are exact.** A chunk is there and done exactly if the data of a record that
carries its id has been transmitted. -/
theorem done_flags_exact (run : Reaches (IdealCapture.step gMultiChances) Admitted .start c)
    (running : c.sniffer = some i) (x : ChunkId) :
    ((∃ pRc, i.buffers.chunkIdReconstructedChunkMap x = some pRc) ∧ i.chunkDone x = true) ↔
      ∃ r ∈ c.told, r.chunkId = x := by
  have exact := run_exact run i running
  rw [← exact.flagged x]
  exact and_iff_right_of_imp (exact.present x)

/-! ## A record and zeros behind it -/

theorem zeros_without_record (mem : Memory) (n : ℕ) : firstRecord (mem.cStr (.replicate n 0)) n = none := by
  refine RecordExtraction.first_record_none fun j inside is => ?_
  simp only [isRecord, decide_eq_true_eq] at is
  have index : (UInt32.ofNat j).toNat < n := by
    rw [UInt32.toNat_ofNat']
    exact Nat.lt_of_le_of_lt (Nat.mod_le _ _) inside
  have shown : mem.cStr (.replicate n 0) (UInt32.ofNat j).toNat = 0 :=
    of_bytes_inside (by rw [List.getElem?_replicate, if_pos index])
  rw [shown] at is
  exact absurd is.1 (by decide)

/-- The pass reads zeros once. -/
theorem grep_zeros {rounds : ℕ} (content : block.contiguousBlock = .replicate n 0) (short : n < 2 ^ 32) :
    ∃ left, Yields (IdealSniffTcp.grepBlock mem (rounds + 2) i block) [] (i, left) := by
  rw [IdealSniffTcp.grepBlock]
  split
  · have once : Yields (i.grepContiguousBlockForChunks mem block) [] (i, [], { block with bModified := false }) := by
      rw [IdealSniffTcp.grepContiguousBlockForChunks]
      simp only [content, List.length_replicate, zeros_without_record, if_pos short]
      rfl
    have read : ∃ left, Yields (IdealSniffTcp.grepBlock mem (rounds + 1) i { block with bModified := false }) []
        (i, left) := by
      rw [IdealSniffTcp.grepBlock, if_neg fun scanned => Bool.false_ne_true scanned.1]
      exact ⟨_, rfl⟩
    obtain ⟨left, again⟩ := read
    exact ⟨[] ++ left, once.bind (again.bind rfl)⟩
  · exact ⟨_, rfl⟩

/-- A pass takes the record in front of zeros. -/
theorem pass_yields {record : ChunkRecord} (lists : i.buffers.pFlowList = [(flow, [block])])
    (content : block.contiguousBlock = record.bytes ++ .replicate n 0) (short : n < 2 ^ 32)
    (scanned : Scanned block) :
    ∃ after, Yields (i.grepFlowsForChunks mem) [⟨record.chunkId, record.data⟩] after ∧
      after.chunkDone = (i.markRecord (mem.cStr block.contiguousBlock) block.contiguousBlock.length).chunkDone := by
  obtain ⟨found, length, extracted⟩ := record_in_front record content mem
  have whole : (UInt32.ofInt record.bytes.length).toNat ≤ block.contiguousBlock.length := by
    rw [length, content, List.length_append]
    exact Nat.le_add_right ..
  have start : (mem.cStr block.contiguousBlock).advance (0 : UInt32).toNat = mem.cStr block.contiguousBlock :=
    Pointer.advance_zero _
  have once : Yields (i.grepContiguousBlockForChunks mem block) [⟨record.chunkId, record.data⟩]
      (i.markRecord (mem.cStr block.contiguousBlock) block.contiguousBlock.length, [],
        behind block (UInt32.ofInt record.bytes.length)) := by
    rw [IdealSniffTcp.grepContiguousBlockForChunks]
    simp only [found, if_pos whole, start, IdealSniffTcp.sendChunkToSnifferPlugin, extracted]
    rfl
  have rest : (behind block (UInt32.ofInt record.bytes.length)).contiguousBlock = .replicate n 0 := by
    show block.contiguousBlock.drop _ = _
    rw [length, content, List.drop_left]
  obtain ⟨rounds, enough⟩ : ∃ rounds, block.contiguousBlock.length + 2 = rounds + 2 + 1 := by
    have long := record.long
    have size : block.contiguousBlock.length = record.bytes.length + n := by
      rw [content, List.length_append, List.length_replicate]
    exact ⟨block.contiguousBlock.length - 1, by omega⟩
  obtain ⟨left, zeros⟩ := @grep_zeros n _
    (i.markRecord (mem.cStr block.contiguousBlock) block.contiguousBlock.length) mem rounds rest short
  have taken : Yields (IdealSniffTcp.grepBlock mem (block.contiguousBlock.length + 2) i block)
      [⟨record.chunkId, record.data⟩]
      (i.markRecord (mem.cStr block.contiguousBlock) block.contiguousBlock.length, [] ++ left) := by
    have scanned : block.bModified = true ∧ block.startingSeqNumber < block.nextExpectedSeqNumber := scanned
    rw [enough, IdealSniffTcp.grepBlock, if_pos scanned]
    exact once.bind (zeros.bind rfl)
  rw [IdealSniffTcp.grepFlowsForChunks, lists]
  have blocks : Yields (IdealSniffTcp.grepBlocks mem i [block]) [⟨record.chunkId, record.data⟩]
      (i.markRecord (mem.cStr block.contiguousBlock) block.contiguousBlock.length, [] ++ left ++ []) := by
    rw [IdealSniffTcp.grepBlocks]
    exact taken.bind rfl
  have flows : Yields (IdealSniffTcp.grepFlows mem i [(flow, [block])]) [⟨record.chunkId, record.data⟩]
      (i.markRecord (mem.cStr block.contiguousBlock) block.contiguousBlock.length,
        [(flow, [] ++ left ++ [])]) := by
    rw [IdealSniffTcp.grepFlows]
    exact blocks.bind rfl
  exact ⟨_, flows.bind rfl, rfl⟩

/-- A sniffer that has captured these blocks of a flow and nothing else. -/
def listening (blocks : List ContiguousBlock) : IdealSniffTcp where
  buffers := { Buffers.empty with pFlowList := [(someFlow, blocks)] }
  flowChunkMap := fun _ => none
  chunkDone := fun _ => false

/-- A segment's worth of zeros. -/
def kilobyte : List UInt8 := .replicate 1024 0

/-- A record, and `count` kilobytes of zeros that follow it, captured one by one. -/
def recordAndZeros (count : ℕ) : List (Memory × SniffEvent) :=
  (zeroMemory,
    .segment someFlow (plainRecord 7).bytes (fun _ => 0) 0) ::
  (List.range count).map fun j => (zeroMemory,
    .segment someFlow kilobyte (fun _ => 0) (UInt32.ofNat (1104 + 1024 * j)))

/-- The same, and a pass over the blocks. -/
def longCapture (count : ℕ) : List (Memory × SniffEvent) :=
  recordAndZeros count ++ [(zeroMemory, .grepFlows)]

/-- The block they make. -/
def longBlock (count : ℕ) : ContiguousBlock where
  startingSeqNumber := 0
  nextExpectedSeqNumber := UInt32.ofNat (1104 + 1024 * count)
  contiguousBlock := (plainRecord 7).bytes ++ .replicate (1024 * count) 0
  bInit := false
  bModified := true

theorem kilobyte_length : kilobyte.length = 1024 := List.length_replicate ..

theorem plain_length : (plainRecord 7).bytes.length = 1104 := length_plain 7

/-- A segment in the single-chance mode. -/
theorem step_single {flows : List (FlowId × List ContiguousBlock)} {around : ℤ → UInt8}
    (nonempty : bytes.length ≠ 0)
    (stored : insertFlow flow (.ofBytes bytes around) bytes.length seq i.buffers.pFlowList = some (flows, edit)) :
    IdealCapture.step false ⟨some i, told⟩ (mem, .segment flow bytes around seq) =
      some ⟨some { i with buffers := { i.buffers with pFlowList := flows } }, told⟩ := by
  have inserted : i.buffers.insert flow (.ofBytes bytes around) bytes.length seq 0 bytes.length =
      ⟨[.insert flow seq 0 bytes.length bytes.length], some ({ i.buffers with pFlowList := flows }, edit)⟩ := by
    rw [Buffers.insert, stored]
    rfl
  have handled : i.handleIp false mem flow (.ofBytes bytes around) bytes.length seq =
      ⟨[], some { i with buffers := { i.buffers with pFlowList := flows } }⟩ := by
    rw [IdealSniffTcp.handleIp, if_neg nonempty, IdealSniffTcp.insert, inserted]
    rfl
  simp only [IdealCapture.step, IdealSniffTcp.step, Option.map_some, handled, List.append_nil]

/-- The first segment becomes a block. -/
theorem segment_opens {around : ℤ → UInt8} (nonempty : bytes.length ≠ 0) :
    IdealCapture.step false .start (mem, .segment someFlow bytes around seq) =
      some ⟨some (listening [⟨seq, seq + UInt32.ofInt bytes.length, bytes, false, true⟩]), []⟩ := by
  have stored : insertFlow someFlow (.ofBytes bytes around) bytes.length seq [] =
      some ([(someFlow, [⟨seq, seq + UInt32.ofInt bytes.length, bytes, false, true⟩])],
        .inserted 0) := by
    rw [insertFlow, create_append, Pointer.bytes_ofBytes]
    rfl
  have start : IdealSniffTcp.create.buffers.pFlowList = [] := rfl
  exact step_single nonempty (start ▸ stored)

/-- A segment that starts where the block ends makes it longer. -/
theorem segment_appended {around : ℤ → UInt8} (opened : li.bInit = false) (nonempty : bytes.length ≠ 0) :
    IdealCapture.step false ⟨some (listening [li]), told⟩
        (mem, .segment someFlow bytes around li.nextExpectedSeqNumber) =
      some ⟨some (listening [{ li with
        nextExpectedSeqNumber := li.nextExpectedSeqNumber + UInt32.ofInt bytes.length
        contiguousBlock := li.contiguousBlock ++ bytes
        bModified := true }]), told⟩ := by
  have grown := append_opened (.ofBytes bytes around) bytes.length
    (li.nextExpectedSeqNumber + UInt32.ofInt bytes.length) opened
  rw [Pointer.bytes_ofBytes] at grown
  have stored : insertFlow someFlow (.ofBytes bytes around) bytes.length li.nextExpectedSeqNumber
      (listening [li]).buffers.pFlowList = some ([(someFlow, [{ li with
        nextExpectedSeqNumber := li.nextExpectedSeqNumber + UInt32.ofInt bytes.length
        contiguousBlock := li.contiguousBlock ++ bytes
        bModified := true }])], .kept) := by
    simp only [listening, insertFlow, insertBlocks, if_true, if_neg (UInt32.lt_irrefl _), grown,
      Option.bind_eq_bind, Option.bind_some]
  exact step_single nonempty stored

theorem zeros_stored (count : ℕ) : IdealCapture.step false ⟨some (listening [longBlock count]), []⟩
    (zeroMemory, .segment someFlow kilobyte (fun _ => 0)
      (UInt32.ofNat (1104 + 1024 * count))) = some ⟨some (listening [longBlock (count + 1)]), []⟩ := by
  have number : (longBlock count).nextExpectedSeqNumber + UInt32.ofInt kilobyte.length =
      (longBlock (count + 1)).nextExpectedSeqNumber := by
    rw [kilobyte_length, ofInt_natCast, longBlock, longBlock, ← UInt32.ofNat_add, Nat.mul_succ, Nat.add_assoc]
  have content : (longBlock count).contiguousBlock ++ kilobyte = (longBlock (count + 1)).contiguousBlock := by
    rw [longBlock, longBlock, kilobyte, List.append_assoc, List.replicate_append_replicate, Nat.mul_succ]
  have opened : (longBlock count).bInit = false := rfl
  have stored := @segment_appended kilobyte (longBlock count) [] zeroMemory (fun _ => 0) opened
    (by rw [kilobyte_length]; decide)
  rw [number, content] at stored
  exact stored

theorem record_opens : IdealCapture.step false .start (zeroMemory,
    .segment someFlow (plainRecord 7).bytes (fun _ => 0) 0) =
      some ⟨some (listening [longBlock 0]), []⟩ := by
  have first := @segment_opens (plainRecord 7).bytes 0 zeroMemory (fun _ => 0)
    (by rw [plain_length]; decide)
  have start : longBlock 0 = ⟨0, 0 + UInt32.ofInt (1104 : ℕ), (plainRecord 7).bytes, false, true⟩ := by
    rw [longBlock, Nat.mul_zero, List.replicate_zero, List.append_nil]
    rfl
  rw [plain_length, ← start] at first
  exact first

theorem record_stored (count : ℕ) :
    (recordAndZeros count).foldlM (IdealCapture.step false) .start =
      some ⟨some (listening [longBlock count]), []⟩ := by
  rw [recordAndZeros, List.foldlM_cons, record_opens, Option.bind_eq_bind, Option.bind_some]
  induction count with
  | zero => rfl
  | succ count ih =>
    rw [List.range_succ, List.map_append, List.foldlM_append, ih]
    exact zeros_stored count

/-- The pass over the block sends the record. -/
theorem pass_sends {count : ℕ} (short : 1104 + 1024 * count < 2 ^ 32) :
    ∃ i, IdealCapture.step false ⟨some (listening [longBlock count]), []⟩ (zeroMemory, .grepFlows) =
        some ⟨some i, [⟨(plainRecord 7).chunkId, (plainRecord 7).data⟩]⟩ ∧
      i.chunkDone = ((listening [longBlock count]).markRecord
        (zeroMemory.cStr (longBlock count).contiguousBlock)
        (longBlock count).contiguousBlock.length).chunkDone := by
  have ends : (longBlock count).nextExpectedSeqNumber.toNat = 1104 + 1024 * count := by
    rw [longBlock, UInt32.toNat_ofNat']
    omega
  have scanned : Scanned (longBlock count) := by
    refine ⟨rfl, UInt32.lt_iff_toNat_lt.mpr ?_⟩
    rw [ends]
    exact Nat.lt_of_lt_of_le (show 0 < 1104 by decide) (Nat.le_add_right ..)
  obtain ⟨after, passed, flags⟩ := @pass_yields (1024 * count) (longBlock count) someFlow
    (listening [longBlock count]) zeroMemory (plainRecord 7) rfl rfl (by omega) scanned
  refine ⟨after, ?_, flags⟩
  have stepped : (listening [longBlock count]).step false (zeroMemory, .grepFlows) = _ := passed
  simp only [IdealCapture.step, Option.map_some, stepped, List.nil_append]

/-- No id is read where an `int` cannot count the bytes. -/
theorem mark_oversized {held : ℕ} (far : 2 ^ 31 ≤ held % 2 ^ 32) : i.markRecord p held = i := by
  have word : (UInt32.ofNat held).toNat = held % 2 ^ 32 := UInt32.toNat_ofNat'
  have count : (toInt (UInt32.ofNat held)).toNat = 0 := by
    rw [toInt, word, if_neg (by omega)]
    omega
  have unread : getChunkId p 0 = none := rfl
  rw [IdealSniffTcp.markRecord, count]
  simp only [unread]

theorem header_inside_record (record : ChunkRecord) (around : ℤ → UInt8) :
    HeaderInside (mem, .segment flow record.bytes around seq) := by
  intro chunkId chunkOffset shown
  have long := record.long
  have read := record.get_chunk_id (bytes_of_front around (by omega)) (show 0 < record.bytes.length by omega)
  cases read.symm.trans shown
  omega

theorem header_inside_zeros : HeaderInside (mem, .segment flow kilobyte (fun _ => 0) seq) := by
  intro chunkId chunkOffset shown
  have without : ∀ j < kilobyte.length, ¬ Shows (.ofBytes kilobyte fun _ => 0) j := fun j inside shows => by
    have zero : kilobyte[j]? = some 0 := by
      rw [kilobyte, List.getElem?_replicate, if_pos (kilobyte_length ▸ inside)]
    have mark := shows.1
    rw [of_bytes_inside zero] at mark
    exact absurd mark (by decide)
  cases (get_chunk_id_none without).symm.trans shown

/-- A record and nothing else: it is sent, and its chunk is done. -/
theorem done_flags_exact_of_record : ∃ c i, IdealCapture.step false ⟨some (listening [longBlock 0]), []⟩
      (zeroMemory, .grepFlows) = some c ∧ c.sniffer = some i ∧
    (∃ pRc, i.buffers.chunkIdReconstructedChunkMap (.replicate 20 7) = some pRc) ∧
      i.chunkDone (.replicate 20 7) = true := by
  obtain ⟨i, passed, _⟩ := @pass_sends 0 (by decide)
  have small : PassInside ⟨some (listening [longBlock 0]), []⟩ (zeroMemory, .grepFlows) := by
    rintro _ ⟨⟩ entry member block inside oversized
    cases List.mem_singleton.mp member
    cases List.mem_singleton.mp inside
    have long := oversized.long
    rw [longBlock, List.length_append, plain_length] at long
    exact absurd long (by decide)
  have opened : Reaches (IdealCapture.step false) Admitted .start
      ⟨some (listening [longBlock 0]), []⟩ :=
    Reaches.refl.snoc _ ⟨header_inside_record (plainRecord 7) _, True.intro⟩ record_opens
  have run := opened.snoc (zeroMemory, .grepFlows) ⟨True.intro, small⟩ passed
  exact ⟨_, i, passed, rfl, (done_flags_exact run rfl _).mpr ⟨_, List.mem_singleton_self _, rfl⟩⟩

/-- A record with `2 ^ 31` zeros behind it: it is sent, and there is no chunk that is done. -/
theorem long_block_unmarked : (∀ event ∈ longCapture (2 ^ 21), HeaderInside event) ∧
    ∃ c i, (longCapture (2 ^ 21)).foldlM (IdealCapture.step false) .start = some c ∧ c.sniffer = some i ∧
      ¬ (((∃ pRc, i.buffers.chunkIdReconstructedChunkMap (.replicate 20 7) = some pRc) ∧
        i.chunkDone (.replicate 20 7) = true) ↔ ∃ r ∈ c.told, r.chunkId = .replicate 20 7) := by
  have long : (longBlock (2 ^ 21)).contiguousBlock.length = 2 ^ 31 + 1104 := by
    rw [longBlock, List.length_append, plain_length, List.length_replicate]
    decide
  obtain ⟨i, passed, flags⟩ := @pass_sends (2 ^ 21) (by decide)
  rw [long, mark_oversized (by decide)] at flags
  have run : (longCapture (2 ^ 21)).foldlM (IdealCapture.step false) .start =
      some ⟨some i, [⟨(plainRecord 7).chunkId, (plainRecord 7).data⟩]⟩ := by
    rw [longCapture, List.foldlM_append, record_stored, Option.bind_eq_bind, Option.bind_some, List.foldlM_cons,
      passed, Option.bind_eq_bind, Option.bind_some, List.foldlM_nil]
    rfl
  refine ⟨fun event member => ?_, _, i, run, rfl, fun same => ?_⟩
  · rcases List.mem_append.mp member with captured | pass
    · rcases List.mem_cons.mp captured with rfl | zeros
      · exact header_inside_record (plainRecord 7) _
      · obtain ⟨j, _, rfl⟩ := List.mem_map.mp zeros
        exact header_inside_zeros
    · cases List.mem_singleton.mp pass
      exact True.intro
  · have marked := (same.mpr ⟨_, List.mem_singleton_self _, rfl⟩).2
    rw [flags] at marked
    exact Bool.false_ne_true marked

end Ditto.DoneFlags
