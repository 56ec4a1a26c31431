import Mathlib.Data.List.Find
import Ditto.FlowStore
import Ditto.RecordScan

/-! What a sniffer does when the sequence numbers of each flow are moved by an amount
of its own, modulo 2 ^ 32. Distances and equalities stay, so every operation moves its
result along; the plain comparisons stay as long as the move keeps the order of the
numbers they are about, the marks of the flow. -/
namespace Ditto.SequenceShift
open Sniffer Buffers SniffTcp Words Traces Traced ChunkHeadings SegmentHandling FlowStore RecordScan

variable {k seq start : TcpSeq} {mark : TcpSeq → Prop} {payload : Pointer} {size : ℤ}
  {li : ContiguousBlock} {blocks : List ContiguousBlock}

/-! ## Blocks -/

/-- Moving a flow's numbers keeps the order of its marks. -/
def KeepsOrder (k : TcpSeq) (mark : TcpSeq → Prop) : Prop :=
  ∀ x y, mark x → mark y → (x + k < y + k ↔ x < y)

/-- A block of captured bytes from one mark to another. -/
structure BlockMarked (mark : TcpSeq → Prop) (li : ContiguousBlock) : Prop where
  opened : li.bInit = false
  first : mark li.startingSeqNumber
  last : mark li.nextExpectedSeqNumber
  length : li.nextExpectedSeqNumber = li.startingSeqNumber + UInt32.ofNat li.contiguousBlock.length

/-- A block with its numbers moved. -/
def shiftBlock (k : TcpSeq) (li : ContiguousBlock) : ContiguousBlock :=
  { li with
    startingSeqNumber := li.startingSeqNumber + k
    nextExpectedSeqNumber := li.nextExpectedSeqNumber + k }

theorem add_right_comm (x y z : TcpSeq) : x + y + z = x + z + y := by grind

theorem append_shift (start : TcpSeq) : (shiftBlock k li).append payload size (start + k) =
    (li.append payload size start).map (shiftBlock k) := by
  unfold ContiguousBlock.append shiftBlock
  cases appended : appendChars li.contiguousBlock payload size with
  | none => cases opened : li.bInit <;> simp [appended, opened]
  | some held => cases opened : li.bInit <;> simp [appended, opened, add_right_comm]

theorem create_append_shift : ContiguousBlock.create.append payload size (seq + k) =
    (ContiguousBlock.create.append payload size seq).map (shiftBlock k) := by
  unfold ContiguousBlock.append shiftBlock ContiguousBlock.create
  cases appended : appendChars [] payload size with
  | none => simp [appended]
  | some held => simp [appended, add_right_comm]

theorem prepend_shift : (shiftBlock k li).prepend payload size (seq + k) =
    (li.prepend payload size seq).map (shiftBlock k) := by
  unfold ContiguousBlock.prepend shiftBlock
  cases appendChars [] payload size with
  | none => rfl
  | some held => rfl

/-- What can be appended has a size. -/
theorem append_chars_some {held made : List UInt8} (ran : appendChars held payload size = some made) :
    ∃ count : ℕ, size = count := by
  rw [appendChars] at ran
  split at ran
  · exact Int.eq_ofNat_of_zero_le ‹_›
  · cases ran

theorem append_some {made : ContiguousBlock} (ran : li.append payload size start = some made) :
    ∃ count : ℕ, size = count := by
  obtain ⟨held, appended, _⟩ := Option.bind_eq_some_iff.mp ran
  exact append_chars_some appended

theorem prepend_some {made : ContiguousBlock} (ran : li.prepend payload size start = some made) :
    ∃ count : ℕ, size = count := by
  obtain ⟨held, appended, _⟩ := Option.bind_eq_some_iff.mp ran
  exact append_chars_some appended

/-- Insertions between marks make blocks between marks. -/
theorem inserts_marked (first : mark seq) (last : mark (seq + UInt32.ofInt size)) :
    Inserts payload size seq (BlockMarked mark) where
  created := fun made ran => by
    obtain ⟨count, rfl⟩ := append_some ran
    cases (ContiguousBlock.create_append payload count seq).symm.trans ran
    exact ⟨rfl, first, last, by simp [ofInt_natCast]⟩
  prepended := fun li made marked touches ran => by
    obtain ⟨count, rfl⟩ := prepend_some ran
    cases (ContiguousBlock.prepend_eq payload count seq).symm.trans ran
    refine ⟨marked.opened, first, marked.last, ?_⟩
    simp only [marked.length, ← touches, List.length_append, Pointer.length_bytes, UInt32.ofNat_add,
      ofInt_natCast, UInt32.add_assoc]
  appended := fun li made marked contiguous ran => by
    obtain ⟨count, rfl⟩ := append_some ran
    cases (ContiguousBlock.append_opened payload count _ marked.opened).symm.trans ran
    refine ⟨marked.opened, marked.first, contiguous ▸ last, ?_⟩
    simp only [marked.length, List.length_append, Pointer.length_bytes, UInt32.ofNat_add, ofInt_natCast,
      UInt32.add_assoc]
  merged := fun li li2 marked after joins => by
    refine ⟨marked.opened, marked.first, after.last, ?_⟩
    simp only [ContiguousBlock.appendString, after.length, ← joins, marked.length, List.length_append,
      UInt32.ofNat_add, UInt32.add_assoc]

theorem insert_blocks_shift (keeps : KeepsOrder k mark) (first : mark seq)
    (last : mark (seq + UInt32.ofInt size)) (marked : ∀ li ∈ blocks, BlockMarked mark li) :
    insertBlocks payload size (seq + k) (blocks.map (shiftBlock k)) =
      (insertBlocks payload size seq blocks).map fun r => (r.1.map (shiftBlock k), r.2) := by
  induction blocks with
  | nil =>
    simp only [List.map_nil, insertBlocks, create_append_shift, Option.bind_eq_bind]
    cases ContiguousBlock.create.append payload size seq <;> rfl
  | cons li rest ih =>
    obtain ⟨head, tail⟩ := List.forall_mem_cons.mp marked
    have early : seq + k < li.nextExpectedSeqNumber + k ↔ seq < li.nextExpectedSeqNumber :=
      keeps _ _ first head.last
    have before : seq + UInt32.ofInt size + k < li.startingSeqNumber + k ↔
        seq + UInt32.ofInt size < li.startingSeqNumber := keeps _ _ last head.first
    simp only [List.map_cons, insertBlocks, add_right_comm seq k]
    have shiftedStart : (shiftBlock k li).startingSeqNumber = li.startingSeqNumber + k := rfl
    have shiftedNext : (shiftBlock k li).nextExpectedSeqNumber = li.nextExpectedSeqNumber + k := rfl
    simp only [shiftedStart, shiftedNext, early, before, UInt32.add_left_inj, prepend_shift,
      create_append_shift, append_shift, ih tail]
    split
    · split
      · cases li.prepend payload size seq <;> rfl
      split
      · cases ContiguousBlock.create.append payload size seq <;> rfl
      · rfl
    split
    · cases li.append payload size (seq + UInt32.ofInt size) with
      | none => rfl
      | some made =>
        cases rest with
        | nil => rfl
        | cons li2 rest =>
          have joins : (shiftBlock k made).nextExpectedSeqNumber = (shiftBlock k li2).startingSeqNumber ↔
              made.nextExpectedSeqNumber = li2.startingSeqNumber := UInt32.add_left_inj k
          simp only [List.map_cons, Option.map_some, Option.bind_eq_bind, Option.bind_some, joins]
          split
          · rfl
          · rfl
    · cases insertBlocks payload size seq rest <;> rfl

/-! ## Lists, chunks and sniffers -/

/-- An amount for each flow, by its name. -/
abbrev Shift := String → TcpSeq

/-- The sequence numbers that are compared for a flow, the starts at which it shows the
chunks, and the lengths that a chunk is shown with. -/
structure Marks where
  mark : String → TcpSeq → Prop
  shown : String → ChunkId → TcpSeq → Prop
  long : ChunkId → ℕ → Prop

/-- Every start and every end that a flow gives a chunk is a mark, and their order is kept. -/
structure Marks.Lawful (m : Marks) (δ : Shift) : Prop where
  starts : ∀ name chunkId seq, m.shown name chunkId seq → m.mark name seq
  ends : ∀ name chunkId seq length, m.shown name chunkId seq → m.long chunkId length →
    m.mark name (seq + UInt32.ofInt length)
  keeps : ∀ name, KeepsOrder (δ name) (m.mark name)

/-- The lists with the numbers of each flow moved. -/
def shiftFlows (δ : Shift) (flows : List (FlowId × List ContiguousBlock)) :
    List (FlowId × List ContiguousBlock) :=
  flows.map fun entry => (entry.1, entry.2.map (shiftBlock (δ entry.1.toString)))

/-- A chunk with the starts moved. -/
def shiftChunk (δ : Shift) (pRc : ReconstructedChunk) : ReconstructedChunk :=
  { pRc with flowSeqMap := fun name => (pRc.flowSeqMap name).map (· + δ name) }

def shiftBuffers (δ : Shift) (b : Buffers) : Buffers :=
  { b with
    pFlowList := shiftFlows δ b.pFlowList
    chunkIdReconstructedChunkMap := fun chunkId =>
      (b.chunkIdReconstructedChunkMap chunkId).map (shiftChunk δ) }

/-- What a flow remembers of a chunk, with the start moved. -/
def shiftInfo (k : TcpSeq) (ci : ChunkInfo) : ChunkInfo := { ci with sSeqNum := ci.sSeqNum + k }

def shiftSniffer (δ : Shift) (s : SniffTcp ChunkInfo) : SniffTcp ChunkInfo where
  buffers := shiftBuffers δ s.buffers
  flowChunkMap := fun name => (s.flowChunkMap name).map (List.map (shiftInfo (δ name)))

/-- The blocks are between marks. -/
def FlowsMarked (m : Marks) (flows : List (FlowId × List ContiguousBlock)) : Prop :=
  ∀ entry ∈ flows, ∀ li ∈ entry.2, BlockMarked (m.mark entry.1.toString) li

/-- A chunk starts where it was shown, and is as long. -/
structure HeadingMarked (m : Marks) (chunkId : ChunkId) (heading : Heading) : Prop where
  shown : ∀ name start, heading.1 name = some start → m.shown name chunkId start
  long : m.long chunkId heading.2

structure BuffersMarked (m : Marks) (b : Buffers) : Prop where
  flows : FlowsMarked m b.pFlowList
  chunks : ∀ chunkId heading, headings b chunkId = some heading → HeadingMarked m chunkId heading

/-- What is remembered of the chunks is where they were shown, and as long. -/
structure Marked (m : Marks) (s : SniffTcp ChunkInfo) : Prop where
  buffers : BuffersMarked m s.buffers
  infos : ∀ name infos, s.flowChunkMap name = some infos → ∀ ci ∈ infos,
    m.shown name ci.chunkId ci.sSeqNum ∧ m.long ci.chunkId ci.chunkLength

variable {m : Marks} {δ : Shift} {b b' t : Buffers} {s : SniffTcp ChunkInfo} {flow : FlowId}
  {flows : List (FlowId × List ContiguousBlock)} {chunkId : ChunkId} {mem : Memory} {edit : Edit}
  {pRc : ReconstructedChunk} {first held : ℤ}

/-- Two calls send the same. -/
def SendsAlike (call call' : Call) : Prop := call.sent = call'.sent

theorem note_alike {call call' : Call} (same : call.sent = call'.sent) :
    Matches SendsAlike (fun _ _ => True) (note call) (note call') :=
  .note same trivial

theorem alike_refl {α : Type} (x : Traced Call α) : Matches SendsAlike (fun _ _ => True) x x :=
  .refl (fun _ => rfl) fun _ => trivial

/-- The second result is the first one moved, and the first has the property. -/
structure Moved {α : Type} (holds : α → Prop) (move : α → α) (a a' : α) : Prop where
  holds : holds a
  moved : a' = move a

/-- Buffers that are moved, and something else that stays. -/
abbrev BuffersMoved {α : Type} (m : Marks) (δ : Shift) : Buffers × α → Buffers × α → Prop :=
  Moved (fun r => BuffersMarked m r.1) (Prod.map (shiftBuffers δ) id)

theorem insert_flow_shift (lawful : m.Lawful δ) (first : m.mark flow.toString seq)
    (last : m.mark flow.toString (seq + UInt32.ofInt size)) (marked : FlowsMarked m flows) :
    insertFlow flow payload size (seq + δ flow.toString) (shiftFlows δ flows) =
      (insertFlow flow payload size seq flows).map fun r => (shiftFlows δ r.1, r.2) := by
  induction flows with
  | nil =>
    simp only [shiftFlows, List.map_nil, insertFlow, create_append_shift, Option.bind_eq_bind]
    cases ContiguousBlock.create.append payload size seq <;> rfl
  | cons entry rest ih =>
    obtain ⟨other, blocks⟩ := entry
    obtain ⟨head, tail⟩ := List.forall_mem_cons.mp marked
    have ih := ih tail
    simp only [shiftFlows] at ih
    simp only [shiftFlows, List.map_cons, insertFlow]
    split
    next same =>
      subst same
      rw [insert_blocks_shift (lawful.keeps _) first last head]
      cases insertBlocks payload size seq blocks <;> rfl
    next =>
      rw [ih]
      cases insertFlow flow payload size seq rest <;> rfl

theorem insert_shift (lawful : m.Lawful δ) (marked : BuffersMarked m b) (starts : m.mark flow.toString seq)
    (ends : m.mark flow.toString (seq + UInt32.ofInt size)) :
    Matches SendsAlike (BuffersMoved m δ) (b.insert flow payload size seq first held)
      ((shiftBuffers δ b).insert flow payload size (seq + δ flow.toString) first held) := by
  apply (note_alike (by rfl)).bind
  intro _ _ _ _
  rw [shiftBuffers, insert_flow_shift lawful starts ends marked.flows]
  cases ran : insertFlow flow payload size seq b.pFlowList with
  | none => exact ⟨.nil, .none⟩
  | some r =>
    obtain ⟨flows, edit⟩ := r
    have kept : FlowsMarked m flows :=
      insert_flow_keeps (P := fun flow => BlockMarked (m.mark flow.toString)) (inserts_marked starts ends)
        marked.flows ran
    exact .pure ⟨⟨kept, marked.chunks⟩, rfl⟩

/-! ## Chunks that take bytes -/

theorem add_sub_add_right (x y z : TcpSeq) : x + z - (y + z) = x - y := by grind

theorem past_shift {length : ℕ} : pastChunk (start + k) length size (seq + k) = pastChunk start length size seq := by
  rw [pastChunk, pastChunk, add_right_comm seq, add_right_comm start, add_sub_add_right]

/-- The bytes past a chunk start where the chunk ends. -/
theorem past_starts {length : ℕ} (past : 0 < pastChunk start length size seq) :
    seq + UInt32.ofInt size - UInt32.ofInt (pastChunk start length size seq) = start + UInt32.ofInt length := by
  have exactly : pastChunk start length size seq =
      toInt (seq + UInt32.ofInt size - (start + UInt32.ofInt length)) := by
    rw [pastChunk] at past ⊢
    omega
  rw [exactly, ofInt_toInt]
  grind

theorem insert_past_shift {length : ℕ} (lawful : m.Lawful δ) (marked : BuffersMarked m b)
    (shown : m.shown flow.toString chunkId start) (long : m.long chunkId length)
    (ends : m.mark flow.toString (seq + UInt32.ofInt size)) :
    Matches SendsAlike (BuffersMoved m δ) (b.insertPast flow payload (pastChunk start length size seq) size seq)
      ((shiftBuffers δ b).insertPast flow payload (pastChunk start length size seq) size
        (seq + δ flow.toString)) := by
  rw [insertPast, insertPast]
  split
  next past =>
    have moved : seq + δ flow.toString + UInt32.ofInt size - UInt32.ofInt (pastChunk start length size seq) =
        seq + UInt32.ofInt size - UInt32.ofInt (pastChunk start length size seq) + δ flow.toString := by
      grind
    rw [moved]
    apply insert_shift lawful marked
    · rw [past_starts past]
      exact lawful.ends _ _ _ _ shown long
    · rw [UInt32.sub_add_cancel]
      exact ends
  next => exact .pure ⟨marked, rfl⟩

theorem chunk_fill_shift {dups : UInt64} (name : String) :
    (shiftChunk δ pRc).fillGapsInChunk name payload size (seq + δ name) dups =
      (pRc.fillGapsInChunk name payload size seq dups).map fun r => (shiftChunk δ r.1, r.2) := by
  rw [ReconstructedChunk.fillGapsInChunk, ReconstructedChunk.fillGapsInChunk]
  cases known : pRc.flowSeqMap name with
  | none => simp [shiftChunk, known]
  | some start =>
    simp only [shiftChunk, known, Option.map_some, add_sub_add_right]
    cases ReconstructedChunk.fillBlocks payload size (seq - start) pRc.lcb dups with
    | none => rfl
    | some r =>
      obtain ⟨lcb, counted, isDuplicate⟩ := r
      cases isDuplicate with
      | true => rfl
      | false => cases lcb <;> rfl

theorem BuffersMarked.keep (marked : BuffersMarked m b) (flows : FlowsMarked m t.pFlowList)
    (same : headings t = headings b) : BuffersMarked m t := by
  refine ⟨flows, ?_⟩
  rw [same]
  exact marked.chunks

theorem shift_set_chunk : (shiftBuffers δ b).setChunk chunkId (shiftChunk δ pRc) =
    shiftBuffers δ (b.setChunk chunkId pRc) := by
  simp only [setChunk, shiftBuffers]
  congr 1
  funext other
  by_cases isIt : other = chunkId
  · simp [isIt]
  · simp [isIt]

theorem fill_gaps_shift (lawful : m.Lawful δ) (marked : BuffersMarked m b)
    (ends : m.mark flow.toString (seq + UInt32.ofInt size)) :
    Matches SendsAlike (BuffersMoved m δ) (b.fillGapsInChunk chunkId flow payload size seq)
      ((shiftBuffers δ b).fillGapsInChunk chunkId flow payload size (seq + δ flow.toString)) := by
  have lookedUp : (shiftBuffers δ b).chunkIdReconstructedChunkMap chunkId =
      (b.chunkIdReconstructedChunkMap chunkId).map (shiftChunk δ) := rfl
  rw [fillGapsInChunk, fillGapsInChunk, lookedUp]
  cases found : b.chunkIdReconstructedChunkMap chunkId with
  | none =>
    rw [Option.map_none, lift_none_bind, lift_none_bind]
    exact .lift .none
  | some pRc =>
    have start_map : (shiftChunk δ pRc).flowSeqMap flow.toString =
        (pRc.flowSeqMap flow.toString).map (· + δ flow.toString) := rfl
    rw [Option.map_some, lift_some_bind, lift_some_bind, start_map]
    obtain ⟨shown, long⟩ := marked.chunks chunkId (pRc.flowSeqMap, pRc.length) (by simp [headings, found])
    cases known : pRc.flowSeqMap flow.toString with
    | none =>
      apply (note_alike (by rfl)).bind
      intro _ _ _ _
      exact .pure ⟨marked, rfl⟩
    | some start =>
      have longer : (shiftChunk δ pRc).length = pRc.length := rfl
      simp only [Option.map_some, longer, past_shift]
      have shown := shown _ _ known
      apply (insert_past_shift lawful marked shown long ends).bind
      rintro ⟨t, edit⟩ _ stored ⟨marked', rfl⟩
      apply (note_alike (by rfl)).bind
      intro _ _ _ _
      have dups : (shiftBuffers δ t).numDuplicateBytes = t.numDuplicateBytes := rfl
      simp only [Prod.map_fst, Prod.map_snd, id, dups, chunk_fill_shift]
      cases filled : pRc.fillGapsInChunk flow.toString payload (size - pastChunk start pRc.length size seq) seq
        t.numDuplicateBytes with
      | none =>
        rw [Option.map_none, lift_none_bind, lift_none_bind]
        exact .lift .none
      | some r =>
        obtain ⟨pRc', counted, done⟩ := r
        rw [Option.map_some, lift_some_bind, lift_some_bind]
        have frame := insert_past_frame stored
        have same : headings (t.setChunk chunkId pRc') = headings t :=
          headings_set_same (by rw [frame]; exact found) (fill_gaps_heading filled)
        refine .pure ⟨marked'.keep marked'.flows same, ?_⟩
        simp only [shift_set_chunk]
        rfl

theorem send_done_shift (done : Bool) : Matches SendsAlike (fun _ _ => True) (b.sendDone mem chunkId flow done)
    ((shiftBuffers δ b).sendDone mem chunkId flow done) := by
  cases done with
  | false => exact .pure trivial
  | true =>
    have lookedUp : (shiftBuffers δ b).chunkIdReconstructedChunkMap chunkId =
        (b.chunkIdReconstructedChunkMap chunkId).map (shiftChunk δ) := rfl
    rw [sendDone, sendDone, lookedUp]
    cases b.chunkIdReconstructedChunkMap chunkId with
    | none =>
      rw [Option.map_none, lift_none_bind]
      exact .lift .none
    | some pRc =>
      have same : (shiftChunk δ pRc).getData = pRc.getData := rfl
      have length : (shiftChunk δ pRc).length = pRc.length := rfl
      rw [Option.map_some, lift_some_bind, lift_some_bind, same, length]
      cases pRc.getData with
      | none => exact .pure trivial
      | some data => exact alike_refl _

theorem fill_and_send_shift (lawful : m.Lawful δ) (marked : BuffersMarked m b)
    (ends : m.mark flow.toString (seq + UInt32.ofInt size)) :
    Matches SendsAlike (BuffersMoved m δ) (b.fillAndSend mem chunkId flow payload size seq)
      ((shiftBuffers δ b).fillAndSend mem chunkId flow payload size (seq + δ flow.toString)) := by
  apply (fill_gaps_shift lawful marked ends).bind
  rintro ⟨t, done, edit⟩ _ filled ⟨marked', rfl⟩
  apply (send_done_shift done).bind
  intro _ _ _ _
  exact .pure ⟨marked', rfl⟩

/-! ## Candidates -/

theorem within_shift {mark : TcpSeq → Prop} {length : ℕ} (keeps : KeepsOrder k mark) (starts : mark start)
    (ends : mark (start + UInt32.ofInt length)) (at_seq : mark seq) :
    within (start + k) length (seq + k) = within start length seq := by
  simp only [within, add_right_comm start k, keeps _ _ starts at_seq, keeps _ _ at_seq ends]

theorem blocks_of_shift : (shiftBuffers δ b).blocksOf flow = (b.blocksOf flow).map (shiftBlock (δ flow.toString)) := by
  rw [blocksOf, blocksOf, shiftBuffers, shiftFlows, List.find?_map]
  simp only [Function.comp_def]
  cases found : b.pFlowList.find? (·.1 = flow) with
  | none => rfl
  | some entry =>
    have own : entry.1 = flow := by simpa using List.find?_some found
    simp [own]

theorem erase_block_shift {index : ℕ} :
    eraseBlock flow index (shiftFlows δ flows) = shiftFlows δ (eraseBlock flow index flows) := by
  induction flows with
  | nil => rfl
  | cons entry rest ih =>
    simp only [shiftFlows, List.map_cons, eraseBlock] at ih ⊢
    split
    · simp [List.eraseIdx_eq_take_drop_succ]
    · simp [ih]


/-- The blocks of a flow are between its marks. -/
theorem FlowsMarked.block (marked : FlowsMarked m b.pFlowList) (member : li ∈ b.blocksOf flow) :
    BlockMarked (m.mark flow.toString) li := by
  obtain ⟨entry, held, own, member⟩ := mem_blocks_of member
  rw [← own]
  exact marked entry held li member

/-- An `int` of the length of a block takes it from its start to its end. -/
theorem BlockMarked.ends (marked : BlockMarked mark li) :
    mark (li.startingSeqNumber + UInt32.ofInt (toInt (UInt32.ofNat li.contiguousBlock.length))) := by
  rw [ofInt_toInt, ← marked.length]
  exact marked.last

/-- The same block of a list is found after the move. -/
theorem find_block_shift {P Q : ContiguousBlock → Bool} (same : ∀ li ∈ blocks, P (shiftBlock k li) = Q li) :
    (blocks.map (shiftBlock k)).findIdx? P = blocks.findIdx? Q := by
  induction blocks with
  | nil => rfl
  | cons li rest ih =>
    obtain ⟨head, tail⟩ := List.forall_mem_cons.mp same
    rw [List.map_cons, List.findIdx?_cons, List.findIdx?_cons, head, ih tail]

theorem candidates_shift {length index rounds : ℕ} (lawful : m.Lawful δ) (marked : BuffersMarked m b)
    (shown : m.shown flow.toString chunkId start) (long : m.long chunkId length) :
    Matches SendsAlike (Moved (BuffersMarked m) (shiftBuffers δ))
      (candidatesFrom mem chunkId flow start length rounds index b)
      (candidatesFrom mem chunkId flow (start + δ flow.toString) length rounds index (shiftBuffers δ b)) := by
  induction rounds generalizing index b with
  | zero => exact .pure ⟨marked, rfl⟩
  | succ rounds ih =>
    have same : (((b.blocksOf flow).drop index).map (shiftBlock (δ flow.toString))).findIdx? (fun li =>
          within (start + δ flow.toString) length li.startingSeqNumber) =
        ((b.blocksOf flow).drop index).findIdx? fun li => within start length li.startingSeqNumber := by
      refine find_block_shift fun li member => ?_
      have block := marked.flows.block (List.mem_of_mem_drop member)
      exact within_shift (lawful.keeps _) (lawful.starts _ _ _ shown) (lawful.ends _ _ _ _ shown long) block.first
    rw [candidatesFrom, candidatesFrom, blocks_of_shift, ← List.map_drop, same]
    split
    · exact .pure ⟨marked, rfl⟩
    · rename_i skipped found
      rw [List.getElem?_map]
      cases held : (b.blocksOf flow)[index + skipped]? with
      | none =>
        rw [Option.map_none, lift_none_bind, lift_none_bind]
        exact .lift .none
      | some li =>
        rw [Option.map_some, lift_some_bind, lift_some_bind]
        have block := marked.flows.block (List.mem_of_getElem? held)
        apply (fill_and_send_shift lawful marked block.ends).bind
        rintro ⟨t, edit⟩ _ filled ⟨marked', rfl⟩
        simp only [Prod.map_fst, Prod.map_snd, id]
        cases edit.moved (index + skipped) with
        | none =>
          rw [lift_none_bind, lift_none_bind]
          exact .lift .none
        | some place =>
          rw [lift_some_bind, lift_some_bind]
          have left : BuffersMarked m { t with pFlowList := eraseBlock flow place t.pFlowList } :=
            ⟨erase_block_keeps (P := fun flow => BlockMarked (m.mark flow.toString)) marked'.flows,
              marked'.chunks⟩
          have again := @ih _ place left
          rw [shiftBuffers, ← erase_block_shift] at again
          exact again

theorem deal_shift {length : ℕ} (lawful : m.Lawful δ) (marked : BuffersMarked m b)
    (copied : copyOf b chunkId flow = some (start, length)) :
    Matches SendsAlike (Moved (BuffersMarked m) (shiftBuffers δ)) (b.dealWithCandidatesForChunk mem chunkId flow)
      ((shiftBuffers δ b).dealWithCandidatesForChunk mem chunkId flow) := by
  obtain ⟨pRc, found, known, rfl⟩ := chunk_of_copy copied
  have lookedUp : (shiftBuffers δ b).chunkIdReconstructedChunkMap chunkId = some (shiftChunk δ pRc) := by
    simp [shiftBuffers, found]
  have known' : (shiftChunk δ pRc).flowSeqMap flow.toString = some (start + δ flow.toString) := by
    simp [shiftChunk, known]
  obtain ⟨shown, long⟩ := marked.chunks chunkId (pRc.flowSeqMap, pRc.length) (by simp [headings, found])
  rw [dealWithCandidatesForChunk, dealWithCandidatesForChunk, lookedUp, found, lift_some_bind, lift_some_bind, known,
    known', blocks_of_shift, List.length_map]
  exact candidates_shift lawful marked (shown _ _ known) long

/-! ## Segments -/

theorem opened_shift : opened (shiftBuffers δ b) chunkId flow payload (seq + δ flow.toString) =
    shiftChunk δ (opened b chunkId flow payload seq) := by
  have moved : ∀ starts : String → Option TcpSeq,
      Function.update (fun name => (starts name).map (· + δ name)) flow.toString (some (seq + δ flow.toString)) =
        fun name => (Function.update starts flow.toString (some seq) name).map (· + δ name) := by
    intro starts
    funext name
    by_cases own : name = flow.toString
    · simp [own]
    · simp [own]
  cases found : b.chunkIdReconstructedChunkMap chunkId with
  | none =>
    simp only [opened, shiftBuffers, shiftChunk, found, Option.map_none, Option.getD_none,
      ReconstructedChunk.setFlowStart, ReconstructedChunk.create]
    rw [← moved fun _ => none]
    rfl
  | some pRc =>
    simp only [opened, shiftBuffers, shiftChunk, found, Option.map_some, Option.getD_some,
      ReconstructedChunk.setFlowStart, moved]

/-- A chunk that a flow shows at a marked start. -/
theorem HeadingMarked.update {heading : Heading} {name : String} (marked : HeadingMarked m chunkId heading)
    (shown : m.shown name chunkId seq) :
    HeadingMarked m chunkId (Function.update heading.1 name (some seq), heading.2) := by
  refine ⟨fun other start known => ?_, marked.long⟩
  simp only at known
  by_cases own : other = name
  · subst own
    rw [Function.update_self] at known
    cases known
    exact shown
  · rw [Function.update_of_ne own] at known
    exact marked.shown other start known

theorem BuffersMarked.announce (marked : BuffersMarked m b) (shown : m.shown flow.toString chunkId seq)
    (long : m.long chunkId (getLengthFromByteStream payload)) :
    BuffersMarked m (b.setChunk chunkId (opened b chunkId flow payload seq)) := by
  refine ⟨marked.flows, fun other heading held => ?_⟩
  rw [headings_set_chunk, opened_heading] at held
  by_cases isIt : other = chunkId
  · subst isIt
    rw [Function.update_self] at held
    cases held
    rw [announced]
    cases found : headings b other with
    | none =>
      have fresh : HeadingMarked m other (fun _ => none, getLengthFromByteStream payload) :=
        ⟨fun _ _ known => (by cases known), long⟩
      exact fresh.update shown
    | some heading => exact (marked.chunks other heading found).update shown
  · rw [Function.update_of_ne isIt] at held
    exact marked.chunks other heading held

theorem announce_shift {size : ℕ} (lawful : m.Lawful δ) (marked : BuffersMarked m b)
    (shown : m.shown flow.toString chunkId seq) (long : m.long chunkId (getLengthFromByteStream payload))
    (ends : m.mark flow.toString (seq + UInt32.ofInt size)) :
    Matches SendsAlike (Moved (BuffersMarked m) (shiftBuffers δ)) (b.announceChunk mem flow chunkId payload size seq)
      ((shiftBuffers δ b).announceChunk mem flow chunkId payload size (seq + δ flow.toString)) := by
  have fresh : (shiftBuffers δ b).chunkIdReconstructedChunkMap chunkId = none ↔
      b.chunkIdReconstructedChunkMap chunkId = none := by simp [shiftBuffers]
  rw [announce_eq, announce_eq, opened_shift, shift_set_chunk]
  apply (fill_and_send_shift lawful (marked.announce shown long) ends).bind
  rintro ⟨t, edit⟩ _ filled ⟨marked', rfl⟩
  simp only [Prod.map_fst, fresh]
  split
  · have copied : copyOf t chunkId flow = some (seq, (opened b chunkId flow payload seq).length) := by
      rw [copyOf, fill_and_send_headings filled]
      exact copy_of_announced
    exact deal_shift lawful marked' copied
  · exact .pure ⟨marked', rfl⟩

theorem infos_of_shift : infosOf (shiftSniffer δ s) flow = (infosOf s flow).map (shiftInfo (δ flow.toString)) := by
  show ((s.flowChunkMap flow.toString).map (List.map (shiftInfo (δ flow.toString)))).getD [] = _
  rw [infosOf]
  cases s.flowChunkMap flow.toString <;> rfl

theorem Marked.info (marked : Marked m s) {ci : ChunkInfo} (member : ci ∈ infosOf s flow) :
    m.shown flow.toString ci.chunkId ci.sSeqNum ∧ m.long ci.chunkId ci.chunkLength := by
  rw [infosOf] at member
  cases found : s.flowChunkMap flow.toString with
  | none => simp [found] at member
  | some infos =>
    rw [found, Option.getD_some] at member
    exact marked.infos _ infos found ci member

theorem routed_shift (lawful : m.Lawful δ) (marked : Marked m s) (at_seq : m.mark flow.toString seq) :
    routed (shiftSniffer δ s) flow (seq + δ flow.toString) =
      (routed s flow seq).map (shiftInfo (δ flow.toString)) := by
  rw [routed, routed, chunkFor, chunkFor, infos_of_shift, List.find?_map]
  congr 1
  apply List.find?_congr
  intro ci member
  obtain ⟨shown, long⟩ := marked.info member
  exact within_shift (lawful.keeps _) (lawful.starts _ _ _ shown) (lawful.ends _ _ _ _ shown long) at_seq

theorem front_shift {size : ℕ} (lawful : m.Lawful δ) (marked : Marked m s) (starts : m.mark flow.toString seq)
    (ends : m.mark flow.toString (seq + UInt32.ofInt size)) :
    Matches SendsAlike (Moved (BuffersMarked m) (shiftBuffers δ)) (front s mem flow payload size seq held)
      (front (shiftSniffer δ s) mem flow payload size (seq + δ flow.toString) held) := by
  rw [front, front]
  split
  · exact .pure ⟨marked.buffers, rfl⟩
  · rw [routed_shift lawful marked starts]
    have first : ∀ r r' : Buffers × Edit, BuffersMoved m δ r r' →
        Moved (BuffersMarked m) (shiftBuffers δ) r.1 r'.1 := by
      rintro r _ ⟨holds, rfl⟩
      exact ⟨holds, rfl⟩
    cases routed s flow seq with
    | some ci => exact (fill_and_send_shift lawful marked.buffers ends).map first
    | none => exact (insert_shift lawful marked.buffers starts ends).map first

theorem note_chunk_shift {infos : List ChunkInfo} {length : ℕ} :
    noteChunk (infos.map (shiftInfo k)) chunkId (seq + k) length =
      (noteChunk infos chunkId seq length).map (shiftInfo k) := by
  have known : (infos.map (shiftInfo k)).any (Remembers.chunkId · = chunkId) =
      infos.any (Remembers.chunkId · = chunkId) := by
    rw [List.any_map]
    rfl
  rw [noteChunk, noteChunk, known]
  split
  · rfl
  · rw [List.map_append]
    rfl

/-- What a flow remembers after it showed a chunk at a marked start. -/
theorem Marked.note (marked : Marked m s) {length : ℕ} (shown : m.shown flow.toString chunkId seq)
    (long : m.long chunkId length) (taken : BuffersMarked m b) :
    Marked m { s.setInfos flow (noteChunk (infosOf s flow) chunkId seq length) with buffers := b } := by
  refine ⟨taken, fun name infos found ci member => ?_⟩
  simp only [setInfos] at found
  by_cases own : name = flow.toString
  · subst own
    rw [Function.update_self] at found
    cases found
    rw [noteChunk] at member
    split at member
    · exact marked.info member
    · rcases List.mem_append.mp member with before | new
      · exact marked.info before
      · rw [List.mem_singleton.mp new]
        exact ⟨shown, long⟩
  · rw [Function.update_of_ne own] at found
    exact marked.infos name infos found ci member

theorem shift_set_infos {infos : List ChunkInfo} :
    { (shiftSniffer δ s).setInfos flow (infos.map (shiftInfo (δ flow.toString))) with buffers := shiftBuffers δ b } =
      shiftSniffer δ { s.setInfos flow infos with buffers := b } := by
  simp only [shiftSniffer, setInfos]
  congr 1
  funext name
  by_cases own : name = flow.toString
  · simp [own]
  · simp [own]

/-- **A segment**, when its numbers and those of the record it shows are marks. -/
theorem handle_ip_shift {size : ℕ} {multi : Bool} (lawful : m.Lawful δ) (marked : Marked m s)
    (starts : m.mark flow.toString seq) (ends : m.mark flow.toString (seq + UInt32.ofInt size))
    (shows : multi = true → ∀ chunkId chunkOffset, getChunkId payload size = some (chunkId, chunkOffset) →
      m.shown flow.toString chunkId (seq + UInt32.ofInt chunkOffset) ∧
      m.long chunkId (getLengthFromByteStream (payload.advance chunkOffset))) :
    Matches SendsAlike (Moved (Marked m) (shiftSniffer δ)) (s.handleIp multi mem flow payload size seq)
      ((shiftSniffer δ s).handleIp multi mem flow payload size (seq + δ flow.toString)) := by
  by_cases empty : size = 0
  · rw [handleIp, handleIp, if_pos empty, if_pos empty]
    exact .pure ⟨marked, rfl⟩
  cases multi with
  | false =>
    rw [handle_ip_single empty, handle_ip_single empty]
    refine (insert_shift lawful marked.buffers starts ends).map ?_
    rintro r _ ⟨holds, rfl⟩
    exact ⟨⟨holds, marked.infos⟩, rfl⟩
  | true =>
    rw [handle_ip_multi empty, handle_ip_multi empty]
    cases found : getChunkId payload size with
    | none =>
      have whole : headSize payload size = size := by simp [headSize, found]
      apply (front_shift lawful marked starts (by rwa [whole])).bind
      rintro b _ _ ⟨holds, rfl⟩
      exact .pure ⟨⟨holds, marked.infos⟩, rfl⟩
    | some record =>
      obtain ⟨chunkId, chunkOffset⟩ := record
      obtain ⟨shown, long⟩ := shows rfl chunkId chunkOffset found
      have inFront : headSize payload size = chunkOffset := by simp [headSize, found]
      have offset := get_chunk_id_offset found
      rw [inFront]
      apply (front_shift lawful marked starts (lawful.starts _ _ _ shown)).bind
      rintro b _ _ ⟨holds, rfl⟩
      simp only [showRecord, add_right_comm seq (δ flow.toString), infos_of_shift, note_chunk_shift]
      have whole : seq + UInt32.ofInt chunkOffset + UInt32.ofInt (size - chunkOffset : ℕ) =
          seq + UInt32.ofInt size := by
        rw [UInt32.add_assoc, ofInt_natCast, ofInt_natCast, ofInt_natCast, ← UInt32.ofNat_add,
          Nat.add_sub_cancel' (Nat.le_of_lt offset)]
      apply (announce_shift lawful holds shown long (by rwa [whole])).bind
      rintro b' _ _ ⟨holds', rfl⟩
      exact .pure ⟨marked.note shown long holds', shift_set_infos⟩

/-! ## The pass over the blocks -/

/-- The numbers of a block are as far apart as it is long, without a wrap. -/
def Straight (li : ContiguousBlock) : Prop :=
  li.startingSeqNumber.toNat + li.contiguousBlock.length = li.nextExpectedSeqNumber.toNat

theorem straight_of_lt
    (length : li.nextExpectedSeqNumber = li.startingSeqNumber + UInt32.ofNat li.contiguousBlock.length)
    (short : li.contiguousBlock.length < 2 ^ 32) (ordered : li.startingSeqNumber < li.nextExpectedSeqNumber) :
    Straight li := by
  rw [Straight, length]
  rw [length, UInt32.lt_iff_toNat_lt, UInt32.toNat_add, UInt32.toNat_ofNat'] at ordered
  rw [UInt32.toNat_add, UInt32.toNat_ofNat']
  omega

theorem Straight.lt_iff (straight : Straight li) :
    li.startingSeqNumber < li.nextExpectedSeqNumber ↔ li.contiguousBlock.length ≠ 0 := by
  rw [Straight] at straight
  rw [UInt32.lt_iff_toNat_lt]
  omega

/-- What is left of a block behind a record. -/
theorem Straight.behind (straight : Straight li) {last : UInt32} (inside : last.toNat ≤ li.contiguousBlock.length) :
    Straight (behind li last) := by
  have bound := li.nextExpectedSeqNumber.toNat_lt
  rw [Straight] at straight
  have moved : (li.startingSeqNumber + last).toNat = li.startingSeqNumber.toNat + last.toNat := by
    rw [UInt32.toNat_add]
    omega
  rw [Straight]
  show (li.startingSeqNumber + last).toNat + (li.contiguousBlock.drop last.toNat).length = li.nextExpectedSeqNumber.toNat
  rw [moved, List.length_drop]
  omega

/-- A round over a block, and over the same block moved. -/
theorem grep_once_shift (straight : Straight li) (straight' : Straight (shiftBlock k li)) :
    Matches SendsAlike (fun r r' : List ContiguousBlock × ContiguousBlock =>
        r'.2 = shiftBlock k r.2 ∧ Straight r.2 ∧ Straight (shiftBlock k r.2))
      (grepContiguousBlockForChunks mem flow li) (grepContiguousBlockForChunks mem flow (shiftBlock k li)) := by
  have content : (shiftBlock k li).contiguousBlock = li.contiguousBlock := rfl
  rw [grepContiguousBlockForChunks, grepContiguousBlockForChunks]
  simp only [content]
  split
  · split
    · exact .pure ⟨rfl, straight, straight'⟩
    · exact .lift .none
  · rename_i start last _
    split
    · rename_i whole
      have left : shiftBlock k (behind li last) = behind (shiftBlock k li) last := by
        simp only [shiftBlock, behind, add_right_comm]
      have rest : Straight (behind li last) ∧ Straight (shiftBlock k (behind li last)) :=
        ⟨straight.behind whole, left ▸ straight'.behind whole⟩
      apply (alike_refl _).bind
      intro _ _ _ _
      split
      · exact .pure ⟨left.symm, rest⟩
      · cases mem.tempPointer li.contiguousBlock (toInt start) with
        | none =>
          rw [lift_none_bind, lift_none_bind]
          exact .lift .none
        | some tempPointer =>
          have front : ContiguousBlock.create.append tempPointer (toInt start) (shiftBlock k li).startingSeqNumber =
              (ContiguousBlock.create.append tempPointer (toInt start) li.startingSeqNumber).map (shiftBlock k) :=
            create_append_shift
          rw [lift_some_bind, lift_some_bind, front]
          cases ContiguousBlock.create.append tempPointer (toInt start) li.startingSeqNumber with
          | none =>
            rw [Option.map_none, lift_none_bind, lift_none_bind]
            exact .lift .none
          | some made =>
            rw [Option.map_some, lift_some_bind, lift_some_bind]
            exact .pure ⟨left.symm, rest⟩
    · exact .pure ⟨rfl, straight, straight'⟩

theorem grep_block_shift {rounds : ℕ} (straight : Straight li) (straight' : Straight (shiftBlock k li)) :
    Matches SendsAlike (fun _ _ => True) (grepBlock mem flow rounds li)
      (grepBlock mem flow rounds (shiftBlock k li)) := by
  induction rounds generalizing li with
  | zero => exact .lift .none
  | succ rounds ih =>
    have scanned : ((shiftBlock k li).bModified = true ∧
        (shiftBlock k li).startingSeqNumber < (shiftBlock k li).nextExpectedSeqNumber) ↔
        (li.bModified = true ∧ li.startingSeqNumber < li.nextExpectedSeqNumber) := by
      rw [straight.lt_iff, straight'.lt_iff]
      rfl
    rw [grepBlock, grepBlock]
    simp only [scanned]
    split
    · apply (grep_once_shift straight straight').bind
      rintro ⟨front, left⟩ ⟨front', _⟩ _ ⟨rfl, rest, rest'⟩
      apply (ih rest rest').bind
      intro _ _ _ _
      exact .pure trivial
    · exact .pure trivial

/-- The pass does the same over a block between marks that is short enough. -/
theorem grep_marked_shift {rounds : ℕ} (keeps : KeepsOrder k mark) (marked : BlockMarked mark li)
    (short : li.contiguousBlock.length < 2 ^ 32) :
    Matches SendsAlike (fun _ _ => True) (grepBlock mem flow rounds li)
      (grepBlock mem flow rounds (shiftBlock k li)) := by
  have kept := keeps _ _ marked.first marked.last
  by_cases ordered : li.startingSeqNumber < li.nextExpectedSeqNumber
  · have length' : (shiftBlock k li).nextExpectedSeqNumber = (shiftBlock k li).startingSeqNumber +
        UInt32.ofNat li.contiguousBlock.length := by
      simp only [shiftBlock, marked.length, add_right_comm]
    exact grep_block_shift (straight_of_lt marked.length short ordered)
      (straight_of_lt length' short (kept.mpr ordered))
  · cases rounds with
    | zero => exact .lift .none
    | succ rounds =>
      have still : ¬ (li.bModified = true ∧ li.startingSeqNumber < li.nextExpectedSeqNumber) :=
        fun scanned => ordered scanned.2
      have still' : ¬ ((shiftBlock k li).bModified = true ∧
          (shiftBlock k li).startingSeqNumber < (shiftBlock k li).nextExpectedSeqNumber) :=
        fun scanned => ordered (kept.mp scanned.2)
      rw [grepBlock, grepBlock, if_neg still, if_neg still']
      exact .pure trivial

theorem grep_blocks_shift (keeps : KeepsOrder k mark)
    (each : ∀ li ∈ blocks, BlockMarked mark li ∧ li.contiguousBlock.length < 2 ^ 32) :
    Matches SendsAlike (fun _ _ => True) (grepBlocks mem flow blocks)
      (grepBlocks mem flow (blocks.map (shiftBlock k))) := by
  induction blocks with
  | nil => exact .pure trivial
  | cons li rest ih =>
    obtain ⟨⟨marked, short⟩, tail⟩ := List.forall_mem_cons.mp each
    rw [List.map_cons, grepBlocks, grepBlocks]
    apply (grep_marked_shift keeps marked short).bind
    intro _ _ _ _
    apply (ih tail).bind
    intro _ _ _ _
    exact .pure trivial

/-- **The pass over all blocks.** -/
theorem grep_flows_shift (lawful : m.Lawful δ) (each : ∀ entry ∈ flows, ∀ li ∈ entry.2,
      BlockMarked (m.mark entry.1.toString) li ∧ li.contiguousBlock.length < 2 ^ 32) :
    Matches SendsAlike (fun _ _ => True) (grepFlows mem flows) (grepFlows mem (shiftFlows δ flows)) := by
  induction flows with
  | nil => exact .pure trivial
  | cons entry rest ih =>
    obtain ⟨head, tail⟩ := List.forall_mem_cons.mp each
    simp only [shiftFlows, List.map_cons, grepFlows]
    apply (grep_blocks_shift (lawful.keeps _) head).bind
    intro _ _ _ _
    apply (ih tail).bind
    intro _ _ _ _
    exact .pure trivial

end Ditto.SequenceShift
