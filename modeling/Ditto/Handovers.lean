import Ditto.RecordHeaders
import Ditto.SegmentHandling

/-! What the sniffer hands on, call by call. Each operation's calls have a property
when the calls it makes itself do; the obligations are stated over the copy of the
chunk that the operation works on. The loop over the candidates carries an
invariant of its own. -/
namespace Ditto.Handovers
open Sniffer Buffers SniffTcp Words Traces Traced ChunkHeadings SegmentHandling RecordHeaders

/-- A PUT_CHUNK from a pass has the whole record at hand, and one from a chunk a string
as long as the chunk. -/
def Complete (chunk : PutChunk) : Prop :=
  match chunk.chunkLength with
  | none => chunk.payloadLength + 4 ≤ chunk.held
  | some length => length ≤ chunk.held

/-- The calls that `fill_gaps_in_chunk` may make for a segment of a flow. -/
structure Admits (entry : Call → Prop) (b : Buffers) (chunkId : ChunkId) (flow : FlowId)
    (size : ℤ) (seq : TcpSeq) : Prop where
  dropped : copyOf b chunkId flow = none → entry (.dropped flow chunkId)
  past : ∀ start length, copyOf b chunkId flow = some (start, length) →
    0 < pastChunk start length size seq →
    entry (.insert flow (seq + UInt32.ofInt size - UInt32.ofInt (pastChunk start length size seq))
      (size - pastChunk start length size seq) (pastChunk start length size seq) size)
  filled : ∀ start length, copyOf b chunkId flow = some (start, length) →
    entry (.fill flow chunkId seq (size - pastChunk start length size seq) start length)

variable {κ : Type} [Remembers κ] {s : SniffTcp κ} {entry : Call → Prop} {b b' : Buffers}
  {flow : FlowId} {chunkId : ChunkId} {payload : Pointer} {seq : TcpSeq} {size first held : ℤ}
  {edit : Edit} {mem : Memory}

theorem insert_logs (holds : entry (.insert flow seq first size held)) :
    Logs entry (b.insert flow payload size seq first held) :=
  (logs_note holds).bind fun _ _ => (logs_lift _).bind fun _ _ => logs_pure _

theorem insert_past_logs {diff : ℤ}
    (holds : 0 < diff → entry (.insert flow (seq + UInt32.ofInt size - UInt32.ofInt diff)
      (size - diff) diff size)) :
    Logs entry (b.insertPast flow payload diff size seq) := by
  rw [insertPast]
  split
  · rename_i positive
    exact insert_logs (holds positive)
  · exact logs_pure _

theorem fill_gaps_logs (admits : Admits entry b chunkId flow size seq) :
    Logs entry (b.fillGapsInChunk chunkId flow payload size seq) := by
  refine (logs_lift _).bind fun pRc found => ?_
  have found : b.chunkIdReconstructedChunkMap chunkId = some pRc := found
  cases known : pRc.flowSeqMap flow.toString with
  | none =>
    have unknown : copyOf b chunkId flow = none := by simp [copyOf, headings, found, known]
    exact (logs_note (admits.dropped unknown)).bind fun _ _ => logs_pure _
  | some start =>
    have copied := copy_of_chunk found known
    refine (insert_past_logs (admits.past _ _ copied)).bind fun _ _ => ?_
    exact (logs_note (admits.filled _ _ copied)).bind fun _ _ => (logs_lift _).bind fun _ _ => logs_pure _

/-- A chunk that says it is done has a first block as long as itself. -/
theorem done_front {pRc pRc' : ReconstructedChunk} {name : String} {dups dups' : UInt64}
    (ran : pRc.fillGapsInChunk name payload size seq dups = some (pRc', dups', true)) :
    ∃ data, pRc'.getData = some data ∧ pRc'.length ≤ data.length := by
  rw [ReconstructedChunk.fillGapsInChunk] at ran
  split at ran
  · cases ran
  · obtain ⟨⟨lcb, counted, isDuplicate⟩, _, ran⟩ := Option.bind_eq_some_iff.mp ran
    cases isDuplicate with
    | true => cases ran
    | false =>
      obtain ⟨front, isFront, ran⟩ := Option.bind_eq_some_iff.mp ran
      simp only [Option.some.injEq, Prod.mk.injEq, decide_eq_true_eq] at ran
      obtain ⟨rfl, _, long⟩ := ran
      exact ⟨front.contiguousBlock, by simp [ReconstructedChunk.getData, isFront], long⟩

/-- A chunk that is done after taking a segment. -/
theorem fill_gaps_done
    (ran : (b.fillGapsInChunk chunkId flow payload size seq).result = some (b', true, edit)) :
    ∃ pRc data, b'.chunkIdReconstructedChunkMap chunkId = some pRc ∧ pRc.getData = some data ∧
      pRc.length ≤ data.length := by
  obtain ⟨pRc, -, ⟨-, -, unfinished⟩ | ⟨start, t, pRc', dups, -, -, filled, rfl⟩⟩ := fill_gaps_ends ran
  · cases unfinished
  · obtain ⟨data, shown, long⟩ := done_front filled
    exact ⟨pRc', data, by simp [setChunk], shown, long⟩

theorem send_logs {p : Pointer} {bytes : ℕ} {chunkLength : Option ℕ}
    (holds : ∀ data, entry (.putChunk flow ⟨data, bytes, getLengthFromByteStream p, chunkLength⟩)) :
    Logs entry (sendChunkToSnifferPlugin flow p bytes chunkLength) := by
  rw [sendChunkToSnifferPlugin]
  split
  · exact logs_pure _
  · exact logs_note (holds _)

theorem fill_and_send_logs (admits : Admits entry b chunkId flow size seq)
    (sent : ∀ chunk, Complete chunk → entry (.putChunk flow chunk)) :
    Logs entry (b.fillAndSend mem chunkId flow payload size seq) := by
  refine (fill_gaps_logs admits).bind fun ⟨t, done, inserted⟩ ran => Logs.bind ?_ fun _ _ => logs_pure _
  cases done with
  | false => exact logs_pure _
  | true =>
    obtain ⟨pRc, data, found, shown, long⟩ := fill_gaps_done ran
    refine (logs_lift _).bind fun other held => ?_
    obtain rfl := Option.some_inj.mp (found.symm.trans held)
    simp only [shown]
    exact send_logs fun _ => sent _ long

/-- The candidates' rounds: each block taken is admitted, and the invariant survives
the round. -/
theorem candidates_logs (Inv : Buffers → Prop) {start : TcpSeq} {length index rounds : ℕ}
    (admits : ∀ t li, Inv t → li ∈ t.blocksOf flow → within start length li.startingSeqNumber →
      Admits entry t chunkId flow (toInt (UInt32.ofNat li.contiguousBlock.length)) li.startingSeqNumber)
    (kept : ∀ t t' i li inserted place, Inv t → (t.blocksOf flow)[i]? = some li →
      within start length li.startingSeqNumber →
      (t.fillAndSend mem chunkId flow (mem.cStr li.contiguousBlock)
        (toInt (UInt32.ofNat li.contiguousBlock.length)) li.startingSeqNumber).result =
          some (t', inserted) → inserted.moved i = some place →
      Inv { t' with pFlowList := eraseBlock flow place t'.pFlowList })
    (sent : ∀ chunk, Complete chunk → entry (.putChunk flow chunk)) (holds : Inv b) :
    Logs entry (candidatesFrom mem chunkId flow start length rounds index b) := by
  induction rounds generalizing index b with
  | zero => exact logs_pure _
  | succ rounds ih =>
    rw [candidatesFrom]
    split
    · exact logs_pure _
    · rename_i skipped found
      refine (logs_lift _).bind fun li taken => ?_
      obtain ⟨member, inside⟩ := candidate_found found taken
      refine (fill_and_send_logs (admits b li holds member inside) sent).bind fun result filled => ?_
      obtain ⟨t, inserted⟩ := result
      refine (logs_lift _).bind fun place moved => ?_
      exact ih (kept _ _ _ _ _ _ holds taken inside filled moved)

theorem announce_logs (Inv : Buffers → Prop) {size : ℕ}
    (admits : Admits entry (b.setChunk chunkId (opened b chunkId flow payload seq)) chunkId flow size seq)
    (opens : ∀ t inserted, ((b.setChunk chunkId (opened b chunkId flow payload seq)).fillAndSend mem
      chunkId flow payload size seq).result = some (t, inserted) → Inv t)
    (candidates : ∀ t li, Inv t → li ∈ t.blocksOf flow →
      within seq (opened b chunkId flow payload seq).length li.startingSeqNumber →
      Admits entry t chunkId flow (toInt (UInt32.ofNat li.contiguousBlock.length)) li.startingSeqNumber)
    (kept : ∀ t t' i li inserted place, Inv t → (t.blocksOf flow)[i]? = some li →
      within seq (opened b chunkId flow payload seq).length li.startingSeqNumber →
      (t.fillAndSend mem chunkId flow (mem.cStr li.contiguousBlock)
        (toInt (UInt32.ofNat li.contiguousBlock.length)) li.startingSeqNumber).result =
          some (t', inserted) → inserted.moved i = some place →
      Inv { t' with pFlowList := eraseBlock flow place t'.pFlowList })
    (sent : ∀ chunk, Complete chunk → entry (.putChunk flow chunk)) :
    Logs entry (b.announceChunk mem flow chunkId payload size seq) := by
  have copied : copyOf (b.setChunk chunkId (opened b chunkId flow payload seq)) chunkId flow =
      some (seq, (opened b chunkId flow payload seq).length) := copy_of_announced
  rw [announceChunk]
  split
  · rename_i fresh
    have start : (ReconstructedChunk.create chunkId (getLengthFromByteStream payload)).setFlowStart
        flow.toString seq = opened b chunkId flow payload seq := by simp [opened, fresh]
    simp only [start]
    refine (fill_and_send_logs admits sent).bind fun result filled => ?_
    obtain ⟨t, inserted⟩ := result
    have after : copyOf t chunkId flow = some (seq, (opened b chunkId flow payload seq).length) := by
      rw [copyOf, fill_and_send_headings filled]
      exact copied
    refine (logs_lift _).bind fun pRc found => ?_
    obtain ⟨other, found', known, same⟩ := chunk_of_copy after
    obtain rfl := Option.some_inj.mp (found.symm.trans found')
    rw [known, same, Option.getD_some]
    exact candidates_logs Inv candidates kept sent (opens _ _ filled)
  · rename_i pRc found
    have start : pRc.setFlowStart flow.toString seq = opened b chunkId flow payload seq := by
      simp [opened, found]
    simp only [start]
    exact (fill_and_send_logs admits sent).bind fun _ _ => logs_pure _

/-- The front of a segment goes to the chunk it is routed to, or to the flow's list. -/
theorem front_logs {size : ℕ}
    (admits : ∀ ci, routed s flow seq = some ci → size ≠ 0 →
      Admits entry s.buffers (Remembers.chunkId ci) flow size seq)
    (stored : size ≠ 0 → entry (.insert flow seq 0 size held))
    (sent : ∀ chunk, Complete chunk → entry (.putChunk flow chunk)) :
    Logs entry (front s mem flow payload size seq held) := by
  rw [front]
  split
  · exact logs_pure _
  · rename_i nonempty
    split
    · rename_i ci chosen
      exact (fill_and_send_logs (admits ci chosen nonempty) sent).map
    · exact (insert_logs (stored nonempty)).map

/-- A segment's calls are those of its front, and of the record it shows. -/
theorem handle_ip_logs {size : ℕ}
    (before : size ≠ 0 → Logs entry (front s mem flow payload (headSize payload size) seq size))
    (shown : ∀ t chunkId chunkOffset,
      (front s mem flow payload (headSize payload size) seq size).result = some t →
      getChunkId payload size = some (chunkId, chunkOffset) →
      Logs entry (t.announceChunk mem flow chunkId (payload.advance chunkOffset) (size - chunkOffset)
        (seq + UInt32.ofInt chunkOffset))) :
    Logs entry (s.handleIp true mem flow payload size seq) := by
  by_cases empty : size = 0
  · rw [handleIp, if_pos empty]
    exact logs_pure _
  · rw [handle_ip_multi empty]
    refine (before empty).bind fun t ran => ?_
    split
    · exact logs_pure _
    · rename_i found
      exact (shown t _ _ ran found).bind fun _ _ => logs_pure _

/-! ## The pass -/

/-- A record that ends within a block is all there. -/
theorem record_complete {p : Pointer} {count : ℕ} {start last : UInt32} {data : List UInt8}
    (found : firstRecord p count = some (start, last)) (whole : last.toNat ≤ count)
    (short : count ≤ 2 ^ 31) :
    Complete ⟨data, count - start.toNat, getLengthFromByteStream (p.advance start.toNat), none⟩ := by
  obtain ⟨header, ends⟩ := first_record_place found short
  show getLengthFromByteStream (p.advance start.toNat) + 4 ≤ count - start.toNat
  omega

theorem grep_once_logs {block : ContiguousBlock}
    (sent : ∀ chunk, (block.contiguousBlock.length ≤ 2 ^ 31 → Complete chunk) →
      entry (.putChunk flow chunk)) :
    Logs entry (grepContiguousBlockForChunks mem flow block) := by
  rw [grepContiguousBlockForChunks]
  split
  · split
    · exact logs_pure _
    · exact logs_lift _
  · rename_i start last found
    split
    · rename_i whole
      refine (send_logs fun data => sent _ (record_complete found whole)).bind fun _ _ => ?_
      split
      · exact logs_pure _
      · exact (logs_lift _).bind fun _ _ => (logs_lift _).bind fun _ _ => logs_pure _
    · exact logs_pure _

/-- A round that finds no record has read the block. -/
theorem grep_nothing {block : ContiguousBlock}
    (none : firstRecord (mem.cStr block.contiguousBlock) block.contiguousBlock.length = none)
    (short : block.contiguousBlock.length < 2 ^ 32) :
    grepContiguousBlockForChunks mem flow block = pure ([], { block with bModified := false }) := by
  rw [grepContiguousBlockForChunks]
  simp only [none, if_pos short]

/-- A round that finds a record with more bytes than the block has waits for them. -/
theorem grep_waits {block : ContiguousBlock} {start last : UInt32}
    (found : firstRecord (mem.cStr block.contiguousBlock) block.contiguousBlock.length = some (start, last))
    (waits : ¬ last.toNat ≤ block.contiguousBlock.length) :
    grepContiguousBlockForChunks mem flow block = pure ([], { block with bModified := false }) := by
  rw [grepContiguousBlockForChunks]
  simp only [found, if_neg waits]

/-- A round leaves no more than there was. -/
theorem grep_once_shorter {block left : ContiguousBlock} {before : List ContiguousBlock}
    (ran : (grepContiguousBlockForChunks mem flow block).result = some (before, left)) :
    left.contiguousBlock.length ≤ block.contiguousBlock.length := by
  rw [grepContiguousBlockForChunks] at ran
  split at ran
  · split at ran
    · cases ran
      exact Nat.le_refl _
    · cases ran
  · split at ran
    · obtain ⟨_, _, ran⟩ := bind_eq_some.mp ran
      split at ran
      · cases ran
        simp
      · obtain ⟨_, _, ran⟩ := bind_eq_some.mp ran
        obtain ⟨_, _, ran⟩ := bind_eq_some.mp ran
        cases ran
        simp
    · cases ran
      exact Nat.le_refl _

theorem grep_block_logs {block : ContiguousBlock} {rounds : ℕ}
    (sent : ∀ chunk, (block.contiguousBlock.length ≤ 2 ^ 31 → Complete chunk) →
      entry (.putChunk flow chunk)) :
    Logs entry (grepBlock mem flow rounds block) := by
  induction rounds generalizing block with
  | zero => exact logs_lift _
  | succ rounds ih =>
    rw [grepBlock]
    split
    · refine (grep_once_logs sent).bind fun ⟨before, left⟩ ran => ?_
      have shorter := grep_once_shorter ran
      refine Logs.bind (ih fun chunk complete => ?_) fun _ _ => logs_pure _
      exact sent chunk fun short => complete (Nat.le_trans shorter short)
    · exact logs_pure _

theorem grep_blocks_logs {blocks : List ContiguousBlock}
    (sent : ∀ block ∈ blocks, ∀ chunk, (block.contiguousBlock.length ≤ 2 ^ 31 → Complete chunk) →
      entry (.putChunk flow chunk)) :
    Logs entry (grepBlocks mem flow blocks) := by
  induction blocks with
  | nil => exact logs_pure _
  | cons block rest ih =>
    obtain ⟨head, tail⟩ := List.forall_mem_cons.mp sent
    exact (grep_block_logs head).bind fun _ _ => (ih tail).bind fun _ _ => logs_pure _

theorem grep_flows_logs {flows : List (FlowId × List ContiguousBlock)}
    (sent : ∀ listed ∈ flows, ∀ block ∈ listed.2, ∀ chunk,
      (block.contiguousBlock.length ≤ 2 ^ 31 → Complete chunk) → entry (.putChunk listed.1 chunk)) :
    Logs entry (grepFlows mem flows) := by
  induction flows with
  | nil => exact logs_pure _
  | cons listed rest ih =>
    obtain ⟨head, tail⟩ := List.forall_mem_cons.mp sent
    exact (grep_blocks_logs head).bind fun _ _ => (ih tail).bind fun _ _ => logs_pure _

end Ditto.Handovers
