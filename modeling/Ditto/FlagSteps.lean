import Ditto.ChunkFronts
import Ditto.ChunkIdReach
import Ditto.IdealSniffer
import Ditto.RecordScan

/-! What sets the flags of the chunks. A chunk that is complete is sent and read as its
own id, since its first block starts with its header; a record that the pass takes out is
marked with the id that is read when it is sent, unless there are too many bytes behind it
for an `int`. -/
namespace Ditto.FlagSteps
open Sniffer ContiguousBlock ReconstructedChunk Words Traces Traced RecordHeaders ChunkHeadings ChunkFronts
  ChunkIdReach RecordScan SegmentHandling

/-! ## The flags -/

/-- The flags say whose data was transmitted. They belong to chunks that are there, and
the chunks listed for a flow know the flow, so that looking a start up adds none. -/
structure Marks (told : List DotChunkRes) (i : IdealSniffTcp) : Prop where
  listed : ∀ name cids, i.flowChunkMap name = some cids → ∀ x ∈ cids,
    ∃ pRc, i.buffers.chunkIdReconstructedChunkMap x = some pRc ∧ pRc.flowSeqMap name ≠ none
  present : ∀ x, i.chunkDone x = true → ∃ pRc, i.buffers.chunkIdReconstructedChunkMap x = some pRc
  flagged : ∀ x, i.chunkDone x = true ↔ ∃ r ∈ told, r.chunkId = x

/-- And the chunks are as they should be. -/
structure Exact (told : List DotChunkRes) (i : IdealSniffTcp) : Prop extends Marks told i where
  ok : ChunksOk i.buffers

variable {p : Pointer} {r : DotChunkRes} {chunkId x : ChunkId} {n size : ℕ} {payload : Pointer} {count : ℤ}
  {seq : TcpSeq} {done : Bool} {b : Buffers} {flow : FlowId} {pRc after : ReconstructedChunk} {name : String}
  {told : List DotChunkRes} {i i' : IdealSniffTcp} {mem : Memory}

theorem Marks.extend (marks : Marks told i) (kept : Extends i.buffers b) :
    Marks told { i with buffers := b } where
  listed := fun name cids shown x member => by
    obtain ⟨pRc, found, known⟩ := marks.listed name cids shown x member
    obtain ⟨after, here, flows⟩ := kept x pRc found
    exact ⟨after, here, flows name known⟩
  present := fun x done => by
    obtain ⟨pRc, found⟩ := marks.present x done
    obtain ⟨after, here, _⟩ := kept x pRc found
    exact ⟨after, here⟩
  flagged := marks.flagged

theorem Marks.mark (marks : Marks told i) (found : i.buffers.chunkIdReconstructedChunkMap r.chunkId = some pRc) :
    Marks (told ++ [r]) (i.setDone r.chunkId) where
  listed := marks.listed
  present := fun x done => by
    by_cases isIt : x = r.chunkId
    · subst isIt
      exact ⟨pRc, found⟩
    · rw [IdealSniffTcp.chunk_done_set_done, Function.update_of_ne isIt] at done
      exact marks.present x done
  flagged := fun x => by
    simp only [List.mem_append, List.mem_singleton, or_and_right, exists_or, exists_eq_left,
      IdealSniffTcp.chunk_done_set_done]
    by_cases isIt : x = r.chunkId
    · subst isIt
      simp
    · rw [Function.update_of_ne isIt, marks.flagged x, or_iff_left fun same => isIt same.symm]

/-- A new entry, of which nothing has been transmitted. -/
theorem Marks.create (marks : Marks told i) (unseen : i.buffers.chunkIdReconstructedChunkMap chunkId = none)
    (pRc : ReconstructedChunk) : Marks told (i.newChunk chunkId pRc) := by
  have kept : Extends i.buffers (i.buffers.setChunk chunkId pRc) := extends_update (fun other held => by
    cases unseen.symm.trans held) rfl
  have silent : ¬ i.chunkDone chunkId = true := fun done => by
    obtain ⟨other, found⟩ := marks.present chunkId done
    cases unseen.symm.trans found
  refine ⟨(marks.extend kept).listed, fun x done => ?_, fun x => ?_⟩
  · rw [IdealSniffTcp.chunk_done_new_chunk] at done
    by_cases isIt : x = chunkId
    · exact ⟨pRc, isIt ▸ Function.update_self ..⟩
    · rw [Function.update_of_ne isIt] at done
      exact (marks.extend kept).present x done
  · rw [IdealSniffTcp.chunk_done_new_chunk]
    by_cases isIt : x = chunkId
    · subst isIt
      rw [Function.update_self, ← marks.flagged]
      exact ⟨nofun, fun done => absurd done silent⟩
    · rw [Function.update_of_ne isIt, marks.flagged]

theorem Exact.lists (exact : Exact told i) (flows : List (FlowId × List ContiguousBlock)) :
    Exact told { i with buffers := { i.buffers with pFlowList := flows } } :=
  ⟨⟨exact.listed, exact.present, exact.flagged⟩, exact.ok⟩

/-- A chunk that is sent is read as its own id. -/
theorem send_done_leads (exact : Exact told i) (readable : done = true → Readable i.buffers chunkId) :
    Leads told (i.sendDone mem chunkId done) Exact := by
  cases done with
  | false => exact leads_pure exact
  | true =>
    obtain ⟨pRc, found, li, rest, shape, _, headed⟩ := readable rfl
    obtain ⟨r, extracted, rfl⟩ := headed.read mem
    have shown : pRc.getData = some li.contiguousBlock := by rw [getData, shape]; rfl
    rw [IdealSniffTcp.sendDone, found, lift_some_bind]
    simp only [shown, IdealSniffTcp.sendChunkToSnifferPlugin, extracted]
    have sent : Leads told (note r) fun told _ => Exact told (i.setDone r.chunkId) :=
      leads_note ⟨exact.toMarks.mark found, exact.ok⟩
    exact sent.bind fun told _ exact => leads_pure exact

theorem fill_and_send_leads (marks : Marks told i)
    (took : ∀ b' done edit,
      (i.buffers.fillGapsInChunk chunkId flow payload count seq).result = some (b', done, edit) →
        Took i.buffers chunkId b' done) :
    Leads told (i.fillAndSend mem chunkId flow payload count seq) fun told made => Exact told made.1 := by
  have filled : Leads told (lift (i.buffers.fillGapsInChunk chunkId flow payload count seq).result)
      fun told made => Exact told { i with buffers := made.1 } ∧ (made.2.1 = true → Readable made.1 chunkId) :=
    leads_lift fun made ran => by
      have taken := took made.1 made.2.1 made.2.2 ran
      exact ⟨⟨marks.extend taken.kept, taken.ok⟩, taken.readable⟩
  refine filled.bind fun told made after => ?_
  exact (send_done_leads after.1 after.2).bind fun told i exact => leads_pure exact

/-! ## Packets -/

theorem fill_any_leads (exact : Exact told i) :
    Leads told (i.fillAndSend mem chunkId flow payload count seq) fun told made => Exact told made.1 :=
  fill_and_send_leads exact.toMarks fun _ _ _ => fill_gaps_took exact.ok

theorem insert_leads (exact : Exact told i) : Leads told (i.insert flow payload size seq) Exact := by
  have stored : Leads told (lift (i.buffers.insert flow payload size seq 0 size).result)
      fun told made => Exact told { i with buffers := made.1 } :=
    leads_lift fun made ran => by
      rw [(insert_frame ran).2]
      exact exact.lists _
  exact stored.bind fun told made after => leads_pure after

theorem candidates_leads {starting : TcpSeq} {length rounds index : ℕ} (exact : Exact told i) :
    Leads told (IdealSniffTcp.candidatesFrom mem chunkId flow starting length rounds index i) Exact := by
  induction rounds generalizing told index i with
  | zero => exact leads_pure exact
  | succ rounds ih =>
    rw [IdealSniffTcp.candidatesFrom]
    split
    · exact leads_pure exact
    · rename_i skipped _
      have block : Leads told (lift ((i.buffers.blocksOf flow)[index + skipped]?)) fun told _ => Exact told i :=
        leads_lift fun _ _ => exact
      refine block.bind fun told li exact => (fill_any_leads exact).bind fun told made exact => ?_
      have moved : Leads told (lift (made.2.moved (index + skipped))) fun told _ => Exact told made.1 :=
        leads_lift fun _ _ => exact
      exact moved.bind fun told place exact => ih (exact.lists _)

/-- A chunk that is announced knows the flow, and those it knew. -/
theorem set_flow_start_known {start : TcpSeq} (known : name = flow.toString ∨ pRc.flowSeqMap name ≠ none) :
    (pRc.setFlowStart flow.toString start).flowSeqMap name ≠ none := by
  by_cases isIt : name = flow.toString
  · simp [ReconstructedChunk.setFlowStart, isIt]
  · simpa [ReconstructedChunk.setFlowStart, isIt] using known

variable {cids : List ChunkId}

/-- The chunks listed for a flow, with one more that knows it. -/
theorem Marks.list (marks : Marks told i)
    (here : i.buffers.chunkIdReconstructedChunkMap chunkId = some after)
    (knows : after.flowSeqMap flow.toString ≠ none)
    (others : ∀ y ∈ cids, y = chunkId ∨ y ∈ infosOf i.toSniffTcp flow) :
    Marks told { i with toSniffTcp := i.setInfos flow cids } := by
  refine ⟨fun name infos shown y member => ?_, marks.present, marks.flagged⟩
  by_cases isIt : name = flow.toString
  · subst isIt
    simp only [SniffTcp.setInfos, Function.update_self] at shown
    cases shown
    rcases others y member with rfl | listed
    · exact ⟨after, here, knows⟩
    · rw [infosOf] at listed
      cases known : i.flowChunkMap flow.toString with
      | none =>
        rw [known] at listed
        cases listed
      | some infos =>
        rw [known] at listed
        exact marks.listed flow.toString infos known y listed
  · simp only [SniffTcp.setInfos, Function.update_of_ne isIt] at shown
    exact marks.listed name infos shown y member

/-- The chunks but for the one that is announced are as they were. -/
theorem others_ok (ok : ChunksOk b) (other : x ≠ chunkId)
    (found : (b.setChunk chunkId after).chunkIdReconstructedChunkMap x = some pRc) : ChunkOk x pRc := by
  rw [Buffers.setChunk] at found
  simp only [Function.update_of_ne other] at found
  exact ok x pRc found

/-- A chunk announced for the first time has the header of the segment. -/
theorem announce_new_leads (exact : Exact told i)
    (unseen : i.buffers.chunkIdReconstructedChunkMap r.chunkId = none)
    (others : ∀ y ∈ cids, y = r.chunkId ∨ y ∈ infosOf i.toSniffTcp flow)
    (extracted : extractChunkResponse payload = some r) (whole : 68 ≤ size) :
    Leads told (({ i with toSniffTcp := i.setInfos flow cids }.newChunk r.chunkId
        ((ReconstructedChunk.create r.chunkId (getLengthFromByteStream payload)).setFlowStart flow.toString seq)
      ).fillAndSend mem r.chunkId flow payload size seq) fun told made => Exact told made.1 := by
  set pRc := (ReconstructedChunk.create r.chunkId (getLengthFromByteStream payload)).setFlowStart flow.toString seq
    with made
  have here : (i.buffers.setChunk r.chunkId pRc).chunkIdReconstructedChunkMap r.chunkId = some pRc :=
    Function.update_self ..
  have known : pRc.flowSeqMap flow.toString = some seq := by
    simp [made, ReconstructedChunk.setFlowStart]
  have knows : pRc.flowSeqMap flow.toString ≠ none := by rw [known]; exact Option.some_ne_none _
  have marks := (exact.toMarks.create unseen pRc).list here knows others
  refine fill_and_send_leads marks fun b' done edit ran => ?_
  exact fill_gaps_first (fun x other pRc => others_ok exact.ok other) here rfl known
    (extract_fields extracted).1 (get_length_small payload) extracted whole ran

/-- A chunk announced again keeps the header it has, if it has one. -/
theorem announce_again_leads (exact : Exact told i)
    (seen : i.buffers.chunkIdReconstructedChunkMap r.chunkId = some pRc)
    (others : ∀ y ∈ cids, y = r.chunkId ∨ y ∈ infosOf i.toSniffTcp flow)
    (extracted : extractChunkResponse payload = some r) (whole : 68 ≤ size) :
    Leads told ({ i with
      flowChunkMap := (i.setInfos flow cids).flowChunkMap
      buffers := i.buffers.setChunk r.chunkId (pRc.setFlowStart flow.toString seq) }.fillAndSend
        mem r.chunkId flow payload size seq) fun told made => Exact told made.1 := by
  set opened := pRc.setFlowStart flow.toString seq with made
  have here : (i.buffers.setChunk r.chunkId opened).chunkIdReconstructedChunkMap r.chunkId = some opened :=
    Function.update_self ..
  have kept : Extends i.buffers (i.buffers.setChunk r.chunkId opened) := extends_update (fun other held name known => by
    cases seen.symm.trans held
    exact set_flow_start_known (Or.inr known)) rfl
  have known : opened.flowSeqMap flow.toString = some seq := by
    simp [made, ReconstructedChunk.setFlowStart]
  have knows : opened.flowSeqMap flow.toString ≠ none := by rw [known]; exact Option.some_ne_none _
  have marks := (exact.toMarks.extend kept).list here knows others
  obtain ⟨long, short, shape⟩ := exact.ok r.chunkId pRc seen
  refine fill_and_send_leads marks fun b' done edit ran => ?_
  rcases shape with ⟨empty, _⟩ | front
  · exact fill_gaps_first (fun x other pRc => others_ok exact.ok other) here empty known long short extracted whole ran
  · refine fill_gaps_took (fun x other held => ?_) ran
    by_cases isIt : x = r.chunkId
    · subst isIt
      cases here.symm.trans held
      exact ⟨long, short, Or.inr front⟩
    · exact others_ok exact.ok isIt held

/-- An announcement: the chunk has the header of the segment, or the one it had. -/
theorem announce_leads (exact : Exact told i)
    (others : ∀ y ∈ cids, y = r.chunkId ∨ y ∈ infosOf i.toSniffTcp flow)
    (extracted : extractChunkResponse payload = some r) (whole : 68 ≤ size) :
    Leads told ({ i with toSniffTcp := i.setInfos flow cids }.announceChunk mem flow r.chunkId payload size seq)
      Exact := by
  rw [IdealSniffTcp.announceChunk]
  cases seen : i.buffers.chunkIdReconstructedChunkMap r.chunkId with
  | none =>
    simp only [SniffTcp.setInfos, seen]
    refine (announce_new_leads exact seen others extracted whole).bind fun told made exact => ?_
    rw [IdealSniffTcp.dealWithCandidatesForChunk]
    have chunk : Leads told (lift (made.1.buffers.chunkIdReconstructedChunkMap r.chunkId)) fun told _ =>
        Exact told made.1 := leads_lift fun _ _ => exact
    exact chunk.bind fun told pRc exact => candidates_leads exact
  | some pRc =>
    simp only [SniffTcp.setInfos, seen]
    refine (announce_again_leads exact seen others extracted whole).bind fun told made exact => ?_
    exact leads_pure exact

theorem send_done_flows (ran : (i.sendDone mem chunkId done).result = some i') :
    i'.flowChunkMap = i.flowChunkMap := by
  cases done with
  | false =>
    cases ran
    rfl
  | true =>
    obtain ⟨pRc, _, ran⟩ := bind_eq_some.mp ran
    split at ran
    · cases ran
      rfl
    · obtain ⟨_, _, ran⟩ := bind_eq_some.mp ran
      cases ran
      rfl

/-- The front of a segment does not change what is listed for the flows. -/
theorem deal_flows (ran : (i.dealWithPktWithoutChunkid mem flow payload size seq).result = some i') :
    i'.flowChunkMap = i.flowChunkMap := by
  rw [IdealSniffTcp.dealWithPktWithoutChunkid] at ran
  split at ran
  · cases ran
    rfl
  · split at ran
    · obtain ⟨made, filled, rfl⟩ := map_eq_some.mp ran
      obtain ⟨_, _, filled⟩ := bind_eq_some.mp filled
      obtain ⟨_, sent, filled⟩ := bind_eq_some.mp filled
      cases filled
      exact (send_done_flows sent).trans rfl
    · obtain ⟨_, _, ran⟩ := bind_eq_some.mp ran
      cases ran
      rfl

theorem deal_leads (exact : Exact told i) :
    Leads told (i.dealWithPktWithoutChunkid mem flow payload size seq) Exact := by
  rw [IdealSniffTcp.dealWithPktWithoutChunkid]
  split
  · exact leads_pure exact
  · split
    · rw [← bind_pure_comp]
      exact (fill_any_leads exact).bind fun told made exact => leads_pure exact
    · exact insert_leads exact

/-- A header that a segment shows is all in the segment. -/
def HeaderInside (event : Memory × SniffEvent) : Prop :=
  match event.2 with
  | .segment _ payload around _ => ∀ chunkId chunkOffset,
      getChunkId (.ofBytes payload around) payload.length = some (chunkId, chunkOffset) →
        chunkOffset + 68 ≤ payload.length
  | .grepFlows => True

theorem get_chunk_id_reply {chunkOffset : ℕ} (shown : getChunkId payload size = some (chunkId, chunkOffset)) :
    ∃ r, extractChunkResponse (payload.advance chunkOffset) = some r ∧ r.chunkId = chunkId := by
  obtain ⟨offset, _, shown⟩ := Option.bind_eq_some_iff.mp shown
  obtain ⟨r, extracted, shown⟩ := Option.bind_eq_some_iff.mp shown
  cases shown
  exact ⟨r, extracted, rfl⟩

/-- **A segment** keeps the flags exact, whatever it carries. -/
theorem handle_ip_leads (exact : Exact told i) (gMultiChances : Bool)
    (inside : ∀ chunkId chunkOffset, getChunkId payload size = some (chunkId, chunkOffset) →
      chunkOffset + 68 ≤ size) :
    Leads told (i.handleIp gMultiChances mem flow payload size seq) Exact := by
  rw [IdealSniffTcp.handleIp]
  split
  · exact leads_pure exact
  split
  · exact insert_leads exact
  split
  · exact insert_leads exact
  · rename_i chunkId chunkOffset known shown
    have whole : 68 ≤ size - chunkOffset := Nat.le_sub_of_add_le' (inside _ _ shown)
    obtain ⟨r, extracted, rfl⟩ := get_chunk_id_reply shown
    have before : Leads told (i.insertBefore flow payload chunkOffset seq) Exact := by
      rw [IdealSniffTcp.insertBefore]
      split
      · exact insert_leads exact
      · exact leads_pure exact
    refine before.bind fun told i exact => announce_leads exact ?_ extracted whole
    exact fun y member => Or.inl (List.mem_singleton.mp member)
  · exact deal_leads exact
  · rename_i cids chunkId chunkOffset known shown
    have whole : 68 ≤ size - chunkOffset := Nat.le_sub_of_add_le' (inside _ _ shown)
    obtain ⟨r, extracted, rfl⟩ := get_chunk_id_reply shown
    have before : Leads told (i.dealBefore mem flow payload chunkOffset seq) fun told i' =>
        Exact told i' ∧ i'.flowChunkMap = i.flowChunkMap := by
      rw [IdealSniffTcp.dealBefore]
      split
      · exact fun i' ran => ⟨deal_leads exact i' ran, deal_flows ran⟩
      · exact leads_pure ⟨exact, rfl⟩
    refine before.bind fun told i' front => announce_leads front.1 (fun y member => ?_) extracted whole
    have listed : infosOf i'.toSniffTcp flow = cids := by
      rw [infosOf, front.2, known]
      rfl
    rw [listed]
    split at member
    · exact Or.inr member
    · rw [List.mem_append, List.mem_singleton] at member
      exact member.symm

/-! ## The pass over the blocks -/

/-- The pass takes a reply out of the block that has `2 ^ 31` bytes or more from its
start to the end of the block, too many for the `int` that the id is read with. -/
inductive Oversized (mem : Memory) : ContiguousBlock → Prop
  | here {block : ContiguousBlock} {start last : UInt32} (scanned : Scanned block)
      (found : firstRecord (mem.cStr block.contiguousBlock) block.contiguousBlock.length = some (start, last))
      (whole : last.toNat ≤ block.contiguousBlock.length)
      (isReply : extractChunkResponse ((mem.cStr block.contiguousBlock).advance start.toNat) ≠ none)
      (far : start.toNat + 2 ^ 31 ≤ block.contiguousBlock.length) : Oversized mem block
  | later {block : ContiguousBlock} {start last : UInt32} (scanned : Scanned block)
      (found : firstRecord (mem.cStr block.contiguousBlock) block.contiguousBlock.length = some (start, last))
      (whole : last.toNat ≤ block.contiguousBlock.length)
      (rest : Oversized mem (behind block last)) : Oversized mem block

theorem not_oversized_of_read {block : ContiguousBlock} (read : block.bModified = false) : ¬ Oversized mem block := by
  intro oversized
  have scanned : Scanned block := by cases oversized <;> assumption
  exact Bool.false_ne_true (read.symm.trans scanned.1)

theorem Oversized.long {block : ContiguousBlock} (oversized : Oversized mem block) :
    2 ^ 31 ≤ block.contiguousBlock.length := by
  induction oversized with
  | here _ _ _ _ far => omega
  | later _ _ _ _ ih =>
    simp only [behind, List.length_drop] at ih
    omega

/-- A record that is found shows its header where it starts. -/
theorem found_shows {start last : UInt32} (found : firstRecord p size = some (start, last))
    (near : start.toNat < 2 ^ 31) : Shows (p.advance start.toNat) 0 ∧ start.toNat < size := by
  obtain ⟨other, searched, ends⟩ := Option.bind_eq_some_iff.mp found
  cases ends
  have is := List.find?_some searched
  rw [← UInt32.ofNat_toNat (x := start), is_record_at (by omega)] at is
  obtain ⟨mark, inside, masked⟩ := is
  refine ⟨⟨?_, masked⟩, by omega⟩
  rwa [Pointer.advance, Int.natCast_zero, Int.add_zero]

/-- The id that is read at a header. -/
theorem get_chunk_id_here (shows : Shows p 0) (nonempty : 0 < n) :
    getChunkId p n = (extractChunkResponse p).map fun r => (r.chunkId, 0) := by
  have first := get_chunk_id_first nonempty shows fun j earlier => absurd earlier (Nat.not_lt_zero j)
  rwa [Int.natCast_zero, Pointer.advance_zero] at first

/-- A record that is sent is marked, if its bytes can be counted in an `int`. -/
theorem mark_leads {held : ℕ} (exact : Exact told i) (shows : Shows p 0) (nonempty : 0 < held)
    (counted : extractChunkResponse p ≠ none → held < 2 ^ 31) :
    Leads told (IdealSniffTcp.sendChunkToSnifferPlugin p) fun told _ => Exact told (i.markRecord p held) := by
  rw [IdealSniffTcp.sendChunkToSnifferPlugin, IdealSniffTcp.markRecord]
  cases extracted : extractChunkResponse p with
  | none =>
    have unread : getChunkId p (toInt (UInt32.ofNat held)).toNat = none := by
      rcases Nat.eq_zero_or_pos (toInt (UInt32.ofNat held)).toNat with none | some
      · rw [none]
        rfl
      · rw [get_chunk_id_here shows some, extracted]
        rfl
    simp only [unread]
    exact leads_pure exact
  | some r =>
    have small := counted (by rw [extracted]; nofun)
    have word : (UInt32.ofNat held).toNat = held := by
      rw [UInt32.toNat_ofNat']
      omega
    have count : (toInt (UInt32.ofNat held)).toNat = held := by
      rw [toInt_of_small (by omega), word]
      rfl
    rw [count, get_chunk_id_here shows nonempty, extracted, Option.map_some]
    dsimp only
    split
    · rename_i unseen
      have fresh : ChunkOk r.chunkId (.create r.chunkId (getLengthFromByteStream p)) :=
        ⟨(extract_fields extracted).1, get_length_small p, Or.inl ⟨rfl, fun _ => rfl⟩⟩
      have here : Function.update i.buffers.chunkIdReconstructedChunkMap r.chunkId
          (some (.create r.chunkId (getLengthFromByteStream p))) r.chunkId =
            some (.create r.chunkId (getLengthFromByteStream p)) := Function.update_self ..
      refine leads_note ⟨(exact.toMarks.create unseen _).mark here, fun x pRc held => ?_⟩
      by_cases isIt : x = r.chunkId
      · subst isIt
        cases here.symm.trans held
        exact fresh
      · exact others_ok exact.ok isIt held
    · rename_i pRc seen
      exact leads_note ⟨exact.toMarks.mark seen, exact.ok⟩

/-- Bytes are only put in front when an `int` can count them. -/
theorem append_near {start : UInt32} {pCb : ContiguousBlock}
    (appended : ContiguousBlock.create.append p (toInt start) seq = some pCb) : start.toNat < 2 ^ 31 := by
  obtain ⟨held, counted, _⟩ := Option.bind_eq_some_iff.mp appended
  rw [appendChars] at counted
  split at counted
  · rename_i positive
    by_contra far
    have bound := start.toNat_lt
    rw [toInt, if_neg far] at positive
    omega
  · cases counted

variable {block : ContiguousBlock}

theorem grep_once_leads (exact : Exact told i) (scanned : Scanned block) (free : ¬ Oversized mem block) :
    Leads told (i.grepContiguousBlockForChunks mem block) fun told made =>
      Exact told made.1 ∧ ¬ Oversized mem made.2.2 := by
  rw [IdealSniffTcp.grepContiguousBlockForChunks]
  cases found : firstRecord (mem.cStr block.contiguousBlock) block.contiguousBlock.length with
  | none =>
    dsimp only
    split
    · exact leads_pure ⟨exact, not_oversized_of_read rfl⟩
    · exact leads_lift nofun
  | some place =>
    obtain ⟨start, last⟩ := place
    dsimp only
    split
    · rename_i whole
      set marked := i.markRecord ((mem.cStr block.contiguousBlock).advance start.toNat)
        (block.contiguousBlock.length - start.toNat)
      -- a record that starts too far for an `int` ends the program after it is sent
      have sent : Leads told
          (IdealSniffTcp.sendChunkToSnifferPlugin ((mem.cStr block.contiguousBlock).advance start.toNat))
          fun told _ => start.toNat < 2 ^ 31 → Exact told marked := by
        intro done ran near
        obtain ⟨shows, inside⟩ := found_shows found near
        refine mark_leads exact shows (by omega) (fun isReply => ?_) done ran
        by_contra far
        exact free (.here scanned found whole isReply (by omega))
      have left : ¬ Oversized mem (behind block last) := fun rest => free (.later scanned found whole rest)
      refine sent.bind fun told _ exact => ?_
      split
      · rename_i first
        exact leads_pure ⟨exact (first ▸ by decide), left⟩
      · have object : Leads told (lift (mem.tempPointer block.contiguousBlock (toInt start)))
            fun told _ => start.toNat < 2 ^ 31 → Exact told marked := leads_lift fun _ _ => exact
        refine object.bind fun told tempPointer exact => ?_
        have front : Leads told
            (lift (ContiguousBlock.create.append tempPointer (toInt start) block.startingSeqNumber))
            fun told _ => Exact told marked := leads_lift fun pCb appended => exact (append_near appended)
        exact front.bind fun told pCb exact => leads_pure ⟨exact, left⟩
    · exact leads_pure ⟨exact, not_oversized_of_read rfl⟩

theorem grep_block_leads {rounds : ℕ} (exact : Exact told i) (free : ¬ Oversized mem block) :
    Leads told (IdealSniffTcp.grepBlock mem rounds i block) fun told made => Exact told made.1 := by
  induction rounds generalizing told i block with
  | zero => exact leads_lift nofun
  | succ rounds ih =>
    rw [IdealSniffTcp.grepBlock]
    split
    · rename_i scanned
      refine (grep_once_leads exact scanned free).bind fun told made after => ?_
      exact (ih after.1 after.2).bind fun told rest exact => leads_pure exact
    · exact leads_pure exact

theorem grep_blocks_leads {blocks : List ContiguousBlock} (exact : Exact told i)
    (free : ∀ block ∈ blocks, ¬ Oversized mem block) :
    Leads told (IdealSniffTcp.grepBlocks mem i blocks) fun told made => Exact told made.1 := by
  induction blocks generalizing told i with
  | nil => exact leads_pure exact
  | cons block rest ih =>
    obtain ⟨head, tail⟩ := List.forall_mem_cons.mp free
    rw [IdealSniffTcp.grepBlocks]
    refine (grep_block_leads exact head).bind fun told made exact => ?_
    exact (ih exact tail).bind fun told rest exact => leads_pure exact

theorem grep_flows_leads {flows : List (FlowId × List ContiguousBlock)} (exact : Exact told i)
    (free : ∀ entry ∈ flows, ∀ block ∈ entry.2, ¬ Oversized mem block) :
    Leads told (IdealSniffTcp.grepFlows mem i flows) fun told made => Exact told made.1 := by
  induction flows generalizing told i with
  | nil => exact leads_pure exact
  | cons entry rest ih =>
    obtain ⟨head, tail⟩ := List.forall_mem_cons.mp free
    rw [IdealSniffTcp.grepFlows]
    refine (grep_blocks_leads exact head).bind fun told made exact => ?_
    exact (ih exact tail).bind fun told rest exact => leads_pure exact

/-- **A pass** keeps the flags exact if an `int` can count the bytes behind each reply. -/
theorem grep_flows_for_chunks_leads (exact : Exact told i)
    (free : ∀ entry ∈ i.buffers.pFlowList, ∀ block ∈ entry.2, ¬ Oversized mem block) :
    Leads told (i.grepFlowsForChunks mem) Exact := by
  refine (grep_flows_leads exact free).bind fun told made exact => ?_
  exact leads_pure (exact.lists made.2)

end Ditto.FlagSteps
