import Ditto.ChunkClaiming
import Ditto.ChunkInfoCache
import Ditto.SliceBounds

/-! Where a segment without a chunk id goes. The first chunk of its flow that it starts
inside gets what lies in that chunk, and the rest goes to the flow's list as it is, also
what lies in other chunks. So a byte reaches its place exactly if the other chunks had
theirs, the chunk's walk swallows no block and the list's does not meet an overlap. -/
namespace Ditto.HeaderlessSegments
open Sniffer Buffers SniffTcp ContiguousBlock ChunkReassembly Spans Words Runs Traces Traced FlowLists
open ChunkHeadings FlowInsertion FlowStore SegmentHandling ChunkAccounts OverlappingSegments ChunkClaiming
open ChunkInfoCache (Unmoved Coherent)
open SliceBounds (Roomy)

/-- The blocks of the flows are plain, and those of the chunks in order. -/
structure Tidy (b : Buffers) : Prop where
  plain : AllPlain b
  chunks : ∀ chunkId pRc, b.chunkIdReconstructedChunkMap chunkId = some pRc →
    ChunkAccounts.Ordered pRc.length pRc.lcb ∧ 0 < pRc.length ∧ pRc.length < 2 ^ 31

variable {b b' t : Buffers} {mem : Memory} {chunkId : ChunkId} {flow : FlowId} {payload : Pointer}
  {size len room : ℕ} {seq start : TcpSeq} {pRc : ReconstructedChunk} {li : ContiguousBlock} {edit : Edit}
  {first held : ℤ}

/-! ## Tidiness -/

theorem insert_tidy (tidy : Tidy b) (positive : 0 < size) (fits : seq.toNat + size < 2 ^ 32)
    (ran : (b.insert flow payload size seq first held).result = some (b', edit)) : Tidy b' := by
  obtain ⟨walked, frame⟩ := insert_frame ran
  refine ⟨insert_flow_keeps (P := fun _ => Plain) (inserts_plain positive fits) tidy.plain walked, ?_⟩
  rw [frame]
  exact tidy.chunks

theorem set_chunk_tidy (tidy : Tidy b) (ordered : ChunkAccounts.Ordered pRc.length pRc.lcb)
    (positive : 0 < pRc.length) (short : pRc.length < 2 ^ 31) : Tidy (b.setChunk chunkId pRc) := by
  refine ⟨tidy.plain, fun other held found => ?_⟩
  simp only [setChunk] at found
  by_cases isIt : other = chunkId
  · rw [isIt, Function.update_self] at found
    cases found
    exact ⟨ordered, positive, short⟩
  · rw [Function.update_of_ne isIt] at found
    exact tidy.chunks other held found

/-- The number that the bytes past a chunk start at. -/
theorem past_number (inside : (seq - start).toNat < len) (short : len < 2 ^ 31) (small : size < 2 ^ 31)
    (fits : seq.toNat + size < 2 ^ 32) :
    ∃ diff : ℕ, pastChunk start len size seq = diff ∧ diff = (seq - start).toNat + size - len ∧ diff ≤ size ∧
      (seq + UInt32.ofInt size - UInt32.ofInt diff).toNat = seq.toNat + (size - diff) := by
  have past := past_inside inside short small
  have last := toNat_add_ofInt seq size fits
  refine ⟨(seq - start).toNat + size - len, by omega, rfl, by omega, ?_⟩
  have whole : (UInt32.ofInt ((seq - start).toNat + size - len : ℕ)).toNat = (seq - start).toNat + size - len := by
    rw [toNat_ofInt]
    omega
  rw [toNat_sub_eq (by omega), whole, last]
  omega

/-- A chunk that takes a segment stays in order, and so does the flow's list. -/
theorem fill_and_send_tidy (ran : (b.fillAndSend mem chunkId flow payload size seq).result = some (b', edit))
    (tidy : Tidy b) (copied : copyOf b chunkId flow = some (start, len)) (inside : (seq - start).toNat < len)
    (positive : 0 < size) (small : size < 2 ^ 31) (fits : seq.toNat + size < 2 ^ 32) : Tidy b' := by
  obtain ⟨pRc, found, known, rfl⟩ := chunk_of_copy copied
  obtain ⟨ordered, occupied, short⟩ := tidy.chunks chunkId pRc found
  obtain ⟨t, _, pRc', dups, _, stored, ran', _, length, filled⟩ :=
    fill_and_send_takes mem payload found known ordered short positive small inside
  cases ran.symm.trans ran'
  obtain ⟨diff, past, isDiff, _, number⟩ := past_number inside short small fits
  have tidy' : Tidy t := by
    rw [past, insertPast] at stored
    split at stored
    · exact insert_tidy tidy (by omega) (by omega) stored
    · cases stored
      exact tidy
  rw [← length] at occupied short
  have ordered' : ChunkAccounts.Ordered pRc'.length pRc'.lcb := by
    rw [length]
    exact filled.ok
  have put := @set_chunk_tidy t chunkId pRc' tidy' ordered' occupied short
  exact ⟨put.plain, put.chunks⟩

theorem roomy_of_plain (plain : AllPlain b) (room : volume (b.blocksOf flow) ≤ size) : Roomy flow size b := by
  refine ⟨fun other li member => ?_, room⟩
  have sized := (plain.flow_blocks other li member).sized
  have proper := (plain.flow_blocks other li member).proper
  omega

/-- The rounds of a new chunk leave it and the lists tidy. -/
theorem candidates_tidy {index rounds : ℕ}
    (ran : (candidatesFrom mem chunkId flow start len rounds index b).result = some b')
    (tidy : Tidy b) (copied : copyOf b chunkId flow = some (start, len)) (short : len < 2 ^ 31)
    (limited : volume (b.blocksOf flow) ≤ room) (small : room < 2 ^ 31) : Tidy b' := by
  refine (candidates_invariant (fun t => Tidy t ∧ copyOf t chunkId flow = some (start, len) ∧
    volume (t.blocksOf flow) ≤ room) ?_ ⟨tidy, copied, limited⟩ ran).1
  rintro t t' i li inserted place ⟨tidy, copied, limited⟩ taken starts filled moved
  have member := List.mem_of_getElem? taken
  have roomy : Roomy flow room t := roomy_of_plain tidy.plain limited
  have roomy' := SliceBounds.candidate_roomy roomy small copied short taken starts filled moved
  have plain := tidy.plain.flow_blocks flow li member
  have sized := plain.sized
  have proper := plain.proper
  have bound := li.nextExpectedSeqNumber.toNat_lt
  have long := length_le_volume member
  simp only [startOf, nextOf] at sized proper
  rw [to_int_length (by omega)] at filled
  have tidy' := fill_and_send_tidy filled tidy copied (inside_of_within starts short) (by omega) (by omega) (by omega)
  refine ⟨⟨?_, tidy'.chunks⟩, ?_, roomy'.limited⟩
  · exact erase_block_keeps (P := fun _ => Plain) tidy'.plain
  · rw [copyOf, headings_of_lists, fill_and_send_headings filled]
    exact copied

/-- A segment that shows a chunk leaves all tidy. -/
theorem announce_tidy (ran : (b.announceChunk mem flow chunkId payload size seq).result = some b')
    (tidy : Tidy b) (shown : 0 < getLengthFromByteStream payload) (positive : 0 < size)
    (limited : volume (b.blocksOf flow) + size < 2 ^ 31) (fits : seq.toNat + size < 2 ^ 32) : Tidy b' := by
  obtain ⟨t, edit, filled, after⟩ := announce_cases ran
  have fresh : ChunkAccounts.Ordered (opened b chunkId flow payload seq).length (opened b chunkId flow payload seq).lcb ∧
      0 < (opened b chunkId flow payload seq).length ∧ (opened b chunkId flow payload seq).length < 2 ^ 31 := by
    rw [opened]
    cases found : b.chunkIdReconstructedChunkMap chunkId with
    | none => exact ⟨blocks_ok_nil, shown, get_length_small payload⟩
    | some pRc => exact tidy.chunks chunkId pRc found
  obtain ⟨ordered, occupied, short⟩ := fresh
  have tidy' := @set_chunk_tidy b chunkId _ tidy ordered occupied short
  have inside : (seq - seq).toNat < (opened b chunkId flow payload seq).length := by simpa using occupied
  have copied : copyOf (b.setChunk chunkId (opened b chunkId flow payload seq)) chunkId flow =
      some (seq, (opened b chunkId flow payload seq).length) := copy_of_announced
  have taken := fill_and_send_tidy filled tidy' copied inside positive (by omega) fits
  rcases after with rfl | ⟨_, ran⟩
  · exact taken
  · have copied' : copyOf t chunkId flow = some (seq, (opened b chunkId flow payload seq).length) := by
      rw [copyOf, fill_and_send_headings filled]
      exact copied
    obtain ⟨pRc, found, known, length⟩ := chunk_of_copy copied'
    rw [deal_with_candidates_eq found known, length] at ran
    obtain ⟨grown, _⟩ := SliceBounds.fill_and_send_grown copied filled
    have past := past_inside inside short (show size < 2 ^ 31 by omega)
    have room : volume (t.blocksOf flow) ≤ volume (b.blocksOf flow) + _ := grown.volume_le
    exact candidates_tidy ran taken copied' short
      (show volume (t.blocksOf flow) ≤ volume (b.blocksOf flow) + size by omega) limited

/-! ## The pass over the blocks -/

/-- A block that is open and has as many bytes as its numbers say. -/
structure Counted (li : ContiguousBlock) : Prop where
  opened : li.bInit = false
  sized : nextOf li = startOf li + li.contiguousBlock.length

theorem found_inside {p : Pointer} {count : ℕ} {first last : UInt32}
    (found : firstRecord p count = some (first, last)) : first.toNat < count := by
  obtain ⟨place, searched, found⟩ := Option.bind_eq_some_iff.mp found
  cases found
  obtain ⟨i, inside, rfl⟩ := List.mem_map.mp (List.mem_of_find?_eq_some searched)
  rw [UInt32.toNat_ofNat']
  exact (Nat.mod_le _ _).trans_lt (List.mem_range.mp inside)

/-- A round of the pass puts plain blocks in front and leaves a counted one. -/
theorem grep_once_plain {block left : ContiguousBlock} {before : List ContiguousBlock}
    (ran : (grepContiguousBlockForChunks mem flow block).result = some (before, left)) (counted : Counted block) :
    (∀ li ∈ before, Plain li) ∧ Counted left := by
  obtain ⟨isOpen, sized⟩ := counted
  have bound := block.nextExpectedSeqNumber.toNat_lt
  simp only [startOf, nextOf] at sized
  rw [grepContiguousBlockForChunks] at ran
  split at ran
  · split at ran
    · cases ran
      exact ⟨List.forall_mem_nil _, isOpen, sized⟩
    · cases ran
  · rename_i first last found
    split at ran
    · rename_i whole
      have taken : Counted (RecordScan.behind block last) := by
        refine ⟨isOpen, ?_⟩
        have moved : (block.startingSeqNumber + last).toNat = block.startingSeqNumber.toNat + last.toNat := by
          rw [UInt32.toNat_add]
          omega
        simp only [RecordScan.behind, startOf, nextOf, List.length_drop, moved]
        omega
      obtain ⟨_, _, ran⟩ := bind_eq_some.mp ran
      split at ran
      · cases ran
        exact ⟨List.forall_mem_nil _, taken⟩
      · rename_i middle
        obtain ⟨_, _, ran⟩ := bind_eq_some.mp ran
        obtain ⟨made, filled, ran⟩ := bind_eq_some.mp ran
        cases ran
        refine ⟨List.forall_mem_singleton.mpr ?_, taken⟩
        have inside := found_inside found
        have positive : 0 < first.toNat := Nat.pos_of_ne_zero fun zero => middle (UInt32.toNat_inj.mp zero)
        by_cases near : first.toNat < 2 ^ 31
        · rw [toInt_of_small near] at filled
          obtain ⟨⟨opened, sized, proper⟩, _⟩ := create_plain positive (by omega) filled
          exact ⟨opened, sized, proper⟩
        · have negative : ¬ 0 ≤ toInt first := by
            have below := first.toNat_lt
            rw [toInt, if_neg near]
            omega
          simp [ContiguousBlock.append, appendChars, negative] at filled
    · cases ran
      exact ⟨List.forall_mem_nil _, isOpen, sized⟩

theorem grep_block_plain {block : ContiguousBlock} {left : List ContiguousBlock} {rounds : ℕ}
    (ran : (grepBlock mem flow rounds block).result = some left) (counted : Counted block) :
    ∀ li ∈ left, Plain li := by
  induction rounds generalizing block left with
  | zero => cases ran
  | succ rounds ih =>
    rw [grepBlock] at ran
    split at ran
    · obtain ⟨⟨before, after⟩, grepped, ran⟩ := bind_eq_some.mp ran
      obtain ⟨last, walked, ran⟩ := bind_eq_some.mp ran
      cases ran
      obtain ⟨plain, rest⟩ := grep_once_plain grepped counted
      exact List.forall_mem_append.mpr ⟨plain, ih walked rest⟩
    · cases ran
      split
      · exact List.forall_mem_nil _
      · rename_i occupied
        have sized := counted.sized
        have apart : startOf block ≠ nextOf block := fun same => occupied (UInt32.toNat_inj.mp same)
        exact List.forall_mem_singleton.mpr ⟨counted.opened, sized, by omega⟩

theorem grep_blocks_plain {blocks left : List ContiguousBlock}
    (ran : (grepBlocks mem flow blocks).result = some left) (plain : ∀ li ∈ blocks, Plain li) :
    ∀ li ∈ left, Plain li := by
  induction blocks generalizing left with
  | nil =>
    cases ran
    exact nofun
  | cons li rest ih =>
    obtain ⟨head, tail⟩ := List.forall_mem_cons.mp plain
    obtain ⟨own, walked, ran⟩ := bind_eq_some.mp ran
    obtain ⟨others, walked', ran⟩ := bind_eq_some.mp ran
    cases ran
    exact List.forall_mem_append.mpr ⟨grep_block_plain walked ⟨head.opened, head.sized⟩, ih walked' tail⟩

theorem grep_flows_plain {flows left : List (FlowId × List ContiguousBlock)}
    (ran : (grepFlows mem flows).result = some left) (plain : ∀ entry ∈ flows, ∀ li ∈ entry.2, Plain li) :
    ∀ entry ∈ left, ∀ li ∈ entry.2, Plain li := by
  induction flows generalizing left with
  | nil =>
    cases ran
    exact nofun
  | cons entry rest ih =>
    obtain ⟨head, tail⟩ := List.forall_mem_cons.mp plain
    obtain ⟨own, walked, ran⟩ := bind_eq_some.mp ran
    obtain ⟨others, walked', ran⟩ := bind_eq_some.mp ran
    cases ran
    exact List.forall_mem_cons.mpr ⟨grep_blocks_plain walked head, ih walked' tail⟩

theorem grep_tidy (ran : (b.grepFlowsForChunks mem).result = some b') (tidy : Tidy b) :
    Tidy b' ∧ headings b' = headings b := by
  obtain ⟨left, walked, ran⟩ := bind_eq_some.mp ran
  cases ran
  exact ⟨⟨grep_flows_plain walked tidy.plain, tidy.chunks⟩, rfl⟩

/-! ## Steps of a sniffer -/

/-- What a running sniffer keeps while no chunk moves and no number wraps. -/
structure Ready (s : SniffTcp ChunkInfo) : Prop where
  tidy : Tidy s.buffers
  coherent : Coherent s
  fits : ∀ flow infos, s.flowChunkMap flow = some infos → ∀ ci ∈ infos, ci.sSeqNum.toNat + ci.chunkLength < 2 ^ 32

variable {s s' : SniffTcp ChunkInfo}

theorem Ready.info_fits (ready : Ready s) (flow : FlowId) :
    ∀ ci ∈ infosOf s flow, ci.sSeqNum.toNat + ci.chunkLength < 2 ^ 32 := by
  intro ci member
  rw [infosOf] at member
  cases found : s.flowChunkMap flow.toString with
  | none => simp [found] at member
  | some infos =>
    rw [found, Option.getD_some] at member
    exact ready.fits _ _ found ci member

/-- A chunk of a flow has the start and the length that are remembered. -/
theorem Ready.copied (ready : Ready s) {ci : ChunkInfo} (member : ci ∈ infosOf s flow) :
    copyOf s.buffers ci.chunkId flow = some (ci.sSeqNum, ci.chunkLength) := by
  obtain ⟨heading, found, start, length⟩ := ready.coherent.infos flow ci member
  simp [copyOf, found, start, length]

/-- The segment is inside the chunk it is routed to. -/
theorem Ready.routed_inside (ready : Ready s) {ci : ChunkInfo} (chosen : routed s flow seq = some ci) :
    ci ∈ infosOf s flow ∧ within ci.sSeqNum ci.chunkLength seq = true ∧ ci.chunkLength < 2 ^ 31 ∧
      (seq - ci.sSeqNum).toNat < ci.chunkLength := by
  have member : ci ∈ infosOf s flow := List.mem_of_find?_eq_some chosen
  have inside : within ci.sSeqNum ci.chunkLength seq = true := by
    rw [routed, chunkFor] at chosen
    simpa [Remembers.place] using List.find?_some chosen
  obtain ⟨pRc, found, _, length⟩ := chunk_of_copy (ready.copied member)
  have short := (ready.tidy.chunks ci.chunkId pRc found).2.2
  rw [length] at short
  exact ⟨member, inside, short, inside_of_within inside short⟩

theorem front_tidy (ran : (front s mem flow payload size seq held).result = some b') (ready : Ready s)
    (small : size < 2 ^ 31) (fits : seq.toNat + size < 2 ^ 32) :
    Tidy b' ∧ volume (b'.blocksOf flow) ≤ volume (s.buffers.blocksOf flow) + size := by
  rw [front] at ran
  split at ran
  · cases ran
    exact ⟨ready.tidy, Nat.le_add_right ..⟩
  · split at ran
    · rename_i ci chosen
      obtain ⟨⟨t, edit⟩, filled, ran⟩ := map_eq_some.mp ran
      cases ran
      obtain ⟨member, _, short, inside⟩ := ready.routed_inside chosen
      have copied := ready.copied member
      obtain ⟨grown, _⟩ := SliceBounds.fill_and_send_grown copied filled
      have past := past_inside inside short small
      have room : volume (t.blocksOf flow) ≤ volume (s.buffers.blocksOf flow) + _ := grown.volume_le
      exact ⟨fill_and_send_tidy filled ready.tidy copied inside (by omega) small fits,
        show volume (t.blocksOf flow) ≤ volume (s.buffers.blocksOf flow) + size by omega⟩
    · obtain ⟨⟨t, edit⟩, stored, ran⟩ := map_eq_some.mp ran
      cases ran
      exact ⟨insert_tidy ready.tidy (by omega) fits stored,
        (SliceBounds.insert_grown (by omega) stored).1.volume_le⟩

/-- What the steps of a run have to meet: no number wraps, a flow stores fewer bytes than an
`int` counts, and a chunk that is shown again is where and as long as it was. -/
structure Orderly (s : SniffTcp ChunkInfo) (flow : FlowId) (payload : Pointer) (size : ℕ) (seq : TcpSeq) : Prop where
  fits : seq.toNat + size < 2 ^ 32
  room : volume (s.buffers.blocksOf flow) + size < 2 ^ 31
  unmoved : Unmoved s flow payload size seq
  announced : ∀ chunkId chunkOffset, getChunkId payload size = some (chunkId, chunkOffset) →
    seq.toNat + chunkOffset + getLengthFromByteStream (payload.advance chunkOffset) < 2 ^ 32

/-- The numbers of a flow's chunks after one was shown. -/
theorem note_chunk_fits {infos : List ChunkInfo} {length : ℕ}
    (fits : ∀ ci ∈ infos, ci.sSeqNum.toNat + ci.chunkLength < 2 ^ 32) (shown : seq.toNat + length < 2 ^ 32) :
    ∀ ci ∈ noteChunk infos chunkId seq length, ci.sSeqNum.toNat + ci.chunkLength < 2 ^ 32 := by
  rw [noteChunk]
  split
  · exact fits
  · exact List.forall_mem_append.mpr ⟨fits, List.forall_mem_singleton.mpr shown⟩

/-- **Handling a segment** keeps a sniffer ready. -/
theorem handle_ip_ready (ran : (s.handleIp true mem flow payload size seq).result = some s') (ready : Ready s)
    (orderly : Orderly s flow payload size seq) : Ready s' := by
  obtain ⟨fits, room, unmoved, announced⟩ := orderly
  by_cases empty : size = 0
  · rw [handleIp, if_pos empty] at ran
    cases ran
    exact ready
  · rw [handle_ip_multi empty] at ran
    obtain ⟨t, first, ran⟩ := bind_eq_some.mp ran
    have reached := head_size_le payload size
    obtain ⟨tidy, stored⟩ := front_tidy first ready (by omega) (by omega)
    have same := front_headings first
    split at ran
    · cases ran
      exact ⟨tidy, ready.coherent.keep same, ready.fits⟩
    · rename_i chunkId chunkOffset shown
      obtain ⟨u, record, ran⟩ := bind_eq_some.mp ran
      cases ran
      have offset := get_chunk_id_offset shown
      have head : headSize payload size = chunkOffset := by simp [headSize, shown]
      have number := toNat_add_ofInt seq chunkOffset (by omega)
      have last := announced chunkId chunkOffset shown
      rw [head] at stored
      obtain ⟨start, length⟩ := unmoved chunkId chunkOffset shown
      rw [← same] at length
      have coherent : Coherent { s with buffers := t } := ready.coherent.keep same
      refine ⟨announce_tidy record tidy (SliceBounds.shown_length shown) (by omega) (by omega) (by omega),
        coherent.announce start length (announce_headings record), fun name infos found => ?_⟩
      simp only [setInfos] at found
      by_cases own : name = flow.toString
      · subst own
        rw [Function.update_self] at found
        cases found
        exact note_chunk_fits (ready.info_fits flow) (by omega)
      · rw [Function.update_of_ne own] at found
        exact ready.fits name infos found

/-- The steps of a capture meet it. -/
def Steady (c : Capture) (event : Memory × SniffEvent) : Prop :=
  ∀ s, c.sniffer = some s → match event.2 with
    | .segment flow payload around seqNum => Orderly s flow (.ofBytes payload around) payload.length seqNum
    | .grepFlows => True

/-- The sniffer of a capture is ready, if it runs. -/
def Running (c : Capture) : Prop := ∀ s, c.sniffer = some s → Ready s

theorem run_ready {c : Capture} (run : Reaches (Capture.step true) Steady .start c) : Running c := by
  refine invariant (fun s running => ?_) (fun c event c' before steady ran s' running => ?_) run
  · cases running
    exact ⟨⟨nofun, nofun⟩, nofun, nofun⟩
  · obtain ⟨s, was, rfl⟩ := Option.map_eq_some_iff.mp ran
    have ready := before s was
    have steady := steady s was
    obtain ⟨mem, event⟩ := event
    cases event with
    | segment flow payload around seqNum => exact handle_ip_ready running ready steady
    | grepFlows =>
      obtain ⟨t, grepped, ran⟩ := bind_eq_some.mp running
      cases ran
      obtain ⟨tidy, same⟩ := grep_tidy grepped ready.tidy
      exact ⟨tidy, ready.coherent.keep same, ready.fits⟩

/-! ## Where the bytes arrive -/

/-- The numbers of a chunk, as its flow remembers them. -/
def range (ci : ChunkInfo) : Set ℕ := Set.Ico ci.sSeqNum.toNat (ci.sSeqNum.toNat + ci.chunkLength)

/-- The chunk has the byte at a number of its flow. -/
def Has (b : Buffers) (ci : ChunkInfo) (x : ℕ) : Prop :=
  ∃ pRc, b.chunkIdReconstructedChunkMap ci.chunkId = some pRc ∧ x - ci.sSeqNum.toNat ∈ covered pRc.lcb

/-- The number belongs to no chunk of the flow. -/
def Outside (s : SniffTcp ChunkInfo) (flow : FlowId) (x : ℕ) : Prop := ∀ ci ∈ infosOf s flow, x ∉ range ci

/-- Each byte of a segment is where it belongs: in every chunk that has its number, and in
the flow's list if none has. -/
structure Placed (s : SniffTcp ChunkInfo) (flow : FlowId) (first last : ℕ) (b' : Buffers) : Prop where
  inChunks : ∀ ci ∈ infosOf s flow, ∀ x ∈ Set.Ico first last, x ∈ range ci → Has b' ci x
  inList : ∀ x ∈ Set.Ico first last, Outside s flow x → x ∈ covered (b'.blocksOf flow)

/-- The number from which a segment goes to the flow's list. -/
def listFrom (s : SniffTcp ChunkInfo) (flow : FlowId) (seq : TcpSeq) (last : ℕ) : ℕ :=
  match routed s flow seq with
  | some ci => min last (ci.sSeqNum.toNat + ci.chunkLength)
  | none => seq.toNat

/-- What it takes: the other chunks had their bytes, the chunk the segment is routed to has no
block that its part swallows, and the list none that the rest overlaps in vain. -/
structure Arrives (s : SniffTcp ChunkInfo) (flow : FlowId) (seq : TcpSeq) (last : ℕ) : Prop where
  others : ∀ ci ∈ infosOf s flow, routed s flow seq ≠ some ci → ∀ x ∈ Set.Ico seq.toNat last, x ∈ range ci →
    Has s.buffers ci x
  whole : ∀ ci pRc, routed s flow seq = some ci → s.buffers.chunkIdReconstructedChunkMap ci.chunkId = some pRc →
    ¬ Swallows pRc.lcb (seq.toNat - ci.sSeqNum.toNat)
      (min last (ci.sSeqNum.toNat + ci.chunkLength) - ci.sSeqNum.toNat)
  listed : ¬ Overlaps (s.buffers.blocksOf flow) (listFrom s flow seq last) (last - listFrom s flow seq last) ∨
    ∀ x ∈ Set.Ico (listFrom s flow seq last) last, Outside s flow x → x ∈ covered (s.buffers.blocksOf flow)

/-- What an insertion leaves covered. -/
theorem insert_listed_iff (ran : (b.insert flow payload size seq first held).result = some (b', edit))
    (plain : AllPlain b) (positive : 0 < size) (fits : seq.toNat + size < 2 ^ 32) (outside : ℕ → Prop) :
    (∀ x ∈ Set.Ico seq.toNat (seq.toNat + size), outside x → x ∈ covered (b'.blocksOf flow)) ↔
      ¬ Overlaps (b.blocksOf flow) seq.toNat size ∨
        ∀ x ∈ Set.Ico seq.toNat (seq.toNat + size), outside x → x ∈ covered (b.blocksOf flow) := by
  have walked := (insert_flow_blocks (insert_frame ran).1).1
  obtain ⟨whole, same⟩ := (insert_blocks_inserted (plain.flow_blocks flow) positive fits walked).covers
    (plain.flow_blocks flow)
  by_cases overlaps : Overlaps (b.blocksOf flow) seq.toNat size
  · have kept : b'.blocksOf flow = b.blocksOf flow := same overlaps
    rw [kept, or_iff_right (not_not.mpr overlaps)]
  · refine iff_of_true (fun x inside _ => ?_) (Or.inl overlaps)
    have grown : covered (b'.blocksOf flow) = _ := whole overlaps
    rw [grown]
    exact Or.inr inside

/-- Two chunks of a flow with one id are the same. -/
theorem Ready.same_info (ready : Ready s) {ci other : ChunkInfo} (member : ci ∈ infosOf s flow)
    (member' : other ∈ infosOf s flow) (same : other.chunkId = ci.chunkId) : other = ci := by
  have copied := ready.copied member'
  rw [same, ready.copied member] at copied
  obtain ⟨start, length⟩ := Prod.mk.inj (Option.some_inj.mp copied)
  cases ci
  cases other
  simp_all

/-- Swallowing depends on the numbers of the blocks alone. -/
theorem swallows_blank {lcb : List ContiguousBlock} {last : ℕ} {n : ℕ} :
    Swallows (blank lcb) n last ↔ Swallows lcb n last := by
  simp only [Swallows, blank, List.find?_map, Option.map_eq_some_iff]
  constructor
  · rintro ⟨_, ⟨block, found, rfl⟩, early, late⟩
    exact ⟨block, found, early, late⟩
  · rintro ⟨block, found, early, late⟩
    exact ⟨_, ⟨block, found, rfl⟩, early, late⟩

/-- A segment that starts inside no chunk goes to the list. -/
theorem front_unrouted (ready : Ready s) (unrouted : routed s flow seq = none) (positive : 0 < size)
    (fits : seq.toNat + size < 2 ^ 32) (mem : Memory) (payload : Pointer) (held : ℤ) :
    ∃ b', (front s mem flow payload size seq held).result = some b' ∧
      (Placed s flow seq.toNat (seq.toNat + size) b' ↔ Arrives s flow seq (seq.toNat + size)) := by
  obtain ⟨flows, edit, walked⟩ := insert_flow_total flow payload size seq s.buffers.pFlowList
  have stored : (s.buffers.insert flow payload size seq 0 held).result =
      some ({ s.buffers with pFlowList := flows }, edit) := by simp [Buffers.insert, walked]
  refine ⟨{ s.buffers with pFlowList := flows }, ?_, ?_⟩
  · rw [front, if_neg (by omega), unrouted]
    simp [stored]
  · have listed := insert_listed_iff stored ready.tidy.plain positive fits (Outside s flow)
    have start : listFrom s flow seq (seq.toNat + size) = seq.toNat := by rw [listFrom, unrouted]
    constructor
    · rintro ⟨inChunks, inList⟩
      refine ⟨fun ci member _ => inChunks ci member, fun ci _ chosen => ?_, ?_⟩
      · cases unrouted.symm.trans chosen
      · rw [start, Nat.add_sub_cancel_left]
        exact listed.mp inList
    · rintro ⟨others, _, arrives⟩
      rw [start, Nat.add_sub_cancel_left] at arrives
      exact ⟨fun ci member => others ci member (by rw [unrouted]; exact (Option.some_ne_none ci).symm),
        listed.mpr arrives⟩

/-- The bytes past a chunk, and what the list has of them then. -/
theorem past_listed_iff {diff last : ℕ} {outside : ℕ → Prop}
    (stored : (b.insertPast flow payload diff size seq).result = some (t, edit)) (plain : AllPlain b)
    (number : (seq + UInt32.ofInt size - UInt32.ofInt diff).toNat = seq.toNat + (size - diff))
    (inside : diff ≤ size) (ends : seq.toNat + size = last) (fits : last < 2 ^ 32)
    (own : ∀ x ∈ Set.Ico seq.toNat (last - diff), ¬ outside x) :
    (∀ x ∈ Set.Ico seq.toNat last, outside x → x ∈ covered (t.blocksOf flow)) ↔
      ¬ Overlaps (b.blocksOf flow) (last - diff) diff ∨
        ∀ x ∈ Set.Ico (last - diff) last, outside x → x ∈ covered (b.blocksOf flow) := by
  have rest : (∀ x ∈ Set.Ico seq.toNat last, outside x → x ∈ covered (t.blocksOf flow)) ↔
      ∀ x ∈ Set.Ico (last - diff) last, outside x → x ∈ covered (t.blocksOf flow) := by
    constructor
    · exact fun all x ⟨lower, upper⟩ => all x ⟨by omega, upper⟩
    · intro all x ⟨lower, upper⟩ isOutside
      by_cases front : x < last - diff
      · exact absurd isOutside (own x ⟨lower, front⟩)
      · exact all x ⟨Nat.le_of_not_lt front, upper⟩ isOutside
  rw [rest]
  have shift : seq.toNat + (size - diff) = last - diff := by omega
  rw [shift] at number
  rw [insertPast] at stored
  split at stored
  · have listed := insert_listed_iff stored plain (by omega) (by omega) outside
    have upto : last - diff + diff = last := by omega
    rwa [number, upto] at listed
  · rename_i none
    cases stored
    have empty : diff = 0 := by omega
    subst empty
    have vacuous : ∀ x ∈ Set.Ico (last - 0) last, outside x → x ∈ covered (b.blocksOf flow) := by simp
    exact iff_of_true vacuous (Or.inr vacuous)

/-- The chunk gets its part exactly if that swallows no block. -/
theorem whole_iff {source : ℕ → UInt8} {limit first last low : ℕ} {lcb lcb' : List ContiguousBlock} {isDuplicate : Bool}
    (filled : Filled source limit (blank lcb) (first - low) (min last (low + len) - low) (blank lcb') isDuplicate)
    (lower : low ≤ first) :
    (∀ x ∈ Set.Ico first last, x ∈ Set.Ico low (low + len) → x - low ∈ covered lcb') ↔
      ¬ Swallows lcb (first - low) (min last (low + len) - low) := by
  constructor
  · intro all swallows
    refine filled.lost (swallows_blank.mpr swallows) fun y ⟨above, below⟩ => ?_
    have here := all (y + low) ⟨by omega, by omega⟩ ⟨by omega, by omega⟩
    rwa [Nat.add_sub_cancel, ← covered_blank] at here
  · rintro clear x ⟨above, below⟩ ⟨_, within⟩
    rw [← covered_blank]
    exact filled.whole (fun swallows => clear (swallows_blank.mp swallows)) ⟨by omega, by omega⟩

/-- What the chunks have when one was put in the map. -/
theorem has_update {ci : ChunkInfo} (put : b'.chunkIdReconstructedChunkMap =
      Function.update b.chunkIdReconstructedChunkMap ci.chunkId (some pRc)) :
    (∀ x, Has b' ci x ↔ x - ci.sSeqNum.toNat ∈ covered pRc.lcb) ∧
      ∀ other : ChunkInfo, other.chunkId ≠ ci.chunkId → ∀ x, Has b' other x ↔ Has b other x := by
  constructor
  · intro x
    rw [Has, put, Function.update_self]
    exact ⟨fun ⟨_, same, has⟩ => by cases same; exact has, fun has => ⟨pRc, rfl, has⟩⟩
  · intro other apart x
    rw [Has, put, Function.update_of_ne apart, Has]

/-- A segment that starts inside a chunk goes there up to the chunk's end. -/
theorem front_routed (ready : Ready s) {ci : ChunkInfo} (chosen : routed s flow seq = some ci)
    (positive : 0 < size) (small : size < 2 ^ 31) (fits : seq.toNat + size < 2 ^ 32) (mem : Memory)
    (payload : Pointer) (held : ℤ) :
    ∃ b', (front s mem flow payload size seq held).result = some b' ∧
      (Placed s flow seq.toNat (seq.toNat + size) b' ↔ Arrives s flow seq (seq.toNat + size)) := by
  obtain ⟨member, starts, short, inside⟩ := ready.routed_inside chosen
  have ends := ready.info_fits flow ci member
  obtain ⟨lower, upper⟩ := (within_iff ends).mp starts
  obtain ⟨pRc, found, known, length⟩ := chunk_of_copy (ready.copied member)
  obtain ⟨ordered, _, _⟩ := ready.tidy.chunks ci.chunkId pRc found
  have place : (seq - ci.sSeqNum).toNat = seq.toNat - ci.sSeqNum.toNat := toNat_sub_eq lower.le
  rw [← length] at short inside
  obtain ⟨t, edit, pRc', dups, _, stored, ran, _, _, filled⟩ :=
    fill_and_send_takes mem payload found known ordered short positive small inside
  have upto : (seq - ci.sSeqNum).toNat + min size (pRc.length - (seq - ci.sSeqNum).toNat) =
      min (seq.toNat + size) (ci.sSeqNum.toNat + ci.chunkLength) - ci.sSeqNum.toNat := by omega
  rw [upto, place] at filled
  obtain ⟨diff, past, isDiff, part, number⟩ := past_number inside short small fits
  have start : listFrom s flow seq (seq.toNat + size) = seq.toNat + size - diff := by
    rw [listFrom, chosen]
    show min _ _ = _
    omega
  refine ⟨{ t.setChunk ci.chunkId pRc' with numDuplicateBytes := dups }, ?_, ?_⟩
  · have handed : (s.buffers.fillAndSend mem (Remembers.chunkId ci) flow payload size seq).result = some _ := ran
    rw [front, if_neg (by omega), chosen, result_map, handed]
    rfl
  obtain ⟨own, apart⟩ := @has_update t { t.setChunk ci.chunkId pRc' with numDuplicateBytes := dups } pRc' ci rfl
  have elsewhere : ∀ other ∈ infosOf s flow, other ≠ ci → ∀ x,
      (Has { t.setChunk ci.chunkId pRc' with numDuplicateBytes := dups } other x ↔ Has s.buffers other x) := by
    intro other member' different x
    have same : Has t other x ↔ Has s.buffers other x := by rw [Has, insert_past_frame stored, Has]
    exact (apart other (fun same => different (ready.same_info member member' same)) x).trans same
  have whole := whole_iff filled lower.le
  rw [past] at stored
  have outer : ∀ x ∈ Set.Ico seq.toNat (seq.toNat + size - diff), ¬ Outside s flow x := by
    intro x within outside
    obtain ⟨above, below⟩ := within
    exact outside ci member ⟨by omega, by omega⟩
  have listed := past_listed_iff stored ready.tidy.plain number part rfl fits outer
  have count : seq.toNat + size - (seq.toNat + size - diff) = diff := by omega
  constructor
  · rintro ⟨inChunks, inList⟩
    refine ⟨fun other member' different x at' within => ?_, fun other pRc other' held' => ?_, ?_⟩
    · have apart : other ≠ ci := fun same => different (same ▸ chosen)
      exact (elsewhere other member' apart x).mp (inChunks other member' x at' within)
    · cases chosen.symm.trans other'
      cases found.symm.trans held'
      exact whole.mp fun x at' within => (own x).mp (inChunks ci member x at' within)
    · rw [start, count]
      exact listed.mp inList
  · rintro ⟨others, alone, arrives⟩
    rw [start, count] at arrives
    refine ⟨fun other member' x at' within => ?_, listed.mpr arrives⟩
    by_cases same : other = ci
    · subst same
      exact (own x).mpr (whole.mpr (alone other pRc chosen found) x at' within)
    · have different : routed s flow seq ≠ some other := fun chosen' =>
        same (Option.some_inj.mp (chosen'.symm.trans chosen))
      exact (elsewhere other member' same x).mpr (others other member' different x at' within)

/-- **A segment reaches its places** after every orderly run, exactly if it arrives. -/
theorem headerless_segment_placed_iff {c : Capture} {infos : List ChunkInfo}
    (run : Reaches (Capture.step true) Steady .start c) (running : c.sniffer = some s)
    (known : s.flowChunkMap flow.toString = some infos) (positive : 0 < size) (small : size < 2 ^ 31)
    (fits : seq.toNat + size < 2 ^ 32) (mem : Memory) (payload : Pointer) (held : ℤ) :
    ∃ s', (s.dealWithPktWithoutChunkid mem flow payload size seq held).result = some s' ∧
      (Placed s flow seq.toNat (seq.toNat + size) s'.buffers ↔ Arrives s flow seq (seq.toNat + size)) := by
  have ready := run_ready run s running
  have handled : ∃ b', (front s mem flow payload size seq held).result = some b' ∧
      (Placed s flow seq.toNat (seq.toNat + size) b' ↔ Arrives s flow seq (seq.toNat + size)) := by
    cases chosen : routed s flow seq with
    | none => exact front_unrouted ready chosen positive fits mem payload held
    | some ci => exact front_routed ready chosen positive small fits mem payload held
  obtain ⟨b', ran, exactly⟩ := handled
  refine ⟨{ s with buffers := b' }, ?_, exactly⟩
  rw [deal_eq known (by omega), result_map, ran]
  rfl

/-! ## Two captures -/

/-- A chunk of 1100 bytes, shown at 100. -/
def shownChunk : ChunkInfo := ⟨.replicate 20 7, 100, 1100⟩

/-- A capture of its header, and then of the three bytes at a number. -/
def headerThenBytes (seq : TcpSeq) : Capture :=
  ((Capture.step true .start (headerAt (.replicate 20 7) 1100 1024 100)).bind
    (Capture.step true · (SliceBounds.bytesAt seq))).getD .start

/-- The chunk has the bytes from 600 to 602: of the six from 599 on it gets the first alone, and
loses the last two. -/
theorem headerless_segment_cut : ¬ ∀ c, Reaches (Capture.step true) (fun _ _ => True) .start c →
    ∀ s flow infos mem payload size seq held, c.sniffer = some s → s.flowChunkMap flow.toString = some infos →
      0 < size → seq.toNat + size < 2 ^ 32 →
      ∃ s', (s.dealWithPktWithoutChunkid mem flow payload size seq held).result = some s' ∧
        Placed s flow seq.toNat (seq.toNat + size) s'.buffers := by
  intro always
  have run : Reaches (Capture.step true) (fun _ _ => True) .start (headerThenBytes 600) :=
    (Reaches.refl.snoc (headerAt (.replicate 20 7) 1100 1024 100) trivial rfl).snoc
      (SliceBounds.bytesAt 600) trivial rfl
  obtain ⟨s, running⟩ : ∃ s, (headerThenBytes 600).sniffer = some s :=
    Option.isSome_iff_exists.mp (by decide +kernel)
  have facts : (headerThenBytes 600).sniffer.all (fun s =>
      s.flowChunkMap someFlow.toString = some [shownChunk] ∧
      ((s.dealWithPktWithoutChunkid zeroMemory someFlow (fun _ => 0) 6 599 6).result.bind fun s' =>
        s'.buffers.chunkIdReconstructedChunkMap (.replicate 20 7)).all fun pRc =>
          pRc.lcb.all fun li => ¬ (startOf li ≤ 503 ∧ 503 < nextOf li)) = true := by decide +kernel
  rw [running, Option.all_some, decide_eq_true_eq] at facts
  obtain ⟨known, without⟩ := facts
  obtain ⟨s', ran, placed⟩ := always _ run s someFlow [shownChunk] zeroMemory (fun _ => 0) 6 599 6 running known
    (by decide) (by decide)
  obtain ⟨pRc, found, li, member, at503⟩ := placed.inChunks shownChunk (by rw [infosOf, known]; simp) 603
    ⟨by decide, by decide⟩ ⟨by decide, by decide⟩
  rw [ran, Option.bind_some] at without
  have found : s'.buffers.chunkIdReconstructedChunkMap (.replicate 20 7) = some pRc := found
  rw [found, Option.all_some, List.all_eq_true] at without
  have absent := without li member
  simp only [decide_eq_true_eq] at absent
  exact absent at503

/-- The three bytes behind the header. -/
theorem headerless_segment_behind_header : ∃ c s s', Capture.step true .start
      (headerAt (.replicate 20 7) 1100 1024 100) = some c ∧ c.sniffer = some s ∧
    (s.dealWithPktWithoutChunkid zeroMemory someFlow (fun _ => 0) 3 168 3).result = some s' ∧
    (Placed s someFlow 168 171 s'.buffers ↔ Arrives s someFlow 168 171) := by
  obtain ⟨c, ran⟩ : ∃ c, Capture.step true .start (headerAt (.replicate 20 7) 1100 1024 100) = some c := ⟨_, rfl⟩
  have steady : Steady .start (headerAt (.replicate 20 7) 1100 1024 100) := by
    intro s running
    cases running
    have shown : getChunkId (.ofBytes (recordHeader (.replicate 20 7) 1100 1024) fun _ => 0) 68 =
        some (.replicate 20 7, 0) := by decide +kernel
    refine ⟨by decide, by decide, fun chunkId chunkOffset _ => ⟨nofun, nofun⟩, fun chunkId chunkOffset found => ?_⟩
    cases shown.symm.trans found
    decide +kernel
  have facts : (Capture.step true .start (headerAt (.replicate 20 7) 1100 1024 100)).all (fun c =>
      c.sniffer.any fun s => s.flowChunkMap someFlow.toString = some [shownChunk]) = true := by decide +kernel
  rw [ran, Option.all_some] at facts
  obtain ⟨s, running, known⟩ := (Option.any_eq_true ..).mp facts
  obtain ⟨s', dealt, exactly⟩ := @headerless_segment_placed_iff someFlow 3 168 s c [shownChunk]
    (Reaches.refl.snoc _ steady ran) running (of_decide_eq_true known) (by decide) (by decide) (by decide)
    zeroMemory (fun _ => 0) 3
  exact ⟨c, s, s', ran, running, dealt, exactly⟩

end Ditto.HeaderlessSegments
