import Ditto.Bookkeeping
import Ditto.FlowLists
import Ditto.FlowStore

/-! The slices handed to the reassemblers. How much of a segment belongs to a chunk
comes from the chunk's current start for the flow, while the chunk was chosen by the
start and length remembered when the flow first showed it. When the segment does
start inside the chunk as the chunk has it now, every slice is within bounds. -/
namespace Ditto.SliceBounds
open Sniffer Buffers SniffTcp Runs Words Traces Traced
open ChunkHeadings SegmentHandling Handovers FlowLists

/-- A slice handed to a chunk is not empty and ends inside it; one handed to a list is
not empty and part of what it was cut from. -/
def WellFormed : Call → Prop
  | .insert _ _ first size held => 0 < size ∧ 0 ≤ first ∧ first + size ≤ held
  | .fill _ _ seqNum size start length => 0 < size ∧ (seqNum - start).toNat + size ≤ length
  | _ => True

/-- The front of a segment, if it is routed to a chunk, starts inside its flow's copy. -/
def RoutedWithin (s : SniffTcp ChunkInfo) (flow : FlowId) (payload : Pointer) (size : ℕ)
    (seq : TcpSeq) : Prop :=
  ∀ ci start length, routed s flow seq = some ci → headSize payload size ≠ 0 →
    copyOf s.buffers ci.chunkId flow = some (start, length) → (seq - start).toNat < length

/-- What keeps the slices within bounds: segments that are routed into the chunk, and
fewer stored bytes than an `int` counts. -/
def Bounded (c : Capture) (event : Memory × SniffEvent) : Prop :=
  ∀ s, c.sniffer = some s →
    match event.2 with
    | .segment flow payload around seqNum =>
        RoutedWithin s flow (.ofBytes payload around) payload.length seqNum ∧
        volume (s.buffers.blocksOf flow) + payload.length < 2 ^ 31
    | .grepFlows => False

/-- No stored block is empty. -/
def Stocked (b : Buffers) : Prop := ∀ flow, ∀ li ∈ b.blocksOf flow, 0 < li.contiguousBlock.length

/-- Every chunk has a positive `int` length. -/
def Measured (b : Buffers) : Prop :=
  ∀ chunkId heading, headings b chunkId = some heading → 0 < heading.2 ∧ heading.2 < 2 ^ 31

variable {s s' : SniffTcp ChunkInfo} {b b' : Buffers} {flow : FlowId} {chunkId : ChunkId}
  {payload : Pointer} {seq start : TcpSeq} {size length : ℕ} {first held : ℤ} {edit : Edit}
  {mem : Memory} {c c' : Capture}

/-- A segment that starts inside the flow's copy of a chunk is cut within bounds. -/
theorem admits_inside (copied : copyOf b chunkId flow = some (start, length))
    (inside : (seq - start).toNat < length) (short : length < 2 ^ 31) (positive : 0 < size)
    (small : size < 2 ^ 31) : Admits WellFormed b chunkId flow size seq := by
  have past := past_inside inside short small
  refine ⟨fun _ => trivial, fun other count copied' beyond => ?_, fun other count copied' => ?_⟩
  all_goals
    obtain ⟨rfl, rfl⟩ := Prod.mk.inj (Option.some_inj.mp (copied.symm.trans copied'))
  · exact ⟨beyond, by omega, by omega⟩
  · exact ⟨by omega, by omega⟩

/-! ## What an operation stores -/

theorem insert_grown {count : ℕ} (positive : 0 < count)
    (ran : (b.insert flow payload count seq first held).result = some (b', edit)) :
    Grown count (b.blocksOf flow) (b'.blocksOf flow) edit ∧
      ∀ other, other ≠ flow → b'.blocksOf other = b.blocksOf other := by
  obtain ⟨own, others⟩ := insert_flow_blocks (insert_frame ran).1
  exact ⟨insert_blocks_grown positive own, others⟩

theorem grown_refl (blocks : List ContiguousBlock) : Grown 0 blocks blocks .kept :=
  ⟨Nat.le_refl _, id, fun _ block _ found moved => by
    cases moved
    exact ⟨block, found, Nat.le_refl _⟩⟩

/-- Filling a chunk stores the bytes past its end. -/
theorem fill_and_send_grown {size : ℤ} (copied : copyOf b chunkId flow = some (start, length))
    (ran : (b.fillAndSend mem chunkId flow payload size seq).result = some (b', edit)) :
    Grown (pastChunk start length size seq).toNat (b.blocksOf flow) (b'.blocksOf flow) edit ∧
      ∀ other, other ≠ flow → b'.blocksOf other = b.blocksOf other := by
  obtain ⟨done, ran⟩ := fill_and_send_cases ran
  obtain ⟨pRc, found, known, rfl⟩ := chunk_of_copy copied
  obtain ⟨t, pRc', dups, stored, _, rfl⟩ := fill_gaps_cases found known ran
  rw [insertPast] at stored
  split at stored
  · rename_i positive
    obtain ⟨count, same⟩ := Int.eq_ofNat_of_zero_le (Int.le_of_lt positive)
    rw [same] at stored positive
    rw [same, Int.toNat_natCast]
    have lists := insert_grown (by omega) stored
    exact lists
  · rename_i none
    cases stored
    have zero : (pastChunk start pRc.length size seq).toNat = 0 := by omega
    rw [zero]
    exact ⟨grown_refl _, fun _ _ => rfl⟩

/-- The lists of a step's buffers, while it works on a flow with so much room. -/
structure Roomy (flow : FlowId) (room : ℕ) (b : Buffers) : Prop where
  stocked : Stocked b
  limited : volume (b.blocksOf flow) ≤ room

theorem Roomy.grow {count room : ℕ} (roomy : Roomy flow room b)
    (grown : Grown count (b.blocksOf flow) (b'.blocksOf flow) edit)
    (others : ∀ other, other ≠ flow → b'.blocksOf other = b.blocksOf other) :
    Roomy flow (room + count) b' := by
  constructor
  · intro other
    by_cases same : other = flow
    · subst same
      exact grown.nonempty (roomy.stocked other)
    · rw [others other same]
      exact roomy.stocked other
  · have := grown.volume_le
    have := roomy.limited
    omega

/-- A round of the candidates leaves no more bytes in the lists than there were: what it
inserts was in the block that it then erases. -/
theorem candidate_roomy {room i place : ℕ} {li : ContiguousBlock} (roomy : Roomy flow room b)
    (small : room < 2 ^ 31) (copied : copyOf b chunkId flow = some (start, length))
    (short : length < 2 ^ 31) (taken : (b.blocksOf flow)[i]? = some li)
    (inside : within start length li.startingSeqNumber)
    (ran : (b.fillAndSend mem chunkId flow (mem.cStr li.contiguousBlock)
      (toInt (UInt32.ofNat li.contiguousBlock.length)) li.startingSeqNumber).result = some (b', edit))
    (moved : edit.moved i = some place) :
    Roomy flow room { b' with pFlowList := eraseBlock flow place b'.pFlowList } := by
  have fits : li.contiguousBlock.length < 2 ^ 31 := by
    have := length_le_volume (List.mem_of_getElem? taken)
    have := roomy.limited
    omega
  rw [FlowStore.to_int_length fits] at ran
  obtain ⟨grown, others⟩ := fill_and_send_grown copied ran
  have past := past_inside (inside_of_within inside short) short fits
  have apart := inside_of_within inside short
  obtain ⟨li', there, longer⟩ := grown.moved i li place taken moved
  have erased := volume_eraseIdx there
  have limited := (roomy.grow grown others).limited
  have stocked := (roomy.grow grown others).stocked
  have lists := @erase_block_blocks b'.pFlowList flow place
  constructor
  · intro other li member
    by_cases same : other = flow
    · subst same
      rw [blocks_of_eq, lists.1] at member
      exact stocked other li (List.mem_of_mem_eraseIdx member)
    · rw [blocks_of_eq, lists.2 other same] at member
      exact stocked other li member
  · rw [blocks_of_eq, lists.1, ← blocks_of_eq]
    have before := grown.volume_le
    have := roomy.limited
    omega

/-! ## Segments -/

theorem measured_copy (measured : Measured b) (copied : copyOf b chunkId flow = some (start, length)) :
    0 < length ∧ length < 2 ^ 31 := by
  obtain ⟨heading, found, copied⟩ := Option.bind_eq_some_iff.mp copied
  obtain ⟨other, _, same⟩ := Option.map_eq_some_iff.mp copied
  cases same
  exact measured chunkId heading found

/-- A segment that shows a chunk id gives the chunk a length that holds some data. -/
theorem shown_length {chunkOffset : ℕ} (shown : getChunkId payload size = some (chunkId, chunkOffset)) :
    0 < getLengthFromByteStream (payload.advance chunkOffset) := by
  obtain ⟨first, searched, shown⟩ := Option.bind_eq_some_iff.mp shown
  obtain ⟨chunkRes, extracted, shown⟩ := Option.bind_eq_some_iff.mp shown
  cases shown
  by_contra empty
  rw [extractChunkResponse, if_pos (by simp only [minPayloadLength, minChunkSize, rpcHeaderLen]; omega)]
    at extracted
  cases extracted

theorem opened_length (measured : Measured b) (shown : 0 < getLengthFromByteStream payload) :
    0 < (opened b chunkId flow payload seq).length ∧ (opened b chunkId flow payload seq).length < 2 ^ 31 := by
  cases found : b.chunkIdReconstructedChunkMap chunkId with
  | none =>
    have heading : (opened b chunkId flow payload seq).length = getLengthFromByteStream payload := by
      simp [opened, found, ReconstructedChunk.setFlowStart, ReconstructedChunk.create]
    rw [heading]
    exact ⟨shown, get_length_small payload⟩
  | some pRc =>
    have heading : (opened b chunkId flow payload seq).length = pRc.length := by
      simp [opened, found, ReconstructedChunk.setFlowStart]
    rw [heading]
    exact measured chunkId (pRc.flowSeqMap, pRc.length) (by simp [headings, found])

theorem measured_announce (measured : Measured b) (shown : 0 < getLengthFromByteStream payload)
    (same : headings b' = Function.update (headings b) chunkId (some (announced b chunkId flow payload seq))) :
    Measured b' := by
  intro other heading found
  rw [same] at found
  by_cases isIt : other = chunkId
  · subst isIt
    rw [Function.update_self, ← opened_heading] at found
    cases found
    exact @opened_length b flow other payload seq measured shown
  · rw [Function.update_of_ne isIt] at found
    exact measured other heading found

/-- The front of a segment. -/
theorem front_bounded {room : ℕ} (roomy : Roomy flow room s.buffers) (measured : Measured s.buffers)
    (small : size < 2 ^ 31) (fits : (size : ℤ) ≤ held)
    (within : ∀ ci start length, routed s flow seq = some ci → size ≠ 0 →
      copyOf s.buffers ci.chunkId flow = some (start, length) → (seq - start).toNat < length)
    (kept : Bookkeeping.Bookkept s) :
    Logs WellFormed (front s mem flow payload size seq held) ∧
      ∀ t, (front s mem flow payload size seq held).result = some t → Roomy flow (room + size) t := by
  have placed : ∀ ci, routed s flow seq = some ci → ∃ start length,
      copyOf s.buffers ci.chunkId flow = some (start, length) := fun ci chosen => by
    have known := Bookkeeping.copy_of_known (Bookkeeping.routed_known kept chosen)
    obtain ⟨⟨start, length⟩, copied⟩ := Option.ne_none_iff_exists'.mp known
    exact ⟨start, length, copied⟩
  constructor
  · apply front_logs
    · intro ci chosen nonempty
      obtain ⟨start, length, copied⟩ := placed ci chosen
      exact admits_inside copied (within ci start length chosen nonempty copied)
        (measured_copy measured copied).2 (by omega) small
    · intro nonempty
      exact ⟨by omega, Int.le_refl 0, by omega⟩
    · exact fun _ _ => trivial
  · intro t ran
    rw [front] at ran
    split at ran
    · cases ran
      exact ⟨roomy.stocked, by have := roomy.limited; omega⟩
    · rename_i nonempty
      split at ran
      · rename_i ci chosen
        obtain ⟨⟨t, inserted⟩, filled, ran⟩ := map_eq_some.mp ran
        cases ran
        obtain ⟨start, length, copied⟩ := placed ci chosen
        have inside := within ci start length chosen nonempty copied
        have past := past_inside inside (measured_copy measured copied).2 small
        obtain ⟨grown, others⟩ := fill_and_send_grown copied filled
        have grew := roomy.grow grown others
        have limited := grew.limited
        exact ⟨grew.stocked, by dsimp only; omega⟩
      · obtain ⟨⟨t, inserted⟩, stored, ran⟩ := map_eq_some.mp ran
        cases ran
        obtain ⟨grown, others⟩ := insert_grown (by omega) stored
        exact roomy.grow grown others

/-- A segment that shows a chunk, from its record on. -/
theorem announce_bounded {room : ℕ} (roomy : Roomy flow room b) (measured : Measured b)
    (shown : 0 < getLengthFromByteStream payload) (positive : 0 < size) (small : room + size < 2 ^ 31) :
    Logs WellFormed (b.announceChunk mem flow chunkId payload size seq) ∧
      ∀ t, (b.announceChunk mem flow chunkId payload size seq).result = some t → Stocked t := by
  obtain ⟨some_length, short⟩ := @opened_length b flow chunkId payload seq measured shown
  have copied : copyOf (b.setChunk chunkId (opened b chunkId flow payload seq)) chunkId flow =
      some (seq, (opened b chunkId flow payload seq).length) := copy_of_announced
  have inside : (seq - seq).toNat < (opened b chunkId flow payload seq).length := by simpa using some_length
  have opens : ∀ t inserted, ((b.setChunk chunkId (opened b chunkId flow payload seq)).fillAndSend mem
      chunkId flow payload size seq).result = some (t, inserted) →
      Roomy flow (room + size) t ∧
        copyOf t chunkId flow = some (seq, (opened b chunkId flow payload seq).length) := by
    intro t inserted filled
    obtain ⟨grown, others⟩ := fill_and_send_grown copied filled
    have roomy' : Roomy flow room (b.setChunk chunkId (opened b chunkId flow payload seq)) :=
      ⟨roomy.stocked, roomy.limited⟩
    have grew := roomy'.grow grown others
    have past : pastChunk seq (opened b chunkId flow payload seq).length size seq = _ :=
      past_inside inside short (by omega)
    have limited := grew.limited
    refine ⟨⟨grew.stocked, by omega⟩, ?_⟩
    rw [copyOf, fill_and_send_headings filled]
    exact copied
  have round : ∀ t t' i li inserted place, (Roomy flow (room + size) t ∧
        copyOf t chunkId flow = some (seq, (opened b chunkId flow payload seq).length)) →
      (t.blocksOf flow)[i]? = some li →
      Sniffer.within seq (opened b chunkId flow payload seq).length li.startingSeqNumber →
      (t.fillAndSend mem chunkId flow (mem.cStr li.contiguousBlock)
        (toInt (UInt32.ofNat li.contiguousBlock.length)) li.startingSeqNumber).result =
          some (t', inserted) → inserted.moved i = some place →
      Roomy flow (room + size) { t' with pFlowList := eraseBlock flow place t'.pFlowList } ∧
        copyOf { t' with pFlowList := eraseBlock flow place t'.pFlowList } chunkId flow =
          some (seq, (opened b chunkId flow payload seq).length) := by
    intro t t' i li inserted place inv taken within filled moved
    refine ⟨candidate_roomy inv.1 small inv.2 short taken within filled moved, ?_⟩
    rw [copyOf, headings_of_lists, fill_and_send_headings filled]
    exact inv.2
  constructor
  · apply announce_logs (fun t => Roomy flow (room + size) t ∧
      copyOf t chunkId flow = some (seq, (opened b chunkId flow payload seq).length))
      (admits_inside copied inside short positive (by omega)) opens ?_ round fun _ _ => trivial
    intro t li inv member within
    have fits := length_le_volume member
    have limited := inv.1.limited
    rw [FlowStore.to_int_length (by omega)]
    exact admits_inside inv.2 (inside_of_within within short) short (inv.1.stocked flow li member) (by omega)
  · intro t ran
    obtain ⟨u, inserted, filled, after⟩ := announce_cases ran
    have inv := opens u inserted filled
    rcases after with rfl | ⟨_, ran⟩
    · exact inv.1.stocked
    · obtain ⟨pRc, found, ran⟩ := bind_eq_some.mp ran
      obtain ⟨other, found', known, same⟩ := chunk_of_copy inv.2
      obtain rfl := Option.some_inj.mp (found.symm.trans found')
      rw [known, same, Option.getD_some] at ran
      exact (candidates_invariant _ round inv ran).1.stocked

/-- What a running sniffer keeps while its slices are within bounds. -/
structure Sound (s : SniffTcp ChunkInfo) : Prop where
  stocked : Stocked s.buffers
  measured : Measured s.buffers
  books : Bookkeeping.Bookkept s

theorem handle_ip_bounded (mem : Memory) (sound : Sound s) (within : RoutedWithin s flow payload size seq)
    (small : volume (s.buffers.blocksOf flow) + size < 2 ^ 31) :
    Logs WellFormed (s.handleIp true mem flow payload size seq) ∧
      ∀ s', (s.handleIp true mem flow payload size seq).result = some s' → Sound s' := by
  have reached := head_size_le payload size
  have roomy : Roomy flow (volume (s.buffers.blocksOf flow)) s.buffers := ⟨sound.stocked, Nat.le_refl _⟩
  obtain ⟨frontLogs, frontRoomy⟩ := @front_bounded s flow payload seq (headSize payload size) size mem _
    roomy sound.measured (by omega) (by omega)
    (fun ci start length chosen nonempty copied => within ci start length chosen nonempty copied) sound.books
  have record : ∀ t chunkId chunkOffset,
      (front s mem flow payload (headSize payload size) seq size).result = some t →
      getChunkId payload size = some (chunkId, chunkOffset) →
      Logs WellFormed (t.announceChunk mem flow chunkId (payload.advance chunkOffset) (size - chunkOffset)
        (seq + UInt32.ofInt chunkOffset)) ∧
      ∀ u, (t.announceChunk mem flow chunkId (payload.advance chunkOffset) (size - chunkOffset)
        (seq + UInt32.ofInt chunkOffset)).result = some u → Stocked u ∧ Measured u := by
    intro t chunkId chunkOffset ran shown
    have offset := get_chunk_id_offset shown
    have head : headSize payload size = chunkOffset := by simp [headSize, shown]
    have roomy' := frontRoomy t ran
    rw [head] at roomy'
    have measured : Measured t := by
      rw [Measured, front_headings ran]
      exact sound.measured
    have long := shown_length shown
    obtain ⟨logs, stocked⟩ := @announce_bounded t flow chunkId (payload.advance chunkOffset)
      (seq + UInt32.ofInt chunkOffset) (size - chunkOffset) mem _ roomy' measured long (by omega) (by omega)
    exact ⟨logs, fun u ran => ⟨stocked u ran, measured_announce measured long (announce_headings ran)⟩⟩
  constructor
  · exact handle_ip_logs (fun _ => frontLogs) fun t chunkId chunkOffset ran shown =>
      (record t chunkId chunkOffset ran shown).1
  · intro s' ran
    have books := Bookkeeping.handle_ip_bookkept sound.books ran
    by_cases empty : size = 0
    · rw [handleIp, if_pos empty] at ran
      cases ran
      exact sound
    · rw [handle_ip_multi empty] at ran
      obtain ⟨t, first, ran⟩ := bind_eq_some.mp ran
      split at ran
      · cases ran
        refine ⟨(frontRoomy t first).stocked, ?_, books⟩
        rw [Measured, front_headings first]
        exact sound.measured
      · rename_i shown
        obtain ⟨u, announced, ran⟩ := bind_eq_some.mp ran
        cases ran
        obtain ⟨stocked, measured⟩ := (record t _ _ first shown).2 u announced
        exact ⟨stocked, measured, books⟩

/-! ## Runs -/

/-- A running sniffer is sound, and its slices were within bounds. -/
structure Sliced (c : Capture) : Prop where
  sound : ∀ s, c.sniffer = some s → Sound s
  calls : ∀ call ∈ c.calls, WellFormed call

theorem step_sliced {event : Memory × SniffEvent} (sliced : Sliced c) (bounded : Bounded c event)
    (ran : c.step true event = some c') : Sliced c' := by
  obtain ⟨s, running, rfl⟩ := Option.map_eq_some_iff.mp ran
  obtain ⟨mem, event⟩ := event
  cases event with
  | segment flow bytes around seq =>
    obtain ⟨within, small⟩ := bounded s running
    obtain ⟨logs, after⟩ := handle_ip_bounded mem (sliced.sound s running) within small
    exact ⟨after, List.forall_mem_append.mpr ⟨sliced.calls, logs⟩⟩
  | grepFlows => exact absurd (bounded s running) (by simp)

/-- **No malformed slice is handed on**, in every run of segments that start inside the
chunk they are routed to. -/
theorem no_malformed_slice (run : Reaches (Capture.step true) Bounded .start c) :
    ∀ call ∈ c.calls, WellFormed call := by
  have sliced : Sliced c := by
    refine invariant ⟨fun s running => ?_, by simp [Capture.start]⟩
      (fun _ _ _ sliced bounded ran => step_sliced sliced bounded ran) run
    cases running
    refine ⟨fun _ _ member => ?_, fun _ _ => ?_, by simp [SniffTcp.create], by simp [SniffTcp.create]⟩
    · simp [SniffTcp.create, Buffers.empty, blocksOf] at member
    · simp [SniffTcp.create, Buffers.empty, headings]
  exact sliced.calls

/-! ## A chunk shown twice -/

/-- Only segments come in. -/
def Segments (_ : Capture) (event : Memory × SniffEvent) : Prop :=
  ∃ flow payload around seqNum, event.2 = .segment flow payload around seqNum

/-- Three bytes after a header, that show no chunk. -/
def bytesAt (seq : TcpSeq) : Memory × SniffEvent :=
  (zeroMemory, .segment someFlow [1, 2, 3] (fun _ => 0) seq)

/-- A header at 100, and bytes of the chunk it shows. -/
theorem no_malformed_slice_after_header :
    ∃ c, ((Capture.step true .start (headerAt (.replicate 20 7) 1100 1024 100)).bind
        (Capture.step true · (bytesAt 168))) = some c ∧ ∀ call ∈ c.calls, WellFormed call := by
  have first : Bounded .start (headerAt (.replicate 20 7) 1100 1024 100) := by
    intro s running
    cases running
    show RoutedWithin .create someFlow _ _ 100 ∧ _ < 2 ^ 31
    refine ⟨fun ci start length chosen => ?_, by decide⟩
    cases chosen
  obtain ⟨c, ran⟩ : ∃ c, Capture.step true .start (headerAt (.replicate 20 7) 1100 1024 100) = some c :=
    ⟨_, rfl⟩
  have second : Bounded c (bytesAt 168) := by
    intro s running
    have facts : ((Capture.step true .start (headerAt (.replicate 20 7) 1100 1024 100)).bind
        (·.sniffer)).all (fun s => routed s someFlow 168 = some ⟨.replicate 20 7, 100, 1100⟩ ∧
          copyOf s.buffers (.replicate 20 7) someFlow = some (100, 1100) ∧
          volume (s.buffers.blocksOf someFlow) = 0) := by decide +kernel
    rw [ran, Option.bind_some, running, Option.all_some, decide_eq_true_eq] at facts
    obtain ⟨route, place, empty⟩ := facts
    refine ⟨fun ci start length chosen _ copied => ?_, by rw [empty]; decide⟩
    obtain rfl := Option.some_inj.mp (route.symm.trans chosen)
    obtain ⟨rfl, rfl⟩ := Prod.mk.inj (Option.some_inj.mp (place.symm.trans copied))
    decide
  obtain ⟨c', ran'⟩ : ∃ c', Capture.step true c (bytesAt 168) = some c' := by
    obtain ⟨s, running⟩ : ∃ s, c.sniffer = some s := by
      have still : ((Capture.step true .start (headerAt (.replicate 20 7) 1100 1024 100)).bind
        (·.sniffer)).isSome := by decide +kernel
      rw [ran, Option.bind_some] at still
      exact Option.isSome_iff_exists.mp still
    exact ⟨_, by rw [Capture.step, running]; rfl⟩
  rw [ran, Option.bind_some]
  exact ⟨c', ran', no_malformed_slice ((Reaches.refl.snoc _ first ran).snoc _ second ran')⟩

/-- The same chunk at 100 and at 5000: bytes at 150 are chosen by the start 100, and
placed by the start 5000. -/
theorem malformed_slice_of_stale_start : ¬ ∀ c, Reaches (Capture.step true) Segments .start c →
    ∀ call ∈ c.calls, WellFormed call := by
  intro wellFormed
  have run : Reaches (Capture.step true) Segments .start _ :=
    ((Reaches.refl.snoc (headerAt (.replicate 20 7) 1100 1024 100) ⟨_, _, _, _, rfl⟩ rfl).snoc
      (headerAt (.replicate 20 7) 1100 1024 5000) ⟨_, _, _, _, rfl⟩ rfl).snoc
      (bytesAt 150) ⟨_, _, _, _, rfl⟩ rfl
  have bad := wellFormed _ run (.fill someFlow (.replicate 20 7) 150 3 5000 1100) (by decide +kernel)
  simp [WellFormed] at bad

end Ditto.SliceBounds
