import Ditto.ChanceRuns
import Ditto.FlowFaithfulness
import Ditto.OrderIndependence
import Ditto.StreamPasses

/-! Multiple chances against one. With one chance a pass sends the records that were captured
whole. With multiple chances each of these was sent when its chunk was complete, or lies in
the list of its flow when the pass comes, as long as no step loses a byte of it. -/
namespace Ditto.MultipleChances
open Sniffer Buffers SniffTcp ContiguousBlock ChunkReassembly Spans Windows Words Traces Traced FlowLists Runs
open ChunkHeadings SegmentHandling FlowInsertion FlowStore ChunkClaiming HeaderlessSegments RecordScan RecordExtraction
open FlowFaithfulness OrderIndependence Placement RecordHeaders
open RecordFraming SettledBytes ChunkStocks ChanceSteps ChanceRuns StreamPasses
open FlowIdentity (Captured Sniffed)

/-- A segment of a captured flow that agrees with the flow's stream. -/
def FromStreams (streams : Streams) (event : Memory × SniffEvent) : Prop :=
  IsSegment event ∧ Sniffed event.2 ∧ Agrees streams event.2

/-- The positions of a flow that segments bring. -/
def capturedBy (events : List (Memory × SniffEvent)) (flow : FlowId) : Set ℕ :=
  positions id (events.filterMap (captures flow))

/-- What the steps of a capture have to meet. -/
def Conserving (c : Capture) (event : Memory × SniffEvent) : Prop :=
  ∀ s, c.sniffer = some s → match event.2 with
    | .segment flow payload around seqNum => Conserved s flow (.ofBytes payload around) payload.length seqNum
    | .grepFlows => ∀ entry ∈ s.buffers.pFlowList, ∀ block ∈ entry.2, ¬ Stuck event.1 block

/-- The data that were sent. -/
def dataSent (calls : List Call) : Set (List UInt8) := {data | ∃ flow, (flow, data) ∈ calls.filterMap Call.sent}

variable {streams : Streams} {framing : Framing streams} {captured : FlowId → Set ℕ} {told calls : List Call}
  {s s' : SniffTcp ChunkInfo} {c : Capture} {flow : FlowId} {events rest : List (Memory × SniffEvent)}
  {event : Memory × SniffEvent} {p : ℕ} {reply : DotChunkRes} {mem : Memory} {kept : FlowId → Set ℕ}

/-! ## Multiple chances -/

/-- A sniffer that has seen nothing has lost nothing. -/
theorem lossless_create (framing : Framing streams) : Lossless framing (fun _ => ∅) [] .create where
  ready := ⟨⟨nofun, nofun⟩, nofun, nofun⟩
  stocked := ⟨⟨fun _ => blocks_ok_nil, fun _ => nofun⟩, nofun⟩
  stand := fun _ _ => nofun
  placed := fun _ _ _ => nofun

theorem captured_by_nil (flow : FlowId) : capturedBy [] flow = ∅ := by
  simp [capturedBy]

theorem captured_by_cons (event : Memory × SniffEvent) (events : List (Memory × SniffEvent)) (flow : FlowId) :
    capturedBy (event :: events) flow = capturedBy [event] flow ∪ capturedBy events flow := by
  cases known : captures flow event with
  | none => simp [capturedBy, known]
  | some piece => simp [capturedBy, positions, known, coverage_cons]

/-- What a segment adds. -/
theorem segment_adds {payload : List UInt8} {around : ℤ → UInt8} {seq : TcpSeq} (mem : Memory) (flow : FlowId) :
    Adds captured flow seq.toNat (seq.toNat + payload.length)
      (fun other => captured other ∪ capturedBy [(mem, .segment flow payload around seq)] other) := by
  intro other x inside
  refine inside.imp_right fun new => ?_
  by_cases same : flow = other
  · subst same
    simp only [capturedBy, captures, List.filterMap_cons, if_true, List.filterMap_nil, positions, coverage_cons] at new
    simpa using new
  · simp [capturedBy, captures, same] at new

/-- **A run of segments loses nothing** if each of them conserves what there is. -/
theorem run_lossless (fromStreams : ∀ event ∈ events, FromStreams streams event)
    (lossless : Lossless framing captured calls s)
    (conserving : Meets (Capture.step true) Conserving ⟨some s, calls⟩ (events ++ rest)) :
    ∃ s' later, events.foldlM (Capture.step true) ⟨some s, calls⟩ = some ⟨some s', calls ++ later⟩ ∧
      Lossless framing (fun flow => captured flow ∪ capturedBy events flow) (calls ++ later) s' ∧
      Meets (Capture.step true) Conserving ⟨some s', calls ++ later⟩ rest := by
  induction events generalizing captured s calls with
  | nil =>
    refine ⟨s, [], by simp, ?_, by simpa using conserving⟩
    simpa [captured_by_nil] using lossless
  | cons event events ih =>
    obtain ⟨head, tail⟩ := List.forall_mem_cons.mp fromStreams
    obtain ⟨mem, event⟩ := event
    cases event with
    | grepFlows => exact head.1.elim
    | segment flow payload around seq =>
      obtain ⟨_, own, agrees⟩ := head
      obtain ⟨conserved, next⟩ := conserving
      have carries : Carries (streams flow) Set.univ (.ofBytes payload around) payload.length seq :=
        carries_of_agrees agrees fun _ _ _ => trivial
      have adds := @segment_adds captured payload around seq mem flow
      obtain ⟨s₁, ran, lossless₁⟩ := segment_lossless mem lossless carries own agrees.1 (conserved s rfl) adds
      have step : Capture.step true ⟨some s, calls⟩ (mem, .segment flow payload around seq) =
          some ⟨some s₁, calls ++ (s.handleIp true mem flow (.ofBytes payload around) payload.length seq).calls⟩ := by
        simp only [Capture.step, SniffTcp.step, Option.map_some, ran]
      obtain ⟨s', later, ran', lossless', meets⟩ := ih tail lossless₁ (next _ step)
      refine ⟨s', (s.handleIp true mem flow (.ofBytes payload around) payload.length seq).calls ++ later, ?_, ?_, ?_⟩
      · rw [List.foldlM_cons, step, ← List.append_assoc]
        exact ran'
      · simp only [captured_by_cons _ events, ← Set.union_assoc]
        rw [← List.append_assoc]
        exact lossless'
      · rw [← List.append_assoc]
        exact meets

/-- What is captured of a record that was shown is sent when all of it is. -/
theorem shown_sent {ci : ChunkInfo} (lossless : Lossless framing captured told s) (own : Captured flow)
    (member : ci ∈ infosOf s flow) (replied : replyAt (streams flow) ci.sSeqNum.toNat = some reply)
    (whole : Set.Ico ci.sSeqNum.toNat (ci.sSeqNum.toNat + ci.chunkLength) ⊆ captured flow) :
    reply.chunkData ∈ dataSent told := by
  obtain ⟨ready, stocked, stand, placed⟩ := lossless
  obtain ⟨reply', replied', described, _⟩ := (stand flow own ci member).described framing
  cases replied.symm.trans replied'
  obtain ⟨pRc, found, _, length⟩ := chunk_of_copy (ready.copied member)
  obtain ⟨⟨_, reply', described', sent⟩, _⟩ := stocked.chunks ci.chunkId pRc found
  obtain ⟨_, rfl⟩ := described.unique described'
  refine sent fun x ⟨_, upper⟩ => ?_
  have within : ci.sSeqNum.toNat + x ∈ range ci := ⟨by omega, by omega⟩
  obtain ⟨pRc', found', stored⟩ := (placed flow own _ (whole within)).inChunks ci member within
  cases found.symm.trans found'
  rwa [Nat.add_sub_cancel_left] at stored

/-- A record that was not shown is in the list when all of it is captured. -/
theorem unshown_listed (lossless : Lossless framing captured told s) (own : Captured flow)
    (unshown : ∀ ci ∈ infosOf s flow, ci.sSeqNum.toNat ≠ p) (marked : Marked (streams flow) p)
    (replied : replyAt (streams flow) p = some reply)
    (whole : Set.Ico p (p + (lengthAt (streams flow) p + 4)) ⊆ captured flow) :
    ∃ block ∈ s.buffers.blocksOf flow, Inside streams flow p reply block := by
  obtain ⟨_, stocked, stand, placed⟩ := lossless
  have outside : ∀ x ∈ Set.Ico p (p + (lengthAt (streams flow) p + 4)),
      ∀ ci ∈ infosOf s flow, x ∉ recordRange ci := by
    rintro x ⟨lower, upper⟩ ci member ⟨above, below⟩
    obtain ⟨marked', length, _⟩ := stand flow own ci member
    rcases Nat.lt_or_gt_of_ne (unshown ci member) with before | behind
    · have := framing.apart flow _ _ marked' marked before
      omega
    · have := framing.apart flow _ _ marked marked' behind
      omega
  have ok := stocked.lists.ok flow
  obtain ⟨block, member, starts, ends⟩ := interval_within_one ok.proper ok.separated (by omega)
    fun x inside => (placed flow own x (whole inside)).inList (outside x inside)
  exact ⟨block, member, marked, replied, starts, ends⟩

/-- The list of a flow that has a block is listed. -/
theorem blocks_listed {b : Buffers} {block : ContiguousBlock} (member : block ∈ b.blocksOf flow) :
    (flow, b.blocksOf flow) ∈ b.pFlowList := by
  rw [blocksOf] at member ⊢
  cases found : b.pFlowList.find? (·.1 = flow) with
  | none =>
    rw [found] at member
    cases member
  | some entry =>
    have same : entry.1 = flow := by simpa using List.find?_some found
    have listed := List.mem_of_find?_eq_some found
    rw [← same]
    exact listed

/-- **Every record that was captured whole is sent** by the time that the pass is over. -/
theorem whole_record_sent (lossless : Lossless framing captured told s) (own : Captured flow)
    (free : ∀ entry ∈ s.buffers.pFlowList, ∀ block ∈ entry.2, ¬ Stuck mem block)
    (marked : Marked (streams flow) p) (replied : replyAt (streams flow) p = some reply)
    (whole : Set.Ico p (p + (lengthAt (streams flow) p + 4)) ⊆ captured flow) :
    reply.chunkData ∈ dataSent (told ++ (grepFlows mem s.buffers.pFlowList).calls) := by
  by_cases shown : ∃ ci ∈ infosOf s flow, ci.sSeqNum.toNat = p
  · obtain ⟨ci, member, rfl⟩ := shown
    have length := (lossless.stand flow own ci member).length_eq
    obtain ⟨flow', sent⟩ := shown_sent lossless own member replied fun x ⟨lower, upper⟩ =>
      whole ⟨lower, by omega⟩
    exact ⟨flow', by rw [List.filterMap_append]; exact List.mem_append_left _ sent⟩
  · obtain ⟨block, member, inside⟩ := unshown_listed lossless own
      (fun ci member same => shown ⟨ci, member, same⟩) marked replied whole
    have ok := lossless.stocked.lists.ok flow
    have sent := grep_flows_sends framing free (blocks_listed member) (fun li held => (ok.each li held).holds)
      (lossless.stocked.lists.unread flow) member inside
    exact ⟨flow, by rw [List.filterMap_append]; exact List.mem_append_right _ sent⟩

/-! ## One chance -/

/-- Segments are stored as they come, and nothing is sent. -/
theorem run_stores (fromStreams : ∀ event ∈ events, FromStreams streams event)
    (within : ∀ flow, capturedBy events flow ⊆ kept flow) (before : Kept streams kept s.buffers) :
    ∃ s' later, events.foldlM (Capture.step false) ⟨some s, calls⟩ = some ⟨some s', calls ++ later⟩ ∧
      Kept streams kept s'.buffers ∧ later.filterMap Call.sent = [] := by
  induction events generalizing s calls with
  | nil => exact ⟨s, [], by simp, before, rfl⟩
  | cons event events ih =>
    obtain ⟨head, tail⟩ := List.forall_mem_cons.mp fromStreams
    obtain ⟨mem, event⟩ := event
    cases event with
    | grepFlows => exact head.1.elim
    | segment flow payload around seq =>
      obtain ⟨_, _, agrees⟩ := head
      simp only [captured_by_cons _ events, Set.union_subset_iff] at within
      have own : Set.Ico seq.toNat (seq.toNat + payload.length) ⊆ kept flow := by
        have first := (within flow).1
        simpa [capturedBy, captures, positions, coverage_cons] using first
      have carries : Carries (streams flow) (kept flow) (.ofBytes payload around) payload.length seq :=
        carries_of_agrees agrees fun i lower upper => own ⟨lower, upper⟩
      obtain ⟨s₁, first, ran, kept₁, silent⟩ : ∃ s₁ first,
          Capture.step false ⟨some s, calls⟩ (mem, .segment flow payload around seq) = some ⟨some s₁, calls ++ first⟩ ∧
          Kept streams kept s₁.buffers ∧ first.filterMap Call.sent = [] := by
        by_cases empty : payload.length = 0
        · refine ⟨s, [], ?_, before, rfl⟩
          simp only [Capture.step, SniffTcp.step, handleIp, if_pos empty, Option.map_some]
          rfl
        · obtain ⟨flows, edit, stored, yields⟩ :=
            @handle_ip_stores flow mem s (.ofBytes payload around) payload.length seq empty
          refine ⟨{ s with buffers := { s.buffers with pFlowList := flows } },
            [.insert flow seq 0 payload.length payload.length], ?_, ?_, rfl⟩
          · simp only [Capture.step, SniffTcp.step, Option.map_some, yields.result, yields.calls]
          · exact insert_flow_keeps (P := fun flow => Stored (streams flow) (kept flow)) carries.inserts before stored
      obtain ⟨s', later, ran', kept', silent'⟩ := ih tail (fun flow => (within flow).2) kept₁
      refine ⟨s', first ++ later, ?_, kept', by rw [List.filterMap_append, silent, silent', List.append_nil]⟩
      rw [List.foldlM_cons, ran, ← List.append_assoc]
      exact ran'

/-- With one chance a run sends records that were captured whole. -/
theorem single_chance_sends (framing : Framing streams) (fromStreams : ∀ event ∈ events, FromStreams streams event)
    (near : ∀ flow, Near (capturedBy events flow)) (mem : Memory) :
    ∃ c, (events ++ [(mem, SniffEvent.grepFlows)]).foldlM (Capture.step false) .start = some c ∧
      ∀ data ∈ dataSent c.calls, ∃ flow p reply, Marked (streams flow) p ∧
        replyAt (streams flow) p = some reply ∧ reply.chunkData = data ∧
        Set.Ico p (p + (lengthAt (streams flow) p + 4)) ⊆ capturedBy events flow := by
  obtain ⟨s, later, ran, kept, silent⟩ := @run_stores streams [] .create events (capturedBy events) fromStreams
    (fun _ => subset_rfl) (by simp [Kept, SniffTcp.create, Buffers.empty])
  have recorded := @grep_flows_recorded streams (capturedBy events) mem s.buffers.pFlowList framing near kept
  have passed : (s.step false (mem, .grepFlows)).calls = (grepFlows mem s.buffers.pFlowList).calls := by
    rw [SniffTcp.step, grepFlowsForChunks]
    simp
  refine ⟨⟨(s.step false (mem, .grepFlows)).result, later ++ (s.step false (mem, .grepFlows)).calls⟩, ?_, ?_⟩
  · rw [List.foldlM_append, Capture.start, ran]
    rfl
  · rintro data ⟨flow, member⟩
    rw [List.filterMap_append, silent, List.nil_append, passed] at member
    obtain ⟨call, logged, sent⟩ := List.mem_filterMap.mp member
    obtain ⟨p, reply, record⟩ := recorded call logged flow data sent
    exact ⟨flow, p, reply, record⟩

/-! ## Dominance -/

/-- What segments bring belongs to captured flows. -/
theorem captured_of_mem {x : ℕ} (fromStreams : ∀ event ∈ events, FromStreams streams event)
    (inside : x ∈ capturedBy events flow) : Captured flow := by
  obtain ⟨piece, member, _⟩ := inside
  obtain ⟨⟨mem, event⟩, listed, found⟩ := List.mem_filterMap.mp member
  obtain ⟨_, sniffed, _⟩ := fromStreams _ listed
  cases event with
  | grepFlows => cases found
  | segment other payload around seq =>
    simp only [captures, Option.ite_none_right_eq_some] at found
    exact found.1 ▸ sniffed

/-- **Multiple chances send what one chance sends**, for streams of records in any segments in any
order, in every run whose steps lose nothing. -/
theorem multi_chance_dominates (streams : Streams) (framing : Framing streams) (events : List (Memory × SniffEvent))
    (mem mem' : Memory) (fromStreams : ∀ event ∈ events, FromStreams streams event)
    (near : ∀ flow, Near (capturedBy events flow))
    (conserving : Meets (Capture.step true) Conserving .start (events ++ [(mem, .grepFlows)])) :
    ∃ multi single, (events ++ [(mem, SniffEvent.grepFlows)]).foldlM (Capture.step true) .start = some multi ∧
      (events ++ [(mem', SniffEvent.grepFlows)]).foldlM (Capture.step false) .start = some single ∧
      dataSent single.calls ⊆ dataSent multi.calls := by
  obtain ⟨single, ran, sends⟩ := single_chance_sends framing fromStreams near mem'
  obtain ⟨s, later, ran', lossless, free, _⟩ := run_lossless fromStreams (lossless_create framing) conserving
  have passed : (s.step true (mem, .grepFlows)).calls = (grepFlows mem s.buffers.pFlowList).calls := by
    rw [SniffTcp.step, grepFlowsForChunks]
    simp
  refine ⟨⟨(s.step true (mem, .grepFlows)).result, later ++ (s.step true (mem, .grepFlows)).calls⟩, single, ?_, ran,
    fun data member => ?_⟩
  · rw [List.foldlM_append, Capture.start, ran']
    rfl
  · obtain ⟨flow, p, reply, marked, replied, rfl, whole⟩ := sends data member
    have own : Captured flow := captured_of_mem fromStreams (whole ⟨Nat.le_refl p, by omega⟩)
    rw [passed]
    exact whole_record_sent lossless own (free s rfl) marked replied fun x inside => Or.inr (whole inside)

/-! ## Parts of one record -/

/-- A record stands at the start of every flow. -/
def recordIn (r : ChunkRecord) : Streams := fun _ => streamFrom 0 r.bytes

theorem record_in_bytes (r : ChunkRecord) : (streamAt (recordIn r flow) 0).bytes r.bytes.length = r.bytes := by
  have whole := @window_stream 0 r.bytes 0 r.bytes.length (Nat.le_refl _)
  rw [List.drop_zero, Nat.sub_zero, List.take_length, Nat.zero_add, Nat.zero_add] at whole
  refine Eq.trans (window_congr fun i _ _ => ?_) whole
  rw [stream_at, Nat.zero_add]
  rfl

/-- What the marks of the record's stream are, if its own is the only one. -/
theorem record_in_marked {r : ChunkRecord} (only : ∀ n, r.bytes.getD n 0 = rpcHeader → n = 0)
    (marked : Marked (recordIn r flow) p) : p = 0 :=
  only p marked.1

/-- A record with one mark is framed, wherever it stands. -/
def framingOf (r : ChunkRecord) (only : ∀ n, r.bytes.getD n 0 = rpcHeader → n = 0)
    (ends : 72 + r.data.length ≤ r.bytes.length) : Framing (recordIn r) where
  record := fun _ => streamFrom 0 r.bytes
  apart := fun flow p q one two less => by
    rw [record_in_marked only one, record_in_marked only two] at less
    exact absurd less (Nat.lt_irrefl 0)
  whole := fun flow p reply marked replied => by
    have holds := @record_in_bytes flow r
    rw [record_in_marked only marked] at replied ⊢
    obtain ⟨_, _, length, _⟩ := r.reads (r.header_of_bytes holds)
    cases replied.symm.trans (r.extract holds)
    show 68 + r.data.length ≤ getLengthFromByteStream (streamAt (recordIn r flow) 0)
    omega
  alike := fun flow p reply marked _ i _ _ => by
    rw [record_in_marked only marked, Nat.zero_add]
    rfl

/-- A part of a record, captured in a flow. -/
def partOf (r : ChunkRecord) (part : FlowId × ℕ × ℕ) : Memory × SniffEvent :=
  (zeroMemory, .segment part.1 ((r.bytes.drop part.2.1).take (part.2.2 - part.2.1)) (fun _ => 0)
    (UInt32.ofNat part.2.1))

/-- Parts of a record that is not too long. -/
def Parts (r : ChunkRecord) (parts : List (FlowId × ℕ × ℕ)) : Prop :=
  ∀ part ∈ parts, Captured part.1 ∧ part.2.1 ≤ part.2.2 ∧ part.2.2 ≤ r.bytes.length ∧ r.bytes.length < 2 ^ 31

theorem part_length {r : ChunkRecord} {start last : ℕ} (inside : last ≤ r.bytes.length) :
    ((r.bytes.drop start).take (last - start)).length = last - start := by
  rw [List.length_take, List.length_drop]
  omega

theorem parts_from_streams {r : ChunkRecord} {parts : List (FlowId × ℕ × ℕ)} (isParts : Parts r parts) :
    ∀ event ∈ parts.map (partOf r), FromStreams (recordIn r) event := by
  intro event member
  obtain ⟨⟨flow, start, last⟩, known, rfl⟩ := List.mem_map.mp member
  obtain ⟨own, ordered, inside, short⟩ := isParts _ known
  simp only at own ordered inside
  have length := @part_length r start last inside
  have number : (UInt32.ofNat start).toNat = start := by
    rw [UInt32.toNat_ofNat']
    omega
  have part := @window_stream 0 r.bytes start last inside
  rw [Nat.zero_add, Nat.zero_add] at part
  refine ⟨trivial, own, ?_⟩
  simp only [Agrees, partOf, length, number]
  refine ⟨by omega, by omega, ?_⟩
  rw [Nat.add_sub_cancel' ordered]
  exact part.symm

theorem parts_near {r : ChunkRecord} {parts : List (FlowId × ℕ × ℕ)} (isParts : Parts r parts) (flow : FlowId) :
    Near (capturedBy (parts.map (partOf r)) flow) := by
  refine ⟨0, fun i ⟨piece, member, _, upper⟩ => ?_⟩
  obtain ⟨event, listed, found⟩ := List.mem_filterMap.mp member
  obtain ⟨⟨other, start, last⟩, known, rfl⟩ := List.mem_map.mp listed
  obtain ⟨_, ordered, inside, short⟩ := isParts _ known
  simp only at ordered inside
  have length := @part_length r start last inside
  have number : (UInt32.ofNat start).toNat = start := by
    rw [UInt32.toNat_ofNat']
    omega
  simp only [captures, partOf, Option.ite_none_right_eq_some, Option.some.injEq] at found
  obtain ⟨_, rfl⟩ := found
  simp only [id, number, length] at upper
  omega

/-! ## The end of a record before its start -/

theorem length_record : (plainRecord 7).bytes.length = 1104 := length_plain 7

/-- One mark in a record of zeros. -/
theorem plain_marked {n : ℕ} (mark : (plainRecord 7).bytes.getD n 0 = rpcHeader) : n = 0 := by
  by_cases inside : n < (plainRecord 7).bytes.length
  · have only : (plainRecord 7).bytes.zipIdx.all (fun entry => entry.1 ≠ rpcHeader ∨ entry.2 = 0) = true := by
      decide +kernel
    rw [List.getD_eq_getElem?_getD, List.getElem?_eq_getElem inside, Option.getD_some] at mark
    have place := List.all_eq_true.mp only (rpcHeader, n)
      (List.mem_zipIdx_iff_getElem?.mpr (by rw [List.getElem?_eq_getElem inside, mark]))
    exact (of_decide_eq_true place).resolve_left (not_not_intro rfl)
  · rw [List.getD_eq_getElem?_getD, List.getElem?_eq_none (Nat.le_of_not_lt inside)] at mark
    exact absurd mark (by decide)

/-- Streams of that record. -/
def plainFraming : Framing (recordIn (plainRecord 7)) := framingOf (plainRecord 7) (fun _ => plain_marked) (by
  have data : (plainRecord 7).data.length = 1024 := by decide +kernel
  rw [length_record, data]
  decide)

/-- A flow between the same hosts. -/
def otherFlow : FlowId := { someFlow with dstPort := 4001 }

/-- The end of the record and then the rest of it, in one flow. -/
def endFirst : List (FlowId × ℕ × ℕ) := [(someFlow, 1090, 1104), (someFlow, 0, 1090)]

/-- The same with the record's header in another flow in between. -/
def headerBetween : List (FlowId × ℕ × ℕ) := [(someFlow, 1090, 1104), (otherFlow, 0, 68), (someFlow, 0, 1090)]

theorem end_first_parts : Parts (plainRecord 7) endFirst := by
  rw [Parts, length_record]
  simp [endFirst, FlowIdentity.captured_some_flow]

theorem header_between_parts : Parts (plainRecord 7) headerBetween := by
  have other : Captured otherFlow := FlowIdentity.captured_some_flow
  rw [Parts, length_record]
  simp [headerBetween, FlowIdentity.captured_some_flow, other]

/-- With one chance the record is sent. -/
theorem header_between_sent : ∃ single, (headerBetween.map (partOf (plainRecord 7)) ++
      [(zeroMemory, SniffEvent.grepFlows)]).foldlM (Capture.step false) .start = some single ∧
    (plainRecord 7).data ∈ dataSent single.calls := by
  have length := length_record
  have other : otherFlow ≠ someFlow := by decide
  have front : (plainRecord 7).bytes.take 1090 ≠ [] := by
    rw [← List.length_pos_iff, List.length_take, length]
    decide
  have back : (plainRecord 7).bytes.drop 1090 ≠ [] := by
    rw [← List.length_pos_iff, List.length_drop, length]
    decide
  have pieces : (headerBetween.map (partOf (plainRecord 7))).filterMap (captures someFlow) =
      [(1090, (plainRecord 7).bytes.drop 1090), (0, (plainRecord 7).bytes.take 1090)] := by
    have tail : ((plainRecord 7).bytes.drop 1090).take (1104 - 1090) = (plainRecord 7).bytes.drop 1090 :=
      List.take_of_length_le (by rw [List.length_drop, length])
    simp [headerBetween, partOf, captures, other, tail]
  have spots : placed id 0 [(plainRecord 7).bytes.take 1090, (plainRecord 7).bytes.drop 1090] =
      [(0, (plainRecord 7).bytes.take 1090), (1090, (plainRecord 7).bytes.drop 1090)] := by
    simp [placed, length]
  obtain ⟨c, s, single, stored, running, passed, _, sends⟩ := @stream_sent someFlow zeroMemory 0
    [(plainRecord 7).bytes.take 1090, (plainRecord 7).bytes.drop 1090] (headerBetween.map (partOf (plainRecord 7)))
    [plainRecord 7] [] partial_nil (by simp) (by simp [length])
    (fun piece member => (List.mem_pair.mp member).elim (fun same => same ▸ front) fun same => same ▸ back)
    (fun event member => by
      obtain ⟨part, _, rfl⟩ := List.mem_map.mp member
      trivial)
    (by rw [pieces, spots]; exact List.Perm.swap ..)
  have listed : ((headerBetween.map (partOf (plainRecord 7))).foldlM (Capture.step false) .start).all (fun c =>
      c.sniffer.all fun s => s.buffers.pFlowList.head?.map Prod.fst = some someFlow) = true := by decide +kernel
  rw [stored, Option.all_some, running, Option.all_some, decide_eq_true_eq] at listed
  have reached : Reached zeroMemory someFlow s.buffers.pFlowList := by
    obtain ⟨entry, first, same⟩ := Option.map_eq_some_iff.mp listed
    obtain ⟨rest, shape⟩ := List.head?_eq_some_iff.mp first
    intro other member
    rw [shape, List.takeWhile_cons_of_neg (by simpa using same)] at member
    cases member
  have sent := sends reached
  refine ⟨single, ?_, someFlow, ?_⟩
  · rw [List.foldlM_append, stored]
    exact (bind_pure _).trans passed
  · have member : (plainRecord 7).data ∈ sentFor someFlow single.calls := by
      rw [sent]
      exact List.mem_singleton_self _
    obtain ⟨⟨flow, data⟩, held, own⟩ := List.mem_filterMap.mp member
    simp only [Option.ite_none_right_eq_some, Option.some.injEq] at own
    obtain ⟨rfl, rfl⟩ := own
    exact held

/-- The claim at a header that another flow has in between: multiple chances send nothing. -/
theorem not_multi_chance_dominates : ¬ ∀ (streams : Streams) (_ : Framing streams)
    (events : List (Memory × SniffEvent)) (mem mem' : Memory), (∀ event ∈ events, FromStreams streams event) →
    (∀ flow, Near (capturedBy events flow)) →
    ∃ multi single, (events ++ [(mem, SniffEvent.grepFlows)]).foldlM (Capture.step true) .start = some multi ∧
      (events ++ [(mem', SniffEvent.grepFlows)]).foldlM (Capture.step false) .start = some single ∧
      dataSent single.calls ⊆ dataSent multi.calls := by
  intro always
  obtain ⟨multi, single, ran, ran', contained⟩ := always _ plainFraming (headerBetween.map (partOf (plainRecord 7)))
    zeroMemory zeroMemory (parts_from_streams header_between_parts) (parts_near header_between_parts)
  obtain ⟨single', again, sent⟩ := header_between_sent
  cases ran'.symm.trans again
  have nothing : ((headerBetween.map (partOf (plainRecord 7)) ++ [(zeroMemory, SniffEvent.grepFlows)]).foldlM
      (Capture.step true) .start).all (fun c => (c.calls.filterMap Call.sent).isEmpty) = true := by decide +kernel
  rw [ran, Option.all_some, List.isEmpty_iff] at nothing
  obtain ⟨flow, member⟩ := contained sent
  rw [nothing] at member
  cases member

/-- A flow that nothing is known of, as far as a list and the chunks go. -/
theorem infos_of_unknown (unknown : s.flowChunkMap flow.toString = none) : infosOf s flow = [] := by
  rw [infosOf, unknown]
  rfl

/-- The end of the record is stored. -/
theorem end_conserved : Conserving .start (partOf (plainRecord 7) (someFlow, 1090, 1104)) := by
  intro s running
  cases running
  have length : (((plainRecord 7).bytes.drop 1090).take (1104 - 1090)).length = 14 :=
    @part_length (plainRecord 7) 1090 1104 length_record.ge
  have unshown : getChunkId (.ofBytes (((plainRecord 7).bytes.drop 1090).take (1104 - 1090)) fun _ => 0) 14 = none := by
    decide +kernel
  show Conserved .create someFlow (.ofBytes (((plainRecord 7).bytes.drop 1090).take (1104 - 1090)) fun _ => 0)
    (((plainRecord 7).bytes.drop 1090).take (1104 - 1090)).length 1090
  rw [length]
  refine ⟨⟨by decide, by decide, fun _ _ shown => ?_, fun _ _ shown => ?_⟩, fun _ _ shown => ?_, fun _ => ?_,
    fun _ _ shown => ?_⟩
  · cases unshown.symm.trans shown
  · cases unshown.symm.trans shown
  · cases unshown.symm.trans shown
  · refine ⟨⟨nofun, nofun, Or.inl ?_⟩, ?_⟩
    · rintro ⟨_, found, _⟩
      cases found
    · rintro ⟨before, _, _, _, shape, _⟩
      have empty : before ++ _ = [] := shape.symm
      simp at empty
  · cases unshown.symm.trans shown

/-- What its header shows, and where it stands. -/
theorem rest_shown : getChunkId (.ofBytes (((plainRecord 7).bytes.drop 0).take (1090 - 0)) fun _ => 0) 1090 =
      some (.replicate 20 7, 0) ∧
    getLengthFromByteStream (.ofBytes (((plainRecord 7).bytes.drop 0).take (1090 - 0)) fun _ => 0) = 1100 :=
  ⟨by decide +kernel, by decide +kernel⟩

/-- Its new chunk claims the end. -/
theorem rest_conserved {after : Capture}
    (ran : Capture.step true .start (partOf (plainRecord 7) (someFlow, 1090, 1104)) = some after) :
    Conserving after (partOf (plainRecord 7) (someFlow, 0, 1090)) := by
  intro s running
  have facts : (Capture.step true .start (partOf (plainRecord 7) (someFlow, 1090, 1104))).all (fun c =>
      c.sniffer.all fun s => s.flowChunkMap someFlow.toString = none ∧
        (s.buffers.blocksOf someFlow).map (fun li => (startOf li, nextOf li, li.contiguousBlock.length)) =
          [(1090, 1104, 14)] ∧
        (s.buffers.chunkIdReconstructedChunkMap (.replicate 20 7)).isNone) = true := by decide +kernel
  rw [ran, Option.all_some, running, Option.all_some, decide_eq_true_eq] at facts
  obtain ⟨unknown, listed, fresh⟩ := facts
  have none := infos_of_unknown unknown
  rw [Option.isNone_iff_eq_none] at fresh
  obtain ⟨shown, counted⟩ := rest_shown
  have length : (((plainRecord 7).bytes.drop 0).take (1090 - 0)).length = 1090 :=
    @part_length (plainRecord 7) 0 1090 (by rw [length_record]; decide)
  show Conserved s someFlow (.ofBytes (((plainRecord 7).bytes.drop 0).take (1090 - 0)) fun _ => 0)
    (((plainRecord 7).bytes.drop 0).take (1090 - 0)).length 0
  rw [length]
  obtain ⟨li, only, numbers⟩ : ∃ li, s.buffers.blocksOf someFlow = [li] ∧
      (startOf li, nextOf li, li.contiguousBlock.length) = (1090, 1104, 14) := List.map_eq_singleton_iff.mp listed
  simp only [Prod.mk.injEq] at numbers
  obtain ⟨starts, ends, sized⟩ := numbers
  have stored : volume (s.buffers.blocksOf someFlow) = 14 := by
    rw [only, volume_cons, sized]
    rfl
  have head : headSize (.ofBytes (((plainRecord 7).bytes.drop 0).take (1090 - 0)) fun _ => 0) 1090 = 0 := by
    rw [headSize, shown]
  refine ⟨⟨by decide, by rw [stored]; decide, fun chunkId offset shown' => ?_, fun chunkId offset shown' => ?_⟩,
    fun chunkId offset shown' => ?_, fun some_front => absurd head some_front.ne', fun chunkId offset shown' => ?_⟩
  all_goals cases shown.symm.trans shown'
  · rw [none]
    refine ⟨fun _ member => absurd member List.not_mem_nil, fun _ heading found => ?_⟩
    rw [headings, fresh] at found
    cases found
  · rw [Nat.cast_zero, Pointer.advance_zero, counted]
    decide
  · decide
  · rw [Nat.cast_zero, Pointer.advance_zero, counted]
    refine ⟨by simp [none], fun beyond => absurd beyond (by decide), fun _ => ?_, fun pRc found => ?_⟩
    · rw [only]
      refine List.forall_mem_singleton.mpr ⟨fun _ _ => ⟨?_, fun beyond => absurd beyond (by decide)⟩, fun early => ?_⟩
      · rw [ends]
        decide
      · rw [starts] at early
        exact absurd early (by decide)
    · cases fresh.symm.trans found

/-- The pass comes to empty lists. -/
theorem end_first_conserving : Meets (Capture.step true) Conserving .start
    (endFirst.map (partOf (plainRecord 7)) ++ [(zeroMemory, .grepFlows)]) := by
  refine ⟨end_conserved, fun after ran => ⟨rest_conserved ran, fun last ran' => ⟨fun s running => ?_, ?_⟩⟩⟩
  swap
  · exact fun _ _ => trivial
  have facts : ((endFirst.map (partOf (plainRecord 7))).foldlM (Capture.step true) .start).all (fun c =>
      c.sniffer.all fun s => s.buffers.pFlowList.all fun entry => entry.2.isEmpty) = true := by decide +kernel
  have walked : (endFirst.map (partOf (plainRecord 7))).foldlM (Capture.step true) .start = some last := by
    rw [endFirst, List.map_cons, List.foldlM_cons, ran]
    exact (bind_pure _).trans ran'
  rw [walked, Option.all_some, running, Option.all_some, List.all_eq_true] at facts
  intro entry member block held
  rw [List.isEmpty_iff.mp (facts entry member)] at held
  cases held

theorem multi_chance_dominates_end_first : ∃ multi single,
    (endFirst.map (partOf (plainRecord 7)) ++ [(zeroMemory, SniffEvent.grepFlows)]).foldlM
        (Capture.step true) .start = some multi ∧
      (endFirst.map (partOf (plainRecord 7)) ++ [(zeroMemory, SniffEvent.grepFlows)]).foldlM
        (Capture.step false) .start = some single ∧
      dataSent single.calls ⊆ dataSent multi.calls :=
  multi_chance_dominates _ plainFraming _ zeroMemory zeroMemory (parts_from_streams end_first_parts)
    (parts_near end_first_parts) end_first_conserving

end Ditto.MultipleChances
