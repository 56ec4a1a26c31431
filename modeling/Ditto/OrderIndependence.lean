import Ditto.FlowInsertion
import Ditto.Placement
import Ditto.RecordExtraction
import Ditto.Runs

/-! Off-line analysis in the single-chance mode. However a flow's stream of records is
cut into segments and whatever the order they are captured in, they end up as one
block, from which the pass takes the records one by one. The other flows only
matter by the pass coming to an end over their blocks. -/
namespace Ditto.OrderIndependence
open Sniffer Buffers SniffTcp ChunkReassembly Spans Windows Placement Words Traces Traced
open SegmentHandling ChunkHeadings FlowLists FlowInsertion RecordHeaders RecordScan RecordExtraction Handovers

/-- The event is a captured segment. -/
def IsSegment (event : Memory × SniffEvent) : Prop :=
  match event.2 with
  | .segment .. => True
  | .grepFlows => False

/-- The data sent for a flow, in order. -/
def sentFor (flow : FlowId) (calls : List Call) : List (List UInt8) :=
  (calls.filterMap Call.sent).filterMap fun sent => if sent.1 = flow then some sent.2 else none

variable {flow : FlowId} {mem : Memory} {first limit : ℕ} {source : ℕ → UInt8} {captured : Set ℕ}
  {pieces : List (List UInt8)} {own : List (ℕ × List UInt8)} {s s' : SniffTcp ChunkInfo}
  {events : List (Memory × SniffEvent)} {calls later : List Call} {bytes before : List UInt8}
  {block : ContiguousBlock}

/-! ## Storing the segments -/

/-- A sniffer in the single-chance mode that captured these positions of a flow. -/
structure Storing (source : ℕ → UInt8) (limit : ℕ) (flow : FlowId) (captured : Set ℕ)
    (s : SniffTcp ChunkInfo) : Prop where
  ok : BlocksOk source limit (s.buffers.blocksOf flow)
  covers : covered (s.buffers.blocksOf flow) = captured
  unread : Unread (s.buffers.blocksOf flow)
  listed : (s.buffers.pFlowList.map Prod.fst).Nodup

/-- A segment, whatever its flow, is stored by one insertion. -/
theorem handle_ip_stores (payload : Pointer) (size : ℕ) (seq : TcpSeq) (nonempty : size ≠ 0) :
    ∃ flows edit, insertFlow flow payload size seq s.buffers.pFlowList = some (flows, edit) ∧
      Yields (s.handleIp false mem flow payload size seq) [.insert flow seq 0 size size]
        { s with buffers := { s.buffers with pFlowList := flows } } := by
  obtain ⟨flows, edit, ran⟩ := insert_flow_total flow payload size seq s.buffers.pFlowList
  refine ⟨flows, edit, ran, ?_⟩
  rw [handle_ip_single nonempty, Buffers.insert, ran]
  rfl

/-- What is known of a piece before it is captured. -/
structure Fresh (source : ℕ → UInt8) (limit : ℕ) (captured : Set ℕ) (piece : ℕ × List UInt8) : Prop where
  nonempty : piece.2 ≠ []
  inside : piece.1 + piece.2.length ≤ limit
  part : piece.2 = window source piece.1 (piece.1 + piece.2.length)
  apart : Disjoint (Set.Ico piece.1 (piece.1 + piece.2.length)) captured

/-- The step on a segment of another flow. -/
theorem step_other {payload : List UInt8} {around : ℤ → UInt8} {seq : TcpSeq} {other : FlowId}
    (storing : Storing source limit flow captured s) (different : other ≠ flow) :
    ∃ s' later, Capture.step false ⟨some s, calls⟩ (mem, .segment other payload around seq) =
        some ⟨some s', calls ++ later⟩ ∧
      Storing source limit flow captured s' ∧ later.filterMap Call.sent = [] ∧
      s.buffers.pFlowList.map Prod.fst <+: s'.buffers.pFlowList.map Prod.fst := by
  by_cases empty : payload.length = 0
  · refine ⟨s, [], ?_, storing, rfl, List.prefix_refl _⟩
    simp only [Capture.step, SniffTcp.step, handleIp, if_pos empty, Option.map_some]
    rfl
  · obtain ⟨flows, edit, ran, yields⟩ :=
      @handle_ip_stores other mem s (.ofBytes payload around) payload.length seq empty
    refine ⟨{ s with buffers := { s.buffers with pFlowList := flows } },
      [.insert other seq 0 payload.length payload.length], ?_, ?_, rfl, (insert_flow_names ran).1⟩
    · simp only [Capture.step, SniffTcp.step, Option.map_some, yields.result, yields.calls]
    · have own := (insert_flow_blocks ran).2 flow different.symm
      refine ⟨?_, ?_, ?_, (insert_flow_names ran).2 storing.listed⟩
      all_goals simp only [blocks_of_eq, own]
      · exact storing.ok
      · exact storing.covers
      · exact storing.unread

/-- The step on a new segment of this flow. -/
theorem step_own {payload : List UInt8} {around : ℤ → UInt8} {seq : TcpSeq}
    (storing : Storing source limit flow captured s) (small : limit < 2 ^ 32)
    (fresh : Fresh source limit captured (seq.toNat, payload)) :
    ∃ s' later, Capture.step false ⟨some s, calls⟩ (mem, .segment flow payload around seq) =
        some ⟨some s', calls ++ later⟩ ∧
      Storing source limit flow (captured ∪ Set.Ico seq.toNat (seq.toNat + payload.length)) s' ∧
      later.filterMap Call.sent = [] ∧
      s.buffers.pFlowList.map Prod.fst <+: s'.buffers.pFlowList.map Prod.fst := by
  have nonempty : payload.length ≠ 0 := fun empty => fresh.nonempty (List.length_eq_zero_iff.mp empty)
  obtain ⟨flows, edit, ran, yields⟩ :=
    @handle_ip_stores flow mem s (.ofBytes payload around) payload.length seq nonempty
  refine ⟨{ s with buffers := { s.buffers with pFlowList := flows } },
    [.insert flow seq 0 payload.length payload.length], ?_, ?_, rfl, (insert_flow_names ran).1⟩
  · simp only [Capture.step, SniffTcp.step, Option.map_some, yields.result, yields.calls]
  · have walked := (insert_flow_blocks ran).1
    have piece : Piece source limit (.ofBytes payload around) payload.length seq :=
      ⟨by omega, fresh.inside, by rw [Pointer.bytes_ofBytes]; exact fresh.part⟩
    have added := insert_blocks_spec storing.ok small piece (storing.covers ▸ fresh.apart) walked
    refine ⟨added.ok, ?_, insert_blocks_unread storing.unread walked, (insert_flow_names ran).2 storing.listed⟩
    rw [← storing.covers]
    exact added.covers

/-- **All segments**, in any order. -/
theorem store_all (storing : Storing source limit flow captured s) (small : limit < 2 ^ 32)
    (segments : ∀ event ∈ events, IsSegment event)
    (fresh : ∀ piece ∈ events.filterMap (captures flow), Fresh source limit captured piece)
    (apart : (events.filterMap (captures flow)).Pairwise fun one other =>
      one.1 + one.2.length ≤ other.1 ∨ other.1 + other.2.length ≤ one.1) :
    ∃ s' later, events.foldlM (Capture.step false) ⟨some s, calls⟩ = some ⟨some s', calls ++ later⟩ ∧
      Storing source limit flow (captured ∪ positions id (events.filterMap (captures flow))) s' ∧
      later.filterMap Call.sent = [] ∧
      s.buffers.pFlowList.map Prod.fst <+: s'.buffers.pFlowList.map Prod.fst := by
  induction events generalizing captured s calls with
  | nil => exact ⟨s, [], by simp, by simpa using storing, rfl, List.prefix_refl _⟩
  | cons event rest ih =>
    obtain ⟨head, tail⟩ := List.forall_mem_cons.mp segments
    obtain ⟨mem, event⟩ := event
    cases event with
    | grepFlows => cases head
    | segment other payload around seq =>
      by_cases same : other = flow
      · subst same
        have first : captures other (mem, .segment other payload around seq) = some (seq.toNat, payload) := by
          simp [captures]
        rw [List.filterMap_cons_some first] at fresh apart ⊢
        obtain ⟨new, others⟩ := List.forall_mem_cons.mp fresh
        obtain ⟨away, apart⟩ := List.pairwise_cons.mp apart
        obtain ⟨s₁, later₁, ran, storing₁, silent, named⟩ :=
          @step_own _ mem _ _ _ _ calls payload around seq storing small new
        have fresh : ∀ piece ∈ rest.filterMap (captures other),
            Fresh source limit (captured ∪ Set.Ico seq.toNat (seq.toNat + payload.length)) piece := by
          intro piece member
          obtain ⟨nonempty, inside, part, clear⟩ := others piece member
          have between := away piece member
          refine ⟨nonempty, inside, part, Set.disjoint_union_right.mpr ⟨clear, Set.Ico_disjoint_Ico.mpr ?_⟩⟩
          dsimp only at between
          omega
        obtain ⟨s', later, ran', storing', silent', named'⟩ := @ih _ s₁ (calls ++ later₁) storing₁ tail fresh apart
        refine ⟨s', later₁ ++ later, ?_, ?_, by simp [silent, silent'], named.trans named'⟩
        · rw [List.foldlM_cons, ran]
          simpa using ran'
        · rw [positions, coverage_cons, ← Set.union_assoc]
          exact storing'
      · have first : captures flow (mem, .segment other payload around seq) = none := by
          simp [captures, same]
        rw [List.filterMap_cons_none first] at fresh apart ⊢
        obtain ⟨s₁, later₁, ran, storing₁, silent, named⟩ :=
          @step_other _ mem _ _ _ _ calls payload around seq other storing same
        obtain ⟨s', later, ran', storing', silent', named'⟩ := @ih _ s₁ (calls ++ later₁) storing₁ tail fresh apart
        refine ⟨s', later₁ ++ later, ?_, storing', by simp [silent, silent'], named.trans named'⟩
        rw [List.foldlM_cons, ran]
        simpa using ran'

/-! ## The pass -/

/-- The flows that the pass comes to before a flow have no block that it gets stuck on. -/
def Reached (mem : Memory) (flow : FlowId) (flows : List (FlowId × List ContiguousBlock)) : Prop :=
  ∀ entry ∈ flows.takeWhile (·.1 ≠ flow), ∀ block ∈ entry.2, ¬ Stuck mem block

theorem sent_for_append (calls later : List Call) :
    sentFor flow (calls ++ later) = sentFor flow calls ++ sentFor flow later := by
  simp [sentFor]

theorem sent_for_silent (silent : calls.filterMap Call.sent = []) : sentFor flow calls = [] := by
  rw [sentFor, silent, List.filterMap_nil]

theorem sent_for_own {sent : List (List UInt8)} (own : calls.filterMap Call.sent = sent.map fun data => (flow, data)) :
    sentFor flow calls = sent := by
  rw [sentFor, own]
  simp [List.filterMap_map]

/-- What is sent for other flows is not sent for this one. -/
theorem sent_for_other {other : FlowId} (others : ∀ call ∈ calls, SentBy other call) (different : other ≠ flow) :
    sentFor flow calls = [] := by
  rw [sentFor, List.filterMap_eq_nil_iff]
  rintro ⟨name, data⟩ member
  obtain ⟨call, made, sent⟩ := List.mem_filterMap.mp member
  obtain rfl := others call made name data sent
  exact if_neg different

theorem grep_blocks_other {other : FlowId} {blocks : List ContiguousBlock} (different : other ≠ flow) :
    sentFor flow (grepBlocks mem other blocks).calls = [] :=
  sent_for_other (grep_blocks_logs fun _ _ chunk _ => sent_by_put chunk) different

variable {flows : List (FlowId × List ContiguousBlock)}

theorem grep_flows_cons (entry : FlowId × List ContiguousBlock) :
    (grepFlows mem (entry :: flows)).calls = (grepBlocks mem entry.1 entry.2).calls ++
      ((grepBlocks mem entry.1 entry.2).result.elim [] fun _ => (grepFlows mem flows).calls) := by
  rw [grepFlows, calls_bind]
  congr 2
  funext left
  rw [calls_bind]
  cases (grepFlows mem flows).result <;> simp

theorem grep_flows_other (unlisted : flow ∉ flows.map Prod.fst) : sentFor flow (grepFlows mem flows).calls = [] := by
  induction flows with
  | nil => rfl
  | cons entry rest ih =>
    rw [List.map_cons, List.mem_cons, not_or] at unlisted
    rw [grep_flows_cons, sent_for_append, grep_blocks_other (Ne.symm unlisted.1), List.nil_append]
    cases (grepBlocks mem entry.1 entry.2).result with
    | none => rfl
    | some left => exact ih unlisted.2

/-- What the pass sends for a flow that it reaches comes from the flow's blocks. -/
theorem grep_flows_own (listed : (flows.map Prod.fst).Nodup) (reached : Reached mem flow flows) :
    sentFor flow (grepFlows mem flows).calls = sentFor flow (grepBlocks mem flow (blocksIn flows flow)).calls := by
  induction flows with
  | nil => rfl
  | cons entry rest ih =>
    obtain ⟨new, distinct⟩ := List.nodup_cons.mp listed
    rw [grep_flows_cons, sent_for_append, blocks_in_cons]
    by_cases same : entry.1 = flow
    · rw [if_pos same, same]
      have silent : sentFor flow ((grepBlocks mem flow entry.2).result.elim [] fun _ => (grepFlows mem rest).calls) =
          [] := by
        cases (grepBlocks mem flow entry.2).result with
        | none => rfl
        | some left => exact grep_flows_other (same ▸ new)
      rw [silent, List.append_nil]
    · rw [Reached, List.takeWhile_cons_of_pos (by simpa using same)] at reached
      obtain ⟨free, reached⟩ := List.forall_mem_cons.mp reached
      rw [if_neg same, grep_blocks_other same, List.nil_append]
      cases ran : (grepBlocks mem entry.1 entry.2).result with
      | none =>
        obtain ⟨block, member, stuck⟩ := grep_blocks_none.mp ran
        exact absurd stuck (free block member)
      | some left => exact ih distinct reached

variable {records : List ChunkRecord} {tail : List UInt8}

/-- A stream that is all there is one block. -/
theorem one_block (nonempty : 0 < bytes.length)
    (storing : Storing (streamFrom first bytes) (first + bytes.length) flow
      (Set.Ico first (first + bytes.length)) s) :
    ∃ block, s.buffers.blocksOf flow = [block] ∧ block.contiguousBlock = bytes ∧ block.bModified = true ∧
      block.startingSeqNumber.toNat = first ∧ block.nextExpectedSeqNumber.toNat = first + bytes.length := by
  obtain ⟨block, only, starts, ends⟩ :=
    one_span storing.ok.proper storing.ok.separated (by omega) storing.covers
  have holds := (storing.ok.each block (only ▸ List.mem_singleton_self block)).holds
  have starts : block.startingSeqNumber.toNat = first := starts
  have ends : block.nextExpectedSeqNumber.toNat = first + bytes.length := ends
  refine ⟨block, only, ?_, storing.unread block (only ▸ List.mem_singleton_self block), starts, ends⟩
  rw [holds.content, starts, ends]
  simpa using @window_stream first bytes 0 bytes.length (Nat.le_refl _)

/-- The pass over a stream that is one block sends its records. -/
theorem grep_stream (isPartial : Partial tail) (whole : bytes = (records.map ChunkRecord.bytes).flatten ++ tail)
    (storing : Storing (streamFrom first bytes) (first + bytes.length) flow
      (Set.Ico first (first + bytes.length)) s) :
    sentFor flow (grepBlocks mem flow (s.buffers.blocksOf flow)).calls = records.map ChunkRecord.data := by
  by_cases empty : bytes.length = 0
  · have none : s.buffers.blocksOf flow = [] := by
      refine List.eq_nil_iff_forall_not_mem.mpr fun block member => ?_
      have start : startOf block ∈ covered (s.buffers.blocksOf flow) :=
        start_covered storing.ok.proper member
      rw [storing.covers, empty] at start
      simp at start
    have nothing : records = [] := by
      cases records with
      | nil => rfl
      | cons r records =>
        have long := r.long
        rw [whole] at empty
        simp only [List.map_cons, List.flatten_cons, List.length_append] at empty
        omega
    rw [none, nothing]
    rfl
  · obtain ⟨block, only, content, unread, starts, ends⟩ := one_block (by omega) storing
    obtain ⟨left, ran⟩ := @grep_records mem flow block (block.contiguousBlock.length + 2) tail
      records isPartial (content.trans whole) (by rw [content]; omega) unread (by omega)
    have last : Sends (grepBlocks mem flow []) [] [] := sends_pure _
    have own : Sends (grepBlocks mem flow [block]) ((records.map fun r => (flow, r.data)) ++ []) (left ++ []) :=
      ran.bind (last.bind (sends_pure _))
    rw [only]
    exact sent_for_own (by rw [own.calls, List.append_nil, List.map_map]; rfl)

/-! ## Any order -/

/-- All segments of a stream, in any order, when none of it was there before. -/
theorem capture_more (small : first + bytes.length < 2 ^ 32) (cut : pieces.flatten = bytes)
    (nonempty : ∀ piece ∈ pieces, piece ≠ []) (segments : ∀ event ∈ events, IsSegment event)
    (captured : (events.filterMap (captures flow)).Perm (placed id first pieces))
    (start : Storing (streamFrom first bytes) (first + bytes.length) flow ∅ s) :
    ∃ s' later, events.foldlM (Capture.step false) ⟨some s, calls⟩ = some ⟨some s', calls ++ later⟩ ∧
      Storing (streamFrom first bytes) (first + bytes.length) flow (Set.Ico first (first + bytes.length)) s' ∧
      later.filterMap Call.sent = [] ∧
      s.buffers.pFlowList.map Prod.fst <+: s'.buffers.pFlowList.map Prod.fst := by
  have fresh : ∀ piece ∈ events.filterMap (captures flow),
      Fresh (streamFrom first bytes) (first + bytes.length) ∅ piece := by
    intro piece member
    have known := captured.mem_iff.mp member
    obtain ⟨_, inside, part⟩ := @placed_part _ id first pieces bytes [] (by simpa using cut.symm) piece known
    exact ⟨nonempty piece.2 (mem_of_placed known), inside, part, Set.disjoint_empty _⟩
  have apart := (captured.pairwise_iff (fun {one other} => Or.symm)).mpr
    ((placed_ordered id first pieces).2.imp Or.inl)
  have stored := @store_all _ _ _ _ _ _ calls start small segments fresh apart
  rwa [Set.empty_union, positions_perm captured, positions_placed, joined_id, cut] at stored

theorem nothing_stored (unlisted : s.buffers.blocksOf flow = [])
    (listed : (s.buffers.pFlowList.map Prod.fst).Nodup) : Storing source limit flow ∅ s := by
  refine ⟨?_, ?_, ?_, listed⟩
  all_goals rw [unlisted]
  · exact blocks_ok_nil
  · exact coverage_nil
  · exact fun _ => nofun

/-- What is sent for a stream, if the pass comes to its flow. -/
theorem stream_sent (isPartial : Partial tail) (cut : pieces.flatten = (records.map ChunkRecord.bytes).flatten ++ tail)
    (unwrapped : first + pieces.flatten.length < 2 ^ 32) (nonempty : ∀ piece ∈ pieces, piece ≠ [])
    (segments : ∀ event ∈ events, IsSegment event)
    (captured : (events.filterMap (captures flow)).Perm (placed id first pieces)) :
    ∃ c s c', events.foldlM (Capture.step false) .start = some c ∧ c.sniffer = some s ∧
      Capture.step false c (mem, .grepFlows) = some c' ∧
      sentFor flow c'.calls =
        sentFor flow (grepFlows mem s.buffers.pFlowList).calls ∧
      (Reached mem flow s.buffers.pFlowList → sentFor flow c'.calls = records.map ChunkRecord.data) := by
  obtain ⟨s, calls, ran, storing, silent, _⟩ := @capture_more flow first pieces .create events [] _ unwrapped rfl
    nonempty segments captured (nothing_stored rfl List.nodup_nil)
  have passed : (s.step false (mem, .grepFlows)).calls = (grepFlows mem s.buffers.pFlowList).calls := by
    rw [SniffTcp.step, grepFlowsForChunks]
    simp
  have all : sentFor flow (calls ++ (s.step false (mem, .grepFlows)).calls) =
      sentFor flow (grepFlows mem s.buffers.pFlowList).calls := by
    rw [passed, sent_for_append, sent_for_silent silent, List.nil_append]
  refine ⟨⟨some s, calls⟩, s, _, ran, rfl, rfl, all, fun reached => all.trans ?_⟩
  rw [grep_flows_own storing.listed reached, ← blocks_of_eq]
  exact grep_stream isPartial cut storing

/-- The segments of a stream, in order. -/
def inOrder (flow : FlowId) (first : ℕ) (pieces : List (List UInt8)) : List (Memory × SniffEvent) :=
  (placed id first pieces).map fun piece =>
    (zeroMemory, .segment flow piece.2 (fun _ => 0) (UInt32.ofNat piece.1))

end Ditto.OrderIndependence
