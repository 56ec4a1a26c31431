import Ditto.FlowIdentity
import Ditto.FlowInsertion
import Ditto.FlowLists
import Ditto.Runs
import Ditto.SegmentHandling

/-! The flows a sniffer knows, in the lists of blocks and in the keys of its maps. A
segment makes its own flow known and no other, and the pass over the blocks none at
all; so in a run over captured segments every flow that is listed and every key that
is in use is that of a captured flow, and the list and the maps mean the same flows. -/
namespace Ditto.FlowIdentity
open Sniffer Buffers SniffTcp Runs Traces Traced ChunkHeadings SegmentHandling FlowInsertion FlowLists

/-- `p_flow_list`, with the objects that it points to. -/
def objects (flows : List (Sniffer.FlowId × List ContiguousBlock)) : List (FlowId × List ContiguousBlock) :=
  flows.map fun entry => (ofSegment entry.1, entry.2)

/-- The flows in the lists have a property. -/
def Lists (P : Sniffer.FlowId → Prop) (b : Buffers) : Prop := ∀ name ∈ b.pFlowList.map Prod.fst, P name

variable {P : Sniffer.FlowId → Prop} {flows : List (Sniffer.FlowId × List ContiguousBlock)}
  {b b' : Buffers} {flow : Sniffer.FlowId} {payload : Pointer}
  {size first held : ℤ} {seq : TcpSeq} {edit : Edit} {mem : Memory} {chunkId : ChunkId}
  {s s' : SniffTcp ChunkInfo}

/-! ## Lists -/

/-- The index of a captured flow is the one that `==` finds. -/
theorem find_object (listed : ∀ name ∈ flows.map Prod.fst, Captured name) (captured : Captured flow) :
    ((objects flows).findIdx? fun entry => entry.1 == ofSegment flow) = flows.findIdx? (·.1 = flow) := by
  induction flows with
  | nil => rfl
  | cons entry rest ih =>
    obtain ⟨head, tail⟩ := List.forall_mem_cons.mp listed
    have same : (ofSegment entry.1 == ofSegment flow) = decide (entry.1 = flow) := by
      rw [Bool.eq_iff_iff, decide_eq_true_iff]
      exact head.beq_iff captured
    have later := ih tail
    rw [objects] at later ⊢
    rw [List.map_cons, List.findIdx?_cons, List.findIdx?_cons, same, later]

/-- An insertion works on the list at the flow's index, or on a new one behind the last. -/
theorem insert_flow_at (flows : List (Sniffer.FlowId × List ContiguousBlock)) :
    insertFlow flow payload size seq flows = match flows.findIdx? (·.1 = flow) with
      | some i => (insertBlocks payload size seq (blocksIn flows flow)).map fun r =>
        (flows.modify i fun entry => (entry.1, r.1), r.2)
      | none => (ContiguousBlock.create.append payload size seq).map fun pCb =>
        (flows ++ [(flow, [pCb])], .inserted 0) := by
  induction flows with
  | nil =>
    rw [insertFlow]
    cases ContiguousBlock.create.append payload size seq with
    | none => rfl
    | some pCb => rfl
  | cons entry rest ih =>
    obtain ⟨name, blocks⟩ := entry
    rw [insertFlow, List.findIdx?_cons, blocks_in_cons]
    by_cases same : name = flow
    · simp only [same, if_true, decide_true]
      cases insertBlocks payload size seq blocks with
      | none => rfl
      | some r => rfl
    · simp only [same, if_false, decide_false, Bool.false_eq_true, ih]
      cases rest.findIdx? (·.1 = flow) with
      | none =>
        cases ContiguousBlock.create.append payload size seq with
        | none => rfl
        | some pCb => rfl
      | some i =>
        cases insertBlocks payload size seq (blocksIn rest flow) with
        | none => rfl
        | some r => rfl

/-- **`insert` works on the list that `==` finds.** -/
theorem insert_flow_at_object (listed : ∀ name ∈ flows.map Prod.fst, Captured name) (captured : Captured flow) :
    insertFlow flow payload size seq flows =
      match (objects flows).findIdx? fun entry => entry.1 == ofSegment flow with
      | some i => (insertBlocks payload size seq (blocksIn flows flow)).map fun r =>
        (flows.modify i fun entry => (entry.1, r.1), r.2)
      | none => (ContiguousBlock.create.append payload size seq).map fun pCb =>
        (flows ++ [(flow, [pCb])], .inserted 0) := by
  rw [find_object listed captured]
  exact insert_flow_at flows

theorem insert_lists (own : P flow) (before : Lists P b)
    (ran : (b.insert flow payload size seq first held).result = some (b', edit)) : Lists P b' := by
  rcases insert_flow_listed (insert_frame ran).1 with old | ⟨_, added⟩
  · rw [Lists, old]
    exact before
  · rw [Lists, added]
    exact List.forall_mem_append.mpr ⟨before, List.forall_mem_singleton.mpr own⟩

theorem insert_past_lists {diff : ℤ} (own : P flow) (before : Lists P b)
    (ran : (b.insertPast flow payload diff size seq).result = some (b', edit)) : Lists P b' := by
  rw [insertPast] at ran
  split at ran
  · exact insert_lists own before ran
  · cases ran
    exact before

theorem fill_and_send_lists (own : P flow) (before : Lists P b)
    (ran : (b.fillAndSend mem chunkId flow payload size seq).result = some (b', edit)) : Lists P b' := by
  obtain ⟨done, ran⟩ := fill_and_send_cases ran
  obtain ⟨pRc, -, ⟨-, rfl, -⟩ | ⟨start, t, pRc', dups, -, stored, -, rfl⟩⟩ := fill_gaps_ends ran
  · exact before
  · have lists : Lists P t := insert_past_lists own before stored
    exact lists

/-- Erasing a block leaves its flow listed. -/
theorem erase_block_names (index : ℕ) (flows : List (Sniffer.FlowId × List ContiguousBlock)) :
    (eraseBlock flow index flows).map Prod.fst = flows.map Prod.fst := by
  induction flows with
  | nil => rfl
  | cons entry rest ih =>
    rw [eraseBlock]
    split
    · rfl
    · rw [List.map_cons, List.map_cons, ih]

theorem candidates_lists {start : TcpSeq} {length index rounds : ℕ} (own : P flow) (before : Lists P b)
    (ran : (candidatesFrom mem chunkId flow start length rounds index b).result = some b') : Lists P b' := by
  refine candidates_invariant (Lists P) ?_ before ran
  intro t t' i li inserted place before _ _ filled _
  rw [Lists, erase_block_names]
  exact fill_and_send_lists own before filled

theorem announce_lists {size : ℕ} (own : P flow) (before : Lists P b)
    (ran : (b.announceChunk mem flow chunkId payload size seq).result = some b') : Lists P b' := by
  obtain ⟨t, edit, filled, after⟩ := announce_cases ran
  have lists : Lists P t := fill_and_send_lists (b := b.setChunk chunkId _) own before filled
  rcases after with rfl | ⟨_, ran⟩
  · exact lists
  · obtain ⟨pRc, _, ran⟩ := bind_eq_some.mp ran
    exact candidates_lists own lists ran

theorem front_lists {size : ℕ} (own : P flow) (before : Lists P s.buffers)
    (ran : (front s mem flow payload size seq held).result = some b') : Lists P b' := by
  rw [front] at ran
  split at ran
  · cases ran
    exact before
  · split at ran
    · obtain ⟨⟨t, edit⟩, filled, ran⟩ := map_eq_some.mp ran
      cases ran
      exact fill_and_send_lists own before filled
    · obtain ⟨⟨t, edit⟩, stored, ran⟩ := map_eq_some.mp ran
      cases ran
      exact insert_lists own before stored

theorem grep_flows_names {flows left : List (Sniffer.FlowId × List ContiguousBlock)}
    (ran : (grepFlows mem flows).result = some left) : left.map Prod.fst = flows.map Prod.fst := by
  induction flows generalizing left with
  | nil =>
    cases ran
    rfl
  | cons entry rest ih =>
    obtain ⟨blocks, _, ran⟩ := bind_eq_some.mp ran
    obtain ⟨others, passed, ran⟩ := bind_eq_some.mp ran
    cases ran
    rw [List.map_cons, List.map_cons, ih passed]

/-! ## Keys -/

/-- The key is the text of a flow with a property. -/
def Names (P : Sniffer.FlowId → Prop) (key : String) : Prop := ∃ flow, P flow ∧ flow.toString = key

/-- The flows a sniffer knows, listed or by key, have a property. -/
structure Known (P : Sniffer.FlowId → Prop) (s : SniffTcp ChunkInfo) : Prop where
  listed : Lists P s.buffers
  chunkMap : ∀ key, s.flowChunkMap key ≠ none → Names P key
  seqMaps : ∀ chunkId heading, headings s.buffers chunkId = some heading →
    ∀ key, heading.1 key ≠ none → Names P key

theorem names_update {α : Type} {entries : String → Option α} {value : Option α} (own : P flow)
    (before : ∀ key, entries key ≠ none → Names P key) :
    ∀ key, Function.update entries flow.toString value key ≠ none → Names P key := by
  intro key used
  by_cases isIt : key = flow.toString
  · exact ⟨flow, own, isIt.symm⟩
  · rw [Function.update_of_ne isIt] at used
    exact before key used

theorem announced_names (own : P flow) (before : ∀ heading, headings b chunkId = some heading →
    ∀ key, heading.1 key ≠ none → Names P key) :
    ∀ key, (announced b chunkId flow payload seq).1 key ≠ none → Names P key := by
  rw [announced]
  cases found : headings b chunkId with
  | none => exact names_update own fun key used => absurd rfl used
  | some heading => exact names_update own (before heading found)

/-- What is done with a segment's front changes the lists alone. -/
theorem known_front {size : ℕ} (own : P flow) (known : Known P s)
    (ran : (front s mem flow payload size seq held).result = some b') : Known P { s with buffers := b' } where
  listed := front_lists own known.listed ran
  chunkMap := known.chunkMap
  seqMaps := by
    intro chunkId heading found
    exact known.seqMaps chunkId heading (front_headings ran ▸ found)

theorem known_record {size : ℕ} (own : P flow) (known : Known P { s with buffers := b })
    (ran : (showRecord s b mem flow chunkId payload size seq).result = some s') : Known P s' := by
  obtain ⟨t, announced, ran⟩ := bind_eq_some.mp ran
  cases ran
  refine ⟨announce_lists own known.listed announced, names_update own known.chunkMap, fun other heading found => ?_⟩
  rw [announce_headings announced] at found
  by_cases isIt : other = chunkId
  · rw [isIt, Function.update_self] at found
    cases found
    exact announced_names own (known.seqMaps chunkId)
  · rw [Function.update_of_ne isIt] at found
    exact known.seqMaps other heading found

theorem known_handle_ip {gMultiChances : Bool} {size : ℕ} (own : P flow) (known : Known P s)
    (ran : (s.handleIp gMultiChances mem flow payload size seq).result = some s') : Known P s' := by
  by_cases empty : size = 0
  · rw [handleIp, if_pos empty] at ran
    cases ran
    exact known
  · cases gMultiChances with
    | false =>
      rw [handle_ip_single empty] at ran
      obtain ⟨⟨t, edit⟩, stored, ran⟩ := map_eq_some.mp ran
      cases ran
      refine ⟨insert_lists own known.listed stored, known.chunkMap, ?_⟩
      rw [(insert_frame stored).2]
      exact known.seqMaps
    | true =>
      rw [handle_ip_multi empty] at ran
      obtain ⟨t, first, ran⟩ := bind_eq_some.mp ran
      have fronted := known_front own known first
      split at ran
      · cases ran
        exact fronted
      · exact known_record own fronted ran

theorem known_grep (known : Known P s) (ran : (s.buffers.grepFlowsForChunks mem).result = some b') :
    Known P { s with buffers := b' } := by
  obtain ⟨left, passed, ran⟩ := bind_eq_some.mp ran
  cases ran
  refine ⟨?_, known.chunkMap, known.seqMaps⟩
  rw [Lists, grep_flows_names passed]
  exact known.listed

/-! ## Runs -/

/-- What a sniffer is called with for a captured packet, or a pass. -/
def Sniffed : SniffEvent → Prop
  | .segment flow _ _ _ => Captured flow
  | .grepFlows => True

/-- A sniffer that is running knows captured flows alone. -/
def AllCaptured (c : Capture) : Prop := ∀ s, c.sniffer = some s → Known Captured s

theorem all_captured_start : AllCaptured .start := by
  intro s running
  cases running
  exact ⟨nofun, fun _ used => absurd rfl used, nofun⟩

theorem step_all_captured {gMultiChances : Bool} {c c' : Capture} {event : Memory × SniffEvent}
    (all : AllCaptured c) (sniffed : Sniffed event.2) (ran : c.step gMultiChances event = some c') :
    AllCaptured c' := by
  obtain ⟨s, running, rfl⟩ := Option.map_eq_some_iff.mp ran
  have known := all s running
  obtain ⟨mem, event⟩ := event
  intro s' after
  cases event with
  | segment flow payload around seqNum => exact known_handle_ip sniffed known after
  | grepFlows =>
    obtain ⟨t, passed, after⟩ := bind_eq_some.mp after
    cases after
    exact known_grep known passed

theorem run_all_captured {gMultiChances : Bool} {c : Capture}
    (run : Reaches (Capture.step gMultiChances) (fun _ event => Sniffed event.2) .start c) : AllCaptured c :=
  invariant all_captured_start (fun _ _ _ all sniffed ran => step_all_captured all sniffed ran) run

/-! ## The two identities -/

/-- The key is the text of one plain flow, as far as `==` tells flows apart. -/
def Means (key : String) : Prop :=
  ∃ fid : FlowId, fid.Plain ∧ ∀ other : FlowId, other.Plain → (other.toString = key ↔ (other == fid) = true)

/-- The lists searched with `==` and the maps keyed by text mean the same flows. -/
structure SameFlows (s : SniffTcp ChunkInfo) : Prop where
  listed : ∀ entry ∈ objects s.buffers.pFlowList, entry.1.Plain
  offset : ∀ fid : FlowId, fid.Plain → getFlowOffset (objects s.buffers.pFlowList) (some fid) =
    offsetOf (fun other => other.toString = fid.toString) (objects s.buffers.pFlowList)
  chunkMap : ∀ key, s.flowChunkMap key ≠ none → Means key
  seqMaps : ∀ chunkId pRc, s.buffers.chunkIdReconstructedChunkMap chunkId = some pRc →
    ∀ key, pRc.flowSeqMap key ≠ none → Means key

theorem means_of_names {key : String} (names : Names Captured key) : Means key := by
  obtain ⟨flow, captured, rfl⟩ := names
  refine ⟨ofSegment flow, captured.plain, fun other plain => ?_⟩
  rw [← captured.to_string_eq]
  exact (beq_iff_to_string plain captured.plain).symm

theorem same_flows_of_known (known : Known Captured s) : SameFlows s := by
  have plain : ∀ entry ∈ objects s.buffers.pFlowList, entry.1.Plain := by
    intro entry member
    obtain ⟨listed, place, rfl⟩ := List.mem_map.mp member
    exact (known.listed listed.1 (List.mem_map_of_mem place)).plain
  refine ⟨plain, fun fid plainFid => get_flow_offset_eq plain plainFid, fun key used => ?_,
    fun chunkId pRc held key used => ?_⟩
  · exact means_of_names (known.chunkMap key used)
  · have heading : headings s.buffers chunkId = some (pRc.flowSeqMap, pRc.length) := by
      rw [headings, held, Option.map_some]
    exact means_of_names (known.seqMaps chunkId _ heading key used)

/-- **The two identities of a flow agree**, for any two plain flows, and with them the
list and the maps of a sniffer that ran on captured packets. -/
theorem flow_identities_agree :
    (∀ a b : FlowId, a.Plain → b.Plain → ((a == b) = true ↔ a.toString = b.toString)) ∧
      ∀ (gMultiChances : Bool) (c : Capture) (s : SniffTcp ChunkInfo),
        Reaches (Capture.step gMultiChances) (fun _ event => Sniffed event.2) .start c →
        c.sniffer = some s → SameFlows s := by
  refine ⟨fun a b plain plain' => beq_iff_to_string plain plain', fun gMultiChances c s run running => ?_⟩
  exact same_flows_of_known (run_all_captured run s running)

theorem captured_some_flow : Captured someFlow :=
  ⟨⟨.ofBytes [10, 0, 0, 1] fun _ => 0, by decide +kernel⟩, ⟨.ofBytes [10, 0, 0, 2] fun _ => 0, by decide +kernel⟩⟩

/-- Two flows that differ in a port, and a sniffer with one stored segment. -/
theorem flow_identities_agree_stored :
    (((⟨"10.0.0.1", "10.0.0.2", 80, 4000⟩ : FlowId) == ⟨"10.0.0.1", "10.0.0.2", 80, 4001⟩) = true ↔
      (⟨"10.0.0.1", "10.0.0.2", 80, 4000⟩ : FlowId).toString = (⟨"10.0.0.1", "10.0.0.2", 80, 4001⟩ : FlowId).toString) ∧
      SameFlows ⟨⟨[(someFlow, [⟨7, 7 + UInt32.ofInt 1, [1], false, true⟩])], fun _ => none, 0⟩, fun _ => none⟩ := by
  have plain : (⟨"10.0.0.1", "10.0.0.2", 80, 4000⟩ : FlowId).Plain :=
    ⟨by decide +kernel, by decide +kernel, by decide, by decide⟩
  have plain' : (⟨"10.0.0.1", "10.0.0.2", 80, 4001⟩ : FlowId).Plain :=
    ⟨by decide +kernel, by decide +kernel, by decide, by decide⟩
  have nonempty : ([1] : List UInt8) ≠ [] := by decide
  have first := first_segment_stored nonempty zeroMemory someFlow (fun _ => 0) 7
  have run : Reaches (Capture.step false) (fun _ event => Sniffed event.2) .start _ :=
    Reaches.refl.snoc (zeroMemory, .segment someFlow [1] (fun _ => 0) 7) captured_some_flow first
  exact ⟨flow_identities_agree.1 _ _ plain plain', flow_identities_agree.2 false _ _ run rfl⟩

end Ditto.FlowIdentity
