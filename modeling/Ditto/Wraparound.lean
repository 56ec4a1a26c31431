import Ditto.ChunkInfoCache
import Ditto.SequenceShift

/-! Sequence numbers that wrap around. The sniffer compares them as plain unsigned
words, so a run does the same with a flow's numbers moved as long as the move keeps
the order of those it compares: where segments, records and the chunks they show start
and end. A move that does not keep it can lose a record. -/
namespace Ditto.Wraparound
open Sniffer Buffers SniffTcp Words Traces Traced ChunkHeadings SegmentHandling FlowStore RecordScan
open SequenceShift
open ChunkInfoCache (Packet)

/-- What a capture sees of a packet. -/
def event (packet : Packet) : Memory × SniffEvent :=
  (packet.mem, .segment packet.flow packet.payload packet.around packet.seqNum)

/-- The packet with the numbers of a flow moved. A flow is known by its name. -/
def move (flow : FlowId) (k : TcpSeq) (packet : Packet) : Packet :=
  if packet.flow.toString = flow.toString then { packet with seqNum := packet.seqNum + k } else packet

/-- A capture after the packets. -/
def capturing (multi : Bool) (packets : List Packet) : Capture :=
  packets.foldl (fun c packet => (c.step multi (event packet)).getD c) .start

/-- With a pass over the blocks at the end, in the single-chance mode. -/
def captured (multi : Bool) (mem : Memory) (packets : List Packet) : Capture :=
  let c := capturing multi packets
  if multi then c else (c.step multi (mem, .grepFlows)).getD c

/-- What was sent to the sniffer plugin, in order. -/
def sent (multi : Bool) (mem : Memory) (packets : List Packet) : List (FlowId × List UInt8) :=
  (captured multi mem packets).calls.filterMap Call.sent

/-- The segments of a flow span fewer than `2 ^ 31` numbers. -/
def Spans (packets : List Packet) (flow : FlowId) : Prop :=
  ∃ base : TcpSeq, ∀ packet ∈ packets, packet.flow = flow →
    (packet.seqNum - base).toNat + packet.payload.length < 2 ^ 31

/-- A packet shows a chunk in a record of this length that starts at this number. -/
def Shows (packet : Packet) (chunkId : ChunkId) (start : TcpSeq) (length : ℕ) : Prop :=
  ∃ chunkOffset : ℕ, getChunkId (.ofBytes packet.payload packet.around) packet.payload.length =
      some (chunkId, chunkOffset) ∧ start = packet.seqNum + UInt32.ofInt chunkOffset ∧
    length = getLengthFromByteStream ((Pointer.ofBytes packet.payload packet.around).advance chunkOffset)

/-- The numbers at which a flow of this name shows a chunk. -/
def Started (packets : List Packet) (name : String) (chunkId : ChunkId) (start : TcpSeq) : Prop :=
  ∃ packet ∈ packets, packet.flow.toString = name ∧ ∃ length, Shows packet chunkId start length

/-- The lengths that a chunk is shown with. -/
def Long (packets : List Packet) (chunkId : ChunkId) (length : ℕ) : Prop :=
  ∃ packet ∈ packets, ∃ start, Shows packet chunkId start length

/-- The numbers that are compared for a flow: where its segments start and end and, with
multiple chances, where it shows a chunk and where a chunk of that id ends. -/
inductive Compared (multi : Bool) (packets : List Packet) (name : String) : TcpSeq → Prop
  | first {packet : Packet} (member : packet ∈ packets) (own : packet.flow.toString = name) :
      Compared multi packets name packet.seqNum
  | last {packet : Packet} (member : packet ∈ packets) (own : packet.flow.toString = name) :
      Compared multi packets name (packet.seqNum + UInt32.ofInt packet.payload.length)
  | start {chunkId : ChunkId} {start : TcpSeq} (chances : multi = true)
      (started : Started packets name chunkId start) : Compared multi packets name start
  | finish {chunkId : ChunkId} {start : TcpSeq} {length : ℕ} (chances : multi = true)
      (started : Started packets name chunkId start) (long : Long packets chunkId length) :
      Compared multi packets name (start + UInt32.ofInt length)

variable {multi : Bool} {packets : List Packet} {packet : Packet} {flow : FlowId} {k seq : TcpSeq} {m : Marks}
  {δ : Shift} {mem : Memory} {c c' : Capture} {payload : Pointer} {size : ℤ} {mark : TcpSeq → Prop}

/-- All of them, as marks. -/
def marks (multi : Bool) (packets : List Packet) : Marks where
  mark := Compared multi packets
  shown := fun name chunkId start => multi = true ∧ Started packets name chunkId start
  long := Long packets

/-- One flow is moved, the others stay. -/
def only (flow : FlowId) (k : TcpSeq) : Shift := fun name => if name = flow.toString then k else 0

theorem marks_lawful (keeps : KeepsOrder k (Compared multi packets flow.toString)) :
    (marks multi packets).Lawful (only flow k) where
  starts := fun name chunkId seq ⟨chances, started⟩ => .start chances started
  ends := fun name chunkId seq length ⟨chances, started⟩ long => .finish chances started long
  keeps := fun name => by
    by_cases own : name = flow.toString
    · rw [only, if_pos own, own]
      exact keeps
    · intro x y _ _
      simp [only, own]

theorem event_move : event (move flow k packet) = (packet.mem,
    .segment packet.flow packet.payload packet.around (packet.seqNum + only flow k packet.flow.toString)) := by
  rw [move, only]
  split
  · rfl
  · simp [event]

/-! ## Two runs -/

/-- The second capture is the first one moved, and sent the same. -/
structure Tracks (m : Marks) (δ : Shift) (c c' : Capture) : Prop where
  sent : c'.calls.filterMap Call.sent = c.calls.filterMap Call.sent
  sniffers : Option.Rel (Moved (Marked m) (shiftSniffer δ)) c.sniffer c'.sniffer

theorem sent_alike {calls calls' : List Call} (alike : List.Forall₂ SendsAlike calls calls') :
    calls'.filterMap Call.sent = calls.filterMap Call.sent := by
  induction alike with
  | nil => rfl
  | cons head _ ih =>
    have head : _ = _ := head
    rw [List.filterMap_cons, List.filterMap_cons, head, ih]

theorem step_tracks (lawful : (marks multi packets).Lawful (only flow k)) (member : packet ∈ packets)
    (tracks : Tracks (marks multi packets) (only flow k) c c') :
    Tracks (marks multi packets) (only flow k) ((c.step multi (event packet)).getD c)
      ((c'.step multi (event (move flow k packet))).getD c') := by
  obtain ⟨sniffer, calls⟩ := c
  obtain ⟨sniffer', calls'⟩ := c'
  obtain ⟨same, sniffers⟩ := tracks
  simp only at same sniffers
  cases sniffers with
  | none => exact ⟨same, .none⟩
  | @some s _ moved =>
    obtain ⟨marked, rfl⟩ := moved
    have handled : Matches SendsAlike (Moved (Marked (marks multi packets)) (shiftSniffer (only flow k)))
        (s.step multi (event packet)) ((shiftSniffer (only flow k) s).step multi (event (move flow k packet))) := by
      rw [event_move]
      apply handle_ip_shift lawful marked (.first member rfl) (.last member rfl)
      intro chances chunkId chunkOffset shown
      exact ⟨⟨chances, packet, member, rfl, _, chunkOffset, shown, rfl, rfl⟩,
        packet, member, _, chunkOffset, shown, rfl, rfl⟩
    refine ⟨?_, handled.result⟩
    simp only [Capture.step, Option.map_some, Option.getD_some, List.filterMap_append, same,
      sent_alike handled.calls]

theorem run_tracks {rest : List Packet} (lawful : (marks multi packets).Lawful (only flow k))
    (inside : ∀ packet ∈ rest, packet ∈ packets) (tracks : Tracks (marks multi packets) (only flow k) c c') :
    Tracks (marks multi packets) (only flow k)
      (rest.foldl (fun c packet => (c.step multi (event packet)).getD c) c)
      ((rest.map (move flow k)).foldl (fun c packet => (c.step multi (event packet)).getD c) c') := by
  induction rest generalizing c c' with
  | nil => exact tracks
  | cons packet rest ih =>
    obtain ⟨head, tail⟩ := List.forall_mem_cons.mp inside
    exact ih tail (step_tracks lawful head tracks)

/-- **The two runs** agree, and end alike. -/
theorem capturing_tracks (lawful : (marks multi packets).Lawful (only flow k)) :
    Tracks (marks multi packets) (only flow k) (capturing multi packets)
      (capturing multi (packets.map (move flow k))) := by
  refine run_tracks lawful (fun _ member => member) ⟨rfl, .some ⟨⟨⟨nofun, ?_⟩, nofun⟩, rfl⟩⟩
  intro chunkId heading held
  cases held

/-! ## The length of a block -/

/-- A block of captured bytes that spans few numbers from a base on. -/
def Spanned (base : TcpSeq) (li : ContiguousBlock) : Prop :=
  BlockMarked (fun _ => True) li ∧ (li.startingSeqNumber - base).toNat + li.contiguousBlock.length < 2 ^ 31

/-- The number behind some bytes is as far from the base as they reach. -/
theorem distance_add {base first : TcpSeq} {count : ℕ} (short : (first - base).toNat + count < 2 ^ 31) :
    (first + UInt32.ofNat count - base).toNat = (first - base).toNat + count := by
  have moved : first + UInt32.ofNat count - base = first - base + UInt32.ofNat count := by grind
  rw [moved, UInt32.toNat_add, UInt32.toNat_ofNat']
  omega

/-- Insertions near the base make blocks near the base. -/
theorem inserts_spanned {base : TcpSeq} {count : ℕ} (short : (seq - base).toNat + count < 2 ^ 31) :
    Inserts payload count seq (Spanned base) := by
  have marked : Inserts payload count seq (BlockMarked fun _ => True) := inserts_marked trivial trivial
  constructor
  · intro made ran
    refine ⟨marked.created made ran, ?_⟩
    cases (ContiguousBlock.create_append payload count seq).symm.trans ran
    rwa [Pointer.length_bytes]
  · intro li made ⟨between, near⟩ touches ran
    refine ⟨marked.prepended li made between touches ran, ?_⟩
    cases (ContiguousBlock.prepend_eq payload count seq).symm.trans ran
    have reached := distance_add short
    rw [← ofInt_natCast, touches] at reached
    simp only [List.length_append, Pointer.length_bytes]
    omega
  · intro li made ⟨between, near⟩ contiguous ran
    refine ⟨marked.appended li made between contiguous ran, ?_⟩
    cases (ContiguousBlock.append_opened payload count _ between.opened).symm.trans ran
    have reached := distance_add near
    rw [← between.length, ← contiguous] at reached
    simp only [List.length_append, Pointer.length_bytes]
    omega
  · intro li li2 ⟨between, near⟩ ⟨between2, near2⟩ joins
    refine ⟨marked.merged li li2 between between2 joins, ?_⟩
    have reached := distance_add near
    rw [← between.length, joins] at reached
    simp only [ContiguousBlock.appendString, List.length_append]
    omega

/-- Every block of every flow is near the base of its flow. -/
def AllSpanned (base : FlowId → TcpSeq) (flows : List (FlowId × List ContiguousBlock)) : Prop :=
  ∀ entry ∈ flows, ∀ li ∈ entry.2, Spanned (base entry.1) li

theorem single_spanned {base : FlowId → TcpSeq} {s s' : SniffTcp ChunkInfo} {count : ℕ}
    (before : AllSpanned base s.buffers.pFlowList) (short : (seq - base flow).toNat + count < 2 ^ 31)
    (ran : (s.handleIp false mem flow payload count seq).result = some s') :
    AllSpanned base s'.buffers.pFlowList := by
  by_cases empty : count = 0
  · rw [handleIp, if_pos empty] at ran
    cases ran
    exact before
  · rw [handle_ip_single empty] at ran
    obtain ⟨⟨b, edit⟩, stored, ran⟩ := map_eq_some.mp ran
    cases ran
    exact insert_flow_keeps (P := fun flow => Spanned (base flow)) (inserts_spanned short) before
      (insert_frame stored).1

/-- In the single-chance mode the blocks stay near. -/
theorem capturing_spanned {base : FlowId → TcpSeq} (spans : ∀ packet ∈ packets,
      (packet.seqNum - base packet.flow).toNat + packet.payload.length < 2 ^ 31)
    (s : SniffTcp ChunkInfo) (running : (capturing false packets).sniffer = some s) :
    AllSpanned base s.buffers.pFlowList := by
  revert s
  apply List.foldlRecOn (motive := fun c : Capture => ∀ s, c.sniffer = some s → AllSpanned base s.buffers.pFlowList)
  · intro s running
    cases running
    exact nofun
  · rintro ⟨sniffer, calls⟩ near packet member s' running
    cases sniffer with
    | none => cases running
    | some s => exact single_spanned (near s rfl) (spans packet member) running

/-- The pass over the blocks sends the same. -/
theorem pass_alike {s : SniffTcp ChunkInfo} {base : FlowId → TcpSeq} (lawful : m.Lawful δ) (marked : Marked m s)
    (near : AllSpanned base s.buffers.pFlowList) :
    ((shiftSniffer δ s).step false (mem, .grepFlows)).calls.filterMap Call.sent =
      (s.step false (mem, .grepFlows)).calls.filterMap Call.sent := by
  have walked : Matches SendsAlike (fun _ _ => True) (grepFlows mem s.buffers.pFlowList)
      (grepFlows mem (shiftFlows δ s.buffers.pFlowList)) := by
    refine grep_flows_shift lawful fun entry held li member => ⟨marked.buffers.flows entry held li member, ?_⟩
    have short := (near entry held li member).2
    omega
  have passed : Matches SendsAlike (fun _ _ => True) (s.buffers.grepFlowsForChunks mem)
      ((shiftBuffers δ s.buffers).grepFlowsForChunks mem) := by
    apply walked.bind
    intro _ _ _ _
    exact .pure trivial
  have whole : Matches SendsAlike (fun _ _ => True) (s.step false (mem, .grepFlows))
      ((shiftSniffer δ s).step false (mem, .grepFlows)) := by
    apply passed.bind
    intro _ _ _ _
    exact .pure trivial
  exact sent_alike whole.calls

/-- **Wraparound is harmless** where the move keeps the order of the numbers that are compared. -/
theorem sent_unmoved (multi : Bool) (mem : Memory) (packets : List Packet) (flow : FlowId) (k : TcpSeq)
    (spans : ∀ other, Spans packets other) (keeps : KeepsOrder k (Compared multi packets flow.toString)) :
    sent multi mem (packets.map (move flow k)) = sent multi mem packets := by
  have lawful := marks_lawful keeps
  have tracks := capturing_tracks lawful
  cases multi with
  | true => exact tracks.sent
  | false =>
    choose base near using spans
    have spanned := @capturing_spanned packets base fun packet member => near packet.flow packet member rfl
    simp only [sent, captured, Bool.false_eq_true, if_false]
    obtain ⟨same, sniffers⟩ := tracks
    generalize capturing false packets = c at same sniffers spanned
    generalize capturing false (packets.map (move flow k)) = c' at same sniffers
    obtain ⟨sniffer, calls⟩ := c
    obtain ⟨sniffer', calls'⟩ := c'
    simp only at same sniffers spanned
    cases sniffers with
    | none => exact same
    | @some s _ moved =>
      obtain ⟨marked, rfl⟩ := moved
      simp only [Capture.step, Option.map_some, Option.getD_some, List.filterMap_append, same,
        pass_alike lawful marked (spanned s rfl)]

/-! ## A record across the wrap -/

/-- A record in one segment. -/
def recordPacket (seqNum : TcpSeq) : Packet :=
  ⟨zeroMemory, someFlow, (plainRecord 1).bytes, fun _ => 0, seqNum⟩

theorem length_record (seqNum : TcpSeq) : (recordPacket seqNum).payload.length = 1104 := length_plain 1

theorem record_spans (other : FlowId) : Spans [recordPacket 0] other := by
  refine ⟨0, fun packet member _ => ?_⟩
  rw [List.mem_singleton.mp member, length_record]
  decide

theorem sent_unmoved_record : sent false zeroMemory ([recordPacket 0].map (move someFlow 100)) =
    sent false zeroMemory [recordPacket 0] := by
  have two : ∀ seq, Compared false [recordPacket 0] someFlow.toString seq → seq = 0 ∨ seq = 1104 := by
    intro seq compared
    cases compared with
    | first member =>
      rw [List.mem_singleton.mp member]
      exact Or.inl rfl
    | last member =>
      rw [List.mem_singleton.mp member, length_record]
      exact Or.inr rfl
    | start chances => cases chances
    | finish chances => cases chances
  refine sent_unmoved false zeroMemory [recordPacket 0] someFlow 100 record_spans fun x y first second => ?_
  rcases two x first with rfl | rfl <;> rcases two y second with rfl | rfl <;> decide

/-- A record from 0 on is sent, and from 100 before 0 on it is not: the block ends before it
starts, and the pass does not look at it. -/
theorem not_sent_unmoved : ¬ ∀ (multi : Bool) (mem : Memory) (packets : List Packet) (flow : FlowId) (k : TcpSeq),
    (∀ other, Spans packets other) → sent multi mem (packets.map (move flow k)) = sent multi mem packets := by
  intro unmoved
  have same := congrArg List.length (unmoved false zeroMemory [recordPacket 0] someFlow (0 - 100) record_spans)
  have before : (sent false zeroMemory [recordPacket 0]).length = 1 := by decide +kernel
  have after : (sent false zeroMemory ([recordPacket 0].map (move someFlow (0 - 100)))).length = 0 := by
    decide +kernel
  rw [before, after] at same
  cases same

end Ditto.Wraparound
