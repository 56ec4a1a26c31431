import Ditto.FlowStore
import Ditto.Runs
import Ditto.SegmentHandling

/-! The flow store over whole runs, in both modes. Segments keep it as long as the
front of a segment, when it is taken for a part of a chunk, is not past that chunk's
end; the pass over the blocks keeps it as long as every record it takes out is at
the front of what is left of its block. -/
namespace Ditto.FlowFaithfulness
open Sniffer Buffers SniffTcp ContiguousBlock Windows Words Runs Traces Traced
open ChunkHeadings FlowStore SegmentHandling

/-- The block is a piece of the stream, and its two numbers say which. -/
structure FaithfulBlock (source : ℕ → UInt8) (block : ContiguousBlock) : Prop where
  bounds : block.nextExpectedSeqNumber.toNat =
    block.startingSeqNumber.toNat + block.contiguousBlock.length
  content : ∀ k < block.contiguousBlock.length,
    block.contiguousBlock[k]? = some (source (block.startingSeqNumber.toNat + k))

/-- Every block in every flow list of a running sniffer is a piece of its flow's stream. -/
def Faithful (streams : Streams) (c : Capture) : Prop :=
  ∀ s, c.sniffer = some s → ∀ entry ∈ s.buffers.pFlowList, ∀ block ∈ entry.2,
    FaithfulBlock (streams entry.1) block

/-- A segment has an `int` size, does not wrap, and agrees with its flow's stream. -/
def Agrees (streams : Streams) : SniffEvent → Prop
  | .segment flow payload _ seqNum => payload.length < 2 ^ 31 ∧
      seqNum.toNat + payload.length < 2 ^ 32 ∧
      payload = window (streams flow) seqNum.toNat (seqNum.toNat + payload.length)
  | .grepFlows => True

/-- The front of a segment, if it is taken for a part of a chunk of its flow, does not
start past the end of that chunk. -/
def RoutedInside (s : SniffTcp ChunkInfo) (flow : FlowId) (payload : Pointer) (size : ℕ)
    (seq : TcpSeq) : Prop :=
  ∀ ci, routed s flow seq = some ci → headSize payload size ≠ 0 →
    StartsInside s.buffers ci.chunkId flow (headSize payload size) seq

/-- The stored bytes of a flow and a segment lie within `int` distance of each other. -/
def Close (s : SniffTcp ChunkInfo) (flow : FlowId) (size : ℕ) (seq : TcpSeq) : Prop :=
  ∃ low, low ≤ seq.toNat ∧ seq.toNat + size < low + 2 ^ 31 ∧
    ∀ entry ∈ s.buffers.pFlowList, entry.1 = flow → ∀ block ∈ entry.2,
      low ≤ block.startingSeqNumber.toNat ∧ block.nextExpectedSeqNumber.toNat < low + 2 ^ 31

/-- Every record that a pass takes out of the bytes is at the front of what is left. -/
inductive Frontal (mem : Memory) : List UInt8 → Prop where
  | clear {bytes : List UInt8} : firstRecord (mem.cStr bytes) bytes.length = none → Frontal mem bytes
  | waiting {bytes : List UInt8} {start last : UInt32} :
      firstRecord (mem.cStr bytes) bytes.length = some (start, last) → bytes.length < last.toNat →
      Frontal mem bytes
  | front {bytes : List UInt8} {last : UInt32} :
      firstRecord (mem.cStr bytes) bytes.length = some (0, last) → last.toNat ≤ bytes.length →
      Frontal mem (bytes.drop last.toNat) → Frontal mem bytes

/-- What keeps the flow store faithful. -/
def Careful (gMultiChances : Bool) (c : Capture) (event : Memory × SniffEvent) : Prop :=
  ∀ s, c.sniffer = some s →
    match event.2 with
    | .segment flow payload around seqNum => gMultiChances = true →
        RoutedInside s flow (.ofBytes payload around) payload.length seqNum ∧
        Close s flow payload.length seqNum
    | .grepFlows => ∀ entry ∈ s.buffers.pFlowList, ∀ block ∈ entry.2, block.bModified = true →
        block.startingSeqNumber < block.nextExpectedSeqNumber → Frontal event.1 block.contiguousBlock

variable {streams : Streams} {kept wider : FlowId → Set ℕ} {source : ℕ → UInt8} {captured : Set ℕ}
  {s s' : SniffTcp ChunkInfo} {b b' : Buffers} {c : Capture} {mem : Memory} {flow : FlowId}
  {payload : Pointer} {size : ℕ} {seq : TcpSeq} {held : ℤ}

/-! ## Segments -/

theorem front_kept (carries : Carries (streams flow) (kept flow) payload size seq)
    (inside : ∀ ci, routed s flow seq = some ci → size ≠ 0 →
      StartsInside s.buffers ci.chunkId flow size seq)
    (before : Kept streams kept s.buffers)
    (ran : (front s mem flow payload size seq held).result = some b') :
    Kept streams kept b' ∧ headings b' = headings s.buffers := by
  refine ⟨?_, front_headings ran⟩
  rw [front] at ran
  split at ran
  · cases ran
    exact before
  · rename_i nonempty
    split at ran
    · rename_i ci chosen
      obtain ⟨⟨t, edit⟩, filled, ran⟩ := map_eq_some.mp ran
      cases ran
      exact fill_and_send_kept carries (inside ci chosen nonempty) before filled
    · obtain ⟨⟨t, edit⟩, stored, ran⟩ := map_eq_some.mp ran
      cases ran
      exact insert_kept carries before stored

/-- A segment leaves captured bytes in the lists, and chunks of `int` length. -/
theorem handle_ip_kept {gMultiChances : Bool}
    (carries : Carries (streams flow) (kept flow) payload size seq)
    (near : gMultiChances = true → Near (kept flow))
    (inside : gMultiChances = true → RoutedInside s flow payload size seq)
    (sized : Sized s.buffers) (before : Kept streams kept s.buffers)
    (ran : (s.handleIp gMultiChances mem flow payload size seq).result = some s') :
    Kept streams kept s'.buffers ∧ Sized s'.buffers := by
  by_cases empty : size = 0
  · rw [handleIp, if_pos empty] at ran
    cases ran
    exact ⟨before, sized⟩
  · cases gMultiChances with
    | false =>
      rw [handle_ip_single empty] at ran
      obtain ⟨⟨t, edit⟩, stored, ran⟩ := map_eq_some.mp ran
      cases ran
      refine ⟨insert_kept carries before stored, ?_⟩
      rw [(insert_frame stored).2]
      exact sized
    | true =>
      rw [handle_ip_multi empty] at ran
      obtain ⟨t, first, ran⟩ := bind_eq_some.mp ran
      have reached := head_size_le payload size
      obtain ⟨flows, same⟩ := front_kept (carries.take reached) (inside rfl) before first
      have sized' : Sized t := by
        rw [Sized, same]
        exact sized
      split at ran
      · cases ran
        exact ⟨flows, sized'⟩
      · rename_i chunkId chunkOffset shown
        obtain ⟨u, announced, ran⟩ := bind_eq_some.mp ran
        cases ran
        have offset := get_chunk_id_offset shown
        exact announce_kept (carries.drop (Nat.le_of_lt offset)) (near rfl) sized' flows
          announced

/-! ## The pass -/

/-- What a round of the pass leaves of a block whose first record is in front. -/
theorem grep_once {block left : ContiguousBlock} {before : List ContiguousBlock}
    (stored : Stored source captured block) (frontal : Frontal mem block.contiguousBlock)
    (ran : (grepContiguousBlockForChunks mem flow block).result = some (before, left)) :
    before = [] ∧ Stored source captured left ∧
      (left.bModified = true → Frontal mem left.contiguousBlock) := by
  have ordered := stored.holds.ordered
  have length := stored.holds.length
  cases frontal with
  | clear none =>
    simp only [grepContiguousBlockForChunks, none] at ran
    split at ran
    · cases ran
      exact ⟨rfl, ⟨⟨stored.holds.opened, ordered, stored.holds.content⟩, stored.within⟩, nofun⟩
    · cases ran
  | waiting found short =>
    simp only [grepContiguousBlockForChunks, found, if_neg (Nat.not_le.mpr short)] at ran
    cases ran
    exact ⟨rfl, ⟨⟨stored.holds.opened, ordered, stored.holds.content⟩, stored.within⟩, nofun⟩
  | @front _ last found whole rest =>
    simp only [grepContiguousBlockForChunks, found, if_pos whole] at ran
    obtain ⟨_, _, ran⟩ := bind_eq_some.mp ran
    cases ran
    have moved : (block.startingSeqNumber + last).toNat = block.startingSeqNumber.toNat + last.toNat := by
      have bound := block.nextExpectedSeqNumber.toNat_lt
      rw [UInt32.toNat_add]
      omega
    refine ⟨rfl, ⟨⟨stored.holds.opened, ?_, ?_⟩, fun i above below => ?_⟩, fun _ => rest⟩
    · simp only [moved]
      omega
    · simp only [moved]
      rw [stored.holds.content, drop_window]
    · simp only [moved] at above
      exact stored.within i (by omega) below

theorem grep_block_stored {block : ContiguousBlock} {left : List ContiguousBlock} {rounds : ℕ}
    (stored : Stored source captured block)
    (frontal : block.bModified = true → block.startingSeqNumber < block.nextExpectedSeqNumber →
      Frontal mem block.contiguousBlock)
    (ran : (grepBlock mem flow rounds block).result = some left) :
    ∀ li ∈ left, Stored source captured li := by
  induction rounds generalizing block left with
  | zero => cases ran
  | succ rounds ih =>
    rw [grepBlock] at ran
    split at ran
    · rename_i unread
      obtain ⟨⟨before, after⟩, grepped, ran⟩ := bind_eq_some.mp ran
      obtain ⟨last, walked, ran⟩ := bind_eq_some.mp ran
      cases ran
      obtain ⟨rfl, kept, rest⟩ := grep_once stored (frontal unread.1 unread.2) grepped
      simpa using ih kept (fun modified _ => rest modified) walked
    · cases ran
      intro li member
      split at member
      · cases member
      · rw [List.mem_singleton.mp member]
        exact stored

theorem grep_blocks_stored {blocks left : List ContiguousBlock}
    (stored : ∀ li ∈ blocks, Stored source captured li)
    (frontal : ∀ li ∈ blocks, li.bModified = true → li.startingSeqNumber < li.nextExpectedSeqNumber →
      Frontal mem li.contiguousBlock)
    (ran : (grepBlocks mem flow blocks).result = some left) :
    ∀ li ∈ left, Stored source captured li := by
  induction blocks generalizing left with
  | nil =>
    cases ran
    exact stored
  | cons li rest ih =>
    obtain ⟨head, tail⟩ := List.forall_mem_cons.mp stored
    obtain ⟨frontal, others⟩ := List.forall_mem_cons.mp frontal
    obtain ⟨first, walked, ran⟩ := bind_eq_some.mp ran
    obtain ⟨second, walked', ran⟩ := bind_eq_some.mp ran
    cases ran
    exact List.forall_mem_append.mpr
      ⟨grep_block_stored head frontal walked, ih tail others walked'⟩

theorem grep_flows_kept {flows left : List (FlowId × List ContiguousBlock)}
    (stored : ∀ entry ∈ flows, ∀ li ∈ entry.2, Stored (streams entry.1) (kept entry.1) li)
    (frontal : ∀ entry ∈ flows, ∀ li ∈ entry.2, li.bModified = true →
      li.startingSeqNumber < li.nextExpectedSeqNumber → Frontal mem li.contiguousBlock)
    (ran : (grepFlows mem flows).result = some left) :
    ∀ entry ∈ left, ∀ li ∈ entry.2, Stored (streams entry.1) (kept entry.1) li := by
  induction flows generalizing left with
  | nil =>
    cases ran
    exact stored
  | cons entry rest ih =>
    obtain ⟨head, tail⟩ := List.forall_mem_cons.mp stored
    obtain ⟨frontal, others⟩ := List.forall_mem_cons.mp frontal
    obtain ⟨first, walked, ran⟩ := bind_eq_some.mp ran
    obtain ⟨second, walked', ran⟩ := bind_eq_some.mp ran
    cases ran
    exact List.forall_mem_cons.mpr ⟨grep_blocks_stored head frontal walked, ih tail others walked'⟩

theorem grep_kept (before : Kept streams kept b)
    (frontal : ∀ entry ∈ b.pFlowList, ∀ li ∈ entry.2, li.bModified = true →
      li.startingSeqNumber < li.nextExpectedSeqNumber → Frontal mem li.contiguousBlock)
    (ran : (b.grepFlowsForChunks mem).result = some b') :
    Kept streams kept b' ∧ headings b' = headings b := by
  obtain ⟨left, walked, ran⟩ := bind_eq_some.mp ran
  cases ran
  exact ⟨grep_flows_kept before frontal walked, rfl⟩

/-! ## Runs -/

theorem kept_widen (stored : Kept streams kept b) (wide : ∀ f i, i ∈ kept f → i ∈ wider f) :
    Kept streams wider b := fun entry member block listed =>
  ⟨(stored entry member block listed).holds, fun i above below =>
    wide entry.1 i ((stored entry member block listed).within i above below)⟩

/-- The positions a flow may have, with no bound on the others. -/
def nearby (flow : FlowId) (low : ℕ) : FlowId → Set ℕ := fun other =>
  {i | other = flow → low ≤ i ∧ i + 1 < low + 2 ^ 31}

/-- A running sniffer with faithful lists and chunks of `int` length. -/
def Sound (streams : Streams) (c : Capture) : Prop :=
  ∀ s, c.sniffer = some s → Kept streams (fun _ => Set.univ) s.buffers ∧ Sized s.buffers

theorem carries_of_agrees {bytes : List UInt8} {around : ℤ → UInt8}
    (agrees : Agrees streams (.segment flow bytes around seq))
    (within : ∀ i, seq.toNat ≤ i → i < seq.toNat + bytes.length → i ∈ captured) :
    Carries (streams flow) captured (.ofBytes bytes around) bytes.length seq :=
  ⟨agrees.2.1, by rw [Pointer.bytes_ofBytes]; exact agrees.2.2, within⟩

theorem step_sound {gMultiChances : Bool} {event : Memory × SniffEvent} {c' : Capture}
    (sound : Sound streams c) (agrees : Agrees streams event.2)
    (careful : Careful gMultiChances c event) (ran : c.step gMultiChances event = some c') :
    Sound streams c' := by
  obtain ⟨s, running, rfl⟩ := Option.map_eq_some_iff.mp ran
  obtain ⟨flows, sized⟩ := sound s running
  have careful := careful s running
  obtain ⟨mem, event⟩ := event
  intro s' after
  cases event with
  | segment flow bytes around seq =>
    have ran : (s.handleIp gMultiChances mem flow (.ofBytes bytes around) bytes.length seq).result =
        some s' := after
    cases gMultiChances with
    | false =>
      exact handle_ip_kept (carries_of_agrees agrees fun _ _ _ => trivial) (fun on => by cases on)
        (fun on => by cases on) sized flows ran
    | true =>
      obtain ⟨inside, low, above, below, blocks⟩ := careful rfl
      have narrow : Kept streams (nearby flow low) s.buffers := by
        intro entry member block listed
        refine ⟨(flows entry member block listed).holds, fun i first last same => ?_⟩
        have := blocks entry member same block listed
        omega
      have carries : Carries (streams flow) (nearby flow low flow) (.ofBytes bytes around)
          bytes.length seq := carries_of_agrees agrees fun i first last _ => by omega
      obtain ⟨flows', sized'⟩ := handle_ip_kept carries (fun _ => ⟨low, fun i near => near rfl⟩)
        (fun _ => inside) sized narrow ran
      exact ⟨kept_widen flows' fun _ _ _ => trivial, sized'⟩
  | grepFlows =>
    obtain ⟨t, grepped, ran⟩ := bind_eq_some.mp after
    cases ran
    obtain ⟨flows', same⟩ := grep_kept flows careful grepped
    refine ⟨flows', ?_⟩
    rw [Sized, same]
    exact sized

theorem faithful_of_sound (sound : Sound streams c) : Faithful streams c := by
  intro s running entry member block listed
  have holds := ((sound s running).1 entry member block listed).holds
  have length := holds.length
  have ordered := holds.ordered
  refine ⟨by omega, fun k inside => ?_⟩
  rw [holds.content]
  exact getElem?_window (streams entry.1) (by omega)

/-- **The flow store is faithful over careful runs.** -/
theorem flow_store_faithful {gMultiChances : Bool}
    (run : Reaches (Capture.step gMultiChances)
      (fun c event => Agrees streams event.2 ∧ Careful gMultiChances c event) .start c) :
    Faithful streams c := by
  apply faithful_of_sound
  refine invariant (fun s running => ?_) (fun _ _ _ sound admitted ran =>
    step_sound sound admitted.1 admitted.2 ran) run
  cases running
  exact ⟨by simp [Kept, SniffTcp.create, Buffers.empty], by simp [Sized, headings, SniffTcp.create, Buffers.empty]⟩

/-! ## A record in front and in the middle -/

/-- A record of 32 bytes that the pass finds. It is too short for a chunk. -/
def shortRecord : List UInt8 := [0x80, 0, 0, 28, 0, 0, 0, 0] ++ mask

/-- A sniffer that stored these blocks of the flow from one segment of 33 bytes. -/
def storing (blocks : List ContiguousBlock) : Capture where
  sniffer := some ⟨⟨[(someFlow, blocks)], fun _ => none, 0⟩, fun _ => none⟩
  calls := [.insert someFlow 0 0 33 33]

/-- The block that a pass leaves of a record and the byte after it. -/
theorem flow_store_faithful_after_record :
    Faithful (fun _ i => (shortRecord ++ [2]).getD i 0) (storing [⟨32, 33, [2], false, false⟩]) := by
  have frontal : Frontal zeroMemory (shortRecord ++ [2]) :=
    @Frontal.front _ _ 32 (by decide) (by decide) (.clear (by decide))
  have first : Capture.step false .start
      (zeroMemory, .segment someFlow (shortRecord ++ [2]) (fun _ => 0) 0) =
      some (storing [⟨0, 33, shortRecord ++ [2], false, true⟩]) := rfl
  have second : Capture.step false (storing [⟨0, 33, shortRecord ++ [2], false, true⟩])
      (zeroMemory, .grepFlows) = some (storing [⟨32, 33, [2], false, false⟩]) := rfl
  have stored : Careful false .start (zeroMemory, .segment someFlow (shortRecord ++ [2]) (fun _ => 0) 0) :=
    fun s running multi => by cases multi
  have grepped : Careful false (storing [⟨0, 33, shortRecord ++ [2], false, true⟩])
      (zeroMemory, .grepFlows) := by
    intro s running
    cases running
    simpa using frontal
  apply flow_store_faithful
  exact (Reaches.refl.snoc _ ⟨⟨by decide, by decide, by decide⟩, stored⟩ first).snoc
    (zeroMemory, .grepFlows) ⟨trivial, grepped⟩ second

/-- With one byte in front of the record, the pass fills the block of that byte from
the string object. -/
theorem not_flow_store_faithful : ¬ ∀ streams gMultiChances c,
    Reaches (Capture.step gMultiChances) (fun _ event => Agrees streams event.2) .start c →
      Faithful streams c := by
  intro faithful
  have run : Reaches (Capture.step false)
      (fun _ event => Agrees (fun _ i => ([1] ++ shortRecord ++ [2]).getD i 0) event.2) .start _ :=
    (Reaches.refl.snoc (zeroMemory, .segment someFlow ([1] ++ shortRecord ++ [2]) (fun _ => 0) 0)
      ⟨by decide, by decide, by decide⟩ rfl).snoc (zeroMemory, .grepFlows) trivial rfl
  have stored := faithful _ false _ run _ rfl (someFlow, [⟨0, 1, [0], false, false⟩, ⟨33, 34, [2], false, false⟩])
    (by decide) ⟨0, 1, [0], false, false⟩ (by decide)
  exact absurd (stored.content 0 (by decide)) (by decide)

end Ditto.FlowFaithfulness
