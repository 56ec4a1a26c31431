import Mathlib.Data.List.Chain
import Ditto.FlowInsertion
import Ditto.FlowStore
import Ditto.Runs
import Ditto.SegmentHandling

/-! Segments that overlap what is stored. `insert` knows three places for a segment: in
a gap, just before a block and just after one. It does not ask how far a segment that
starts at the end of a block reaches, and it drops a segment that overlaps the block it
meets; these are the only ways to put a flow's list out of order and to lose a byte. -/
namespace Ditto.OverlappingSegments
open Sniffer Buffers ContiguousBlock ChunkReassembly Spans Windows Words Runs Traces Traced FlowLists
open FlowInsertion FlowStore ChunkHeadings SegmentHandling InsertWalk

/-- A block as it is made: open, with at least one byte, and as many as its numbers say. -/
structure Plain (li : ContiguousBlock) : Prop where
  opened : li.bInit = false
  sized : nextOf li = startOf li + li.contiguousBlock.length
  proper : startOf li < nextOf li

/-- Every block ends where the next one starts or before. -/
def Ordered (blocks : List ContiguousBlock) : Prop := blocks.IsChain fun li li2 => nextOf li ≤ startOf li2

/-- A segment starts at the end of a block and goes beyond the start of the next one. -/
def Overruns (blocks : List ContiguousBlock) (first size : ℕ) : Prop :=
  ∃ front li li2 back, blocks = front ++ li :: li2 :: back ∧ nextOf li = first ∧ startOf li2 < first + size

/-- The first block that a segment does not start beyond overlaps it. -/
def Overlaps (blocks : List ContiguousBlock) (first size : ℕ) : Prop :=
  ∃ li, blocks.find? (fun b => first ≤ nextOf b) = some li ∧ first < nextOf li ∧ startOf li < first + size

variable {payload : Pointer} {size : ℕ} {seq : TcpSeq} {li made : ContiguousBlock}
  {blocks rest left : List ContiguousBlock} {edit : Edit}

/-! ## One list -/

theorem create_plain (positive : 0 < size) (fits : seq.toNat + size < 2 ^ 32)
    (ran : ContiguousBlock.create.append payload size seq = some made) :
    Plain made ∧ startOf made = seq.toNat ∧ nextOf made = seq.toNat + size := by
  have last := toNat_add_ofInt seq size fits
  rw [create_append] at ran
  cases ran
  refine ⟨⟨rfl, ?_, ?_⟩, rfl, last⟩
  · simp only [nextOf, startOf, last, Pointer.length_bytes]
  · simp only [nextOf, startOf, last]
    omega

theorem prepend_plain (plain : Plain li) (joins : seq.toNat + size = startOf li)
    (ran : li.prepend payload size seq = some made) :
    Plain made ∧ startOf made = seq.toNat ∧ nextOf made = nextOf li := by
  have sized := plain.sized
  have proper := plain.proper
  rw [prepend_eq] at ran
  cases ran
  refine ⟨⟨plain.opened, ?_, ?_⟩, rfl, rfl⟩
  · simp only [startOf, nextOf, List.length_append, Pointer.length_bytes] at joins sized ⊢
    omega
  · simp only [startOf, nextOf] at joins proper ⊢
    omega

theorem append_plain (plain : Plain li) (joins : seq = li.nextExpectedSeqNumber)
    (fits : seq.toNat + size < 2 ^ 32) {start : TcpSeq} (ran : li.append payload size start = some made) :
    Plain made ∧ startOf made = startOf li ∧ nextOf made = seq.toNat + size := by
  subst joins
  have sized := plain.sized
  have proper := plain.proper
  have last := toNat_add_ofInt _ size fits
  rw [append_opened payload size start plain.opened] at ran
  cases ran
  refine ⟨⟨plain.opened, ?_, ?_⟩, rfl, last⟩
  · simp only [startOf, nextOf, last, List.length_append, Pointer.length_bytes] at sized ⊢
    omega
  · simp only [startOf, nextOf, last] at proper ⊢
    omega

theorem merge_plain {li2 : ContiguousBlock} (plain : Plain li) (plain2 : Plain li2)
    (joins : li.nextExpectedSeqNumber = li2.startingSeqNumber) :
    Plain (li.appendString li2.contiguousBlock li2.nextExpectedSeqNumber) := by
  have sized := plain.sized
  have proper := plain.proper
  have sized2 := plain2.sized
  have proper2 := plain2.proper
  refine ⟨plain.opened, ?_, ?_⟩
  · simp only [startOf, nextOf, appendString, List.length_append, ← joins] at sized sized2 ⊢
    omega
  · simp only [startOf, nextOf, appendString, ← joins] at proper proper2 ⊢
    omega

/-- Whichever branch an insertion takes, its blocks are plain. -/
theorem inserts_plain (positive : 0 < size) (fits : seq.toNat + size < 2 ^ 32) :
    Inserts payload size seq Plain where
  created := fun _ ran => (create_plain positive fits ran).1
  prepended := fun li _ plain touches ran => by
    have joins : seq.toNat + size = startOf li := toNat_add_ofInt seq size fits ▸ congrArg UInt32.toNat touches
    exact (prepend_plain plain joins ran).1
  appended := fun _ _ plain contiguous ran => (append_plain plain contiguous fits ran).1
  merged := fun _ _ plain plain2 joins => merge_plain plain plain2 joins

/-- Where an insertion puts a segment from `first` to `last`: into the list of the first
block that does not end before it. -/
inductive Inserted (first last : ℕ) : List ContiguousBlock → List ContiguousBlock → Prop
  | atEnd {made : ContiguousBlock} (start : startOf made = first) (next : nextOf made = last) :
      Inserted first last [] [made]
  | before {made li : ContiguousBlock} {rest : List ContiguousBlock} (early : first < nextOf li)
      (touches : last = startOf li) (start : startOf made = first) (next : nextOf made = nextOf li) :
      Inserted first last (li :: rest) (made :: rest)
  | between {made li : ContiguousBlock} {rest : List ContiguousBlock} (early : first < nextOf li)
      (gap : last < startOf li) (start : startOf made = first) (next : nextOf made = last) :
      Inserted first last (li :: rest) (made :: li :: rest)
  | dropped {li : ContiguousBlock} {rest : List ContiguousBlock} (early : first < nextOf li)
      (overlaps : startOf li < last) : Inserted first last (li :: rest) (li :: rest)
  | after {made li : ContiguousBlock} {rest : List ContiguousBlock} (joins : first = nextOf li)
      (apart : ∀ li2 ∈ rest.head?, last ≠ startOf li2) (start : startOf made = startOf li)
      (next : nextOf made = last) : Inserted first last (li :: rest) (made :: rest)
  | bridging {made li li2 : ContiguousBlock} {rest : List ContiguousBlock} (joins : first = nextOf li)
      (meets : last = startOf li2) (start : startOf made = startOf li) (next : nextOf made = nextOf li2) :
      Inserted first last (li :: li2 :: rest) (made :: rest)
  | past {li : ContiguousBlock} {rest left : List ContiguousBlock} (passed : nextOf li < first)
      (inner : Inserted first last rest left) : Inserted first last (li :: rest) (li :: left)

/-- The walk of `insert` goes one of these ways. -/
theorem insert_blocks_inserted (plain : ∀ li ∈ blocks, Plain li) (positive : 0 < size)
    (fits : seq.toNat + size < 2 ^ 32) (ran : insertBlocks payload size seq blocks = some (left, edit)) :
    Inserted seq.toNat (seq.toNat + size) blocks left := by
  have last := toNat_add_ofInt seq size fits
  replace ran := walk_of_insert ran
  induction ran with
  | atEnd filled =>
    obtain ⟨_, start, next⟩ := create_plain positive fits filled
    exact .atEnd start next
  | before early touches filled =>
    have joins : seq.toNat + size = startOf _ := last ▸ congrArg UInt32.toNat touches
    obtain ⟨_, start, next⟩ := prepend_plain (List.forall_mem_cons.mp plain).1 joins filled
    exact .before (UInt32.lt_iff_toNat_lt.mp early) joins start next
  | between early ahead filled =>
    obtain ⟨_, start, next⟩ := create_plain positive fits filled
    exact .between (UInt32.lt_iff_toNat_lt.mp early) (last ▸ UInt32.lt_iff_toNat_lt.mp ahead) start next
  | dropped early overlaps =>
    exact .dropped (UInt32.lt_iff_toNat_lt.mp early) (last ▸ UInt32.lt_iff_toNat_lt.mp overlaps)
  | after joins filled apart =>
    obtain ⟨_, start, next⟩ := append_plain (List.forall_mem_cons.mp plain).1 joins fits filled
    refine .after (congrArg UInt32.toNat joins) (fun li2 isNext same => ?_) start next
    exact apart li2 isNext (UInt32.toNat_inj.mp (next.trans same))
  | bridging joins filled meets =>
    obtain ⟨_, start, next⟩ := append_plain (List.forall_mem_cons.mp plain).1 joins fits filled
    exact .bridging (congrArg UInt32.toNat joins) (next ▸ congrArg UInt32.toNat meets) start rfl
  | past passed inner ih =>
    exact .past (UInt32.lt_iff_toNat_lt.mp passed) (ih (List.forall_mem_cons.mp plain).2)

/-! ## Order -/

theorem ordered_cons : Ordered (li :: rest) ↔ (∀ b ∈ rest.head?, nextOf li ≤ startOf b) ∧ Ordered rest :=
  List.isChain_cons

/-- In an ordered list a block ends before all the later ones start. -/
theorem ordered_after (ordered : Ordered (li :: rest)) (plain : ∀ b ∈ rest, Plain b) :
    ∀ b ∈ rest, nextOf li ≤ startOf b := by
  induction rest generalizing li with
  | nil => exact nofun
  | cons li2 rest ih =>
    obtain ⟨second, others⟩ := List.forall_mem_cons.mp plain
    obtain ⟨next, tail⟩ := ordered_cons.mp ordered
    have here := next li2 rfl
    have proper := second.proper
    refine List.forall_mem_cons.mpr ⟨here, fun b member => ?_⟩
    have later := ih tail others b member
    omega

theorem overruns_cons (first : ℕ) : Overruns (li :: rest) first size ↔
    (nextOf li = first ∧ ∃ li2 ∈ rest.head?, startOf li2 < first + size) ∨ Overruns rest first size := by
  constructor
  · rintro ⟨front, li', li2, back, shape, ends, beyond⟩
    cases front with
    | nil =>
      cases shape
      exact Or.inl ⟨ends, li2, rfl, beyond⟩
    | cons _ front =>
      cases shape
      exact Or.inr ⟨front, li', li2, back, rfl, ends, beyond⟩
  · rintro (⟨ends, li2, next, beyond⟩ | ⟨front, li', li2, back, rfl, ends, beyond⟩)
    · obtain ⟨back, rfl⟩ := List.head?_eq_some_iff.mp next
      exact ⟨[], li, li2, back, rfl, ends, beyond⟩
    · exact ⟨li :: front, li', li2, back, rfl, ends, beyond⟩

/-- A segment before the end of every block overruns none. -/
theorem not_overruns {first : ℕ} (before : ∀ b ∈ blocks, first < nextOf b) : ¬ Overruns blocks first size := by
  rintro ⟨front, li, li2, back, rfl, ends, _⟩
  have := before li (by simp)
  omega

/-- A segment that starts before the end of the first block starts before the end of all. -/
theorem ends_beyond {first : ℕ} (early : first < nextOf li) (plain : ∀ b ∈ li :: rest, Plain b)
    (ordered : Ordered (li :: rest)) : ∀ b ∈ li :: rest, first < nextOf b := by
  obtain ⟨_, others⟩ := List.forall_mem_cons.mp plain
  refine List.forall_mem_cons.mpr ⟨early, fun b member => ?_⟩
  have later := ordered_after ordered others b member
  have proper := (others b member).proper
  omega

/-- The front of the list is where it was, or where the segment starts. -/
theorem Inserted.head {first last : ℕ} (inserted : Inserted first last blocks left) :
    ∀ b ∈ left.head?, startOf b = first ∨ ∃ a ∈ blocks.head?, startOf b = startOf a := by
  intro b isHead
  cases inserted with
  | atEnd start _ | before _ _ start _ | between _ _ start _ =>
    cases isHead
    exact Or.inl start
  | dropped _ _ | past _ _ =>
    cases isHead
    exact Or.inr ⟨b, rfl, rfl⟩
  | after _ _ start _ | bridging _ _ start _ =>
    cases isHead
    exact Or.inr ⟨_, rfl, start⟩

/-- **An insertion keeps the order** exactly if its segment does not overrun the block after
the one it starts at the end of. -/
theorem Inserted.ordered_iff {first : ℕ} (inserted : Inserted first (first + size) blocks left)
    (plain : ∀ b ∈ blocks, Plain b) (ordered : Ordered blocks) :
    Ordered left ↔ ¬ Overruns blocks first size := by
  induction inserted with
  | atEnd _ _ => exact iff_of_true (List.isChain_singleton _) (not_overruns nofun)
  | before early _ _ next =>
    obtain ⟨follows, tail⟩ := ordered_cons.mp ordered
    exact iff_of_true (ordered_cons.mpr ⟨next ▸ follows, tail⟩) (not_overruns (ends_beyond early plain ordered))
  | between early gap _ next =>
    refine iff_of_true (ordered_cons.mpr ⟨fun b isHead => ?_, ordered⟩)
      (not_overruns (ends_beyond early plain ordered))
    cases isHead
    omega
  | dropped early _ => exact iff_of_true ordered (not_overruns (ends_beyond early plain ordered))
  | @after made li rest joins apart start next =>
    -- the block that grew ends past the start of the next one, or does not reach it
    obtain ⟨follows, tail⟩ := ordered_cons.mp ordered
    obtain ⟨_, others⟩ := List.forall_mem_cons.mp plain
    have later : ¬ Overruns rest first size := not_overruns fun b member => by
      have behind := ordered_after ordered others b member
      have proper := (others b member).proper
      omega
    rw [ordered_cons, overruns_cons, and_iff_left tail, or_iff_left later, next]
    constructor
    · rintro reaches ⟨_, li2, isNext, beyond⟩
      have clear := reaches li2 isNext
      omega
    · intro clear li2 isNext
      by_contra beyond
      exact clear ⟨joins.symm, li2, isNext, by omega⟩
  | @bridging made li li2 rest joins meets start next =>
    obtain ⟨_, tail⟩ := ordered_cons.mp ordered
    obtain ⟨_, others⟩ := List.forall_mem_cons.mp plain
    obtain ⟨follows, tail'⟩ := ordered_cons.mp tail
    refine iff_of_true (ordered_cons.mpr ⟨next ▸ follows, tail'⟩) ?_
    rw [overruns_cons, not_or]
    constructor
    · rintro ⟨_, other, isNext, beyond⟩
      cases isNext
      omega
    · refine not_overruns fun b member => ?_
      have behind := ordered_after ordered others b member
      have proper := (others b member).proper
      omega
  | @past li rest left passed inner ih =>
    obtain ⟨follows, tail⟩ := ordered_cons.mp ordered
    obtain ⟨_, others⟩ := List.forall_mem_cons.mp plain
    have apart : nextOf li ≠ first := by omega
    rw [ordered_cons, overruns_cons, ih others tail, and_iff_right, or_iff_right fun both => apart both.1]
    intro b isHead
    rcases inner.head b isHead with new | ⟨a, isFirst, same⟩
    · omega
    · exact same ▸ follows a isFirst

/-! ## Coverage -/

theorem overlaps_cons {first : ℕ} : Overlaps (li :: rest) first size ↔
    if first ≤ nextOf li then first < nextOf li ∧ startOf li < first + size else Overlaps rest first size := by
  by_cases met : first ≤ nextOf li <;> simp [Overlaps, met]

/-- An insertion covers its segment unless it overlaps the block it meets, and then it
changes nothing. -/
theorem Inserted.covers {first : ℕ} (inserted : Inserted first (first + size) blocks left)
    (plain : ∀ b ∈ blocks, Plain b) :
    (¬ Overlaps blocks first size → covered left = covered blocks ∪ Set.Ico first (first + size)) ∧
      (Overlaps blocks first size → left = blocks) := by
  induction inserted with
  | @atEnd made start next =>
    refine ⟨fun _ => ?_, fun ⟨_, found, _⟩ => nomatch found⟩
    rw [covered_cons, start, next, Set.union_comm]
  | @before made li rest early touches start next =>
    have proper := (plain li (List.mem_cons_self ..)).proper
    refine ⟨fun _ => covered_replace fun x => by omega, fun overlaps => ?_⟩
    rw [overlaps_cons, if_pos early.le] at overlaps
    omega
  | @between made li rest early gap start next =>
    refine ⟨fun _ => ?_, fun overlaps => ?_⟩
    · rw [covered_cons, start, next, Set.union_comm]
    · rw [overlaps_cons, if_pos early.le] at overlaps
      omega
  | dropped early overlaps =>
    refine ⟨fun clear => absurd ?_ clear, fun _ => rfl⟩
    rw [overlaps_cons, if_pos early.le]
    exact ⟨early, overlaps⟩
  | @after made li rest joins apart start next =>
    have proper := (plain li (List.mem_cons_self ..)).proper
    refine ⟨fun _ => covered_replace fun x => by omega, fun overlaps => ?_⟩
    rw [overlaps_cons, if_pos (le_of_eq joins)] at overlaps
    omega
  | @bridging made li li2 rest joins meets start next =>
    obtain ⟨head, others⟩ := List.forall_mem_cons.mp plain
    have proper := head.proper
    have proper2 := (List.forall_mem_cons.mp others).1.proper
    refine ⟨fun _ => ?_, fun overlaps => ?_⟩
    · ext x
      simp only [covered_cons, Set.mem_union, Set.mem_Ico, start, next]
      rw [← or_assoc, or_right_comm]
      refine or_congr_left ?_
      omega
    · rw [overlaps_cons, if_pos (le_of_eq joins)] at overlaps
      omega
  | @past li rest left passed inner ih =>
    obtain ⟨_, others⟩ := List.forall_mem_cons.mp plain
    obtain ⟨whole, same⟩ := ih others
    rw [overlaps_cons, if_neg (by omega)]
    refine ⟨fun clear => ?_, fun overlaps => by rw [same overlaps]⟩
    rw [covered_cons, covered_cons, whole clear, Set.union_assoc]

/-- **An insertion loses nothing** exactly if its segment does not overlap the block it
meets, or all of it was there. -/
theorem Inserted.covers_iff {first : ℕ} (inserted : Inserted first (first + size) blocks left)
    (plain : ∀ b ∈ blocks, Plain b) :
    covered left = covered blocks ∪ Set.Ico first (first + size) ↔
      ¬ Overlaps blocks first size ∨ Set.Ico first (first + size) ⊆ covered blocks := by
  obtain ⟨whole, same⟩ := inserted.covers plain
  by_cases overlaps : Overlaps blocks first size
  · rw [same overlaps, or_iff_right (not_not.mpr overlaps), eq_comm, Set.union_eq_left]
  · exact iff_of_true (whole overlaps) (Or.inl overlaps)

/-! ## Sequences of calls -/

/-- A call of `insert`. -/
structure InsertCall where
  flow : FlowId
  payload : Pointer
  sizePayload : ℕ
  seqNum : TcpSeq

/-- The segment is not empty and its numbers do not wrap. -/
def InsertCall.Fits (c : InsertCall) : Prop := 0 < c.sizePayload ∧ c.seqNum.toNat + c.sizePayload < 2 ^ 32

/-- The numbers of the segment's bytes. -/
def InsertCall.range (c : InsertCall) : Set ℕ := Set.Ico c.seqNum.toNat (c.seqNum.toNat + c.sizePayload)

/-- The call is made. -/
def insertCall (b : Buffers) (c : InsertCall) : Option Buffers :=
  (b.insert c.flow c.payload c.sizePayload c.seqNum 0 c.sizePayload).result.map Prod.fst

/-- There is one list for each flow, its blocks are as long as their numbers say, and each
ends where the next one starts or before. -/
structure InOrder (flows : List (FlowId × List ContiguousBlock)) : Prop where
  single : (flows.map Prod.fst).Nodup
  sized : ∀ entry ∈ flows, ∀ block ∈ entry.2, nextOf block = startOf block + block.contiguousBlock.length
  ordered : ∀ entry ∈ flows, Ordered entry.2

/-- Every block of every flow is plain. -/
def AllPlain (b : Buffers) : Prop := ∀ entry ∈ b.pFlowList, ∀ block ∈ entry.2, Plain block

variable {b b' : Buffers} {c : InsertCall} {flows : List (FlowId × List ContiguousBlock)} {flow : FlowId}

theorem blocks_in_member {entry : FlowId × List ContiguousBlock} (single : (flows.map Prod.fst).Nodup)
    (member : entry ∈ flows) : blocksIn flows entry.1 = entry.2 := by
  induction flows with
  | nil => cases member
  | cons head rest ih =>
    obtain ⟨new, others⟩ := List.nodup_cons.mp single
    rw [blocks_in_cons]
    rcases List.mem_cons.mp member with rfl | later
    · rw [if_pos rfl]
    · have different : head.1 ≠ entry.1 := fun same => new (same ▸ List.mem_map_of_mem later)
      rw [if_neg different, ih others later]

/-- A flow's list is listed, or empty. -/
theorem blocks_in_listed (flows : List (FlowId × List ContiguousBlock)) (flow : FlowId) :
    blocksIn flows flow = [] ∨ (flow, blocksIn flows flow) ∈ flows := by
  induction flows with
  | nil => exact Or.inl rfl
  | cons head rest ih =>
    rw [blocks_in_cons]
    by_cases same : head.1 = flow
    · rw [if_pos same]
      subst same
      exact Or.inr (List.mem_cons_self ..)
    · rw [if_neg same]
      exact ih.imp_right (List.mem_cons_of_mem _)

theorem AllPlain.flow_blocks (plain : AllPlain b) (flow : FlowId) : ∀ li ∈ b.blocksOf flow, Plain li := by
  intro li member
  rw [blocks_of_eq] at member
  rcases blocks_in_listed b.pFlowList flow with none | listed
  · rw [none] at member
    cases member
  · exact plain _ listed li member

theorem insert_call_some (ran : insertCall b c = some b') :
    ∃ edit, insertFlow c.flow c.payload c.sizePayload c.seqNum b.pFlowList = some (b'.pFlowList, edit) := by
  obtain ⟨⟨_, edit⟩, made, rfl⟩ := Option.map_eq_some_iff.mp ran
  exact ⟨edit, (insert_frame made).1⟩

theorem insert_call_total (b : Buffers) (c : InsertCall) : ∃ b', insertCall b c = some b' := by
  obtain ⟨after, edit, ran⟩ := insert_flow_total c.flow c.payload c.sizePayload c.seqNum b.pFlowList
  refine ⟨{ b with pFlowList := after }, ?_⟩
  simp [insertCall, Buffers.insert, ran]

theorem insert_call_plain (plain : AllPlain b) (fits : c.Fits) (ran : insertCall b c = some b') : AllPlain b' := by
  obtain ⟨edit, ran⟩ := insert_call_some ran
  exact insert_flow_keeps (P := fun _ => Plain) (inserts_plain fits.1 fits.2) plain ran

/-- A call puts its segment into its flow's list, and leaves the others. -/
theorem insert_call_inserted (plain : AllPlain b) (fits : c.Fits) (ran : insertCall b c = some b') :
    Inserted c.seqNum.toNat (c.seqNum.toNat + c.sizePayload) (b.blocksOf c.flow) (b'.blocksOf c.flow) ∧
      ∀ other, other ≠ c.flow → b'.blocksOf other = b.blocksOf other := by
  obtain ⟨edit, ran⟩ := insert_call_some ran
  obtain ⟨own, others⟩ := insert_flow_blocks ran
  exact ⟨insert_blocks_inserted (plain.flow_blocks c.flow) fits.1 fits.2 own, others⟩

/-- Lists are in order when those of all flows are. -/
theorem in_order_iff (plain : AllPlain b) (single : (b.pFlowList.map Prod.fst).Nodup) :
    InOrder b.pFlowList ↔ ∀ flow, Ordered (b.blocksOf flow) := by
  constructor
  · intro inOrder flow
    rw [blocks_of_eq]
    rcases blocks_in_listed b.pFlowList flow with none | listed
    · rw [none]
      exact List.isChain_nil
    · exact inOrder.ordered _ listed
  · intro each
    refine ⟨single, fun entry member block held => (plain entry member block held).sized, fun entry member => ?_⟩
    have own := each entry.1
    rwa [blocks_of_eq, blocks_in_member single member] at own

/-- One call keeps the lists in order exactly if it overruns no block. -/
theorem insert_call_in_order (plain : AllPlain b) (inOrder : InOrder b.pFlowList) (fits : c.Fits)
    (ran : insertCall b c = some b') :
    InOrder b'.pFlowList ↔ ¬ Overruns (b.blocksOf c.flow) c.seqNum.toNat c.sizePayload := by
  obtain ⟨edit, listed⟩ := insert_call_some ran
  obtain ⟨own, others⟩ := insert_call_inserted plain fits ran
  have ordered := (in_order_iff plain inOrder.single).mp inOrder
  rw [in_order_iff (insert_call_plain plain fits ran) ((insert_flow_names listed).2 inOrder.single),
    ← own.ordered_iff (plain.flow_blocks c.flow) (ordered c.flow)]
  refine ⟨fun each => each c.flow, fun here flow => ?_⟩
  by_cases same : flow = c.flow
  · exact same ▸ here
  · exact others flow same ▸ ordered flow

/-- **The lists stay in order** in every state of a run exactly if no call of it overruns
a block. -/
theorem flow_lists_in_order_iff (calls : List InsertCall) (fit : ∀ c ∈ calls, c.Fits) :
    (∃ last, calls.foldlM insertCall .empty = some last) ∧
    (Always insertCall (fun _ _ after => InOrder after.pFlowList) .empty calls ↔
      Always insertCall (fun b c _ => ¬ Overruns (b.blocksOf c.flow) c.seqNum.toNat c.sizePayload) .empty calls) := by
  refine ⟨run_total insert_call_total _ calls, ?_⟩
  apply @always_iff _ _ insertCall _ (fun b => AllPlain b ∧ InOrder b.pFlowList) _ fun _ c => c.Fits
  · exact ⟨nofun, List.nodup_nil, nofun, nofun⟩
  · intro b c b' before fits ran
    exact insert_call_in_order before.1 before.2 fits ran
  · intro b c b' before fits clear ran
    exact ⟨insert_call_plain before.1 fits ran, (insert_call_in_order before.1 before.2 fits ran).mpr clear⟩
  · exact always_of_forall fun c member _ _ => fit c member

/-- Three segments of a flow: a byte, the byte after the next, and two from the end of the
first on. -/
theorem overrun_breaks_order : ¬ ∀ calls : List InsertCall, (∀ c ∈ calls, c.Fits) →
    ∀ b, calls.foldlM insertCall .empty = some b → InOrder b.pFlowList := by
  intro always
  have inOrder := always [⟨someFlow, fun _ => 0, 1, 0⟩, ⟨someFlow, fun _ => 0, 1, 2⟩, ⟨someFlow, fun _ => 0, 2, 1⟩]
    (by simp [InsertCall.Fits]) _ rfl
  have reaches := (ordered_cons.mp (inOrder.ordered _ (List.mem_cons_self ..))).1 _ rfl
  exact absurd reaches (by decide)

/-- The same first two segments, and the byte between them. -/
theorem in_order_of_three :
    Always insertCall (fun _ _ after => InOrder after.pFlowList) .empty
        [⟨someFlow, fun _ => 0, 1, 0⟩, ⟨someFlow, fun _ => 0, 1, 2⟩, ⟨someFlow, fun _ => 0, 1, 1⟩] ↔
      Always insertCall (fun b c _ => ¬ Overruns (b.blocksOf c.flow) c.seqNum.toNat c.sizePayload) .empty
        [⟨someFlow, fun _ => 0, 1, 0⟩, ⟨someFlow, fun _ => 0, 1, 2⟩, ⟨someFlow, fun _ => 0, 1, 1⟩] :=
  (flow_lists_in_order_iff _ (by simp [InsertCall.Fits])).2

/-- **A call loses no new byte** exactly if its segment does not overlap the block it meets
in its flow's list, or all of it was there, whatever the calls before it. -/
theorem insert_loses_nothing_iff (run : Reaches insertCall (fun _ c => c.Fits) .empty b) (fits : c.Fits) :
    ∃ b', insertCall b c = some b' ∧
      (covered (b'.blocksOf c.flow) = covered (b.blocksOf c.flow) ∪ c.range ↔
        ¬ Overlaps (b.blocksOf c.flow) c.seqNum.toNat c.sizePayload ∨ c.range ⊆ covered (b.blocksOf c.flow)) := by
  have plain : AllPlain b := by
    have opened : AllPlain .empty := nofun
    exact invariant opened (fun _ _ _ before fits ran => insert_call_plain before fits ran) run
  obtain ⟨b', ran⟩ := insert_call_total b c
  exact ⟨b', ran, (insert_call_inserted plain fits ran).1.covers_iff (plain.flow_blocks c.flow)⟩

/-- The segment is what a stream has at its numbers. -/
def InsertCall.Carved (source : ℕ → UInt8) (c : InsertCall) : Prop :=
  c.payload.bytes c.sizePayload = window source c.seqNum.toNat (c.seqNum.toNat + c.sizePayload)

/-- Two bytes of a stream of zeros, and then the byte before them with the first of them. -/
theorem overlapping_segment_lost : ¬ ∀ (source : ℕ → UInt8) (calls : List InsertCall) (c : InsertCall) (b b' : Buffers),
    (∀ d ∈ calls ++ [c], d.Fits ∧ d.Carved source) → calls.foldlM insertCall .empty = some b →
      insertCall b c = some b' → covered (b'.blocksOf c.flow) = covered (b.blocksOf c.flow) ∪ c.range := by
  intro always
  have same := always (fun _ => 0) [⟨someFlow, fun _ => 0, 2, 1⟩] ⟨someFlow, fun _ => 0, 2, 0⟩ _ _
    (by simp [InsertCall.Fits, InsertCall.Carved, Pointer.bytes, window]) rfl rfl
  have first : 0 ∈ covered _ := same.ge (Or.inr ⟨Nat.le_refl _, by decide⟩)
  obtain ⟨li, member, above, _⟩ := first
  cases List.mem_singleton.mp member
  exact absurd above (by decide)

/-- The same two bytes, and then the byte before them. -/
theorem touching_segment_kept : ∃ b b', insertCall .empty ⟨someFlow, fun _ => 0, 2, 1⟩ = some b ∧
    insertCall b ⟨someFlow, fun _ => 0, 1, 0⟩ = some b' ∧
    (covered (b'.blocksOf someFlow) = covered (b.blocksOf someFlow) ∪ Set.Ico 0 1 ↔
      ¬ Overlaps (b.blocksOf someFlow) 0 1 ∨ Set.Ico 0 1 ⊆ covered (b.blocksOf someFlow)) := by
  have run : Reaches insertCall (fun _ c => c.Fits) .empty _ :=
    Reaches.refl.snoc ⟨someFlow, fun _ => 0, 2, 1⟩ ⟨by decide, by decide⟩ rfl
  obtain ⟨b', ran, exactly⟩ := @insert_loses_nothing_iff _ ⟨someFlow, fun _ => 0, 1, 0⟩ run ⟨by decide, by decide⟩
  exact ⟨_, b', rfl, ran, exactly⟩

end Ditto.OverlappingSegments
