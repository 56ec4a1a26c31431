import Ditto.FlowInsertion
import Ditto.Placement
import Ditto.RecordScan

/-! Records one after the other in a stream, and what the list of their flow has while
they are captured in order. The length that a chunk is made with leaves out the four
bytes of the length field, so the last four bytes of each record go to the list. They
are too few for the pass to find anything in them, and no candidate for a chunk. -/
namespace Ditto.RecordLayout
open Sniffer Buffers ChunkReassembly Spans Windows Words Placement Traces Traced
open RecordHeaders RecordScan FlowLists FlowInsertion

/-- The length of a record's chunk. -/
def tracked (r : ChunkRecord) : ℕ := r.bytes.length - 4

/-- Records in a stream: in order, with chunk ids of their own, and data that ends in what
the chunk's length counts. -/
structure Laid (source : ℕ → UInt8) (limit : ℕ) (spots : List (ℕ × ChunkRecord)) : Prop where
  ordered : spots.Pairwise fun one other => one.1 + one.2.bytes.length ≤ other.1
  distinct : spots.Pairwise fun one other => one.2.chunkId ≠ other.2.chunkId
  inside : ∀ spot ∈ spots, spot.1 + spot.2.bytes.length ≤ limit
  part : ∀ spot ∈ spots, spot.2.bytes = window source spot.1 (spot.1 + spot.2.bytes.length)
  fits : ∀ spot ∈ spots, 68 + spot.2.dataLength ≤ tracked spot.2

/-- The positions past the chunks of records, up to a point of the stream. -/
def tails (spots : List (ℕ × ChunkRecord)) (t : ℕ) : Set ℕ :=
  {x | x < t ∧ ∃ spot ∈ spots, spot.1 + tracked spot.2 ≤ x ∧ x < spot.1 + spot.2.bytes.length}

/-- The lists of flows when `flow` alone was captured, in order up to `t`. -/
structure Listing (source : ℕ → UInt8) (limit : ℕ) (spots : List (ℕ × ChunkRecord)) (flow : FlowId) (t : ℕ)
    (flows : List (FlowId × List ContiguousBlock)) : Prop where
  alone : flows = [] ∨ ∃ blocks, flows = [(flow, blocks)]
  ok : BlocksOk source limit (blocksIn flows flow)
  covers : covered (blocksIn flows flow) = tails spots t

variable {source : ℕ → UInt8} {limit t u : ℕ} {spots : List (ℕ × ChunkRecord)} {spot other : ℕ × ChunkRecord}
  {flow : FlowId} {flows after : List (FlowId × List ContiguousBlock)} {li : ContiguousBlock}
  {payload : Pointer} {size : ℕ} {seq : TcpSeq} {edit : Edit} {mem : Memory}

/-! ## Records -/

/-- The top byte of the length field only has the last-fragment bit. -/
theorem record_short (r : ChunkRecord) : r.bytes.length < 2 ^ 24 + 4 := by
  have sized := r.sized
  have long := r.long
  match held : r.bytes with
  | first :: second :: third :: fourth :: rest =>
    have marked := r.marked
    rw [held] at sized marked
    obtain rfl : first = rpcHeader := Option.some_inj.mp marked
    have second := second.toNat_lt
    have third := third.toNat_lt
    have fourth := fourth.toNat_lt
    have top : rpcHeader.toNat = 0x80 := rfl
    simp only [List.take_succ_cons, List.take_zero, Xdr.number, List.foldl_cons, List.foldl_nil, top] at sized
    omega
  | [] | [_] | [_, _] | [_, _, _] =>
    rw [held] at long
    simp [minChunkSize] at long

theorem tracked_add (r : ChunkRecord) : tracked r + 4 = r.bytes.length := by
  have long := r.long
  rw [tracked]
  omega

namespace Laid

/-- Two records are apart. -/
theorem apart (laid : Laid source limit spots) (one : spot ∈ spots) (two : other ∈ spots) :
    spot = other ∨ spot.1 + spot.2.bytes.length ≤ other.1 ∨ other.1 + other.2.bytes.length ≤ spot.1 :=
  Spans.same_or_ordered laid.ordered one two

/-- A record is known by its chunk id. -/
theorem same_id (laid : Laid source limit spots) (one : spot ∈ spots) (two : other ∈ spots)
    (same : spot.2.chunkId = other.2.chunkId) : spot = other := by
  rcases Spans.same_or_ordered laid.distinct one two with rfl | different | different
  · rfl
  · exact absurd same different
  · exact absurd same.symm different

/-- A record is known by a position in it. -/
theorem same_place (laid : Laid source limit spots) (one : spot ∈ spots) (two : other ∈ spots) {x : ℕ}
    (inside : spot.1 ≤ x ∧ x < spot.1 + spot.2.bytes.length)
    (inside' : other.1 ≤ x ∧ x < other.1 + other.2.bytes.length) : spot = other := by
  rcases laid.apart one two with same | before | after
  · exact same
  · omega
  · omega

/-- Within a record, the tails grow by what is past its chunk. -/
theorem tails_in_record (laid : Laid source limit spots) (member : spot ∈ spots) (lower : spot.1 ≤ t)
    (ordered : t ≤ u) (upper : u ≤ spot.1 + spot.2.bytes.length) :
    tails spots u = tails spots t ∪ Set.Ico (max t (spot.1 + tracked spot.2)) u := by
  ext x
  constructor
  · rintro ⟨before, other, listed, above, below⟩
    by_cases old : x < t
    · exact Or.inl ⟨old, other, listed, above, below⟩
    · obtain rfl := laid.same_place member listed ⟨by omega, by omega⟩ ⟨by omega, below⟩
      exact Or.inr ⟨by omega, before⟩
  · rintro (⟨before, tail⟩ | ⟨above, before⟩)
    · exact ⟨by omega, tail⟩
    · exact ⟨before, spot, member, by omega, by omega⟩

end Laid

/-! ## The list -/

namespace Listing

/-- A piece of a record's tail is stored. -/
theorem insert (listing : Listing source limit spots flow t flows) (laid : Laid source limit spots)
    (small : limit < 2 ^ 32) (member : spot ∈ spots) (lower : spot.1 ≤ t)
    (piece : Piece source limit payload size seq) (starts : seq.toNat = max t (spot.1 + tracked spot.2))
    (upper : seq.toNat + size ≤ spot.1 + spot.2.bytes.length) :
    ∃ after edit, insertFlow flow payload size seq flows = some (after, edit) ∧
      Listing source limit spots flow (seq.toNat + size) after := by
  obtain ⟨after, edit, ran⟩ := insert_flow_total flow payload size seq flows
  have fresh : Disjoint (Set.Ico seq.toNat (seq.toNat + size)) (covered (blocksIn flows flow)) := by
    rw [listing.covers]
    refine Set.disjoint_left.mpr fun x inside old => ?_
    have above := inside.1
    have below := old.1
    omega
  have added := insert_blocks_spec listing.ok small piece fresh (insert_flow_blocks ran).1
  refine ⟨after, edit, ran, ?_, added.ok, ?_⟩
  · rcases listing.alone with rfl | ⟨blocks, rfl⟩
    · rw [insertFlow] at ran
      obtain ⟨made, _, ran⟩ := Option.bind_eq_some_iff.mp ran
      cases ran
      exact Or.inr ⟨_, rfl⟩
    · rw [insertFlow, if_pos rfl] at ran
      obtain ⟨⟨left, inner⟩, _, ran⟩ := Option.bind_eq_some_iff.mp ran
      cases ran
      exact Or.inr ⟨_, rfl⟩
  · rw [added.covers, listing.covers, laid.tails_in_record member lower (by omega) upper, starts]

/-- Up to a chunk's end there is nothing to store. -/
theorem skip (listing : Listing source limit spots flow t flows) (laid : Laid source limit spots)
    (member : spot ∈ spots) (lower : spot.1 ≤ t) (ordered : t ≤ u) (upper : u ≤ spot.1 + tracked spot.2) :
    Listing source limit spots flow u flows := by
  have whole := tracked_add spot.2
  refine ⟨listing.alone, listing.ok, ?_⟩
  rw [listing.covers, laid.tails_in_record member lower ordered (by omega), Set.Ico_eq_empty (by omega),
    Set.union_empty]

/-- A stored block is in the tail of one record. -/
theorem in_tail (listing : Listing source limit spots flow t flows) (laid : Laid source limit spots)
    (member : li ∈ blocksIn flows flow) : ∃ spot ∈ spots,
      spot.1 + tracked spot.2 ≤ startOf li ∧ nextOf li ≤ spot.1 + spot.2.bytes.length := by
  have start : startOf li ∈ tails spots t := listing.covers ▸ start_covered listing.ok.proper member
  obtain ⟨_, spot, listed, above, below⟩ := start
  refine ⟨spot, listed, above, ?_⟩
  by_contra beyond
  have inside : spot.1 + spot.2.bytes.length ∈ tails spots t :=
    listing.covers ▸ ⟨li, member, by omega, by omega⟩
  obtain ⟨_, other, listed', above', below'⟩ := inside
  have long := tracked_add other.2
  have size := other.2.long
  rcases laid.apart listed listed' with rfl | before | after <;> omega

/-- No stored block is a candidate for a record's chunk. -/
theorem not_within (listing : Listing source limit spots flow t flows) (laid : Laid source limit spots)
    (small : limit < 2 ^ 32) (listed : spot ∈ spots) (member : li ∈ blocksIn flows flow)
    (starts : seq.toNat = spot.1) : within seq (tracked spot.2) li.startingSeqNumber = false := by
  obtain ⟨other, listed', above, below⟩ := listing.in_tail laid member
  have proper := (listing.ok.each li member).proper
  have inside := laid.inside spot listed
  have whole := tracked_add spot.2
  have whole' := tracked_add other.2
  have ends := toNat_add_ofInt seq (tracked spot.2) (by omega)
  rw [within, decide_eq_false_iff_not, UInt32.lt_iff_toNat_lt, UInt32.lt_iff_toNat_lt, ends, starts]
  have start : li.startingSeqNumber.toNat = startOf li := rfl
  rcases laid.apart listed listed' with rfl | before | after <;> omega

end Listing

/-- Without a block that starts in the chunk, the candidates' loop is over at once. -/
theorem candidates_none {b : Buffers} {chunkId : ChunkId} {length index rounds : ℕ}
    (none : ∀ li ∈ b.blocksOf flow, within seq length li.startingSeqNumber = false) :
    Sends (candidatesFrom mem chunkId flow seq length rounds index b) [] b := by
  cases rounds with
  | zero => exact sends_pure _
  | succ rounds =>
    have ended : ((b.blocksOf flow).drop index).findIdx?
        (fun li => within seq length li.startingSeqNumber) = Option.none := by
      rw [List.findIdx?_eq_none_iff]
      intro li member
      exact none li (List.mem_of_mem_drop member)
    rw [candidatesFrom]
    simp only [ended]
    exact sends_pure _

/-! ## The pass -/

/-- A block that the pass has looked at. -/
def looked (block : ContiguousBlock) : ContiguousBlock := { block with bModified := false }

/-- The pass finds nothing in a short block. -/
theorem grep_short {rounds : ℕ} (short : li.contiguousBlock.length ≤ 32) (proper : startOf li < nextOf li) :
    Sends (grepBlock mem flow (rounds + 2) li) [] [looked li] := by
  have ahead : li.startingSeqNumber < li.nextExpectedSeqNumber := UInt32.lt_iff_toNat_lt.mpr proper
  have different : li.startingSeqNumber ≠ li.nextExpectedSeqNumber := fun same =>
    Nat.ne_of_lt proper (congrArg UInt32.toNat same)
  cases modified : li.bModified with
  | false =>
    have same : looked li = li := by
      rw [looked, ← modified]
    rw [grepBlock, if_neg (by simp [modified]), if_neg different, same]
    exact sends_pure _
  | true =>
    have nothing : firstRecord (mem.cStr li.contiguousBlock) li.contiguousBlock.length = none := by
      cases found : firstRecord (mem.cStr li.contiguousBlock) li.contiguousBlock.length with
      | none => rfl
      | some place =>
        have := (first_record_place found (by omega)).1
        omega
    have once : Sends (grepContiguousBlockForChunks mem flow li) [] ([], looked li) := by
      rw [Handovers.grep_nothing nothing (by omega)]
      exact sends_pure _
    have again : Sends (grepBlock mem flow (rounds + 1) (looked li)) [] [looked li] := by
      have kept : (looked li).startingSeqNumber ≠ (looked li).nextExpectedSeqNumber := different
      rw [grepBlock, if_neg (by simp [looked]), if_neg kept]
      exact sends_pure _
    rw [grepBlock, if_pos ⟨modified, ahead⟩]
    exact once.bind (again.bind (sends_pure _))

theorem grep_shorts {blocks : List ContiguousBlock}
    (short : ∀ li ∈ blocks, li.contiguousBlock.length ≤ 32 ∧ startOf li < nextOf li) :
    Sends (grepBlocks mem flow blocks) [] (blocks.map looked) := by
  induction blocks with
  | nil => exact sends_pure _
  | cons li rest ih =>
    obtain ⟨head, tail⟩ := List.forall_mem_cons.mp short
    exact (grep_short head.1 head.2).bind ((ih tail).bind (sends_pure _))

theorem looked_ok {blocks : List ContiguousBlock} (ok : BlocksOk source limit blocks) :
    BlocksOk source limit (blocks.map looked) ∧ covered (blocks.map looked) = covered blocks := by
  induction blocks with
  | nil => exact ⟨blocks_ok_nil, rfl⟩
  | cons li rest ih =>
    obtain ⟨head, tail, apart⟩ := blocks_ok_cons.mp ok
    obtain ⟨kept, covers⟩ := ih tail
    refine ⟨blocks_ok_cons.mpr ⟨⟨⟨head.holds.opened, head.holds.ordered, head.holds.content⟩, head.proper,
      head.bounded⟩, kept, ?_⟩, ?_⟩
    · intro b member
      obtain ⟨old, listed, rfl⟩ := List.mem_map.mp member
      exact apart old listed
    · rw [List.map_cons, covered_cons, covered_cons, covers]
      rfl

/-- **A pass** over the tails hands nothing on. -/
theorem Listing.pass (listing : Listing source limit spots flow t flows) (laid : Laid source limit spots)
    (mem : Memory) : ∃ after, Sends (grepFlows mem flows) [] after ∧ Listing source limit spots flow t after := by
  have short : ∀ li ∈ blocksIn flows flow, li.contiguousBlock.length ≤ 32 ∧ startOf li < nextOf li := by
    intro li member
    obtain ⟨spot, _, above, below⟩ := listing.in_tail laid member
    have stored := listing.ok.each li member
    have whole := tracked_add spot.2
    have length : li.contiguousBlock.length = nextOf li - startOf li := stored.holds.length
    exact ⟨by omega, stored.proper⟩
  rcases listing.alone with rfl | ⟨blocks, rfl⟩
  · exact ⟨[], sends_pure _, listing⟩
  · have own : blocksIn [(flow, blocks)] flow = blocks := by simp [blocksIn]
    rw [own] at short
    obtain ⟨ok, covers⟩ := looked_ok (own ▸ listing.ok)
    refine ⟨[(flow, blocks.map looked)], ?_, Or.inr ⟨_, rfl⟩, ?_, ?_⟩
    · rw [grepFlows, grepFlows]
      exact (grep_shorts short).bind ((sends_pure _).bind (sends_pure _))
    all_goals rw [show blocksIn [(flow, blocks.map looked)] flow = blocks.map looked by simp [blocksIn]]
    · exact ok
    · rw [covers, ← listing.covers, own]

end Ditto.RecordLayout
