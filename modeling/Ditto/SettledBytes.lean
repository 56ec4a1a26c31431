import Ditto.HeaderlessSegments

/-! Bytes that settle in a flow's list. A piece of a stream is handed to `insert` when its
bytes belong to no chunk, or some of them do not. The list is as good as before and has those
afterwards if it had none of them, or had them all and drops the piece; a piece that starts at
the end of a block and reaches over the next one is neither. -/
namespace Ditto.SettledBytes
open Sniffer Buffers ContiguousBlock ChunkReassembly Spans Windows Words Traces Traced FlowLists
open ChunkHeadings FlowInsertion OverlappingSegments ChunkClaiming HeaderlessSegments

variable {source : ℕ → UInt8} {limit first last low high size : ℕ} {blocks rest left : List ContiguousBlock}
  {li : ContiguousBlock} {outside : ℕ → Prop} {payload : Pointer} {seq : TcpSeq} {edit : Edit}
  {b b' : Buffers} {flow : FlowId} {offset held : ℤ}

/-- The list takes the bytes that belong in it: the piece overruns no block, and it does not
meet an overlap unless these bytes were there. -/
structure Settles (blocks : List ContiguousBlock) (first last : ℕ) (outside : ℕ → Prop) : Prop where
  ordered : ¬ Overruns blocks first (last - first)
  arrives : ¬ Overlaps blocks first (last - first) ∨
    ∀ x ∈ Set.Ico first last, outside x → x ∈ covered blocks

/-- The list has none of the piece's bytes, or it has those that belong in it and no block
ends where the piece starts. -/
def Free (blocks : List ContiguousBlock) (first last : ℕ) (outside : ℕ → Prop) : Prop :=
  Disjoint (Set.Ico first last) (covered blocks) ∨
    (∀ li ∈ blocks, nextOf li ≠ first) ∧ ∀ x ∈ Set.Ico first last, outside x → x ∈ covered blocks

theorem plain_of_ok (ok : BlocksOk source limit blocks) : ∀ li ∈ blocks, Plain li := by
  intro li member
  obtain ⟨holds, proper, _⟩ := ok.each li member
  refine ⟨holds.opened, ?_, proper⟩
  have := holds.length
  have := holds.ordered
  rw [nextOf, startOf]
  omega

/-- Blocks that start no earlier than a block start no earlier than its start. -/
theorem all_beyond (ok : BlocksOk source limit (li :: rest)) (beyond : last ≤ startOf li) :
    Disjoint (Set.Ico first last) (covered (li :: rest)) := by
  rw [Set.disjoint_left]
  rintro x ⟨_, upper⟩ ⟨block, member, lower, _⟩
  have := head_start_le ok.proper ok.separated member
  omega

/-- A piece that overruns no block and meets no overlap has no byte that the list has. -/
theorem disjoint_of_settles {count : ℕ} (ok : BlocksOk source limit blocks)
    (ordered : ¬ Overruns blocks first count) (apart : ¬ Overlaps blocks first count) :
    Disjoint (Set.Ico first (first + count)) (covered blocks) := by
  induction blocks with
  | nil => simp
  | cons li rest ih =>
    obtain ⟨head, tail, later⟩ := blocks_ok_cons.mp ok
    have proper := head.proper
    rw [overlaps_cons] at apart
    rw [overruns_cons, not_or] at ordered
    by_cases met : first ≤ nextOf li
    · rw [if_pos met] at apart
      by_cases joins : nextOf li = first
      · -- the piece goes on from the block, and the next one starts behind it
        have after : ∀ li2 ∈ rest.head?, first + count ≤ startOf li2 := fun li2 isNext =>
          Nat.le_of_not_lt fun less => ordered.1 ⟨joins, li2, isNext, less⟩
        rw [covered_cons, Set.disjoint_union_right]
        refine ⟨Set.Ico_disjoint_Ico.mpr (by omega), ?_⟩
        cases rest with
        | nil => simp
        | cons li2 rest => exact all_beyond tail (after li2 rfl)
      · exact all_beyond ok (by omega)
    · rw [if_neg met] at apart
      rw [covered_cons, Set.disjoint_union_right]
      exact ⟨Set.Ico_disjoint_Ico.mpr (by omega), ih tail ordered.2 apart⟩

/-- A piece that meets an overlap starts at the end of no block. -/
theorem no_end_of_overlaps {count : ℕ} (ok : BlocksOk source limit blocks)
    (overlaps : Overlaps blocks first count) : ∀ li ∈ blocks, nextOf li ≠ first := by
  induction blocks with
  | nil => exact nofun
  | cons li rest ih =>
    obtain ⟨head, tail, later⟩ := blocks_ok_cons.mp ok
    rw [overlaps_cons] at overlaps
    intro block member ends
    by_cases met : first ≤ nextOf li
    · rw [if_pos met] at overlaps
      rcases List.mem_cons.mp member with rfl | member
      · omega
      · have := later block member
        have := (tail.each block member).proper
        omega
    · rw [if_neg met] at overlaps
      rcases List.mem_cons.mp member with rfl | member
      · omega
      · exact ih tail overlaps block member ends

theorem Settles.free (settles : Settles blocks first last outside) (ok : BlocksOk source limit blocks)
    (nonempty : first ≤ last) : Free blocks first last outside := by
  obtain ⟨ordered, arrives⟩ := settles
  by_cases overlaps : Overlaps blocks first (last - first)
  · exact Or.inr ⟨no_end_of_overlaps ok overlaps, arrives.resolve_left (not_not_intro overlaps)⟩
  · have apart := disjoint_of_settles ok ordered overlaps
    rw [Nat.add_sub_cancel' nonempty] at apart
    exact Or.inl apart

/-- A list that has grown before the piece leaves it as free. -/
theorem Free.later (free : Free blocks first last outside) (ok' : BlocksOk source limit left)
    (kept : covered blocks ⊆ covered left)
    (added : covered left ⊆ covered blocks ∪ Set.Ico low high) (before : high < first) :
    Free left first last outside := by
  rcases free with apart | ⟨ends, there⟩
  · refine Or.inl (Set.disjoint_left.mpr fun x inside member => ?_)
    rcases added member with old | ⟨_, new⟩
    · exact Set.disjoint_left.mp apart inside old
    · have := inside.1
      omega
  · refine Or.inr ⟨fun li member same => ?_, fun x inside out => kept (there x inside out)⟩
    -- the byte before the piece is in an old block, which ends there as well
    have proper := (ok'.each li member).proper
    have last_byte : first - 1 ∈ covered left := ⟨li, member, by omega, by omega⟩
    rcases added last_byte with ⟨old, listed, lower, upper⟩ | ⟨_, new⟩
    · have past : first ∉ covered left := same ▸ end_not_covered ok'.proper ok'.separated member
      have stops : ¬ first < nextOf old := fun inside => past (kept ⟨old, listed, by omega, inside⟩)
      exact ends old listed (by omega)
    · omega

/-- A piece whose bytes are partly there meets an overlap, if no block ends where it starts. -/
theorem overlaps_of_meets {count : ℕ} (ok : BlocksOk source limit blocks) (ends : ∀ li ∈ blocks, nextOf li ≠ first)
    (meets : ¬ Disjoint (Set.Ico first (first + count)) (covered blocks)) : Overlaps blocks first count := by
  induction blocks with
  | nil => exact absurd (by simp) meets
  | cons li rest ih =>
    obtain ⟨head, tail, later⟩ := blocks_ok_cons.mp ok
    have proper := head.proper
    have apart := ends li (List.mem_cons_self ..)
    rw [overlaps_cons]
    split
    · refine ⟨by omega, Nat.lt_of_not_le fun beyond => meets (all_beyond ok beyond)⟩
    · refine ih tail (fun other member => ends other (List.mem_cons_of_mem _ member)) fun clear => meets ?_
      rw [covered_cons, Set.disjoint_union_right]
      exact ⟨Set.Ico_disjoint_Ico.mpr (by omega), clear⟩

/-- What a list has after it was handed a piece. -/
structure Took (source : ℕ → UInt8) (limit : ℕ) (blocks : List ContiguousBlock) (first last : ℕ)
    (outside : ℕ → Prop) (left : List ContiguousBlock) : Prop where
  ok : BlocksOk source limit left
  kept : covered blocks ⊆ covered left
  added : covered left ⊆ covered blocks ∪ Set.Ico first last
  settled : ∀ x ∈ Set.Ico first last, outside x → x ∈ covered left
  met : ¬ Disjoint (Set.Ico first last) (covered blocks) → left = blocks

theorem took_nothing (ok : BlocksOk source limit blocks) : Took source limit blocks first first outside blocks where
  ok := ok
  kept := subset_rfl
  added := Set.subset_union_left
  settled := fun x inside => absurd inside (by simp)
  met := fun meets => absurd (by simp) meets

/-- **A piece that is free settles.** -/
theorem insert_blocks_took (ok : BlocksOk source limit blocks) (small : limit < 2 ^ 32)
    (piece : Piece source limit payload size seq)
    (free : Free blocks seq.toNat (seq.toNat + size) outside)
    (ran : insertBlocks payload size seq blocks = some (left, edit)) :
    Took source limit blocks seq.toNat (seq.toNat + size) outside left := by
  by_cases apart : Disjoint (Set.Ico seq.toNat (seq.toNat + size)) (covered blocks)
  · obtain ⟨ok', covers⟩ := insert_blocks_spec ok small piece apart ran
    refine ⟨ok', ?_, covers.subset, fun x inside _ => ?_, fun meets => absurd apart meets⟩
    · rw [covers]
      exact Set.subset_union_left
    · rw [covers]
      exact Set.mem_union_right _ inside
  · obtain ⟨ends, there⟩ := free.resolve_left apart
    have overlaps := overlaps_of_meets ok ends apart
    have inside := piece.inside
    cases ran.symm.trans (insert_blocks_dropped (by omega) overlaps payload)
    exact ⟨ok, subset_rfl, Set.subset_union_left, there, fun _ => rfl⟩

/-! ## All flows -/

/-- Every flow's list holds separate pieces of its stream that a pass has yet to look at. -/
structure Listed (streams : FlowId → ℕ → UInt8) (limit : ℕ) (b : Buffers) : Prop where
  ok : ∀ flow, BlocksOk (streams flow) limit (b.blocksOf flow)
  unread : ∀ flow, Unread (b.blocksOf flow)

variable {streams : FlowId → ℕ → UInt8}

/-- The lists alone matter. -/
theorem Listed.same (listed : Listed streams limit b) (same : b'.pFlowList = b.pFlowList) : Listed streams limit b' := by
  have blocks : ∀ flow, b'.blocksOf flow = b.blocksOf flow := fun flow => by
    rw [blocks_of_eq, blocks_of_eq, same]
  exact ⟨fun flow => blocks flow ▸ listed.ok flow, fun flow => blocks flow ▸ listed.unread flow⟩

/-- A piece of its stream settles in its flow's list, and the other lists stay as they are. -/
theorem insert_settles (listed : Listed streams limit b) (small : limit < 2 ^ 32)
    (piece : Piece (streams flow) limit payload size seq)
    (free : Free (b.blocksOf flow) seq.toNat (seq.toNat + size) outside) (offset held : ℤ) :
    ∃ b' edit, (b.insert flow payload size seq offset held).result = some (b', edit) ∧
      b' = { b with pFlowList := b'.pFlowList } ∧ Listed streams limit b' ∧
      Took (streams flow) limit (b.blocksOf flow) seq.toNat (seq.toNat + size) outside (b'.blocksOf flow) ∧
      ∀ other, other ≠ flow → b'.blocksOf other = b.blocksOf other := by
  obtain ⟨after, edit, ran⟩ := insert_flow_total flow payload size seq b.pFlowList
  obtain ⟨own, others⟩ := insert_flow_blocks ran
  have took := insert_blocks_took (listed.ok flow) small piece free own
  have unread := insert_blocks_unread (listed.unread flow) own
  refine ⟨{ b with pFlowList := after }, edit, ?_, rfl, ⟨fun other => ?_, fun other => ?_⟩, took, others⟩
  · rw [Buffers.insert, result_bind, result_note, Option.bind_some, result_bind, result_lift, ran]
    rfl
  · by_cases same : other = flow
    · exact same ▸ took.ok
    · rw [blocks_of_eq, others other same]
      exact listed.ok other
  · by_cases same : other = flow
    · exact same ▸ unread
    · rw [blocks_of_eq, others other same]
      exact listed.unread other

end Ditto.SettledBytes
