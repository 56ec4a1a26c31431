import Mathlib.Order.CompletePartialOrder
import Mathlib.Order.Interval.Set.Disjoint
import Ditto.ChunkReassembly
import Ditto.FlowLists
import Ditto.FlowStore

/-! Insertion of new bytes. A piece that no stored block has a byte of always finds
its place: the list stays separated, covers the piece as well, and pieces that
meet are joined. -/
namespace Ditto.FlowInsertion
open Sniffer Buffers ContiguousBlock ChunkReassembly Spans Windows Words FlowLists InsertWalk
open FlowStore (Inserts insert_blocks_keeps)

/-- A captured piece of a flow's stream. -/
structure Piece (source : ℕ → UInt8) (limit : ℕ) (payload : Pointer) (size : ℕ) (seq : TcpSeq) : Prop where
  positive : 0 < size
  inside : seq.toNat + size ≤ limit
  agree : payload.bytes size = window source seq.toNat (seq.toNat + size)

/-- Blocks that a pass still has to look at. -/
def Unread (blocks : List ContiguousBlock) : Prop := ∀ li ∈ blocks, li.bModified = true

variable {source : ℕ → UInt8} {limit size : ℕ} {blocks rest left : List ContiguousBlock} {li : ContiguousBlock}
  {payload : Pointer} {seq : TcpSeq} {edit : Edit}

/-- Insertion never fails for a size that is not negative. -/
theorem insert_blocks_total (payload : Pointer) (size : ℕ) (seq : TcpSeq) (blocks : List ContiguousBlock) :
    ∃ left edit, insertBlocks payload size seq blocks = some (left, edit) := by
  have append_total : ∀ (li : ContiguousBlock) (start : TcpSeq), ∃ made,
      li.append payload size start = some made := fun li start => by
    simp [ContiguousBlock.append, appendChars]
  induction blocks with
  | nil =>
    obtain ⟨made, filled⟩ := append_total .create seq
    exact ⟨_, _, by rw [insertBlocks, filled]; rfl⟩
  | cons li rest ih =>
    rw [insertBlocks]
    obtain ⟨made, filled⟩ := append_total .create seq
    obtain ⟨longer, grown⟩ := append_total li (seq + UInt32.ofInt size)
    obtain ⟨left, edit, walked⟩ := ih
    simp only [prepend_eq, filled, grown, walked, Option.bind_eq_bind, Option.bind_some]
    split
    · split
      · exact ⟨_, _, rfl⟩
      · split <;> exact ⟨_, _, rfl⟩
    · split
      · cases rest with
        | nil => exact ⟨_, _, rfl⟩
        | cons li2 rest =>
          simp only
          split <;> exact ⟨_, _, rfl⟩
      · exact ⟨_, _, rfl⟩

theorem append_modified {size : ℤ} {start : TcpSeq} {made : ContiguousBlock}
    (ran : li.append payload size start = some made) : made.bModified = true := by
  rw [ContiguousBlock.append] at ran
  obtain ⟨held, _, ran⟩ := Option.bind_eq_some_iff.mp ran
  cases ran
  rfl

theorem prepend_modified {size : ℤ} {start : TcpSeq} {made : ContiguousBlock}
    (ran : li.prepend payload size start = some made) : made.bModified = true := by
  rw [ContiguousBlock.prepend] at ran
  obtain ⟨held, _, ran⟩ := Option.bind_eq_some_iff.mp ran
  cases ran
  rfl

/-- What an insertion changes is unread again. -/
theorem insert_blocks_unread {size : ℤ} (unread : Unread blocks)
    (ran : insertBlocks payload size seq blocks = some (left, edit)) : Unread left := by
  have inserts : Inserts payload size seq (fun li => li.bModified = true) :=
    ⟨fun _ => append_modified, fun _ _ _ _ => prepend_modified, fun _ _ _ _ => append_modified, fun _ _ _ _ _ => rfl⟩
  exact insert_blocks_keeps inserts unread ran

/-- A list as it is after a piece was added. -/
structure Added (source : ℕ → UInt8) (limit : ℕ) (blocks : List ContiguousBlock) (first last : ℕ)
    (left : List ContiguousBlock) : Prop where
  ok : BlocksOk source limit left
  covers : covered left = covered blocks ∪ Set.Ico first last

/-- A piece that a later block of the list gets. -/
theorem added_past {first last : ℕ} (head : BlockOk source limit li) (apart : ∀ b ∈ rest, nextOf li < startOf b)
    (passed : nextOf li < first) (added : Added source limit rest first last left) :
    Added source limit (li :: rest) first last (li :: left) where
  ok := blocks_ok_cons.mpr ⟨head, added.ok, starts_beyond added.ok.proper added.covers.subset apart passed⟩
  covers := by
    rw [covered_cons, covered_cons, added.covers, Set.union_assoc]

/-- A piece in front of a block that starts at its end or later. -/
theorem added_between {first last : ℕ} {made : ContiguousBlock} (ok : BlocksOk source limit (li :: rest))
    (new : BlockOk source limit made) (start : startOf made = first) (next : nextOf made = last)
    (gap : last < startOf li) : Added source limit (li :: rest) first last (made :: li :: rest) := by
  refine ⟨blocks_ok_cons.mpr ⟨new, ok, fun b member => ?_⟩, ?_⟩
  · have := head_start_le ok.proper ok.separated member
    omega
  · rw [covered_cons, start, next, Set.union_comm]

/-- A block that took a piece at its end. -/
theorem append_ok {made : ContiguousBlock} (ok : BlockOk source limit li) (joins : seq = li.nextExpectedSeqNumber)
    (positive : 0 < size) (inside : seq.toNat + size ≤ limit)
    (agree : payload.bytes size = window source seq.toNat (seq.toNat + size)) (small : limit < 2 ^ 32)
    (ran : li.append payload size (seq + UInt32.ofInt size) = some made) :
    BlockOk source limit made ∧ startOf made = startOf li ∧ nextOf made = seq.toNat + size := by
  have proper := ok.proper
  have starts : seq.toNat = nextOf li := congrArg UInt32.toNat joins
  obtain ⟨_, filled, holds, first, ends⟩ :=
    append_holds ok.holds joins.symm (by omega) agree (seq + UInt32.ofInt size)
  obtain rfl := Option.some_inj.mp (ran.symm.trans filled)
  have first : startOf made = startOf li := congrArg UInt32.toNat first
  have ends : nextOf made = seq.toNat + size := ends
  exact ⟨⟨holds, by omega, by omega⟩, first, ends⟩

/-- A piece in front of blocks that have none of its bytes ends before them, if it does not end
at the start of the first. -/
theorem clear_after {first last : ℕ} (ok : BlocksOk source limit blocks)
    (fresh : Disjoint (Set.Ico first last) (covered blocks))
    (before : ∀ b ∈ blocks, first < startOf b) (different : ∀ li ∈ blocks.head?, last ≠ startOf li) :
    ∀ b ∈ blocks, last < startOf b := by
  cases blocks with
  | nil => exact nofun
  | cons li rest =>
    have proper := (blocks_ok_cons.mp ok).1.proper
    rw [covered_cons, Set.disjoint_union_right] at fresh
    have away := Set.Ico_disjoint_Ico.mp fresh.1
    have next := before li (List.mem_cons_self ..)
    have apart := different li rfl
    intro b member
    have := head_start_le ok.proper ok.separated member
    omega

/-- **A new piece finds its place.** The ways of the walk are those of a piece that ends before
the block or at its start, starts at its end, or comes later; none drops it. -/
theorem insert_blocks_spec (ok : BlocksOk source limit blocks) (small : limit < 2 ^ 32)
    (piece : Piece source limit payload size seq)
    (fresh : Disjoint (Set.Ico seq.toNat (seq.toNat + size)) (covered blocks))
    (ran : insertBlocks payload size seq blocks = some (left, edit)) :
    Added source limit blocks seq.toNat (seq.toNat + size) left := by
  obtain ⟨positive, inside, agree⟩ := piece
  have last := toNat_add_ofInt seq size (by omega)
  obtain ⟨new, created, holds, first, ends⟩ := create_append_holds (by omega) agree
  have first : startOf new = seq.toNat := congrArg UInt32.toNat first
  have ends : nextOf new = seq.toNat + size := ends
  have newOk : BlockOk source limit new := ⟨holds, by omega, by omega⟩
  replace ran := walk_of_insert ran
  induction ran with
  | atEnd filled =>
    cases created.symm.trans filled
    exact ⟨blocks_ok_cons.mpr ⟨newOk, blocks_ok_nil, by simp⟩, by simp [first, ends]⟩
  | @before li made rest early touches filled =>
    obtain ⟨head, tail, apart⟩ := blocks_ok_cons.mp ok
    have proper := head.proper
    have bounded := head.bounded
    have joins : seq.toNat + size = startOf li := last ▸ congrArg UInt32.toNat touches
    obtain ⟨_, filled', holds, first, ends⟩ := prepend_holds head.holds joins agree
    obtain rfl := Option.some_inj.mp (filled.symm.trans filled')
    have first : startOf made = seq.toNat := congrArg UInt32.toNat first
    have ends : nextOf made = nextOf li := congrArg UInt32.toNat ends
    exact ⟨blocks_ok_cons.mpr ⟨⟨holds, by omega, by omega⟩, tail, ends ▸ apart⟩, covered_replace fun x => by omega⟩
  | between early ahead filled =>
    cases created.symm.trans filled
    exact added_between ok newOk first ends (last ▸ UInt32.lt_iff_toNat_lt.mp ahead)
  | dropped early overlaps =>
    -- the byte at the larger of the two starts would be in both
    have proper := (blocks_ok_cons.mp ok).1.proper
    rw [covered_cons, Set.disjoint_union_right] at fresh
    have away := Set.Ico_disjoint_Ico.mp fresh.1
    have early : seq.toNat < nextOf _ := UInt32.lt_iff_toNat_lt.mp early
    have overlaps : startOf _ < seq.toNat + size := last ▸ UInt32.lt_iff_toNat_lt.mp overlaps
    omega
  | @after li made rest contiguous filled different =>
    obtain ⟨head, tail, apart⟩ := blocks_ok_cons.mp ok
    rw [covered_cons, Set.disjoint_union_right] at fresh
    have joins : seq.toNat = nextOf li := congrArg UInt32.toNat contiguous
    obtain ⟨grown, first, ends⟩ := append_ok head contiguous positive inside agree small filled
    have proper := head.proper
    refine ⟨blocks_ok_cons.mpr ⟨grown, tail, ?_⟩, covered_replace fun x => by omega⟩
    rw [ends]
    refine clear_after tail fresh.2 (fun b member => joins ▸ apart b member) fun li2 isNext same => ?_
    exact different li2 isNext (UInt32.toNat_inj.mp (ends.trans same))
  | @bridging li li2 made rest contiguous filled meets =>
    -- what was grown to its end becomes one block with the next
    obtain ⟨head, tail, apart⟩ := blocks_ok_cons.mp ok
    obtain ⟨second, tail', apart'⟩ := blocks_ok_cons.mp tail
    have joins : seq.toNat = nextOf li := congrArg UInt32.toNat contiguous
    obtain ⟨grown, first, ends⟩ := append_ok head contiguous positive inside agree small filled
    have meets' : nextOf made = startOf li2 := congrArg UInt32.toNat meets
    have merged := append_string_holds grown.holds second.holds meets
    have proper := head.proper
    have proper' := second.proper
    refine ⟨blocks_ok_cons.mpr ⟨⟨merged, ?_, second.bounded⟩, tail', apart'⟩, ?_⟩
    · show startOf made < nextOf li2
      omega
    · ext x
      simp only [coverage_cons, Set.mem_union, Set.mem_Ico]
      show (startOf made ≤ x ∧ x < nextOf li2) ∨ _ ↔ _
      rw [← or_assoc, or_right_comm]
      refine or_congr_left ?_
      omega
  | past passed inner ih =>
    obtain ⟨head, tail, apart⟩ := blocks_ok_cons.mp ok
    rw [covered_cons, Set.disjoint_union_right] at fresh
    exact added_past head apart (UInt32.lt_iff_toNat_lt.mp passed) (ih tail fresh.2)

/-! ## All flows -/

theorem insert_flow_total (flow : FlowId) (payload : Pointer) (size : ℕ) (seq : TcpSeq)
    (flows : List (FlowId × List ContiguousBlock)) :
    ∃ after edit, insertFlow flow payload size seq flows = some (after, edit) := by
  induction flows with
  | nil =>
    rw [insertFlow, create_append]
    exact ⟨_, _, rfl⟩
  | cons entry rest ih =>
    obtain ⟨other, blocks⟩ := entry
    rw [insertFlow]
    split
    · obtain ⟨left, edit, walked⟩ := insert_blocks_total payload size seq blocks
      exact ⟨_, _, by rw [walked]; rfl⟩
    · obtain ⟨after, edit, walked⟩ := ih
      exact ⟨_, _, by rw [walked]; rfl⟩

/-- An insertion lists its flow at the end if it is not listed yet. -/
theorem insert_flow_listed {flow : FlowId} {size : ℤ} {flows after : List (FlowId × List ContiguousBlock)}
    (ran : insertFlow flow payload size seq flows = some (after, edit)) :
    after.map Prod.fst = flows.map Prod.fst ∨
      flow ∉ flows.map Prod.fst ∧ after.map Prod.fst = flows.map Prod.fst ++ [flow] := by
  induction flows generalizing after edit with
  | nil =>
    rw [insertFlow] at ran
    obtain ⟨made, _, ran⟩ := Option.bind_eq_some_iff.mp ran
    cases ran
    simp
  | cons entry rest ih =>
    obtain ⟨other, blocks⟩ := entry
    rw [insertFlow] at ran
    by_cases same : other = flow
    · rw [if_pos same] at ran
      obtain ⟨⟨left, inner⟩, _, ran⟩ := Option.bind_eq_some_iff.mp ran
      cases ran
      exact Or.inl rfl
    · rw [if_neg same] at ran
      obtain ⟨⟨left, inner⟩, walked, ran⟩ := Option.bind_eq_some_iff.mp ran
      cases ran
      rcases ih walked with old | ⟨new, added⟩
      · exact Or.inl (by simp [old])
      · exact Or.inr ⟨by simp [new, Ne.symm same], by simp [added]⟩

/-- The flows listed before stay where they are, and none is listed twice. -/
theorem insert_flow_names {flow : FlowId} {size : ℤ} {flows after : List (FlowId × List ContiguousBlock)}
    (ran : insertFlow flow payload size seq flows = some (after, edit)) :
    flows.map Prod.fst <+: after.map Prod.fst ∧
      ((flows.map Prod.fst).Nodup → (after.map Prod.fst).Nodup) := by
  rcases insert_flow_listed ran with old | ⟨new, added⟩
  · exact ⟨old ▸ List.prefix_refl _, fun distinct => old ▸ distinct⟩
  · refine ⟨added ▸ List.prefix_append .., fun distinct => ?_⟩
    rw [added]
    refine List.nodup_append.mpr ⟨distinct, List.pairwise_singleton _ flow, fun name listed other member => ?_⟩
    rintro rfl
    exact new (List.mem_singleton.mp member ▸ listed)

end Ditto.FlowInsertion
