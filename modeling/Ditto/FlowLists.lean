import Ditto.ChunkHeadings
import Ditto.InsertWalk

/-! The list of a flow among the lists of all flows, and how many bytes it has.
An insertion works on the list of its flow alone and adds no more than its size;
the block that was at some index is where the edit moved it to, with nothing taken
from it. -/
namespace Ditto.FlowLists
open Sniffer Buffers Words Traces Traced ChunkHeadings InsertWalk

/-- The blocks that lists of flows have for one flow. -/
def blocksIn (flows : List (FlowId × List ContiguousBlock)) (flow : FlowId) : List ContiguousBlock :=
  match flows.find? (·.1 = flow) with
  | some entry => entry.2
  | none => []

/-- The bytes in the blocks of a flow. -/
def volume (blocks : List ContiguousBlock) : ℕ := (blocks.map (·.contiguousBlock.length)).sum

variable {flows after : List (FlowId × List ContiguousBlock)} {blocks left : List ContiguousBlock}
  {flow other : FlowId} {payload : Pointer} {size : ℤ} {seq : TcpSeq} {edit : Edit} {b b' : Buffers}

theorem blocks_of_eq (b : Buffers) (flow : FlowId) : b.blocksOf flow = blocksIn b.pFlowList flow := rfl

theorem blocks_in_cons (entry : FlowId × List ContiguousBlock) (rest : List (FlowId × List ContiguousBlock))
    (flow : FlowId) : blocksIn (entry :: rest) flow = if entry.1 = flow then entry.2 else blocksIn rest flow := by
  by_cases same : entry.1 = flow <;> simp [blocksIn, same]

/-- An insertion works on the list of its flow alone. -/
theorem insert_flow_blocks (ran : insertFlow flow payload size seq flows = some (after, edit)) :
    insertBlocks payload size seq (blocksIn flows flow) = some (blocksIn after flow, edit) ∧
      ∀ other, other ≠ flow → blocksIn after other = blocksIn flows other := by
  induction flows generalizing after edit with
  | nil =>
    obtain ⟨made, filled, ran⟩ := Option.bind_eq_some_iff.mp ran
    cases ran
    refine ⟨by simp [blocksIn, insertBlocks, filled], fun other different => ?_⟩
    simp [blocksIn, Ne.symm different]
  | cons entry rest ih =>
    obtain ⟨name, blocks⟩ := entry
    rw [insertFlow] at ran
    by_cases same : name = flow
    · subst same
      rw [if_pos rfl] at ran
      obtain ⟨⟨left, inner⟩, walked, ran⟩ := Option.bind_eq_some_iff.mp ran
      cases ran
      refine ⟨by simpa [blocks_in_cons] using walked, fun other different => ?_⟩
      simp [blocks_in_cons, Ne.symm different]
    · rw [if_neg same] at ran
      obtain ⟨⟨left, inner⟩, walked, ran⟩ := Option.bind_eq_some_iff.mp ran
      cases ran
      obtain ⟨own, others⟩ := ih walked
      refine ⟨by simpa [blocks_in_cons, same] using own, fun other different => ?_⟩
      simp [blocks_in_cons, others other different]

/-- Erasing a block works on the list of its flow alone. -/
theorem erase_block_blocks (index : ℕ) :
    blocksIn (eraseBlock flow index flows) flow = (blocksIn flows flow).eraseIdx index ∧
      ∀ other, other ≠ flow → blocksIn (eraseBlock flow index flows) other = blocksIn flows other := by
  induction flows with
  | nil => simp [eraseBlock, blocksIn]
  | cons entry rest ih =>
    rw [eraseBlock]
    split
    · rename_i same
      refine ⟨by simp [blocks_in_cons, same], fun other different => ?_⟩
      simp [blocks_in_cons, same, Ne.symm different]
    · rename_i same
      refine ⟨by simpa [blocks_in_cons, same] using ih.1, fun other different => ?_⟩
      simp [blocks_in_cons, ih.2 other different]

/-! ## Bytes -/

@[simp] theorem volume_nil : volume [] = 0 := rfl

@[simp] theorem volume_cons (block : ContiguousBlock) (rest : List ContiguousBlock) :
    volume (block :: rest) = block.contiguousBlock.length + volume rest := by
  simp [volume]

theorem length_le_volume {li : ContiguousBlock} (member : li ∈ blocks) :
    li.contiguousBlock.length ≤ volume blocks := by
  induction blocks with
  | nil => cases member
  | cons head rest ih =>
    rw [volume_cons]
    rcases List.mem_cons.mp member with rfl | later
    · exact Nat.le_add_right ..
    · exact Nat.le_add_left_of_le (ih later)

theorem volume_eraseIdx {li : ContiguousBlock} {index : ℕ} (found : blocks[index]? = some li) :
    volume (blocks.eraseIdx index) + li.contiguousBlock.length = volume blocks := by
  induction blocks generalizing index with
  | nil => cases found
  | cons head rest ih =>
    cases index with
    | zero =>
      obtain rfl := Option.some_inj.mp found
      simp [Nat.add_comm]
    | succ index =>
      rw [List.eraseIdx_cons_succ, volume_cons, volume_cons, Nat.add_assoc, ih found]

/-- The string of a block that took `count` more bytes. -/
theorem append_length {li made : ContiguousBlock} {count : ℕ}
    (ran : li.append payload count seq = some made) :
    made.contiguousBlock.length = li.contiguousBlock.length + count := by
  rw [ContiguousBlock.append] at ran
  obtain ⟨held, filled, ran⟩ := Option.bind_eq_some_iff.mp ran
  cases ran
  simp only [appendChars, Int.natCast_nonneg, if_true, Int.toNat_natCast, Option.some.injEq] at filled
  subst held
  split <;> simp

theorem prepend_length {li made : ContiguousBlock} {count : ℕ}
    (ran : li.prepend payload count seq = some made) :
    made.contiguousBlock.length = li.contiguousBlock.length + count := by
  rw [ContiguousBlock.prepend_eq] at ran
  cases ran
  simp [Nat.add_comm]

@[simp] theorem moved_shift_zero (edit : Edit) : edit.shift.moved 0 = some 0 := by
  cases edit <;> simp [Edit.shift, Edit.moved]

@[simp] theorem moved_shift_succ (edit : Edit) (index : ℕ) :
    edit.shift.moved (index + 1) = (edit.moved index).map (· + 1) := by
  cases edit with
  | kept => rfl
  | inserted at' =>
    simp only [Edit.shift, Edit.moved, Option.map_some]
    congr 1
    split <;> split <;> omega
  | erased at' =>
    simp only [Edit.shift, Edit.moved]
    by_cases same : at' = index
    · simp [same]
    · rw [if_neg (by omega), if_neg same, Option.map_some]
      congr 1
      split <;> split <;> omega

/-- What one walk adds to the blocks: at most its bytes, no empty block, and nothing is
taken from the block that was at an index. -/
structure Grown (count : ℕ) (blocks after : List ContiguousBlock) (edit : Edit) : Prop where
  volume_le : volume after ≤ volume blocks + count
  nonempty : (∀ li ∈ blocks, 0 < li.contiguousBlock.length) → ∀ li ∈ after, 0 < li.contiguousBlock.length
  moved : ∀ i li k, blocks[i]? = some li → edit.moved i = some k →
    ∃ li', after[k]? = some li' ∧ li.contiguousBlock.length ≤ li'.contiguousBlock.length

/-- A block before the rest of the list that grew. -/
theorem Grown.cons {count : ℕ} (grown : Grown count blocks left edit) (li : ContiguousBlock) :
    Grown count (li :: blocks) (li :: left) edit.shift := by
  refine ⟨?_, fun each => ?_, fun i block k found moved => ?_⟩
  · have := grown.volume_le
    simp only [volume_cons]
    omega
  · obtain ⟨head, tail⟩ := List.forall_mem_cons.mp each
    exact List.forall_mem_cons.mpr ⟨head, grown.nonempty tail⟩
  · cases i with
    | zero =>
      rw [moved_shift_zero] at moved
      cases moved
      cases found
      exact ⟨li, rfl, Nat.le_refl _⟩
    | succ i =>
      rw [moved_shift_succ] at moved
      obtain ⟨place, went, rfl⟩ := Option.map_eq_some_iff.mp moved
      exact grown.moved i block place found went

/-- The first block took the bytes. -/
theorem grown_front {count : ℕ} {li made : ContiguousBlock} (positive : 0 < count)
    (took : made.contiguousBlock.length = li.contiguousBlock.length + count) :
    Grown count (li :: blocks) (made :: blocks) .kept := by
  refine ⟨?_, fun each => ?_, fun i block k found moved => ?_⟩
  · simp only [volume_cons]
    omega
  · exact List.forall_mem_cons.mpr ⟨by omega, (List.forall_mem_cons.mp each).2⟩
  · cases moved
    cases i with
    | zero =>
      cases found
      exact ⟨made, rfl, by omega⟩
    | succ i => exact ⟨block, found, Nat.le_refl _⟩

/-- A new block stands in front. -/
theorem grown_new {count : ℕ} {made : ContiguousBlock} (positive : 0 < count)
    (took : made.contiguousBlock.length = count) :
    Grown count blocks (made :: blocks) (.inserted 0) := by
  refine ⟨?_, fun each => ?_, fun i block k found moved => ?_⟩
  · simp only [volume_cons]
    omega
  · exact List.forall_mem_cons.mpr ⟨by omega, each⟩
  · simp only [Edit.moved, Nat.zero_le, if_true, Option.some.injEq] at moved
    subst moved
    exact ⟨block, found, Nat.le_refl _⟩

/-- The next block becomes part of the first, which took the bytes. -/
theorem grown_bridging {count : ℕ} {li li2 made : ContiguousBlock} (positive : 0 < count)
    (took : made.contiguousBlock.length = li.contiguousBlock.length + count) (start : TcpSeq) :
    Grown count (li :: li2 :: blocks) (made.appendString li2.contiguousBlock start :: blocks) (.erased 1) := by
  refine ⟨?_, fun each => ?_, fun i block k found moved => ?_⟩
  · simp [ContiguousBlock.appendString, took]
    omega
  · have tail := (List.forall_mem_cons.mp (List.forall_mem_cons.mp each).2).2
    refine List.forall_mem_cons.mpr ⟨?_, tail⟩
    simp [ContiguousBlock.appendString, took]
    omega
  · match i with
    | 0 =>
      cases moved
      cases found
      exact ⟨_, rfl, by simp [ContiguousBlock.appendString, took]; omega⟩
    | 1 => cases moved
    | i + 2 =>
      cases moved
      exact ⟨block, found, Nat.le_refl _⟩

theorem insert_blocks_grown {count : ℕ} (positive : 0 < count)
    (ran : insertBlocks payload count seq blocks = some (left, edit)) :
    Grown count blocks left edit := by
  replace ran := walk_of_insert ran
  induction ran with
  | atEnd filled => exact grown_new positive (by simpa [ContiguousBlock.create] using append_length filled)
  | before early touches filled => exact grown_front positive (prepend_length filled)
  | between early ahead filled => exact grown_new positive (by simpa [ContiguousBlock.create] using append_length filled)
  | dropped early overlaps =>
    refine ⟨Nat.le_add_right .., id, fun i block k found moved => ?_⟩
    cases moved
    exact ⟨block, found, Nat.le_refl _⟩
  | after joins filled apart => exact grown_front positive (append_length filled)
  | bridging joins filled meets => exact grown_bridging positive (append_length filled) _
  | past passed inner ih => exact ih.cons _

end Ditto.FlowLists
