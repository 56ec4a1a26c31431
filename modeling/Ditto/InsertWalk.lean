import Ditto.SniffTcp

/-! The walk of `insert` along a flow's list as a relation, with a constructor for each way
the code can take at a block. What an insertion keeps is then shown way by way. -/
namespace Ditto.InsertWalk
open Sniffer Buffers

variable {payload : Pointer} {size : ℤ} {seq : TcpSeq}

/-- The segment is handed to the list `blocks`, which becomes `left`. -/
inductive Walk (payload : Pointer) (size : ℤ) (seq : TcpSeq) :
    List ContiguousBlock → List ContiguousBlock → Edit → Prop
  | atEnd {made : ContiguousBlock} (filled : ContiguousBlock.create.append payload size seq = some made) :
      Walk payload size seq [] [made] (.inserted 0)
  | before {li made : ContiguousBlock} {rest : List ContiguousBlock} (early : seq < li.nextExpectedSeqNumber)
      (touches : seq + UInt32.ofInt size = li.startingSeqNumber)
      (filled : li.prepend payload size seq = some made) : Walk payload size seq (li :: rest) (made :: rest) .kept
  | between {li made : ContiguousBlock} {rest : List ContiguousBlock} (early : seq < li.nextExpectedSeqNumber)
      (ahead : seq + UInt32.ofInt size < li.startingSeqNumber)
      (filled : ContiguousBlock.create.append payload size seq = some made) :
      Walk payload size seq (li :: rest) (made :: li :: rest) (.inserted 0)
  | dropped {li : ContiguousBlock} {rest : List ContiguousBlock} (early : seq < li.nextExpectedSeqNumber)
      (overlaps : li.startingSeqNumber < seq + UInt32.ofInt size) : Walk payload size seq (li :: rest) (li :: rest) .kept
  | after {li made : ContiguousBlock} {rest : List ContiguousBlock} (joins : seq = li.nextExpectedSeqNumber)
      (filled : li.append payload size (seq + UInt32.ofInt size) = some made)
      (apart : ∀ li2 ∈ rest.head?, made.nextExpectedSeqNumber ≠ li2.startingSeqNumber) :
      Walk payload size seq (li :: rest) (made :: rest) .kept
  | bridging {li li2 made : ContiguousBlock} {rest : List ContiguousBlock} (joins : seq = li.nextExpectedSeqNumber)
      (filled : li.append payload size (seq + UInt32.ofInt size) = some made)
      (meets : made.nextExpectedSeqNumber = li2.startingSeqNumber) :
      Walk payload size seq (li :: li2 :: rest)
        (made.appendString li2.contiguousBlock li2.nextExpectedSeqNumber :: rest) (.erased 1)
  | past {li : ContiguousBlock} {rest left : List ContiguousBlock} {edit : Edit}
      (passed : li.nextExpectedSeqNumber < seq) (inner : Walk payload size seq rest left edit) :
      Walk payload size seq (li :: rest) (li :: left) edit.shift

/-- **The code walks** one of these ways. -/
theorem walk_of_insert {blocks left : List ContiguousBlock} {edit : Edit}
    (ran : insertBlocks payload size seq blocks = some (left, edit)) : Walk payload size seq blocks left edit := by
  induction blocks generalizing left edit with
  | nil =>
    rw [insertBlocks] at ran
    obtain ⟨made, filled, ran⟩ := Option.bind_eq_some_iff.mp ran
    cases ran
    exact .atEnd filled
  | cons li rest ih =>
    rw [insertBlocks] at ran
    by_cases early : seq < li.nextExpectedSeqNumber
    · rw [if_pos early] at ran
      by_cases touches : seq + UInt32.ofInt size = li.startingSeqNumber
      · rw [if_pos touches] at ran
        obtain ⟨made, filled, ran⟩ := Option.bind_eq_some_iff.mp ran
        cases ran
        exact .before early touches filled
      · rw [if_neg touches] at ran
        by_cases ahead : seq + UInt32.ofInt size < li.startingSeqNumber
        · rw [if_pos ahead] at ran
          obtain ⟨made, filled, ran⟩ := Option.bind_eq_some_iff.mp ran
          cases ran
          exact .between early ahead filled
        · rw [if_neg ahead] at ran
          cases ran
          exact .dropped early (UInt32.lt_of_le_of_ne (UInt32.not_lt.mp ahead) (Ne.symm touches))
    · rw [if_neg early] at ran
      by_cases joins : seq = li.nextExpectedSeqNumber
      · rw [if_pos joins] at ran
        obtain ⟨made, filled, ran⟩ := Option.bind_eq_some_iff.mp ran
        cases rest with
        | nil =>
          cases ran
          exact .after joins filled nofun
        | cons li2 rest =>
          simp only at ran
          by_cases meets : made.nextExpectedSeqNumber = li2.startingSeqNumber
          · rw [if_pos meets] at ran
            cases ran
            exact .bridging joins filled meets
          · rw [if_neg meets] at ran
            cases ran
            refine .after joins filled fun other isNext => ?_
            cases isNext
            exact meets
      · rw [if_neg joins] at ran
        obtain ⟨⟨after, inner⟩, walked, ran⟩ := Option.bind_eq_some_iff.mp ran
        cases ran
        exact .past (UInt32.lt_of_le_of_ne (UInt32.not_lt.mp early) (Ne.symm joins)) (ih walked)

/-- Each way is one that the code takes. -/
theorem insert_of_walk {blocks left : List ContiguousBlock} {edit : Edit}
    (walk : Walk payload size seq blocks left edit) : insertBlocks payload size seq blocks = some (left, edit) := by
  induction walk with
  | atEnd filled => rw [insertBlocks, filled]; rfl
  | before early touches filled => rw [insertBlocks, if_pos early, if_pos touches, filled]; rfl
  | between early ahead filled =>
    rw [insertBlocks, if_pos early, if_neg (UInt32.ne_of_lt ahead), if_pos ahead, filled]
    rfl
  | dropped early overlaps =>
    rw [insertBlocks, if_pos early, if_neg (UInt32.ne_of_lt overlaps).symm, if_neg (UInt32.lt_asymm overlaps)]
  | @after li made rest joins filled apart =>
    rw [insertBlocks, if_neg (joins ▸ UInt32.lt_irrefl _), if_pos joins, filled]
    cases rest with
    | nil => rfl
    | cons li2 rest =>
      simp only [Option.bind_eq_bind, Option.bind_some]
      rw [if_neg (apart li2 rfl)]
  | bridging joins filled meets =>
    rw [insertBlocks, if_neg (joins ▸ UInt32.lt_irrefl _), if_pos joins, filled]
    simp only [Option.bind_eq_bind, Option.bind_some]
    rw [if_pos meets]
  | past passed inner ih =>
    rw [insertBlocks, if_neg (UInt32.lt_asymm passed), if_neg (UInt32.ne_of_lt passed).symm, ih]
    rfl

end Ditto.InsertWalk
