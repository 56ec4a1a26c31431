import Ditto.ReconstructedChunk
import Ditto.Spans

/-! Chunk reassembly keeps a separated list of true slices of the chunk. The
invariant is on the block list alone; one lemma says what the walk over the
blocks does to it for every overlap pattern. The walk loses bytes in exactly one
pattern, a payload that starts before the block it meets and also runs past its
end. -/
namespace Ditto.ChunkReassembly
open Sniffer ContiguousBlock ReconstructedChunk Spans Windows Words

/-- The offset a block starts at. -/
def startOf (block : ContiguousBlock) : ℕ := block.startingSeqNumber.toNat

/-- The offset just past a block. -/
def nextOf (block : ContiguousBlock) : ℕ := block.nextExpectedSeqNumber.toNat

/-- The offsets the blocks cover. -/
abbrev covered (lcb : List ContiguousBlock) : Set ℕ := coverage startOf nextOf lcb

/-- A block is nonempty, ends within the limit and holds the source's bytes. -/
structure BlockOk (source : ℕ → UInt8) (limit : ℕ) (block : ContiguousBlock) : Prop where
  holds : Holds source block
  proper : startOf block < nextOf block
  bounded : nextOf block ≤ limit

/-- The invariant of the block list. -/
structure BlocksOk (source : ℕ → UInt8) (limit : ℕ) (lcb : List ContiguousBlock) : Prop where
  each : ∀ block ∈ lcb, BlockOk source limit block
  separated : Separated startOf nextOf lcb

/-- The first block that a payload from `first` on does not start beyond starts
after `first` and ends before `last`. -/
def Swallows (lcb : List ContiguousBlock) (first last : ℕ) : Prop :=
  ∃ block, lcb.find? (fun b => first ≤ nextOf b) = some block ∧
    first < startOf block ∧ nextOf block < last

instance (lcb : List ContiguousBlock) (first last : ℕ) : Decidable (Swallows lcb first last) :=
  match found : lcb.find? (fun b => first ≤ nextOf b) with
  | none => isFalse (by rintro ⟨block, held, _⟩; simp [found] at held)
  | some block =>
    decidable_of_iff (first < startOf block ∧ nextOf block < last) (by simp [Swallows, found])

variable {source : ℕ → UInt8} {limit size : ℕ} {lcb rest : List ContiguousBlock}
  {li : ContiguousBlock} {payload : Pointer} {n : TcpSeq}

theorem covered_cons (li : ContiguousBlock) (rest : List ContiguousBlock) :
    covered (li :: rest) = Set.Ico (startOf li) (nextOf li) ∪ covered rest :=
  coverage_cons li rest

/-- A new front block that covers what the old one did and one more range adds
exactly that range. -/
theorem covered_replace {made : ContiguousBlock} {first last : ℕ}
    (exactly : ∀ x, startOf made ≤ x ∧ x < nextOf made ↔
      (startOf li ≤ x ∧ x < nextOf li) ∨ first ≤ x ∧ x < last) :
    covered (made :: rest) = covered (li :: rest) ∪ Set.Ico first last := by
  have front : Set.Ico (startOf made) (nextOf made) =
      Set.Ico (startOf li) (nextOf li) ∪ Set.Ico first last := Set.ext exactly
  rw [covered_cons, covered_cons, front, Set.union_right_comm]

theorem BlocksOk.proper (ok : BlocksOk source limit lcb) : Proper startOf nextOf lcb :=
  fun block member => (ok.each block member).proper

theorem blocks_ok_nil : BlocksOk source limit [] :=
  ⟨by simp, List.Pairwise.nil⟩

theorem blocks_ok_cons : BlocksOk source limit (li :: rest) ↔
    BlockOk source limit li ∧ BlocksOk source limit rest ∧ ∀ b ∈ rest, nextOf li < startOf b := by
  constructor
  · rintro ⟨each, separated⟩
    obtain ⟨after, tail⟩ := List.pairwise_cons.mp separated
    exact ⟨each li (List.mem_cons_self ..),
      ⟨fun b member => each b (List.mem_cons_of_mem _ member), tail⟩, after⟩
  · rintro ⟨head, ⟨each, separated⟩, after⟩
    refine ⟨?_, List.pairwise_cons.mpr ⟨after, separated⟩⟩
    intro b member
    rcases List.mem_cons.mp member with rfl | held
    · exact head
    · exact each b held

/-- The merging loop keeps the coverage: the blocks it drops lie inside `li`, and
the one it appends continues it. What remains is a suffix of the old list. -/
theorem merge_following_spec (head : BlockOk source limit li) (tail : BlocksOk source limit rest)
    (after : ∀ b ∈ rest, startOf li < startOf b) (dups : UInt64) :
    ∃ li' rest' dups', mergeFollowing li rest dups = some (li', rest', dups') ∧
      BlocksOk source limit (li' :: rest') ∧ startOf li' = startOf li ∧
      covered (li' :: rest') = covered (li :: rest) := by
  induction rest generalizing dups with
  | nil =>
    exact ⟨li, [], dups, rfl, blocks_ok_cons.mpr ⟨head, tail, by simp⟩, rfl, rfl⟩
  | cons li2 rest ih =>
    obtain ⟨second, others, apart⟩ := blocks_ok_cons.mp tail
    have starts := after li2 (List.mem_cons_self ..)
    by_cases reached : li2.startingSeqNumber ≤ li.nextExpectedSeqNumber
    · have touch : startOf li2 ≤ nextOf li := UInt32.le_iff_toNat_le.mp reached
      by_cases longer : li.nextExpectedSeqNumber < li2.nextExpectedSeqNumber
      · have beyond : nextOf li < nextOf li2 := UInt32.lt_iff_toNat_lt.mp longer
        obtain ⟨merged, ran, holds, first, last⟩ :=
          overlapping_append_holds head.holds second.holds.content touch beyond.le
        have first : startOf merged = startOf li := congrArg UInt32.toNat first
        have last : nextOf merged = nextOf li2 := congrArg UInt32.toNat last
        have proper := head.proper
        refine ⟨merged, rest, _, by rw [mergeFollowing, if_pos reached, if_pos longer, ran]; rfl,
          blocks_ok_cons.mpr ⟨⟨holds, by omega, last ▸ second.bounded⟩, others, last ▸ apart⟩,
          first, ?_⟩
        ext x
        simp only [coverage_cons, Set.mem_union, Set.mem_Ico, first, last, ← or_assoc]
        refine or_congr_left ?_
        omega
      · have inside : nextOf li2 ≤ nextOf li :=
          Nat.le_of_not_lt fun l => longer (UInt32.lt_iff_toNat_lt.mpr l)
        obtain ⟨li', rest', dups', ran, ok, first, same⟩ := ih others
          (fun b member => after b (List.mem_cons_of_mem _ member))
          (dups + li2.nextExpectedSeqNumber.toUInt64 - li2.startingSeqNumber.toUInt64)
        refine ⟨li', rest', dups', by rw [mergeFollowing, if_pos reached, if_neg longer, ran], ok,
          first, ?_⟩
        rw [same]
        ext x
        simp only [coverage_cons, Set.mem_union, Set.mem_Ico, ← or_assoc]
        refine or_congr_left ?_
        omega
    · have gap : nextOf li < startOf li2 :=
        Nat.lt_of_not_le fun l => reached (UInt32.le_iff_toNat_le.mpr l)
      refine ⟨li, li2 :: rest, dups, by rw [mergeFollowing, if_neg reached],
        blocks_ok_cons.mpr ⟨head, tail, ?_⟩, rfl, rfl⟩
      intro b member
      exact gap.trans_le (head_start_le tail.proper tail.separated member)

/-- What one walk over the blocks does. The range asked for is added to the
coverage, whole unless the payload swallows a block; a duplicate changes
nothing. -/
structure Filled (source : ℕ → UInt8) (limit : ℕ) (lcb : List ContiguousBlock) (first last : ℕ)
    (after : List ContiguousBlock) (bDuplicate : Bool) : Prop where
  ok : BlocksOk source limit after
  nonempty : after ≠ []
  kept : covered lcb ⊆ covered after
  added : covered after ⊆ covered lcb ∪ Set.Ico first last
  whole : ¬ Swallows lcb first last → Set.Ico first last ⊆ covered after
  lost : Swallows lcb first last → ¬ Set.Ico first last ⊆ covered after
  duplicate : bDuplicate = true → after = lcb

theorem swallows_head (met : first ≤ nextOf li) :
    Swallows (li :: rest) first last ↔ first < startOf li ∧ nextOf li < last := by
  simp [Swallows, met]

theorem swallows_tail (passed : nextOf li < first) :
    Swallows (li :: rest) first last ↔ Swallows rest first last := by
  simp [Swallows, not_le.mpr passed]

/-- A walk that meets the payload's block and adds its whole range. -/
theorem filled_whole {after : List ContiguousBlock} {bDuplicate : Bool} {first last : ℕ}
    (ok : BlocksOk source limit after) (nonempty : after ≠ []) (met : first ≤ nextOf li)
    (clear : ¬ (first < startOf li ∧ nextOf li < last))
    (shape : covered after = covered (li :: rest) ∪ Set.Ico first last)
    (duplicate : bDuplicate = true → after = li :: rest) :
    Filled source limit (li :: rest) first last after bDuplicate where
  ok := ok
  nonempty := nonempty
  kept := shape ▸ Set.subset_union_left
  added := shape.subset
  whole := fun _ => shape ▸ Set.subset_union_right
  lost := fun swallowed => absurd ((swallows_head met).mp swallowed) clear
  duplicate := duplicate

/-- A walk that swallows the payload's block keeps only the part up to its end:
the offset just past the block stays uncovered. -/
theorem filled_swallowed {after : List ContiguousBlock} {first last : ℕ}
    (ok : BlocksOk source limit (li :: after)) (met : first ≤ nextOf li)
    {old : ContiguousBlock} (past : nextOf li < last) (same : nextOf old = nextOf li)
    (early : first < startOf old)
    (shape : covered (li :: after) = covered (old :: rest) ∪ Set.Ico first (startOf old))
    (within : startOf old ≤ last) :
    Filled source limit (old :: rest) first last (li :: after) false where
  ok := ok
  nonempty := by simp
  kept := shape ▸ Set.subset_union_left
  added := by
    rw [shape]
    exact Set.union_subset_union_right _ (Set.Ico_subset_Ico_right within)
  whole := fun clear => absurd ((swallows_head (by omega)).mpr ⟨early, by omega⟩) clear
  lost := fun _ all => end_not_covered ok.proper ok.separated (List.mem_cons_self ..)
    (all ⟨met, past⟩)
  duplicate := by simp

/-- A walk that passes `li` does to the rest what it does to the whole. -/
theorem filled_past {after : List ContiguousBlock} {bDuplicate : Bool} {first last : ℕ}
    (head : BlockOk source limit li) (apart : ∀ b ∈ rest, nextOf li < startOf b)
    (passed : nextOf li < first) (filled : Filled source limit rest first last after bDuplicate) :
    Filled source limit (li :: rest) first last (li :: after) bDuplicate where
  ok := blocks_ok_cons.mpr ⟨head, filled.ok, starts_beyond filled.ok.proper filled.added apart passed⟩
  nonempty := by simp
  kept := by
    rw [covered_cons, covered_cons]
    exact Set.union_subset_union_right _ filled.kept
  added := by
    rw [covered_cons, covered_cons, Set.union_assoc]
    exact Set.union_subset_union_right _ filled.added
  whole := fun clear x member => by
    rw [covered_cons]
    exact Or.inr (filled.whole (fun s => clear ((swallows_tail passed).mpr s)) member)
  lost := fun swallowed all => by
    refine filled.lost ((swallows_tail passed).mp swallowed) fun x member => ?_
    have shown := all member
    rw [covered_cons] at shown
    rcases shown with inside | tail
    · exact absurd (inside.2.trans passed) (not_lt.mpr member.1)
    · exact tail
  duplicate := fun isDuplicate => by rw [filled.duplicate isDuplicate]

/-- The walk over the blocks never throws on a slice of the chunk, and does what
`Filled` says. The cases are those of the code: the payload starts before the
block, inside it or at its end, or beyond it. -/
theorem fill_blocks_spec (ok : BlocksOk source limit lcb) (small : limit < 2 ^ 31)
    (positive : 0 < size) (inside : n.toNat + size ≤ limit)
    (agree : payload.bytes size = window source n.toNat (n.toNat + size)) (dups : UInt64) :
    ∃ lcb' dups' bDuplicate, fillBlocks payload size n lcb dups = some (lcb', dups', bDuplicate) ∧
      Filled source limit lcb n.toNat (n.toNat + size) lcb' bDuplicate := by
  induction lcb generalizing dups with
  | nil =>
    obtain ⟨made, ran, holds, first, last⟩ := create_append_holds (by omega) agree
    have first : startOf made = n.toNat := congrArg UInt32.toNat first
    have last : nextOf made = n.toNat + size := last
    refine ⟨[made], dups, false, by rw [fillBlocks, ran]; rfl, ?_⟩
    refine ⟨blocks_ok_cons.mpr ⟨⟨holds, by omega, by omega⟩, blocks_ok_nil, by simp⟩, by simp,
      ?_, ?_, fun _ => ?_, ?_, by simp⟩
    all_goals simp [Swallows, first, last]
  | cons li rest ih =>
    obtain ⟨head, tail, apart⟩ := blocks_ok_cons.mp ok
    have proper := head.proper
    have bounded := head.bounded
    have end_eq : (n + UInt32.ofInt size).toNat = n.toNat + size :=
      toNat_add_ofInt n size (by omega)
    by_cases early : n < li.startingSeqNumber
    · have early' : n.toNat < startOf li := UInt32.lt_iff_toNat_lt.mp early
      have gap_eq : (li.startingSeqNumber - n).toNat = startOf li - n.toNat :=
        toNat_sub_eq early'.le
      by_cases touches : n + UInt32.ofInt size = li.startingSeqNumber
      · -- exact prepend
        have joins : n.toNat + size = startOf li := end_eq ▸ congrArg UInt32.toNat touches
        obtain ⟨made, ran, holds, first, last⟩ := prepend_holds head.holds joins agree
        have first : startOf made = n.toNat := congrArg UInt32.toNat first
        have last : nextOf made = nextOf li := congrArg UInt32.toNat last
        refine ⟨made :: rest, dups, false,
          by rw [fillBlocks]; simp only [if_pos early, if_pos touches, ran]; rfl, ?_⟩
        exact filled_whole (blocks_ok_cons.mpr ⟨⟨holds, by omega, by omega⟩, tail, last ▸ apart⟩)
          (by simp) (by omega) (by omega) (covered_replace fun x => by omega) (by simp)
      · by_cases before : n + UInt32.ofInt size < li.startingSeqNumber
        · -- insert in the gap
          have before' : n.toNat + size < startOf li := end_eq ▸ UInt32.lt_iff_toNat_lt.mp before
          obtain ⟨made, ran, holds, first, last⟩ := create_append_holds (by omega) agree
          have first : startOf made = n.toNat := congrArg UInt32.toNat first
          have last : nextOf made = n.toNat + size := last
          refine ⟨made :: li :: rest, dups, false,
            by rw [fillBlocks]; simp only [if_pos early, if_neg touches, if_pos before, ran]; rfl, ?_⟩
          refine filled_whole (blocks_ok_cons.mpr ⟨⟨holds, by omega, by omega⟩, ok, ?_⟩)
            (by simp) (by omega) (by omega) ?_ (by simp)
          · intro b member
            have := head_start_le ok.proper ok.separated member
            omega
          · rw [covered_cons, first, last, Set.union_comm]
        · -- overlapping prepend: only the part before `li` is taken
          have after' : startOf li < n.toNat + size := by
            have ne : n.toNat + size ≠ startOf li := fun same =>
              touches (UInt32.toNat_inj.mp (end_eq.trans same))
            have nlt : ¬ n.toNat + size < startOf li := fun less =>
              before (UInt32.lt_iff_toNat_lt.mpr (end_eq ▸ less))
            omega
          have pruned : payload.bytes (startOf li - n.toNat) =
              window source n.toNat (n.toNat + (startOf li - n.toNat)) := by
            have cut := congrArg (List.take (startOf li - n.toNat)) agree
            rwa [Pointer.bytes, take_window _ (by omega), take_window _ (by omega), Nat.zero_add]
              at cut
          have joins : n.toNat + (startOf li - n.toNat) = startOf li := by omega
          obtain ⟨made, ran, holds, first, last⟩ := prepend_holds head.holds joins pruned
          have first : startOf made = n.toNat := congrArg UInt32.toNat first
          have last : nextOf made = nextOf li := congrArg UInt32.toNat last
          have count : toInt (li.startingSeqNumber - n) = (startOf li - n.toNat : ℕ) := by
            rw [toInt_of_small (by omega), gap_eq]
          have ok' : BlocksOk source limit (made :: rest) :=
            blocks_ok_cons.mpr ⟨⟨holds, by omega, by omega⟩, tail, last ▸ apart⟩
          refine ⟨made :: rest, dups + UInt64.ofInt size - (li.startingSeqNumber - n).toUInt64,
            false, ?_, ?_⟩
          · rw [fillBlocks]
            simp only [if_pos early, if_neg touches, if_neg before, count, ran, Option.bind_eq_bind,
              Option.bind_some, ite_self]
          · by_cases past : nextOf li < n.toNat + size
            · exact filled_swallowed ok' (by omega) (by omega) last.symm early'
                (covered_replace fun x => by omega) after'.le
            · exact filled_whole ok' (by simp) (by omega) (by omega)
                (covered_replace fun x => by omega) (by simp)
    · have from_start : startOf li ≤ n.toNat :=
        Nat.le_of_not_lt fun l => early (UInt32.lt_iff_toNat_lt.mpr l)
      by_cases met : n ≤ li.nextExpectedSeqNumber
      · have met' : n.toNat ≤ nextOf li := UInt32.le_iff_toNat_le.mp met
        by_cases longer : li.nextExpectedSeqNumber < n + UInt32.ofInt size
        · -- append the new part, then merge the blocks it reaches
          have longer' : nextOf li < n.toNat + size := end_eq ▸ UInt32.lt_iff_toNat_lt.mp longer
          have agree' : payload.bytes size =
              window source n.toNat (n + UInt32.ofInt size).toNat := by rw [end_eq]; exact agree
          obtain ⟨made, ran, holds, first, last⟩ :=
            overlapping_append_holds head.holds agree' met' (by rw [end_eq]; exact longer'.le)
          have first : startOf made = startOf li := congrArg UInt32.toNat first
          have last : nextOf made = n.toNat + size := end_eq ▸ congrArg UInt32.toNat last
          have made_ok : BlockOk source limit made := ⟨holds, by omega, by omega⟩
          obtain ⟨li', rest', dups', merged, ok', first', same⟩ := merge_following_spec made_ok tail
            (fun b member => by have := apart b member; omega)
            (dups + li.nextExpectedSeqNumber.toUInt64 - n.toUInt64)
          refine ⟨li' :: rest', dups', false, ?_, ?_⟩
          · rw [fillBlocks]
            simp [early, met, longer, appendChars, ran, merged]
          · exact filled_whole ok' (by simp) met' (by omega)
              (same ▸ covered_replace fun x => by omega) (by simp)
        · -- duplicate
          have known : n.toNat + size ≤ nextOf li := Nat.le_of_not_lt fun l =>
            longer (UInt32.lt_iff_toNat_lt.mpr (end_eq.symm ▸ l))
          refine ⟨li :: rest, dups + UInt64.ofInt size, true,
            by rw [fillBlocks]; simp only [if_neg early, if_pos met, if_neg longer], ?_⟩
          exact filled_whole ok (by simp) met' (by omega) (covered_replace fun x => by omega)
            (fun _ => rfl)
      · -- beyond this block
        have passed : nextOf li < n.toNat :=
          Nat.lt_of_not_le fun l => met (UInt32.le_iff_toNat_le.mpr l)
        obtain ⟨lcb', dups', bDuplicate, ran, filled⟩ := ih tail dups
        refine ⟨li :: lcb', dups', bDuplicate, ?_, filled_past head apart passed filled⟩
        rw [fillBlocks]
        simp only [if_neg early, if_neg met, ran]
        rfl

end Ditto.ChunkReassembly
