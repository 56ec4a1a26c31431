import Ditto.ChunkAccounts
import Ditto.OverlappingSegments
import Ditto.RecordScan

/-! A new chunk claims earlier bytes. Each block of the flow's list that starts inside the
chunk is handed to it and erased. What such a block has past the chunk's end is handed to
`insert` while the block is still in the list, so it is taken for known and then lost with
the block; and a block that starts at the chunk's start or before is not looked at. -/
namespace Ditto.ChunkClaiming
open Sniffer Buffers ContiguousBlock ChunkReassembly Spans Windows Words Traces Traced FlowLists
open ChunkHeadings FlowInsertion FlowStore ChunkAccounts OverlappingSegments SegmentHandling InsertWalk

variable {b b' t : Buffers} {mem : Memory} {chunkId : ChunkId} {flow : FlowId} {payload : Pointer}
  {size len k : ℕ} {seq start : TcpSeq} {pRc : ReconstructedChunk} {blocks : List ContiguousBlock}
  {li : ContiguousBlock} {edit : Edit}

/-! ## A chunk takes a segment -/

theorem send_done_total {done : Bool} (found : b.chunkIdReconstructedChunkMap chunkId = some pRc) :
    (b.sendDone mem chunkId flow done).result = some () := by
  cases done with
  | false => rfl
  | true =>
    rw [sendDone, result_bind, result_lift, found, Option.bind_some]
    cases pRc.getData with
    | none => rfl
    | some data => exact RecordScan.send_total _ _ _

theorem insert_past_total (b : Buffers) (flow : FlowId) (payload : Pointer) (diff size : ℤ) (seq : TcpSeq) :
    ∃ t edit, (b.insertPast flow payload diff size seq).result = some (t, edit) := by
  rw [insertPast]
  split
  · rename_i positive
    obtain ⟨count, rfl⟩ := Int.eq_ofNat_of_zero_le (Int.le_of_lt positive)
    obtain ⟨flows, edit, ran⟩ := insert_flow_total flow (payload.advance (size - count)) count
      (seq + UInt32.ofInt size - UInt32.ofInt count) b.pFlowList
    exact ⟨{ b with pFlowList := flows }, edit, by simp [Buffers.insert, ran]⟩
  · exact ⟨b, .kept, rfl⟩

/-- **A chunk takes a segment** that starts inside it: what is past its end goes to the
flow's list, and the walk of the chunk gets the rest. -/
theorem fill_and_send_takes (mem : Memory) (payload : Pointer)
    (found : b.chunkIdReconstructedChunkMap chunkId = some pRc)
    (known : pRc.flowSeqMap flow.toString = some start) (ordered : ChunkAccounts.Ordered pRc.length pRc.lcb)
    (short : pRc.length < 2 ^ 31) (positive : 0 < size) (small : size < 2 ^ 31)
    (inside : (seq - start).toNat < pRc.length) :
    ∃ t edit pRc' dups bDuplicate,
      (b.insertPast flow payload (pastChunk start pRc.length size seq) size seq).result = some (t, edit) ∧
      (b.fillAndSend mem chunkId flow payload size seq).result =
        some ({ t.setChunk chunkId pRc' with numDuplicateBytes := dups }, edit) ∧
      pRc'.flowSeqMap = pRc.flowSeqMap ∧ pRc'.length = pRc.length ∧
      Filled (fun _ => 0) pRc.length (blank pRc.lcb) (seq - start).toNat
        ((seq - start).toNat + min size (pRc.length - (seq - start).toNat)) (blank pRc'.lcb) bDuplicate := by
  have past := past_inside inside short small
  obtain ⟨count, shared⟩ : ∃ count, count = min size (pRc.length - (seq - start).toNat) := ⟨_, rfl⟩
  have rest : (size : ℤ) - pastChunk start pRc.length size seq = (count : ℕ) := by omega
  obtain ⟨t, edit, stored⟩ := insert_past_total b flow payload (pastChunk start pRc.length size seq) size seq
  obtain ⟨pRc', dups, done, bDuplicate, ran, _, filled, _⟩ :=
    fill_gaps_ordered ordered short known (show 0 < count by omega)
      (show (seq - start).toNat + count ≤ pRc.length by omega) payload t.numDuplicateBytes
  obtain ⟨same, length⟩ := Prod.mk.inj (fill_gaps_heading ran)
  refine ⟨t, edit, pRc', dups, bDuplicate, stored, ?_, same, length, shared ▸ filled⟩
  have handed : (b.fillGapsInChunk chunkId flow payload size seq).result =
      some ({ t.setChunk chunkId pRc' with numDuplicateBytes := dups }, done, edit) := by
    rw [fillGapsInChunk, result_bind, result_lift, found, Option.bind_some]
    simp only [known]
    rw [result_bind, stored, Option.bind_some, result_bind, result_note, Option.bind_some, rest, result_bind, ran]
    rfl
  have sent : (sendDone { t.setChunk chunkId pRc' with numDuplicateBytes := dups } mem chunkId flow done).result =
      some () := @send_done_total _ mem chunkId flow pRc' done (Function.update_self ..)
  rw [fillAndSend, result_bind, handed, Option.bind_some, result_bind, sent]
  rfl

/-! ## What a block has past the chunk -/

/-- Disjoint blocks in the order of their numbers. -/
structure Sorted (blocks : List ContiguousBlock) : Prop where
  plain : ∀ li ∈ blocks, Plain li
  apart : blocks.Pairwise fun li li2 => nextOf li ≤ startOf li2

theorem Sorted.sublist {left : List ContiguousBlock} (sorted : Sorted blocks) (part : left.Sublist blocks) :
    Sorted left :=
  ⟨fun li member => sorted.plain li (part.subset member), sorted.apart.sublist part⟩

/-- Two blocks of a sorted list are the same or apart. -/
theorem Sorted.same_or_apart {li2 : ContiguousBlock} (sorted : Sorted blocks) (member : li ∈ blocks)
    (member2 : li2 ∈ blocks) : li = li2 ∨ nextOf li ≤ startOf li2 ∨ nextOf li2 ≤ startOf li :=
  same_or_ordered sorted.apart member member2

/-- Bytes from the middle of a block on overlap it. -/
theorem Sorted.overlaps {first : ℕ} (sorted : Sorted blocks) (member : li ∈ blocks) (lower : startOf li < first)
    (upper : first < nextOf li) : Overlaps blocks first size := by
  induction blocks with
  | nil => cases member
  | cons head rest ih =>
    obtain ⟨before, _⟩ := List.pairwise_cons.mp sorted.apart
    rw [overlaps_cons]
    rcases List.mem_cons.mp member with rfl | later
    · rw [if_pos upper.le]
      exact ⟨upper, by omega⟩
    · have clear := before li later
      rw [if_neg (by omega)]
      exact ih (sorted.sublist (List.sublist_cons_self ..)) later

/-- `insert` drops what overlaps the block it meets. -/
theorem insert_blocks_dropped (fits : seq.toNat + size < 2 ^ 32) (overlaps : Overlaps blocks seq.toNat size)
    (payload : Pointer) : insertBlocks payload size seq blocks = some (blocks, .kept) := by
  have last := toNat_add_ofInt seq size fits
  apply insert_of_walk
  induction blocks with
  | nil =>
    obtain ⟨_, found, _⟩ := overlaps
    cases found
  | cons li rest ih =>
    rw [overlaps_cons] at overlaps
    by_cases met : seq.toNat ≤ nextOf li
    · rw [if_pos met] at overlaps
      obtain ⟨early, beyond⟩ := overlaps
      exact .dropped (UInt32.lt_iff_toNat_lt.mpr early) (UInt32.lt_iff_toNat_lt.mpr (last ▸ beyond))
    · rw [if_neg met] at overlaps
      exact .past (UInt32.lt_iff_toNat_lt.mpr (Nat.lt_of_not_le met)) (ih overlaps)

theorem insert_flow_dropped {flows : List (FlowId × List ContiguousBlock)} (fits : seq.toNat + size < 2 ^ 32)
    (overlaps : Overlaps (blocksIn flows flow) seq.toNat size) (payload : Pointer) :
    insertFlow flow payload size seq flows = some (flows, .kept) := by
  induction flows with
  | nil =>
    obtain ⟨_, found, _⟩ := overlaps
    cases found
  | cons entry rest ih =>
    obtain ⟨other, blocks⟩ := entry
    rw [blocks_in_cons] at overlaps
    rw [insertFlow]
    by_cases same : other = flow
    · rw [if_pos same] at overlaps
      rw [if_pos same, insert_blocks_dropped fits overlaps]
      rfl
    · rw [if_neg same] at overlaps
      rw [if_neg same, ih overlaps]
      rfl

/-- What starts inside a chunk whose range does not wrap. -/
theorem within_iff (fits : start.toNat + len < 2 ^ 32) :
    within start len seq = true ↔ start.toNat < seq.toNat ∧ seq.toNat < start.toNat + len := by
  rw [within, decide_eq_true_eq, UInt32.lt_iff_toNat_lt, UInt32.lt_iff_toNat_lt, toNat_add_ofInt start len fits]

/-- Where a plain block ends, from its string's `int` size. -/
theorem plain_ends (plain : Plain li) :
    li.startingSeqNumber + UInt32.ofInt (toInt (UInt32.ofNat li.contiguousBlock.length)) =
      li.nextExpectedSeqNumber := by
  have sized := plain.sized
  have bound := li.nextExpectedSeqNumber.toNat_lt
  simp only [startOf, nextOf] at sized
  rw [ofInt_toInt, ← ofInt_natCast, ← UInt32.toNat_inj, toNat_add_ofInt _ _ (by omega), sized]

/-- What a block has past the chunk is handed to `insert` in vain: the block is still there. -/
theorem past_dropped (sorted : Sorted (b.blocksOf flow)) (member : li ∈ b.blocksOf flow)
    (fits : start.toNat + len < 2 ^ 32) (short : len < 2 ^ 31)
    (starts : within start len li.startingSeqNumber = true) (payload : Pointer) :
    (b.insertPast flow payload (pastChunk start len (toInt (UInt32.ofNat li.contiguousBlock.length))
      li.startingSeqNumber) (toInt (UInt32.ofNat li.contiguousBlock.length)) li.startingSeqNumber).result =
        some (b, .kept) := by
  obtain ⟨lower, upper⟩ := (within_iff fits).mp starts
  have plain := sorted.plain li member
  have proper := plain.proper
  have bound := li.nextExpectedSeqNumber.toNat_lt
  have last := toNat_add_ofInt start len fits
  simp only [startOf, nextOf] at proper
  rw [insertPast, pastChunk, plain_ends plain]
  split
  · rename_i positive
    obtain ⟨diff, isDiff⟩ : ∃ diff, diff = li.nextExpectedSeqNumber - (start + UInt32.ofInt len) := ⟨_, rfl⟩
    have distance := congrArg UInt32.toNat isDiff
    rw [UInt32.toNat_sub, last] at distance
    rw [← isDiff] at positive ⊢
    have near : diff.toNat < 2 ^ 31 := by
      by_contra far
      rw [toInt, if_neg far] at positive
      have below := diff.toNat_lt
      omega
    have count : max 0 (toInt diff) = (diff.toNat : ℕ) := by
      rw [toInt_of_small near]
      omega
    have exactly : diff.toNat = li.nextExpectedSeqNumber.toNat - (start.toNat + len) := by omega
    have number : (li.nextExpectedSeqNumber - UInt32.ofInt (diff.toNat : ℕ)).toNat = start.toNat + len := by
      have whole : (UInt32.ofInt (diff.toNat : ℕ)).toNat = diff.toNat := by
        rw [toNat_ofInt]
        omega
      rw [toNat_sub_eq (by omega), whole]
      omega
    rw [count] at positive ⊢
    have overlaps : Overlaps (blocksIn b.pFlowList flow)
        (li.nextExpectedSeqNumber - UInt32.ofInt (diff.toNat : ℕ)).toNat diff.toNat := by
      rw [number]
      exact sorted.overlaps member upper (show start.toNat + len < nextOf li by simp only [nextOf]; omega)
    rw [Buffers.insert, result_bind, result_note, Option.bind_some, result_bind, result_lift,
      insert_flow_dropped (by omega) overlaps]
    rfl
  · rfl

/-! ## Rounds -/

/-- The block starts inside the chunk, past its first byte. -/
abbrev claims (start : TcpSeq) (len : ℕ) (li : ContiguousBlock) : Bool := within start len li.startingSeqNumber

/-- None of the first blocks does. -/
def Skipped (start : TcpSeq) (len index : ℕ) (blocks : List ContiguousBlock) : Prop :=
  ∀ li ∈ blocks.take index, claims start len li = false

theorem Skipped.all {index : ℕ} (passed : Skipped start len index blocks) (enough : blocks.length ≤ index) :
    ∀ li ∈ blocks, claims start len li = false := by
  rwa [Skipped, List.take_of_length_le enough] at passed

theorem Skipped.none_left {index : ℕ} (passed : Skipped start len index blocks)
    (none : (blocks.drop index).findIdx? (claims start len) = none) : ∀ li ∈ blocks, claims start len li = false := by
  intro li member
  rw [← List.take_append_drop index blocks] at member
  rcases List.mem_append.mp member with first | second
  · exact passed li first
  · simpa using List.findIdx?_eq_none_iff.mp none li second

/-- The list around the block that a round takes. -/
theorem round_shape {index skipped : ℕ} (passed : Skipped start len index blocks)
    (found : (blocks.drop index).findIdx? (claims start len) = some skipped) :
    ∃ li before after, blocks = before ++ li :: after ∧ before.length = index + skipped ∧
      claims start len li = true ∧ ∀ other ∈ before, claims start len other = false := by
  obtain ⟨bound, fits, earlier⟩ := List.findIdx?_eq_some_iff_getElem.mp found
  rw [List.length_drop] at bound
  rw [List.getElem_drop] at fits
  have place : index + skipped < blocks.length := by omega
  refine ⟨blocks[index + skipped], blocks.take (index + skipped), blocks.drop (index + skipped + 1), ?_, ?_, fits, ?_⟩
  · rw [List.getElem_cons_drop, List.take_append_drop]
  · rw [List.length_take]
    omega
  · intro other member
    obtain ⟨i, small, rfl⟩ := List.mem_take_iff_getElem.mp member
    by_cases early : i < index
    · exact passed _ (List.mem_take_iff_getElem.mpr ⟨i, by omega, rfl⟩)
    · have clear := earlier (i - index) (by omega)
      simp only [List.getElem_drop, Nat.add_sub_cancel' (Nat.le_of_not_lt early)] at clear
      simpa using clear

/-- The blocks that are taken are behind those that are passed. -/
theorem filter_behind {before after : List ContiguousBlock} (clear : ∀ li ∈ before, claims start len li = false) :
    (before ++ after).filter (claims start len) = after.filter (claims start len) := by
  rw [List.filter_append, List.filter_eq_nil_iff.mpr fun li member => by simp [clear li member], List.nil_append]

/-- A round leaves the lists as they are, before the block is erased. -/
theorem round_lists (sorted : Sorted (b.blocksOf flow)) (member : li ∈ b.blocksOf flow)
    (copied : copyOf b chunkId flow = some (start, len)) (fits : start.toNat + len < 2 ^ 32)
    (short : len < 2 ^ 31) (starts : claims start len li = true)
    (ran : (b.fillAndSend mem chunkId flow payload (toInt (UInt32.ofNat li.contiguousBlock.length))
      li.startingSeqNumber).result = some (t, edit)) : t.pFlowList = b.pFlowList ∧ edit = .kept := by
  obtain ⟨pRc, found, known, rfl⟩ := chunk_of_copy copied
  obtain ⟨done, filled⟩ := fill_and_send_cases ran
  obtain ⟨_, _, _, stored, _, rfl⟩ := fill_gaps_cases found known filled
  cases stored.symm.trans (past_dropped sorted member fits short starts payload)
  exact ⟨rfl, rfl⟩

theorem block_between {before after : List ContiguousBlock} {index : ℕ} (shape : blocks = before ++ li :: after)
    (place : before.length = index) : blocks[index]? = some li := by
  rw [shape, ← place, List.getElem?_append_right (Nat.le_refl _), Nat.sub_self]
  rfl

/-- The flow's blocks after a round. -/
theorem blocks_of_erased {before after : List ContiguousBlock} {index : ℕ} (same : t.pFlowList = b.pFlowList)
    (shape : b.blocksOf flow = before ++ li :: after) (place : before.length = index) :
    ({ t with pFlowList := eraseBlock flow index t.pFlowList } : Buffers).blocksOf flow = before ++ after := by
  rw [blocks_of_eq, same, (erase_block_blocks index).1, ← blocks_of_eq, shape, ← place,
    List.eraseIdx_append_of_length_le (Nat.le_refl _), Nat.sub_self]
  rfl

/-- **The rounds take away** the blocks that start inside the chunk, and no others. -/
theorem candidates_blocks {index rounds : ℕ}
    (ran : (candidatesFrom mem chunkId flow start len rounds index b).result = some b')
    (sorted : Sorted (b.blocksOf flow)) (copied : copyOf b chunkId flow = some (start, len))
    (fits : start.toNat + len < 2 ^ 32) (short : len < 2 ^ 31) (passed : Skipped start len index (b.blocksOf flow))
    (enough : (b.blocksOf flow).length ≤ index + rounds) :
    b'.blocksOf flow = (b.blocksOf flow).filter fun li => !claims start len li := by
  induction rounds generalizing index b with
  | zero =>
    cases ran
    exact (List.filter_eq_self.mpr fun li member => by simpa using passed.all enough li member).symm
  | succ rounds ih =>
    rw [candidatesFrom] at ran
    split at ran
    · rename_i none
      cases ran
      exact (List.filter_eq_self.mpr fun li member => by simpa using passed.none_left none li member).symm
    · rename_i skipped found
      obtain ⟨li, before, after, shape, place, starts, clear⟩ := round_shape passed found
      obtain ⟨other, taken, ran⟩ := bind_eq_some.mp ran
      obtain ⟨⟨t, inserted⟩, filled, ran⟩ := bind_eq_some.mp ran
      obtain ⟨index', moved, ran⟩ := bind_eq_some.mp ran
      have isIt := block_between shape place
      obtain rfl := Option.some_inj.mp (isIt.symm.trans taken)
      have member : li ∈ b.blocksOf flow := List.mem_of_getElem? isIt
      obtain ⟨same, rfl⟩ := round_lists sorted member copied fits short starts filled
      cases moved
      have erased := blocks_of_erased same shape place
      rw [ih ran ?_ ?_ ?_ ?_, erased, shape]
      · simp [starts]
      · rw [erased]
        refine sorted.sublist ?_
        rw [shape]
        exact (List.sublist_cons_self li after).append_left before
      · rw [copyOf, headings_of_lists, fill_and_send_headings filled]
        exact copied
      · rw [erased, Skipped, ← place, List.take_left]
        exact clear
      · rw [erased]
        rw [shape] at enough
        simp only [List.length_append, List.length_cons] at enough ⊢
        omega

/-! ## What the chunk has -/

/-- A range that starts no earlier than all blocks starts no new block past its start. -/
theorem starts_by {source : ℕ → UInt8} {limit first last : ℕ} {lcb lcb' : List ContiguousBlock}
    (ok : BlocksOk source limit lcb') (early : ∀ block ∈ lcb, startOf block ≤ first)
    (grown : covered lcb' = covered lcb ∪ Set.Ico first last) : ∀ block ∈ lcb', startOf block ≤ first := by
  intro block member
  by_contra late
  -- the byte before such a block would be covered, and so belong to it
  have before : startOf block - 1 ∈ covered lcb' := by
    have here : startOf block ∈ covered lcb' := start_covered ok.proper member
    rw [grown] at here ⊢
    rcases here with ⟨old, held, _, upper⟩ | new
    · have := early old held
      exact Or.inl ⟨old, held, by omega, by omega⟩
    · exact Or.inr ⟨by omega, by have := new.2; omega⟩
  obtain ⟨other, held, lower, upper⟩ := before
  have proper := ok.proper block member
  have apart : block = other ∨ nextOf block < startOf other ∨ nextOf other < startOf block :=
    same_or_ordered ok.separated member held
  rcases apart with rfl | after | first <;> omega

/-- A block that ends in the chunk is taken whole. -/
theorem round_takes (mem : Memory) (payload : Pointer) (sorted : Sorted (b.blocksOf flow))
    (member : li ∈ b.blocksOf flow) (found : b.chunkIdReconstructedChunkMap chunkId = some pRc)
    (known : pRc.flowSeqMap flow.toString = some start) (ordered : ChunkAccounts.Ordered pRc.length pRc.lcb)
    (fits : start.toNat + pRc.length < 2 ^ 32) (short : pRc.length < 2 ^ 31)
    (starts : claims start pRc.length li = true) (whole : nextOf li ≤ start.toNat + pRc.length)
    (early : ∀ block ∈ pRc.lcb, start.toNat + startOf block ≤ startOf li) :
    ∃ t pRc', (b.fillAndSend mem chunkId flow payload (toInt (UInt32.ofNat li.contiguousBlock.length))
        li.startingSeqNumber).result = some (t, .kept) ∧ t.pFlowList = b.pFlowList ∧
      t.chunkIdReconstructedChunkMap chunkId = some pRc' ∧ pRc'.flowSeqMap = pRc.flowSeqMap ∧
      pRc'.length = pRc.length ∧ ChunkAccounts.Ordered pRc.length pRc'.lcb ∧
      covered pRc'.lcb = covered pRc.lcb ∪ Set.Ico (startOf li - start.toNat) (nextOf li - start.toNat) ∧
      ∀ block ∈ pRc'.lcb, start.toNat + startOf block ≤ startOf li := by
  obtain ⟨lower, upper⟩ := (within_iff fits).mp starts
  obtain ⟨_, sized, proper⟩ := sorted.plain li member
  have dropped := past_dropped sorted member fits short starts payload
  have place : (li.startingSeqNumber - start).toNat = startOf li - start.toNat := toNat_sub_eq (by omega)
  have lower' : start.toNat < startOf li := lower
  rw [to_int_length (by omega)] at dropped ⊢
  obtain ⟨t, edit, pRc', dups, bDuplicate, stored, ran, same, length, filled⟩ :=
    fill_and_send_takes mem payload found known ordered short (show 0 < li.contiguousBlock.length by omega)
      (by omega) (show (li.startingSeqNumber - start).toNat < pRc.length by rw [place]; omega)
  cases stored.symm.trans dropped
  have ends : startOf li - start.toNat + min li.contiguousBlock.length (pRc.length - (startOf li - start.toNat)) =
      nextOf li - start.toNat := by omega
  rw [place, ends] at filled
  have early' : ∀ block ∈ blank pRc.lcb, startOf block ≤ startOf li - start.toNat := by
    intro block held
    obtain ⟨old, before, rfl⟩ := List.mem_map.mp held
    have := early old before
    show startOf old ≤ _
    omega
  have clear : ¬ Swallows (blank pRc.lcb) (startOf li - start.toNat) (nextOf li - start.toNat) := by
    rintro ⟨block, held, late, _⟩
    have := early' block (List.mem_of_find?_eq_some held)
    omega
  have grown : covered (blank pRc'.lcb) = covered (blank pRc.lcb) ∪
      Set.Ico (startOf li - start.toNat) (nextOf li - start.toNat) :=
    Set.Subset.antisymm filled.added (Set.union_subset filled.kept (filled.whole clear))
  have early'' := starts_by filled.ok early' grown
  refine ⟨_, pRc', ran, rfl, Function.update_self .., same, length, filled.ok, ?_, fun block held => ?_⟩
  · rw [← covered_blank, grown, covered_blank]
  · have bound : startOf block ≤ startOf li - start.toNat :=
      early'' (mapBytes _ block) (List.mem_map.mpr ⟨block, held, rfl⟩)
    omega

theorem takes_none (none : ∀ li ∈ blocks, claims start len li = false) (x : ℕ) :
    x ∉ covered (blocks.filter (claims start len)) := by
  rw [List.filter_eq_nil_iff.mpr fun li member => by simpa using none li member]
  simp

/-- No block that is claimed later starts before those that the chunk has got. -/
theorem early_behind {blocks before after lcb : List ContiguousBlock} (sorted : Sorted blocks)
    (shape : blocks = before ++ li :: after) (clear : ∀ other ∈ before, claims start len other = false)
    (early : ∀ block ∈ lcb, start.toNat + startOf block ≤ startOf li) :
    ∀ li2 ∈ before ++ after, claims start len li2 = true →
      ∀ block ∈ lcb, start.toNat + startOf block ≤ startOf li2 := by
  intro li2 member2 starts2 block held
  subst shape
  rcases List.mem_append.mp member2 with first | second
  · exact absurd starts2 (by simp [clear li2 first])
  · have behind := (List.pairwise_cons.mp (List.pairwise_append.mp sorted.apart).2.1).1 li2 second
    have proper := (sorted.plain li (List.mem_append_right _ (List.mem_cons_self ..))).proper
    have := early block held
    omega

/-- **The rounds hand over** the blocks that start inside the chunk, if all end there. -/
theorem candidates_take {index rounds : ℕ} (mem : Memory) (sorted : Sorted (b.blocksOf flow))
    (found : b.chunkIdReconstructedChunkMap chunkId = some pRc)
    (known : pRc.flowSeqMap flow.toString = some start) (ordered : ChunkAccounts.Ordered pRc.length pRc.lcb)
    (fits : start.toNat + pRc.length < 2 ^ 32) (short : pRc.length < 2 ^ 31)
    (passed : Skipped start pRc.length index (b.blocksOf flow))
    (enough : (b.blocksOf flow).length ≤ index + rounds)
    (whole : ∀ li ∈ b.blocksOf flow, claims start pRc.length li = true → nextOf li ≤ start.toNat + pRc.length)
    (early : ∀ li ∈ b.blocksOf flow, claims start pRc.length li = true →
      ∀ block ∈ pRc.lcb, start.toNat + startOf block ≤ startOf li) :
    ∃ b' pRc', (candidatesFrom mem chunkId flow start pRc.length rounds index b).result = some b' ∧
      b'.chunkIdReconstructedChunkMap chunkId = some pRc' ∧
      ∀ x, x ∈ covered pRc'.lcb ↔ x ∈ covered pRc.lcb ∨
        start.toNat + x ∈ covered ((b.blocksOf flow).filter (claims start pRc.length)) := by
  induction rounds generalizing index b pRc with
  | zero =>
    exact ⟨b, pRc, rfl, found, fun x => (or_iff_left (takes_none (passed.all enough) _)).symm⟩
  | succ rounds ih =>
    rw [candidatesFrom]
    split
    · rename_i none
      exact ⟨b, pRc, rfl, found, fun x => (or_iff_left (takes_none (passed.none_left none) _)).symm⟩
    · rename_i skipped found'
      obtain ⟨li, before, after, shape, place, starts, clear⟩ := round_shape passed found'
      have isIt := block_between shape place
      have member : li ∈ b.blocksOf flow := List.mem_of_getElem? isIt
      obtain ⟨t, made, filled, same, held, starts', length, ordered', grown, early'⟩ :=
        round_takes mem (mem.cStr li.contiguousBlock) sorted member found known ordered fits short starts
          (whole li member starts) (early li member starts)
      have erased := blocks_of_erased same shape place
      have part : (before ++ after).Sublist (b.blocksOf flow) := by
        rw [shape]
        exact (List.sublist_cons_self li after).append_left before
      have later := early_behind sorted shape clear early'
      have takes : (b.blocksOf flow).filter (claims start pRc.length) =
          li :: after.filter (claims start pRc.length) := by
        rw [shape, filter_behind clear, List.filter_cons_of_pos starts]
      have left : (before ++ after).filter (claims start pRc.length) = after.filter (claims start pRc.length) :=
        filter_behind clear
      rw [shape, List.length_append, List.length_cons] at enough
      obtain ⟨b', pRc', ran, held', exactly⟩ := @ih
        { t with pFlowList := eraseBlock flow (index + skipped) t.pFlowList } made (index + skipped)
        (erased ▸ sorted.sublist part) held (starts' ▸ known) (length ▸ ordered') (length ▸ fits) (length ▸ short)
        (by rw [erased, Skipped, ← place, List.take_left, length]; exact clear)
        (by rw [erased, List.length_append]; omega)
        (by rw [erased, length]; exact fun li2 member2 => whole li2 (part.subset member2))
        (by rw [erased, length]; exact later)
      rw [length] at ran exactly
      rw [erased, left] at exactly
      refine ⟨b', pRc', ?_, held', fun x => ?_⟩
      · rw [result_bind, result_lift, isIt, Option.bind_some, result_bind, filled, Option.bind_some, result_bind,
          result_lift]
        exact ran
      · have lower := ((within_iff fits).mp starts).1
        have bounds : startOf li - start.toNat ≤ x ∧ x < nextOf li - start.toNat ↔
            startOf li ≤ start.toNat + x ∧ start.toNat + x < nextOf li := by
          simp only [startOf] at lower ⊢
          omega
        rw [exactly, grown, takes, covered_cons, Set.mem_union, Set.mem_union, Set.mem_Ico, Set.mem_Ico, bounds,
          or_assoc]

/-! ## The claim -/

/-- Of the bytes that the flow's list held, those in the chunk's range are covered in the
chunk, and the others are still in the list. -/
def Moved (b : Buffers) (chunkId : ChunkId) (flow : FlowId) (first len : ℕ) (b' : Buffers) : Prop :=
  ∀ x ∈ covered (b.blocksOf flow),
    (first ≤ x ∧ x < first + len →
      ∃ pRc', b'.chunkIdReconstructedChunkMap chunkId = some pRc' ∧ x - first ∈ covered pRc'.lcb) ∧
    (x < first ∨ first + len ≤ x → x ∈ covered (b'.blocksOf flow))

theorem deal_with_candidates_eq (found : b.chunkIdReconstructedChunkMap chunkId = some pRc)
    (known : pRc.flowSeqMap flow.toString = some start) :
    (b.dealWithCandidatesForChunk mem chunkId flow).result =
      (candidatesFrom mem chunkId flow start pRc.length (b.blocksOf flow).length 0 b).result := by
  rw [dealWithCandidatesForChunk, result_bind, result_lift, found, Option.bind_some, known, Option.getD_some]

/-- A byte belongs to one block of a sorted list. -/
theorem Sorted.unique {li2 : ContiguousBlock} (sorted : Sorted blocks) (member : li ∈ blocks)
    (member2 : li2 ∈ blocks) {x : ℕ} (lower : startOf li ≤ x) (upper : x < nextOf li) (lower2 : startOf li2 ≤ x)
    (upper2 : x < nextOf li2) : li = li2 := by
  rcases sorted.same_or_apart member member2 with same | before | after
  · exact same
  · omega
  · omega

/-- A chunk that holds a front alone has no block behind one that it claims. -/
theorem front_before_claimed (ordered : ChunkAccounts.Ordered pRc.length pRc.lcb)
    (holds : covered pRc.lcb = Set.Ico 0 k) (fits : start.toNat + pRc.length < 2 ^ 32)
    (starts : claims start pRc.length li = true) : ∀ block ∈ pRc.lcb, start.toNat + startOf block ≤ startOf li := by
  intro block held
  have lower : start.toNat < startOf li := ((within_iff fits).mp starts).1
  have grown : covered (blank pRc.lcb) = covered [] ∪ Set.Ico 0 k := by
    rw [covered_blank, holds]
    simp
  have front : startOf block ≤ 0 :=
    starts_by ordered (by simp) grown (mapBytes _ block) (List.mem_map.mpr ⟨block, held, rfl⟩)
  omega

/-- If nothing was lost, no claimed block ends past the chunk. -/
theorem Moved.claimed_ends (moved : Moved b chunkId flow start.toNat len b') (sorted : Sorted (b.blocksOf flow))
    (listed : b'.blocksOf flow = (b.blocksOf flow).filter fun li => !claims start len li)
    (fits : start.toNat + len < 2 ^ 32) (member : li ∈ b.blocksOf flow) (starts : claims start len li = true) :
    nextOf li ≤ start.toNat + len := by
  by_contra long
  obtain ⟨lower, upper⟩ := (within_iff fits).mp starts
  -- the byte at the chunk's end was in this block alone
  obtain ⟨li2, left, lower2, upper2⟩ := listed ▸
    (moved (start.toNat + len) ⟨li, member, upper.le, by omega⟩).2 (Or.inr (Nat.le_refl _))
  obtain ⟨member2, other⟩ := List.mem_filter.mp left
  obtain rfl := sorted.unique member member2 upper.le (by omega) lower2 upper2
  simp [starts] at other

/-- If nothing was lost, a block that starts before the chunk has no byte of it but those of
the front. -/
theorem Moved.front_reaches {pRc' : ReconstructedChunk} (moved : Moved b chunkId flow start.toNat len b')
    (sorted : Sorted (b.blocksOf flow)) (fits : start.toNat + len < 2 ^ 32)
    (held : b'.chunkIdReconstructedChunkMap chunkId = some pRc')
    (has : ∀ x, x ∈ covered pRc'.lcb ↔
      x ∈ Set.Ico 0 k ∨ start.toNat + x ∈ covered ((b.blocksOf flow).filter (claims start len)))
    (member : li ∈ b.blocksOf flow) (before : startOf li ≤ start.toNat) :
    min (nextOf li) (start.toNat + len) ≤ start.toNat + k := by
  by_contra more
  -- the byte behind the front is in this block, which the chunk does not claim
  obtain ⟨_, found, reached⟩ := (moved (start.toNat + k) ⟨li, member, by omega, by omega⟩).1 (by omega)
  cases held.symm.trans found
  rw [Nat.add_sub_cancel_left, has] at reached
  rcases reached with old | ⟨li2, taken, lower2, upper2⟩
  · exact absurd old.2 (Nat.lt_irrefl k)
  · obtain ⟨member2, starts⟩ := List.mem_filter.mp taken
    obtain rfl := sorted.unique member member2 (by omega) (by omega) lower2 upper2
    have lower : start.toNat < startOf li := ((within_iff fits).mp starts).1
    omega

/-- Nothing is lost of the blocks that the chunk claims whole, and of those before it that
have no byte of it but those of the front. -/
theorem moved_of_ends {pRc' : ReconstructedChunk}
    (listed : b'.blocksOf flow = (b.blocksOf flow).filter fun li => !claims start len li)
    (fits : start.toNat + len < 2 ^ 32) (held : b'.chunkIdReconstructedChunkMap chunkId = some pRc')
    (has : ∀ x, x ∈ covered pRc'.lcb ↔
      x ∈ Set.Ico 0 k ∨ start.toNat + x ∈ covered ((b.blocksOf flow).filter (claims start len)))
    (ends : ∀ li ∈ b.blocksOf flow, claims start len li = true → nextOf li ≤ start.toNat + len)
    (reaches : ∀ li ∈ b.blocksOf flow, startOf li ≤ start.toNat →
      min (nextOf li) (start.toNat + len) ≤ start.toNat + k) :
    Moved b chunkId flow start.toNat len b' := by
  rintro x ⟨li, member, lower, upper⟩
  have starts := @within_iff len li.startingSeqNumber start fits
  constructor
  · rintro ⟨inside, below⟩
    refine ⟨pRc', held, (has _).mpr ?_⟩
    rw [Nat.add_sub_cancel' inside]
    by_cases claimed : claims start len li = true
    · exact Or.inr ⟨li, List.mem_filter.mpr ⟨member, claimed⟩, lower, upper⟩
    · have before : startOf li ≤ start.toNat := by
        by_contra late
        exact claimed (starts.mpr ⟨Nat.lt_of_not_le late, lower.trans_lt below⟩)
      have bound := reaches li member before
      exact Or.inl ⟨Nat.zero_le _, by omega⟩
  · intro outside
    rw [listed]
    refine ⟨li, List.mem_filter.mpr ⟨member, ?_⟩, lower, upper⟩
    by_contra claimed
    have claimed : claims start len li = true := by simpa using claimed
    have last := ends li member claimed
    have first : start.toNat < startOf li := (starts.mp claimed).1
    omega

/-- **Claiming loses nothing** exactly if no block that starts inside the chunk ends past its
end, and no block that starts before has a byte of the chunk that the chunk has not. -/
theorem claiming_loses_nothing_iff (mem : Memory) (sorted : Sorted (b.blocksOf flow))
    (found : b.chunkIdReconstructedChunkMap chunkId = some pRc)
    (known : pRc.flowSeqMap flow.toString = some start) (ordered : ChunkAccounts.Ordered pRc.length pRc.lcb)
    (holds : covered pRc.lcb = Set.Ico 0 k) (fits : start.toNat + pRc.length < 2 ^ 32)
    (short : pRc.length < 2 ^ 31) :
    (∃ b', (b.dealWithCandidatesForChunk mem chunkId flow).result = some b' ∧
        Moved b chunkId flow start.toNat pRc.length b') ↔
      ∀ li ∈ b.blocksOf flow,
        (start.toNat < startOf li → startOf li < start.toNat + pRc.length → nextOf li ≤ start.toNat + pRc.length) ∧
        (startOf li ≤ start.toNat → min (nextOf li) (start.toNat + pRc.length) ≤ start.toNat + k) := by
  rw [deal_with_candidates_eq found known]
  have passed : Skipped start pRc.length 0 (b.blocksOf flow) := nofun
  have enough : (b.blocksOf flow).length ≤ 0 + (b.blocksOf flow).length := by omega
  have takes := @candidates_take _ _ _ _ _ 0 (b.blocksOf flow).length mem sorted found known ordered fits short
    passed enough
  rw [holds] at takes
  constructor
  · rintro ⟨b', ran, moved⟩
    have listed := candidates_blocks ran sorted (copy_of_chunk found known) fits short passed enough
    have ends : ∀ li ∈ b.blocksOf flow, claims start pRc.length li = true →
        nextOf li ≤ start.toNat + pRc.length := fun li member => moved.claimed_ends sorted listed fits member
    obtain ⟨_, pRc', ran', held, has⟩ := takes ends fun li _ => front_before_claimed ordered holds fits
    cases ran.symm.trans ran'
    exact fun li member => ⟨fun lower upper => ends li member ((within_iff fits).mpr ⟨lower, upper⟩),
      moved.front_reaches sorted fits held has member⟩
  · intro condition
    have ends : ∀ li ∈ b.blocksOf flow, claims start pRc.length li = true →
        nextOf li ≤ start.toNat + pRc.length := by
      intro li member starts
      obtain ⟨lower, upper⟩ := (within_iff fits).mp starts
      exact (condition li member).1 lower upper
    obtain ⟨b', pRc', ran, held, has⟩ := takes ends fun li _ => front_before_claimed ordered holds fits
    have listed := candidates_blocks ran sorted (copy_of_chunk found known) fits short passed enough
    exact ⟨b', ran, moved_of_ends listed fits held has ends fun li member => (condition li member).2⟩

/-- A chunk of 1100 bytes with its header, at 0. -/
def headedChunk : ReconstructedChunk :=
  { ReconstructedChunk.create [] 1100 with
    lcb := [⟨0, 68, .replicate 68 0, false, true⟩] }.setFlowStart someFlow.toString 0

/-- A block from 500 on is all that was captured before. -/
def claimingState (size : ℕ) : Buffers where
  pFlowList := [(someFlow, [⟨500, UInt32.ofNat (500 + size), .replicate size 0, false, true⟩])]
  chunkIdReconstructedChunkMap := Function.update (fun _ => none) [] (some headedChunk)
  numDuplicateBytes := 0

variable {size : ℕ}

theorem claiming_blocks : (claimingState size).blocksOf someFlow =
    [⟨500, UInt32.ofNat (500 + size), .replicate size 0, false, true⟩] := by
  simp [Buffers.blocksOf, claimingState]

theorem claiming_sorted (positive : 0 < size) (small : 500 + size < 2 ^ 32) :
    Sorted ((claimingState size).blocksOf someFlow) := by
  have first : (500 : UInt32).toNat = 500 := rfl
  have last : (UInt32.ofNat (500 + size)).toNat = 500 + size := by
    rw [UInt32.toNat_ofNat']
    omega
  rw [claiming_blocks]
  refine ⟨List.forall_mem_singleton.mpr ⟨rfl, ?_, ?_⟩, List.pairwise_singleton ..⟩
  · simp only [nextOf, startOf, first, last, List.length_replicate]
  · simp only [nextOf, startOf, first, last]
    omega

theorem headed_ordered : ChunkAccounts.Ordered headedChunk.length headedChunk.lcb := by
  refine blocks_ok_cons.mpr ⟨⟨⟨rfl, by decide, by decide⟩, by decide, by decide⟩, blocks_ok_nil, nofun⟩

theorem headed_known : headedChunk.flowSeqMap someFlow.toString = some 0 := by
  simp [headedChunk, ReconstructedChunk.setFlowStart]

theorem headed_found : (claimingState size).chunkIdReconstructedChunkMap [] = some headedChunk := by
  simp [claimingState]

theorem headed_covers : covered headedChunk.lcb = Set.Ico 0 68 := by
  show covered [⟨0, 68, .replicate 68 0, false, true⟩] = _
  rw [covered_cons]
  simp [startOf, nextOf]

/-- A block of 1100 bytes from 500 on: it is erased with its last 500 bytes. -/
theorem claimed_tail_lost : ¬ ∀ (mem : Memory) (b : Buffers) (chunkId : ChunkId) (flow : FlowId)
    (pRc : ReconstructedChunk) (start : TcpSeq) (k : ℕ), Sorted (b.blocksOf flow) →
    b.chunkIdReconstructedChunkMap chunkId = some pRc → pRc.flowSeqMap flow.toString = some start →
    ChunkAccounts.Ordered pRc.length pRc.lcb → covered pRc.lcb = Set.Ico 0 k →
    start.toNat + pRc.length < 2 ^ 32 → pRc.length < 2 ^ 31 →
    ∃ b', (b.dealWithCandidatesForChunk mem chunkId flow).result = some b' ∧
      Moved b chunkId flow start.toNat pRc.length b' := by
  intro always
  have sorted : Sorted ((claimingState 1100).blocksOf someFlow) := claiming_sorted (by decide) (by decide)
  obtain ⟨b', ran, moved⟩ := always zeroMemory (claimingState 1100) [] someFlow headedChunk 0 68 sorted headed_found
    headed_known headed_ordered headed_covers (by decide) (by decide)
  rw [deal_with_candidates_eq headed_found headed_known] at ran
  have listed := candidates_blocks ran sorted (copy_of_chunk headed_found headed_known) (by decide) (by decide)
    nofun (by omega)
  rw [claiming_blocks] at listed
  have left := (moved 1100 (by
    rw [claiming_blocks]
    exact ⟨_, List.mem_singleton_self _, by decide, by decide⟩)).2 (Or.inr (by decide))
  rw [listed] at left
  obtain ⟨_, member, _⟩ := left
  obtain ⟨isIt, other⟩ := List.mem_filter.mp member
  cases List.mem_singleton.mp isIt
  exact absurd other (by decide)

/-- A block of 100 bytes from 500 on. -/
theorem claiming_inner_block : (∃ b', ((claimingState 100).dealWithCandidatesForChunk zeroMemory [] someFlow).result =
      some b' ∧ Moved (claimingState 100) [] someFlow 0 1100 b') ↔
    ∀ li ∈ (claimingState 100).blocksOf someFlow,
      (0 < startOf li → startOf li < 0 + 1100 → nextOf li ≤ 0 + 1100) ∧
      (startOf li ≤ 0 → min (nextOf li) (0 + 1100) ≤ 0 + 68) :=
  @claiming_loses_nothing_iff (claimingState 100) [] someFlow 68 0 headedChunk zeroMemory
    (claiming_sorted (by decide) (by decide)) headed_found headed_known headed_ordered headed_covers
    (by decide) (by decide)

end Ditto.ChunkClaiming
