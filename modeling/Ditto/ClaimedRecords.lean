import Ditto.ChunkStocks

/-! A new chunk that claims blocks of its flow, with what they hold. It has their bytes up to its
end afterwards, the list has the other blocks, and the chunk was sent if these bytes completed
it. -/
namespace Ditto.ClaimedRecords
open Sniffer Buffers ContiguousBlock ChunkReassembly ChunkHistories Spans Windows Words Traces Traced
open ChunkHeadings FlowLists FlowInsertion FlowStore OverlappingSegments ChunkClaiming RecordFraming SettledBytes
open ChunkStocks

variable {streams : Streams} {framing : Framing streams} {told later : List Call} {chunkId : ChunkId}
  {flow : FlowId} {length limit first last : ℕ} {pRc pRc' : ReconstructedChunk} {source : ℕ → UInt8}
  {li : ContiguousBlock} {blocks left lcb lcb' : List ContiguousBlock} {start : TcpSeq} {b b' t : Buffers}
  {mem : Memory}

theorem blocks_ok_sublist (ok : BlocksOk source limit blocks) (part : left.Sublist blocks) :
    BlocksOk source limit left :=
  ⟨fun li member => ok.each li (part.subset member), ok.separated.sublist part⟩

theorem sorted_of_ok (ok : BlocksOk source limit blocks) : Sorted blocks :=
  ⟨plain_of_ok ok, ok.separated.imp Nat.le_of_lt⟩

/-- A block of a list is what its stream has. -/
theorem block_carries (ok : BlocksOk source limit blocks) (member : li ∈ blocks) (mem : Memory) :
    Carries source Set.univ (mem.cStr li.contiguousBlock) li.contiguousBlock.length li.startingSeqNumber :=
  Stored.carries ⟨(ok.each li member).holds, fun _ _ _ => trivial⟩ mem

/-- The lists without one block. -/
theorem erased_listed {index : ℕ} (listed : Listed streams limit b) :
    Listed streams limit { b with pFlowList := eraseBlock flow index b.pFlowList } := by
  obtain ⟨own, others⟩ := @erase_block_blocks b.pFlowList flow index
  have part : ∀ other, (({ b with pFlowList := eraseBlock flow index b.pFlowList } : Buffers).blocksOf other).Sublist
      (b.blocksOf other) := by
    intro other
    by_cases same : other = flow
    · rw [same, blocks_of_eq, own, blocks_of_eq]
      exact List.eraseIdx_sublist ..
    · rw [blocks_of_eq, others other same, blocks_of_eq]
  exact ⟨fun other => blocks_ok_sublist (listed.ok other) (part other),
    fun other li member => listed.unread other li ((part other).subset member)⟩

/-- What a chunk that took a range starting no earlier than its blocks has. -/
theorem early_after (ok : BlocksOk source limit lcb') (early : ∀ block ∈ lcb, startOf block ≤ first)
    (kept : covered lcb ⊆ covered lcb') (added : covered lcb' ⊆ covered lcb ∪ Set.Ico first last)
    (whole : Set.Ico first last ⊆ covered lcb') : ∀ block ∈ lcb', startOf block ≤ first :=
  starts_by ok early (Set.Subset.antisymm added (Set.union_subset kept whole))

/-- What a chunk is after it took a block that it claims, in the chunks as they are then. -/
structure Handed {streams : Streams} (framing : Framing streams) (told : List Call) (b : Buffers) (chunkId : ChunkId)
    (pRc : ReconstructedChunk) (start : TcpSeq) (li : ContiguousBlock) (t : Buffers) (made : ReconstructedChunk) :
    Prop where
  lists : t.pFlowList = b.pFlowList
  held : t.chunkIdReconstructedChunkMap = Function.update b.chunkIdReconstructedChunkMap chunkId (some made)
  starts : made.flowSeqMap = pRc.flowSeqMap
  length_eq : made.length = pRc.length
  filling : Filling framing told chunkId made
  kept : covered pRc.lcb ⊆ covered made.lcb
  taken : ∀ x, startOf li ≤ x → x < nextOf li → x < start.toNat + pRc.length → x - start.toNat ∈ covered made.lcb
  early : ∀ block ∈ made.lcb, start.toNat + startOf block ≤ startOf li

/-- **A block that a chunk claims** is handed over up to the chunk's end. What it has past that is
handed to the list, where it meets the block itself. -/
theorem claimed_block_handed (mem : Memory) (listed : Listed streams wrap b)
    (found : b.chunkIdReconstructedChunkMap chunkId = some pRc)
    (known : pRc.flowSeqMap flow.toString = some start) (filling : Filling framing told chunkId pRc)
    (headed : Headed pRc) (stands : Stands streams flow start.toNat chunkId pRc.length)
    (fits : start.toNat + pRc.length < 2 ^ 32) (member : li ∈ b.blocksOf flow)
    (starts : claims start pRc.length li = true) (short : li.contiguousBlock.length < 2 ^ 31)
    (early : ∀ block ∈ pRc.lcb, start.toNat + startOf block ≤ startOf li) :
    ∃ t made, (b.fillAndSend mem chunkId flow (mem.cStr li.contiguousBlock)
        (toInt (UInt32.ofNat li.contiguousBlock.length)) li.startingSeqNumber).result = some (t, .kept) ∧
      Handed framing (told ++ (b.fillAndSend mem chunkId flow (mem.cStr li.contiguousBlock)
        (toInt (UInt32.ofNat li.contiguousBlock.length)) li.startingSeqNumber).calls) b chunkId pRc start li t made := by
  have ok := listed.ok flow
  have sorted := sorted_of_ok ok
  obtain ⟨lower, upper⟩ : start.toNat < startOf li ∧ startOf li < start.toNat + pRc.length :=
    (within_iff fits).mp starts
  obtain ⟨_, sized, proper⟩ := sorted.plain li member
  obtain ⟨_, described, _⟩ := filling.delivered
  have number : li.startingSeqNumber.toNat = startOf li := rfl
  have past : start.toNat + pRc.length < nextOf li →
      ∀ other ∈ b.blocksOf flow, nextOf other ≠ start.toNat + pRc.length := fun beyond => by
    have overlaps : Overlaps (b.blocksOf flow) (start.toNat + pRc.length) 1 := sorted.overlaps member upper beyond
    exact no_end_of_overlaps ok overlaps
  rw [to_int_length short]
  obtain ⟨t, edit, ran, ⟨_, _, _, made, held, starts', length, filling', kept, added, taken⟩, _⟩ :=
    @fill_and_send_feeds streams framing told chunkId flow li.contiguousBlock.length pRc
      (mem.cStr li.contiguousBlock) start li.startingSeqNumber b Set.univ (fun _ => False) mem listed found known
      filling (Or.inl headed) stands (block_carries ok member mem) (by omega) short lower.le upper
      fun beyond => Or.inr ⟨past (by omega), fun _ _ => False.elim⟩
  have copied : copyOf b chunkId flow = some (start, pRc.length) := by
    simp [copyOf, headings, found, known]
  have ran₁ := ran
  rw [← to_int_length short] at ran₁
  obtain ⟨same, rfl⟩ := round_lists sorted member copied fits described.short starts ran₁
  rw [number, ← sized] at added taken
  -- the chunk's blocks all start before the block, so that it swallows none
  have before : ∀ block ∈ pRc.lcb, startOf block ≤ startOf li - start.toNat := fun block held => by
    have := early block held
    omega
  have range := taken (by
    rintro ⟨block, first, late, _⟩
    have := before block (List.mem_of_find?_eq_some first)
    omega)
  obtain ⟨data, _, ok', _⟩ := filling'.content
  refine ⟨t, made, ran, same, held, starts', length, filling', kept, fun x above below inside =>
    range ⟨by omega, by omega⟩, fun block member' => ?_⟩
  have := early_after ok' before kept added range block member'
  omega

/-- What the claimed blocks of a flow have become. -/
structure Claimed {streams : Streams} (framing : Framing streams) (told : List Call) (b : Buffers) (chunkId : ChunkId)
    (flow : FlowId) (pRc : ReconstructedChunk) (start : TcpSeq) (b' : Buffers) : Prop where
  lists : Listed streams wrap b'
  left : b'.blocksOf flow = (b.blocksOf flow).filter fun li => !claims start pRc.length li
  others : ∀ other, other ≠ flow → b'.blocksOf other = b.blocksOf other
  chunk : ∃ pRc', b'.chunkIdReconstructedChunkMap =
      Function.update b.chunkIdReconstructedChunkMap chunkId (some pRc') ∧
    pRc'.flowSeqMap = pRc.flowSeqMap ∧ pRc'.length = pRc.length ∧ Filling framing told chunkId pRc' ∧
    covered pRc.lcb ⊆ covered pRc'.lcb ∧
    ∀ x ∈ covered ((b.blocksOf flow).filter (claims start pRc.length)), x < start.toNat + pRc.length →
      x - start.toNat ∈ covered pRc'.lcb

/-- Nothing is claimed where no block starts in the chunk. -/
theorem claimed_none (listed : Listed streams wrap b) (found : b.chunkIdReconstructedChunkMap chunkId = some pRc)
    (filling : Filling framing told chunkId pRc)
    (none : ∀ li ∈ b.blocksOf flow, claims start pRc.length li = false) :
    Claimed framing told b chunkId flow pRc start b where
  lists := listed
  left := (List.filter_eq_self.mpr fun li member => by simp [none li member]).symm
  others := fun _ _ => rfl
  chunk := ⟨pRc, by rw [← found, Function.update_eq_self], rfl, rfl, filling, subset_rfl,
    fun x member => absurd member (takes_none none x)⟩

/-- The first block that is claimed, and what is claimed when it is erased. -/
theorem Handed.claimed {before after : List ContiguousBlock} {made : ReconstructedChunk}
    (handed : Handed framing told b chunkId pRc start li t made) (shape : b.blocksOf flow = before ++ li :: after)
    (clear : ∀ other ∈ before, claims start pRc.length other = false) (starts : claims start pRc.length li = true)
    (claimed : Claimed framing later { t with pFlowList := eraseBlock flow before.length t.pFlowList } chunkId flow
      made start b') : Claimed framing later b chunkId flow pRc start b' := by
  obtain ⟨same, held, starts', length, _, kept, taken, _⟩ := handed
  obtain ⟨listed, left, others, pRc', held', starts'', length', filling, kept', claimed⟩ := claimed
  have erased := blocks_of_erased same shape rfl
  rw [erased, length] at left claimed
  refine ⟨listed, left.trans ?_, fun other different => ?_, pRc', ?_, starts''.trans starts', length'.trans length,
    filling, kept.trans kept', fun x within inside => ?_⟩
  · rw [shape, List.filter_append, List.filter_append, List.filter_cons_of_neg (by simp [starts])]
  · rw [others other different, blocks_of_eq, (erase_block_blocks _).2 other different, blocks_of_eq, same]
  · have chunks : ({ t with pFlowList := eraseBlock flow before.length t.pFlowList } :
        Buffers).chunkIdReconstructedChunkMap = t.chunkIdReconstructedChunkMap := rfl
    rw [held', chunks, held, Function.update_idem]
  · rw [shape, filter_behind clear, List.filter_cons_of_pos starts, covered_cons] at within
    rcases within with ⟨above, below⟩ | within
    · exact kept' (taken x above below inside)
    · refine claimed x ?_ inside
      rwa [filter_behind clear]

/-- **The rounds hand over** what the claimed blocks hold. -/
theorem candidates_claimed {index rounds : ℕ} (mem : Memory) (listed : Listed streams wrap b)
    (found : b.chunkIdReconstructedChunkMap chunkId = some pRc)
    (known : pRc.flowSeqMap flow.toString = some start) (filling : Filling framing told chunkId pRc)
    (headed : Headed pRc) (stands : Stands streams flow start.toNat chunkId pRc.length)
    (fits : start.toNat + pRc.length < 2 ^ 32)
    (passed : Skipped start pRc.length index (b.blocksOf flow))
    (enough : (b.blocksOf flow).length ≤ index + rounds)
    (short : ∀ li ∈ b.blocksOf flow, li.contiguousBlock.length < 2 ^ 31)
    (early : ∀ li ∈ b.blocksOf flow, claims start pRc.length li = true →
      ∀ block ∈ pRc.lcb, start.toNat + startOf block ≤ startOf li) :
    ∃ b', (candidatesFrom mem chunkId flow start pRc.length rounds index b).result = some b' ∧
      Claimed framing (told ++ (candidatesFrom mem chunkId flow start pRc.length rounds index b).calls) b chunkId
        flow pRc start b' := by
  induction rounds generalizing index b pRc told with
  | zero => exact ⟨b, rfl, claimed_none listed found filling.more (passed.all enough)⟩
  | succ rounds ih =>
    rw [candidatesFrom]
    split
    · rename_i none
      exact ⟨b, rfl, claimed_none listed found filling.more (passed.none_left none)⟩
    · rename_i skipped found'
      obtain ⟨li, before, after, shape, place, starts, clear⟩ := round_shape passed found'
      have isIt := block_between shape place
      have member : li ∈ b.blocksOf flow := List.mem_of_getElem? isIt
      have sorted := sorted_of_ok (listed.ok flow)
      obtain ⟨t, made, ran, handed⟩ := claimed_block_handed mem listed found known filling headed stands fits member
        starts (short li member) (early li member starts)
      have erased := blocks_of_erased handed.lists shape place
      have length := handed.length_eq
      have part : (before ++ after).Sublist (b.blocksOf flow) := by
        rw [shape]
        exact (List.sublist_cons_self li after).append_left before
      have later := early_behind sorted shape clear handed.early
      have held : ({ t with pFlowList := eraseBlock flow (index + skipped) t.pFlowList } :
          Buffers).chunkIdReconstructedChunkMap chunkId = some made := by
        show t.chunkIdReconstructedChunkMap chunkId = some made
        rw [handed.held, Function.update_self]
      rw [shape, List.length_append, List.length_cons] at enough
      obtain ⟨b', ran', claimed⟩ := @ih _ made { t with pFlowList := eraseBlock flow (index + skipped) t.pFlowList }
        (index + skipped) (erased_listed (listed.same handed.lists)) held (handed.starts ▸ known) handed.filling
        (headed.trans handed.kept) (length ▸ stands) (length ▸ fits)
        (by rw [erased, Skipped, ← place, List.take_left, length]; exact clear)
        (by rw [erased, List.length_append]; omega)
        (by rw [erased]; exact fun li2 member2 => short li2 (part.subset member2))
        (by rw [erased, length]; exact later)
      rw [length] at ran' claimed
      have result : (lift (b.blocksOf flow)[index + skipped]? : Traced Call ContiguousBlock).result = some li := isIt
      refine ⟨b', ?_, handed.claimed shape clear starts ?_⟩
      · rw [result_bind, result, Option.bind_some, result_bind, ran, Option.bind_some, result_bind, result_lift]
        exact ran'
      · have moved : (lift (Edit.kept.moved (index + skipped)) : Traced Call ℕ).result = some (index + skipped) := rfl
        rw [calls_bind_some result, calls_bind_some ran, calls_lift, List.nil_append, calls_bind_some moved, calls_lift,
          List.nil_append, ← List.append_assoc, place]
        exact claimed

end Ditto.ClaimedRecords
