import Ditto.ClaimedRecords

/-! A segment in multi-chance mode, with what it may lose ruled out. Each of its bytes comes to
the chunks that have its number, and to the flow's list if there are none; what was captured
before stays where it is, or goes to the chunk that the segment shows. -/
namespace Ditto.ChanceSteps
open Sniffer Buffers SniffTcp ContiguousBlock ChunkReassembly Spans Windows Words Traces Traced FlowLists
open ChunkHeadings SegmentHandling FlowInsertion FlowStore OverlappingSegments ChunkClaiming HeaderlessSegments
open RecordFraming SettledBytes ChunkStocks ClaimedRecords

variable {streams : Streams} {framing : Framing streams} {told : List Call} {s s' : SniffTcp ChunkInfo}
  {flow : FlowId} {payload : Pointer} {size p length : ℕ} {seq : TcpSeq} {b b' t : Buffers} {mem : Memory}
  {chunkId : ChunkId} {pRc : ReconstructedChunk} {held : ℤ} {low high last : ℕ} {outside : ℕ → Prop}

/-- The chunks have what they had, and a flow's list has at most some bytes more. -/
structure Grows (flow : FlowId) (low high : ℕ) (b b' : Buffers) : Prop where
  chunks : ∀ chunkId pRc, b.chunkIdReconstructedChunkMap chunkId = some pRc →
    ∃ pRc', b'.chunkIdReconstructedChunkMap chunkId = some pRc' ∧ covered pRc.lcb ⊆ covered pRc'.lcb
  kept : covered (b.blocksOf flow) ⊆ covered (b'.blocksOf flow)
  added : covered (b'.blocksOf flow) ⊆ covered (b.blocksOf flow) ∪ Set.Ico low high
  others : ∀ other, other ≠ flow → b'.blocksOf other = b.blocksOf other

theorem Grows.refl (flow : FlowId) (low high : ℕ) (b : Buffers) : Grows flow low high b b :=
  ⟨fun _ pRc found => ⟨pRc, found, subset_rfl⟩, subset_rfl, Set.subset_union_left, fun _ _ => rfl⟩

/-- A chunk has the bytes that it had. -/
theorem Grows.has (grows : Grows flow low high b b') {ci : ChunkInfo} {x : ℕ} (has : Has b ci x) : Has b' ci x := by
  obtain ⟨pRc, found, member⟩ := has
  obtain ⟨pRc', found', kept⟩ := grows.chunks ci.chunkId pRc found
  exact ⟨pRc', found', kept member⟩

/-- The flow's chunks are records of its stream. -/
def AllStand (streams : Streams) (flow : FlowId) (infos : List ChunkInfo) : Prop :=
  ∀ ci ∈ infos, Stands streams flow ci.sSeqNum.toNat ci.chunkId ci.chunkLength

/-! ## The front of a segment -/

/-- The front of a segment reaches its places, and overruns no block of the list. -/
structure Welcome (s : SniffTcp ChunkInfo) (flow : FlowId) (seq : TcpSeq) (last : ℕ) : Prop where
  arrives : Arrives s flow seq last
  ordered : ¬ Overruns (s.buffers.blocksOf flow) (listFrom s flow seq last) (last - listFrom s flow seq last)

theorem Welcome.settles (welcome : Welcome s flow seq last) :
    Settles (s.buffers.blocksOf flow) (listFrom s flow seq last) last (Outside s flow) :=
  ⟨welcome.ordered, welcome.arrives.listed⟩

/-- A chunk that is put in the map with more than it had. -/
theorem grows_update {pRc' : ReconstructedChunk} (found : b.chunkIdReconstructedChunkMap chunkId = some pRc)
    (held : b'.chunkIdReconstructedChunkMap = Function.update b.chunkIdReconstructedChunkMap chunkId (some pRc'))
    (grown : covered pRc.lcb ⊆ covered pRc'.lcb) : ∀ other pRc₁, b.chunkIdReconstructedChunkMap other = some pRc₁ →
      ∃ pRc₂, b'.chunkIdReconstructedChunkMap other = some pRc₂ ∧ covered pRc₁.lcb ⊆ covered pRc₂.lcb := by
  intro other pRc₁ found₁
  by_cases same : other = chunkId
  · subst same
    cases found.symm.trans found₁
    exact ⟨pRc', by rw [held, Function.update_self], grown⟩
  · exact ⟨pRc₁, by rw [held, Function.update_of_ne same, found₁], subset_rfl⟩

/-- Chunks of which one took more bytes of its record. -/
theorem stocked_update {later : List Call} {pRc' : ReconstructedChunk} (stocked : Stocked framing told b)
    (lists : Listed streams wrap b')
    (held : b'.chunkIdReconstructedChunkMap = Function.update b.chunkIdReconstructedChunkMap chunkId (some pRc'))
    (filling : Filling framing (told ++ later) chunkId pRc') (headed : Headed pRc') :
    Stocked framing (told ++ later) b' := by
  refine ⟨lists, fun other pRc found => ?_⟩
  rw [held] at found
  by_cases same : other = chunkId
  · subst same
    rw [Function.update_self] at found
    cases found
    exact ⟨filling, headed⟩
  · rw [Function.update_of_ne same] at found
    obtain ⟨filling, headed⟩ := stocked.chunks other pRc found
    exact ⟨filling.more, headed⟩

/-- **The front of a segment** comes to its places. -/
theorem front_placed (mem : Memory) (held : ℤ) (ready : Ready s) (stocked : Stocked framing told s.buffers)
    (stand : AllStand streams flow (infosOf s flow)) (carries : Carries (streams flow) Set.univ payload size seq)
    (small : size < 2 ^ 31) (welcome : 0 < size → Welcome s flow seq (seq.toNat + size)) :
    ∃ b', (front s mem flow payload size seq held).result = some b' ∧
      Stocked framing (told ++ (front s mem flow payload size seq held).calls) b' ∧
      Grows flow seq.toNat (seq.toNat + size) s.buffers b' ∧ Placed s flow seq.toNat (seq.toNat + size) b' := by
  have fits := carries.fits
  by_cases empty : size = 0
  · subst empty
    rw [front, if_pos rfl]
    refine ⟨s.buffers, rfl, by simpa using stocked, .refl .., fun _ _ x inside => ?_, fun x inside => ?_⟩
    all_goals exact absurd inside (by simp)
  have positive := Nat.pos_of_ne_zero empty
  have welcome := welcome positive
  have free := fun ordered => welcome.settles.free (stocked.lists.ok flow) ordered
  cases chosen : routed s flow seq with
  | none =>
    obtain ⟨b', ran, placed⟩ := front_unrouted ready chosen positive fits mem payload held
    have start : listFrom s flow seq (seq.toNat + size) = seq.toNat := by rw [listFrom, chosen]
    rw [start] at free
    obtain ⟨t, edit, stored, frame, listed, took, others⟩ := insert_settles stocked.lists (by rw [wrap]; omega)
      ⟨positive, by rw [wrap]; omega, carries.agree⟩ (free (by omega)) 0 held
    have shape : front s mem flow payload size seq held =
        Prod.fst <$> s.buffers.insert flow payload size seq 0 held := by
      rw [front, if_neg empty, chosen]
    rw [shape, result_map, stored] at ran
    cases ran
    refine ⟨t, by rw [shape, result_map, stored]; rfl, ⟨listed, fun other pRc found => ?_⟩,
      ⟨fun other pRc found => ⟨pRc, ?_, subset_rfl⟩, took.kept, took.added, others⟩, placed.mpr welcome.arrives⟩
    · rw [frame] at found
      obtain ⟨filling, headed⟩ := stocked.chunks other pRc found
      exact ⟨filling.more, headed⟩
    · rw [frame]
      exact found
  | some ci =>
    obtain ⟨b', ran, placed⟩ := front_routed ready chosen positive small fits mem payload held
    obtain ⟨member, starts, short, inside⟩ := ready.routed_inside chosen
    obtain ⟨lower, upper⟩ := (within_iff (ready.info_fits flow ci member)).mp starts
    obtain ⟨pRc, found, known, len⟩ := chunk_of_copy (ready.copied member)
    obtain ⟨filling, headed⟩ := stocked.chunks ci.chunkId pRc found
    have start : listFrom s flow seq (seq.toNat + size) =
        min (seq.toNat + size) (ci.sSeqNum.toNat + pRc.length) := by rw [listFrom, chosen, len]
    rw [start] at free
    obtain ⟨t, edit, fed, ⟨listed, took, others, pRc', held', _, _, filling', kept, _, _⟩, _⟩ :=
      @fill_and_send_feeds streams framing told ci.chunkId flow size pRc payload ci.sSeqNum seq s.buffers Set.univ
        (Outside s flow) mem stocked.lists found known filling (Or.inl headed) (len ▸ stand ci member) carries
        positive small lower.le (len ▸ upper) fun beyond => by
          rw [Nat.min_eq_right beyond.le] at free
          exact free beyond.le
    have shape : front s mem flow payload size seq held =
        Prod.fst <$> s.buffers.fillAndSend mem ci.chunkId flow payload size seq := by
      rw [front, if_neg empty, chosen]
      rfl
    rw [shape, result_map, fed] at ran
    cases ran
    refine ⟨t, by rw [shape, result_map, fed]; rfl, ?_, ⟨grows_update found held' kept, took.kept,
      took.added.trans (Set.union_subset_union_right _ ?_), others⟩, placed.mpr welcome.arrives⟩
    · rw [shape, calls_map]
      exact stocked_update stocked listed held' filling' (headed.trans kept)
    · rintro x ⟨above, below⟩
      exact ⟨by omega, by omega⟩

/-! ## A chunk that is shown -/

/-- What the flow's list may have of a new chunk: the blocks that start inside it end with its
record, and not just with the chunk if the segment goes on behind it; and the others have no
byte of it but those of the segment. -/
def Claimable (blocks : List ContiguousBlock) (p length last : ℕ) : Prop :=
  ∀ li ∈ blocks,
    (p < startOf li → startOf li < p + length →
      nextOf li ≤ p + (length + 4) ∧ (p + length < last → nextOf li ≠ p + length)) ∧
    (startOf li ≤ p → min (nextOf li) (p + length) ≤ last)

/-- An old block that has the start of one starts with it. -/
theorem begins_kept {source : ℕ → UInt8} {limit : ℕ} {blocks left : List ContiguousBlock} {li li' : ContiguousBlock}
    (ok : BlocksOk source limit left) (kept : covered blocks ⊆ covered left) (member : li' ∈ left)
    (listed : li ∈ blocks) (starts : startOf li ≤ startOf li') (reaches : startOf li' < nextOf li) :
    startOf li = startOf li' := by
  by_contra earlier
  obtain ⟨other, member', lower, upper⟩ : startOf li' - 1 ∈ covered left := kept ⟨li, listed, by omega, by omega⟩
  have proper := (ok.each li' member).proper
  have proper' := (ok.each other member').proper
  rcases same_or_ordered ok.separated member member' with rfl | after | before <;> omega

/-- A list that has grown before the chunk. -/
theorem Claimable.later {source : ℕ → UInt8} {limit : ℕ} {blocks left : List ContiguousBlock}
    (claimable : Claimable blocks p length last) (ok : BlocksOk source limit blocks) (ok' : BlocksOk source limit left)
    (kept : covered blocks ⊆ covered left) (added : covered left ⊆ covered blocks ∪ Set.Ico low p) (ends : p < last) :
    Claimable left p length last := by
  have old : ∀ x ∈ covered left, p ≤ x → x ∈ covered blocks := fun x member above =>
    (added member).resolve_right fun new => Nat.not_lt_of_le above new.2
  intro li' member
  have proper := (ok'.each li' member).proper
  have past : nextOf li' ∉ covered left := end_not_covered ok'.proper ok'.separated member
  by_cases first : p < startOf li'
  · -- the block is one of the old ones
    have inside : Set.Ico (startOf li') (nextOf li') ⊆ covered blocks := fun x ⟨lower, upper⟩ =>
      old x ⟨li', member, lower, upper⟩ (by omega)
    obtain ⟨li, listed, starts, reaches⟩ := interval_within_one ok.proper ok.separated proper inside
    have begins := begins_kept ok' kept member listed starts (by omega)
    have ends : nextOf li = nextOf li' := by
      by_contra further
      exact past (kept ⟨li, listed, by omega, by omega⟩)
    rw [← begins, ← ends]
    exact claimable li listed
  · refine ⟨fun later => absurd later first, fun starts => ?_⟩
    by_contra beyond
    have within : Set.Ico p (last + 1) ⊆ covered blocks := fun x ⟨lower, upper⟩ =>
      old x ⟨li', member, by omega, by omega⟩ lower
    obtain ⟨li, listed, starts', reaches⟩ := interval_within_one ok.proper ok.separated (by omega) within
    have := (claimable li listed).2 starts'
    omega

/-- A list that got what a segment has past the chunk. -/
theorem Claimable.after {source : ℕ → UInt8} {limit : ℕ} {blocks left : List ContiguousBlock}
    (claimable : Claimable blocks p length last) (ok : BlocksOk source limit blocks)
    (took : Took source limit blocks (p + length) last outside left) (beyond : p + length < last) :
    Claimable left p length last := by
  by_cases same : left = blocks
  · rw [same]
    exact claimable
  obtain ⟨ok', kept, added, _, met⟩ := took
  have apart := not_not.mp (mt met same)
  intro li' member
  refine ⟨fun first inside => ?_, fun _ => (Nat.min_le_right ..).trans beyond.le⟩
  have proper := (ok'.each li' member).proper
  by_cases reaches : nextOf li' < p + length
  · omega
  -- an old block would start where this one does, and reach the chunk's end
  have within : Set.Ico (startOf li') (p + length) ⊆ covered blocks := by
    rintro x ⟨lower, upper⟩
    exact (added ⟨li', member, lower, by omega⟩).resolve_right fun new => Nat.not_le_of_lt upper new.1
  obtain ⟨li, listed, starts, ends⟩ := interval_within_one ok.proper ok.separated (by omega) within
  have begins := begins_kept ok' kept member listed starts (by omega)
  have further := ((claimable li listed).1 (by omega) (by omega)).2 beyond
  exact absurd ⟨li, listed, by omega, by omega⟩
    (Set.disjoint_left.mp apart (Set.mem_Ico.mpr ⟨Nat.le_refl _, beyond⟩))

/-- What a chunk and its flow's list have after a segment showed the chunk at `p`. -/
structure Revealed (b : Buffers) (flow : FlowId) (chunkId : ChunkId) (p length last : ℕ) (outside : ℕ → Prop)
    (b' : Buffers) : Prop where
  own : ∃ pRc', b'.chunkIdReconstructedChunkMap chunkId = some pRc' ∧
    (∀ pRc, b.chunkIdReconstructedChunkMap chunkId = some pRc → covered pRc.lcb ⊆ covered pRc'.lcb) ∧
    ∀ x, p ≤ x → x < p + length → x < last ∨ x ∈ covered (b.blocksOf flow) → x - p ∈ covered pRc'.lcb
  rest : ∀ other, other ≠ chunkId → b'.chunkIdReconstructedChunkMap other = b.chunkIdReconstructedChunkMap other
  left : ∀ x ∈ covered (b.blocksOf flow), x < p ∨ p + (length + 4) ≤ x → x ∈ covered (b'.blocksOf flow)
  past : ∀ x, p + (length + 4) ≤ x → x < last → outside x → x ∈ covered (b'.blocksOf flow)
  others : ∀ other, other ≠ flow → b'.blocksOf other = b.blocksOf other

/-- What showing a chunk leaves in the chunks. -/
theorem Revealed.has {ci : ChunkInfo} {x : ℕ} (revealed : Revealed b flow chunkId p length last outside b')
    (has : Has b ci x) : Has b' ci x := by
  obtain ⟨pRc, found, member⟩ := has
  by_cases same : ci.chunkId = chunkId
  · obtain ⟨pRc', held, kept, _⟩ := revealed.own
    rw [same] at found
    exact ⟨pRc', same ▸ held, kept pRc found member⟩
  · exact ⟨pRc, (revealed.rest _ same).trans found, member⟩

/-- A segment that shows a chunk that was there feeds it. -/
theorem announce_old (mem : Memory) (stocked : Stocked framing told b)
    (found : b.chunkIdReconstructedChunkMap chunkId = some pRc) (stands : Stands streams flow seq.toNat chunkId length)
    (carries : Carries (streams flow) Set.univ payload size seq) (enough : 8 ≤ size) (small : size < 2 ^ 31)
    (known : ∀ x ∈ covered (b.blocksOf flow), seq.toNat ≤ x → x < seq.toNat + length →
      x < seq.toNat + size ∨ x - seq.toNat ∈ covered pRc.lcb)
    (free : seq.toNat + length < seq.toNat + size →
      Free (b.blocksOf flow) (seq.toNat + length) (seq.toNat + size) outside) :
    ∃ b', (b.announceChunk mem flow chunkId payload size seq).result = some b' ∧
      Stocked framing (told ++ (b.announceChunk mem flow chunkId payload size seq).calls) b' ∧
      Revealed b flow chunkId seq.toNat length (seq.toNat + size) outside b' := by
  obtain ⟨filling, headed⟩ := stocked.chunks chunkId pRc found
  obtain ⟨_, _, described, _⟩ := stands.described framing
  obtain ⟨_, described', _⟩ := filling.delivered
  obtain ⟨rfl, _⟩ := described.unique described'
  have long := described.long
  simp only [minPayloadLength, minChunkSize, rpcHeaderLen] at long
  have opens : opened b chunkId flow payload seq = pRc.setFlowStart flow.toString seq := by rw [opened, found]; rfl
  have starts : (pRc.setFlowStart flow.toString seq).flowSeqMap flow.toString = some seq := Function.update_self ..
  have filling' : Filling framing told chunkId (pRc.setFlowStart flow.toString seq) :=
    ⟨filling.content, filling.delivered⟩
  obtain ⟨b', edit, ran, ⟨listed, took, others, pRc', held, _, _, full, kept, _, whole⟩, _⟩ :=
    @fill_and_send_feeds streams framing told chunkId flow size (pRc.setFlowStart flow.toString seq) payload seq seq
      (b.setChunk chunkId (pRc.setFlowStart flow.toString seq)) Set.univ outside mem (stocked.lists.same rfl)
      (Function.update_self ..) starts filling' (Or.inl headed) stands carries (by omega) small (Nat.le_refl _)
      (show seq.toNat < seq.toNat + pRc.length by omega) free
  have held : b'.chunkIdReconstructedChunkMap = Function.update b.chunkIdReconstructedChunkMap chunkId (some pRc') := by
    rw [held]
    exact Function.update_idem ..
  have announced : b.announceChunk mem flow chunkId payload size seq = Prod.fst <$>
      (b.setChunk chunkId (pRc.setFlowStart flow.toString seq)).fillAndSend mem chunkId flow payload size seq := by
    simp only [announce_eq, opens, found, reduceCtorEq, if_false, bind_pure_comp]
  have result : (b.announceChunk mem flow chunkId payload size seq).result = some b' := by
    rw [announced, result_map, ran]
    rfl
  -- the first block starts with the chunk, so the segment swallows none
  have clear : ¬ Swallows pRc.lcb (seq.toNat - seq.toNat)
      (min (seq.toNat + size) (seq.toNat + pRc.length) - seq.toNat) := by
    rintro ⟨block, first, late, _⟩
    obtain ⟨data, _, ok, _⟩ := filling.content
    obtain ⟨li, rest, shape, begins, _⟩ := headed_front ok headed
    rw [shape, List.find?_cons_of_pos (by simp)] at first
    cases first
    omega
  refine ⟨b', result, ?_, ⟨pRc', by rw [held, Function.update_self], fun pRc₁ found₁ => ?_, ?_⟩, fun other different =>
    by rw [held, Function.update_of_ne different], fun x member _ => took.kept member, fun x lower upper isOutside =>
    took.settled x ⟨(Nat.add_le_add_left (Nat.le_add_right ..) _).trans lower, ?_⟩ isOutside, others⟩
  · rw [announced, calls_map]
    exact stocked_update stocked listed held full (headed.trans kept)
  · cases found.symm.trans found₁
    exact kept
  · intro x lower upper reached
    have inside : x < seq.toNat + size → x - seq.toNat ∈ covered pRc'.lcb := fun less =>
      whole clear ⟨by omega, show x - seq.toNat < min _ (_ + pRc.length) - _ by omega⟩
    rcases reached with less | member
    · exact inside less
    · exact (known x member lower upper).elim inside fun old => kept old
  · exact Nat.lt_of_lt_of_le upper (Nat.le_max_right ..)

/-- The rounds for a chunk that knows the flow. -/
theorem deal_eq_candidates {start : TcpSeq} (found : b.chunkIdReconstructedChunkMap chunkId = some pRc)
    (known : pRc.flowSeqMap flow.toString = some start) : b.dealWithCandidatesForChunk mem chunkId flow =
      candidatesFrom mem chunkId flow start pRc.length (b.blocksOf flow).length 0 b := by
  simp only [dealWithCandidatesForChunk, found, lift_some_bind, known, Option.getD_some]

/-- The list of a flow after a new chunk took a segment can be claimed as before. -/
theorem claimable_after (claimable : Claimable (b.blocksOf flow) p length last) (listed : Listed streams wrap b)
    (took : Took (streams flow) wrap (b.blocksOf flow) (p + length) (max (p + length) last) outside (t.blocksOf flow))
    (inner : last ≤ p + length → t.pFlowList = b.pFlowList) : Claimable (t.blocksOf flow) p length last := by
  by_cases beyond : p + length < last
  · rw [Nat.max_eq_right beyond.le] at took
    exact claimable.after (listed.ok flow) took beyond
  · rw [blocks_of_eq, inner (by omega), ← blocks_of_eq]
    exact claimable

/-- What a new chunk that took a segment adds to the list of its flow. -/
theorem opened_volume {made : ReconstructedChunk} {edit : Edit} (mem : Memory)
    (starts : made.flowSeqMap flow.toString = some seq) (short : made.length < 2 ^ 31) (enough : 0 < made.length)
    (small : size < 2 ^ 31) (room : volume (b.blocksOf flow) + size < 2 ^ 31)
    (ran : ((b.setChunk chunkId made).fillAndSend mem chunkId flow payload size seq).result = some (t, edit)) :
    volume (t.blocksOf flow) < 2 ^ 31 := by
  have copied : copyOf (b.setChunk chunkId made) chunkId flow = some (seq, made.length) := by
    simp [copyOf, headings, setChunk, starts]
  have inside : (seq - seq).toNat < made.length := by simpa using enough
  have past := past_inside inside short small
  have grown : volume (t.blocksOf flow) ≤ volume (b.blocksOf flow) + _ :=
    (SliceBounds.fill_and_send_grown copied ran).1.volume_le
  omega

/-- The claimed blocks end with the record, so that what is outside it stays in the list. -/
theorem claimed_outer {x : ℕ} (able : Claimable (t.blocksOf flow) seq.toNat pRc.length last)
    (fits : seq.toNat + pRc.length < 2 ^ 32) (claimed : Claimed framing told t chunkId flow pRc seq b')
    (member : x ∈ covered (t.blocksOf flow)) (apart : x < seq.toNat ∨ seq.toNat + (pRc.length + 4) ≤ x) :
    x ∈ covered (b'.blocksOf flow) := by
  obtain ⟨li, listed, lower, upper⟩ := member
  refine ⟨li, ?_, lower, upper⟩
  rw [claimed.left]
  refine List.mem_filter.mpr ⟨listed, ?_⟩
  by_contra isClaimed
  rw [Bool.not_eq_true, Bool.not_eq_false'] at isClaimed
  obtain ⟨behind, inside⟩ : seq.toNat < startOf li ∧ startOf li < seq.toNat + pRc.length :=
    (within_iff fits).mp isClaimed
  have := ((able li listed).1 behind inside).1
  omega

/-- What the list has of the chunk is claimed, or the segment has it too. -/
theorem claimed_inner {x : ℕ} (able : Claimable (t.blocksOf flow) seq.toNat pRc.length last)
    (fits : seq.toNat + pRc.length < 2 ^ 32) (member : x ∈ covered (t.blocksOf flow))
    (inside : x < seq.toNat + pRc.length) :
    x < last ∨ x ∈ covered ((t.blocksOf flow).filter (claims seq pRc.length)) := by
  obtain ⟨li, listed, lower, upper⟩ := member
  by_cases isClaimed : claims seq pRc.length li = true
  · exact Or.inr ⟨li, List.mem_filter.mpr ⟨listed, isClaimed⟩, lower, upper⟩
  · have early : startOf li ≤ seq.toNat := by
      by_contra late
      exact isClaimed ((within_iff fits).mpr ⟨by rw [startOf] at late; omega, by rw [startOf] at lower; omega⟩)
    have := (able li listed).2 early
    exact Or.inl (by omega)

/-- A segment that shows a new chunk makes it, and the chunk claims what its flow has of it. -/
theorem announce_new (mem : Memory) (stocked : Stocked framing told b)
    (unknown : b.chunkIdReconstructedChunkMap chunkId = none) (stands : Stands streams flow seq.toNat chunkId length)
    (shown : getLengthFromByteStream payload = length) (carries : Carries (streams flow) Set.univ payload size seq)
    (enough : 8 ≤ size) (room : volume (b.blocksOf flow) + size < 2 ^ 31) (fits : seq.toNat + length < 2 ^ 32)
    (claimable : Claimable (b.blocksOf flow) seq.toNat length (seq.toNat + size))
    (free : seq.toNat + length < seq.toNat + size →
      Free (b.blocksOf flow) (seq.toNat + length) (seq.toNat + size) outside) :
    ∃ b', (b.announceChunk mem flow chunkId payload size seq).result = some b' ∧
      Stocked framing (told ++ (b.announceChunk mem flow chunkId payload size seq).calls) b' ∧
      Revealed b flow chunkId seq.toNat length (seq.toNat + size) outside b' := by
  obtain ⟨_, _, described, _⟩ := stands.described framing
  have long := described.long
  simp only [minPayloadLength, minChunkSize, rpcHeaderLen] at long
  obtain ⟨made, isMade⟩ : ∃ made, made = (ReconstructedChunk.create chunkId length).setFlowStart flow.toString seq :=
    ⟨_, rfl⟩
  have opens : opened b chunkId flow payload seq = made := by rw [opened, unknown, shown, isMade]; rfl
  have empty : made.lcb = [] := by rw [isMade]; rfl
  have len : made.length = length := by rw [isMade]; rfl
  have starts : made.flowSeqMap flow.toString = some seq := by rw [isMade]; exact Function.update_self ..
  subst len
  obtain ⟨t, edit, ran, ⟨listed, took, others, pRc, held, starts', len', filling, kept, added, whole⟩, inner⟩ :=
    @fill_and_send_feeds streams framing told chunkId flow size made payload seq seq (b.setChunk chunkId made)
      Set.univ outside mem (stocked.lists.same rfl) (Function.update_self ..) starts
      (filling_fresh described empty rfl) (Or.inr ⟨empty, rfl⟩) stands carries (by omega) (by omega) (Nat.le_refl _)
      (by omega) free
  have range := whole (by rw [empty]; rintro ⟨_, found, _⟩; cases found)
  rw [Nat.sub_self] at range added
  have headed : Headed pRc := (Set.Ico_subset_Ico_right (by omega)).trans range
  have found : t.chunkIdReconstructedChunkMap chunkId = some pRc := by rw [held, Function.update_self]
  have known : pRc.flowSeqMap flow.toString = some seq := starts' ▸ starts
  have limited := opened_volume mem starts described.short (by omega) (by omega) room ran
  have able : Claimable (t.blocksOf flow) seq.toNat pRc.length (seq.toNat + size) := by
    rw [len']
    exact claimable_after claimable stocked.lists took fun inside => (inner inside).1
  rw [← len'] at fits stands
  have first : ∀ block ∈ pRc.lcb, startOf block ≤ 0 := by
    obtain ⟨data, _, ok, _⟩ := filling.content
    exact early_after ok (by simp [empty]) kept added range
  obtain ⟨b', ran', claimed⟩ := @candidates_claimed streams framing _ chunkId flow pRc seq t 0
    (t.blocksOf flow).length mem listed found known filling headed stands fits (fun li member => by simp at member)
    (by omega) (fun li member => (length_le_volume member).trans_lt limited) fun li _ isClaimed block within => by
      have behind : seq.toNat < startOf li ∧ _ := (within_iff fits).mp isClaimed
      have := first block within
      omega
  have outer : ∀ x ∈ covered (t.blocksOf flow), x < seq.toNat ∨ seq.toNat + (pRc.length + 4) ≤ x →
      x ∈ covered (b'.blocksOf flow) := fun x member => claimed_outer able fits claimed member
  obtain ⟨listed', _, others', pRc', held', _, _, filling', kept', has⟩ := claimed
  have dealt := @deal_eq_candidates flow t mem chunkId pRc seq found known
  have result : (b.announceChunk mem flow chunkId payload size seq).result = some b' := by
    simp only [announce_eq, opens, unknown, if_true, result_bind, ran, Option.bind_some, dealt, ran']
  have calls : (b.announceChunk mem flow chunkId payload size seq).calls =
      ((b.setChunk chunkId made).fillAndSend mem chunkId flow payload size seq).calls ++
        (candidatesFrom mem chunkId flow seq pRc.length (t.blocksOf flow).length 0 t).calls := by
    simp only [announce_eq, opens, unknown, if_true, calls_bind_some ran, dealt]
  rw [held] at held'
  simp only [setChunk, Function.update_idem] at held'
  rw [← len'] at took ⊢
  refine ⟨b', result, ?_, ⟨pRc', by rw [held', Function.update_self], fun pRc₁ found₁ => ?_, ?_⟩, fun other different =>
    by rw [held', Function.update_of_ne different], fun x member => outer x (took.kept member), fun x lower upper
    isOutside => outer x (took.settled x ⟨by omega, ?_⟩ isOutside) (Or.inr lower), fun other different =>
    (others' other different).trans (others other different)⟩
  · rw [calls]
    rw [List.append_assoc] at filling'
    exact stocked_update stocked listed' held' filling' (headed.trans kept')
  · cases unknown.symm.trans found₁
  · intro x lower upper reached
    have arrived : x < seq.toNat + size → x - seq.toNat ∈ covered pRc'.lcb := fun less =>
      kept' (range ⟨Nat.zero_le _, by omega⟩)
    rcases reached with less | member
    · exact arrived less
    · exact (claimed_inner able fits (took.kept member) upper).elim arrived fun within => has x within upper
  · exact Nat.lt_of_lt_of_le upper (Nat.le_max_right ..)

end Ditto.ChanceSteps
