import Ditto.SniffTcp

/-! What packet handling does to the starts and lengths that the chunks have. Only a
segment that shows a chunk id changes them, and it sets the start of its own flow;
bytes that move between the lists and the chunks leave them alone. -/
namespace Ditto.ChunkHeadings
open Sniffer Buffers Words Traces Traced

/-- The starts of a chunk's copies by flow, and the chunk's length. -/
abbrev Heading := (String → Option TcpSeq) × ℕ

/-- The headings of the chunks. -/
def headings (b : Buffers) (chunkId : ChunkId) : Option Heading :=
  (b.chunkIdReconstructedChunkMap chunkId).map fun pRc => (pRc.flowSeqMap, pRc.length)

/-- The start of a flow's copy of a chunk, and the chunk's length. -/
def copyOf (b : Buffers) (chunkId : ChunkId) (flow : FlowId) : Option (TcpSeq × ℕ) :=
  (headings b chunkId).bind fun heading => (heading.1 flow.toString).map fun start => (start, heading.2)

/-- The heading of a chunk that a segment of a flow shows at a sequence number. -/
def announced (b : Buffers) (chunkId : ChunkId) (flow : FlowId) (payload : Pointer) (seq : TcpSeq) :
    Heading :=
  match headings b chunkId with
  | none => (Function.update (fun _ => none) flow.toString (some seq), getLengthFromByteStream payload)
  | some heading => (Function.update heading.1 flow.toString (some seq), heading.2)

variable {b b' : Buffers} {flow : FlowId} {chunkId : ChunkId} {payload : Pointer} {seq : TcpSeq}
  {size first held : ℤ} {edit : Edit} {mem : Memory} {pRc : ReconstructedChunk}

theorem headings_of_lists {flows : List (FlowId × List ContiguousBlock)} :
    headings { b with pFlowList := flows } = headings b := rfl

theorem headings_set_chunk (b : Buffers) (chunkId : ChunkId) (pRc : ReconstructedChunk) :
    headings (b.setChunk chunkId pRc) =
      Function.update (headings b) chunkId (some (pRc.flowSeqMap, pRc.length)) := by
  funext other
  by_cases isIt : other = chunkId
  · subst isIt
    simp [headings, setChunk]
  · simp [headings, setChunk, isIt]

/-- A chunk put back with its heading changes none. -/
theorem headings_set_same {pRc' : ReconstructedChunk} (held : b.chunkIdReconstructedChunkMap chunkId = some pRc)
    (same : (pRc'.flowSeqMap, pRc'.length) = (pRc.flowSeqMap, pRc.length)) :
    headings (b.setChunk chunkId pRc') = headings b := by
  have found : headings b chunkId = some (pRc.flowSeqMap, pRc.length) := by simp [headings, held]
  rw [headings_set_chunk, same, ← found, Function.update_eq_self]

theorem copy_of_chunk {start : TcpSeq} (held : b.chunkIdReconstructedChunkMap chunkId = some pRc)
    (known : pRc.flowSeqMap flow.toString = some start) :
    copyOf b chunkId flow = some (start, pRc.length) := by
  simp [copyOf, headings, held, known]

theorem chunk_of_copy {start : TcpSeq} {length : ℕ} (copied : copyOf b chunkId flow = some (start, length)) :
    ∃ pRc, b.chunkIdReconstructedChunkMap chunkId = some pRc ∧
      pRc.flowSeqMap flow.toString = some start ∧ pRc.length = length := by
  obtain ⟨heading, found, copied⟩ := Option.bind_eq_some_iff.mp copied
  obtain ⟨pRc, held, rfl⟩ := Option.map_eq_some_iff.mp found
  obtain ⟨other, known, same⟩ := Option.map_eq_some_iff.mp copied
  obtain ⟨rfl, rfl⟩ := Prod.mk.inj same
  exact ⟨pRc, held, known, rfl⟩

/-- An insertion changes the flow lists alone. -/
theorem insert_frame (ran : (b.insert flow payload size seq first held).result = some (b', edit)) :
    insertFlow flow payload size seq b.pFlowList = some (b'.pFlowList, edit) ∧
      b' = { b with pFlowList := b'.pFlowList } := by
  obtain ⟨_, _, ran⟩ := bind_eq_some.mp ran
  obtain ⟨⟨flows, _⟩, walked, ran⟩ := bind_eq_some.mp ran
  cases ran
  exact ⟨walked, rfl⟩

theorem insert_past_frame {diff : ℤ}
    (ran : (b.insertPast flow payload diff size seq).result = some (b', edit)) :
    b' = { b with pFlowList := b'.pFlowList } := by
  rw [insertPast] at ran
  split at ran
  · exact (insert_frame ran).2
  · cases ran
    rfl

theorem fill_gaps_heading {pRc' : ReconstructedChunk} {name : String} {dups dups' : UInt64}
    {done : Bool} (ran : pRc.fillGapsInChunk name payload size seq dups = some (pRc', dups', done)) :
    (pRc'.flowSeqMap, pRc'.length) = (pRc.flowSeqMap, pRc.length) := by
  rw [ReconstructedChunk.fillGapsInChunk] at ran
  split at ran
  · cases ran
    rfl
  · obtain ⟨⟨lcb, counted, isDuplicate⟩, _, ran⟩ := Option.bind_eq_some_iff.mp ran
    cases isDuplicate with
    | true =>
      cases ran
      rfl
    | false =>
      obtain ⟨front, _, ran⟩ := Option.bind_eq_some_iff.mp ran
      cases ran
      rfl

/-- What `fill_gaps_in_chunk` does to a chunk that knows the flow: the bytes past it are
inserted, and it takes the others. -/
theorem fill_gaps_cases {done : Bool} (found : b.chunkIdReconstructedChunkMap chunkId = some pRc)
    {start : TcpSeq} (known : pRc.flowSeqMap flow.toString = some start)
    (ran : (b.fillGapsInChunk chunkId flow payload size seq).result = some (b', done, edit)) :
    ∃ t pRc' dups, (b.insertPast flow payload (pastChunk start pRc.length size seq) size seq).result =
        some (t, edit) ∧
      pRc.fillGapsInChunk flow.toString payload (size - pastChunk start pRc.length size seq) seq
        t.numDuplicateBytes = some (pRc', dups, done) ∧
      b' = { t.setChunk chunkId pRc' with numDuplicateBytes := dups } := by
  obtain ⟨other, held, ran⟩ := bind_eq_some.mp ran
  obtain rfl := Option.some_inj.mp (found.symm.trans held)
  simp only [known] at ran
  obtain ⟨⟨t, inserted⟩, stored, ran⟩ := bind_eq_some.mp ran
  obtain ⟨_, _, ran⟩ := bind_eq_some.mp ran
  obtain ⟨⟨pRc', dups, finished⟩, filled, ran⟩ := bind_eq_some.mp ran
  cases ran
  exact ⟨t, pRc', dups, stored, filled, rfl⟩

/-- What `fill_gaps_in_chunk` does: a segment of a flow that the chunk does not know is dropped. -/
theorem fill_gaps_ends {done : Bool}
    (ran : (b.fillGapsInChunk chunkId flow payload size seq).result = some (b', done, edit)) :
    ∃ pRc, b.chunkIdReconstructedChunkMap chunkId = some pRc ∧
      (pRc.flowSeqMap flow.toString = none ∧ b' = b ∧ done = false ∨
        ∃ start t pRc' dups, pRc.flowSeqMap flow.toString = some start ∧
          (b.insertPast flow payload (pastChunk start pRc.length size seq) size seq).result = some (t, edit) ∧
          pRc.fillGapsInChunk flow.toString payload (size - pastChunk start pRc.length size seq) seq
            t.numDuplicateBytes = some (pRc', dups, done) ∧
          b' = { t.setChunk chunkId pRc' with numDuplicateBytes := dups }) := by
  obtain ⟨pRc, found, rest⟩ := bind_eq_some.mp ran
  refine ⟨pRc, found, ?_⟩
  cases known : pRc.flowSeqMap flow.toString with
  | none =>
    simp only [known] at rest
    obtain ⟨_, _, rest⟩ := bind_eq_some.mp rest
    cases rest
    exact .inl ⟨rfl, rfl, rfl⟩
  | some start =>
    obtain ⟨t, pRc', dups, stored, filled, rfl⟩ := fill_gaps_cases found known ran
    exact .inr ⟨start, t, pRc', dups, rfl, stored, filled, rfl⟩

/-- A chunk that takes bytes keeps its heading, and so do all others. -/
theorem fill_gaps_headings {done : Bool}
    (ran : (b.fillGapsInChunk chunkId flow payload size seq).result = some (b', done, edit)) :
    headings b' = headings b := by
  obtain ⟨pRc, found, ⟨-, rfl, -⟩ | ⟨start, t, pRc', dups, -, stored, filled, rfl⟩⟩ := fill_gaps_ends ran
  · rfl
  · have frame := insert_past_frame stored
    show headings (t.setChunk chunkId pRc') = headings b
    rw [headings_set_same (by rw [frame]; exact found) (fill_gaps_heading filled), frame]
    rfl

/-- Sending a chunk that is done changes nothing. -/
theorem fill_and_send_cases
    (ran : (b.fillAndSend mem chunkId flow payload size seq).result = some (b', edit)) :
    ∃ done, (b.fillGapsInChunk chunkId flow payload size seq).result = some (b', done, edit) := by
  obtain ⟨⟨t, done, inserted⟩, filled, ran⟩ := bind_eq_some.mp ran
  obtain ⟨_, _, ran⟩ := bind_eq_some.mp ran
  cases ran
  exact ⟨done, filled⟩

theorem fill_and_send_headings
    (ran : (b.fillAndSend mem chunkId flow payload size seq).result = some (b', edit)) :
    headings b' = headings b := by
  obtain ⟨done, filled⟩ := fill_and_send_cases ran
  exact fill_gaps_headings filled

/-- The block that a round of the candidates takes. -/
theorem candidate_found {start : TcpSeq} {length index skipped : ℕ} {li : ContiguousBlock}
    (found : ((b.blocksOf flow).drop index).findIdx? (fun li =>
      within start length li.startingSeqNumber) = some skipped)
    (taken : (b.blocksOf flow)[index + skipped]? = some li) :
    li ∈ b.blocksOf flow ∧ within start length li.startingSeqNumber := by
  obtain ⟨bound, fits, _⟩ := List.findIdx?_eq_some_iff_getElem.mp found
  rw [List.getElem_drop, Option.some_inj.mp ((List.getElem?_eq_getElem _).symm.trans taken)] at fits
  exact ⟨List.mem_of_getElem? taken, fits⟩

/-- What survives each round of the candidates survives all of them. -/
theorem candidates_invariant (Inv : Buffers → Prop) {start : TcpSeq} {length index rounds : ℕ}
    (kept : ∀ t t' i li inserted place, Inv t → (t.blocksOf flow)[i]? = some li →
      within start length li.startingSeqNumber →
      (t.fillAndSend mem chunkId flow (mem.cStr li.contiguousBlock)
        (toInt (UInt32.ofNat li.contiguousBlock.length)) li.startingSeqNumber).result =
          some (t', inserted) → inserted.moved i = some place →
      Inv { t' with pFlowList := eraseBlock flow place t'.pFlowList }) (holds : Inv b)
    (ran : (candidatesFrom mem chunkId flow start length rounds index b).result = some b') : Inv b' := by
  induction rounds generalizing index b with
  | zero =>
    cases ran
    exact holds
  | succ rounds ih =>
    rw [candidatesFrom] at ran
    split at ran
    · cases ran
      exact holds
    · rename_i skipped found
      obtain ⟨li, taken, ran⟩ := bind_eq_some.mp ran
      obtain ⟨⟨t, inserted⟩, filled, ran⟩ := bind_eq_some.mp ran
      obtain ⟨place, moved, ran⟩ := bind_eq_some.mp ran
      obtain ⟨_, inside⟩ := candidate_found found taken
      exact ih (kept _ _ _ _ _ _ holds taken inside filled moved) ran

theorem candidates_headings {start : TcpSeq} {length index rounds : ℕ}
    (ran : (candidatesFrom mem chunkId flow start length rounds index b).result = some b') :
    headings b' = headings b := by
  apply candidates_invariant (fun t => headings t = headings b) ?_ rfl ran
  intro t t' i li inserted place same _ _ filled _
  rw [headings_of_lists, fill_and_send_headings filled, same]

/-- The chunk an announcement works on. -/
def opened (b : Buffers) (chunkId : ChunkId) (flow : FlowId) (payload : Pointer) (seq : TcpSeq) :
    ReconstructedChunk :=
  ((b.chunkIdReconstructedChunkMap chunkId).getD
    (.create chunkId (getLengthFromByteStream payload))).setFlowStart flow.toString seq

theorem opened_heading : ((opened b chunkId flow payload seq).flowSeqMap,
    (opened b chunkId flow payload seq).length) = announced b chunkId flow payload seq := by
  cases found : b.chunkIdReconstructedChunkMap chunkId <;>
    simp [opened, announced, headings, found, ReconstructedChunk.setFlowStart, ReconstructedChunk.create]

/-- What a segment that shows a chunk id does: the chunk takes it, and a new chunk takes
the candidates. -/
theorem announce_eq (b : Buffers) (mem : Memory) (flow : FlowId) (chunkId : ChunkId) (payload : Pointer)
    (size : ℕ) (seq : TcpSeq) : b.announceChunk mem flow chunkId payload size seq = (do
    let r ← (b.setChunk chunkId (opened b chunkId flow payload seq)).fillAndSend mem chunkId flow
      payload size seq
    if b.chunkIdReconstructedChunkMap chunkId = none then r.1.dealWithCandidatesForChunk mem chunkId flow
    else pure r.1) := by
  cases found : b.chunkIdReconstructedChunkMap chunkId <;> simp [announceChunk, opened, found]

theorem announce_cases {size : ℕ}
    (ran : (b.announceChunk mem flow chunkId payload size seq).result = some b') :
    ∃ t edit, ((b.setChunk chunkId (opened b chunkId flow payload seq)).fillAndSend mem chunkId flow
        payload size seq).result = some (t, edit) ∧
      (b' = t ∨ headings b chunkId = none ∧
        (t.dealWithCandidatesForChunk mem chunkId flow).result = some b') := by
  rw [announce_eq] at ran
  obtain ⟨⟨t, edit⟩, filled, ran⟩ := bind_eq_some.mp ran
  refine ⟨t, edit, filled, ?_⟩
  split at ran
  · rename_i fresh
    exact Or.inr ⟨by simp [headings, fresh], ran⟩
  · cases ran
    exact Or.inl rfl

theorem announce_headings {size : ℕ}
    (ran : (b.announceChunk mem flow chunkId payload size seq).result = some b') :
    headings b' = Function.update (headings b) chunkId (some (announced b chunkId flow payload seq)) := by
  obtain ⟨t, edit, filled, after⟩ := announce_cases ran
  have same : headings t = Function.update (headings b) chunkId
      (some (announced b chunkId flow payload seq)) := by
    rw [fill_and_send_headings filled, headings_set_chunk, opened_heading]
  rcases after with rfl | ⟨_, ran⟩
  · exact same
  · obtain ⟨pRc, _, ran⟩ := bind_eq_some.mp ran
    rw [candidates_headings ran, same]

/-- An announcement makes the flow's copy start at the segment. -/
theorem copy_of_announced : copyOf (b.setChunk chunkId (opened b chunkId flow payload seq)) chunkId flow =
    some (seq, (opened b chunkId flow payload seq).length) := by
  simp [copyOf, headings_set_chunk, opened, ReconstructedChunk.setFlowStart]

theorem get_chunk_id_offset {size offset : ℕ}
    (found : getChunkId payload size = some (chunkId, offset)) : offset < size := by
  obtain ⟨first, searched, found⟩ := Option.bind_eq_some_iff.mp found
  obtain ⟨chunkRes, _, found⟩ := Option.bind_eq_some_iff.mp found
  cases found
  exact List.mem_range.mp (List.mem_of_find?_eq_some searched)

/-! ## Distances -/

variable {start : TcpSeq} {count length : ℕ}

/-- From inside a chunk, the bytes past its end are counted exactly. -/
theorem past_inside (inside : (seq - start).toNat < length) (short : length < 2 ^ 31)
    (small : count < 2 ^ 31) :
    pastChunk start length count seq = max 0 (((seq - start).toNat + count : ℕ) - length : ℤ) := by
  have bound := seq.toNat_lt
  have bound' := start.toNat_lt
  have size_eq : (UInt32.ofInt count).toNat = count := by
    rw [toNat_ofInt]
    omega
  have length_eq : (UInt32.ofInt length).toNat = length := by
    rw [toNat_ofInt]
    omega
  rw [UInt32.toNat_sub] at inside ⊢
  rw [pastChunk, toInt, UInt32.toNat_sub, UInt32.toNat_add, UInt32.toNat_add, size_eq, length_eq]
  omega

/-- From the start of a chunk on, all bytes are handed over, or all the chunk has. -/
theorem past_start (short : length < 2 ^ 31) :
    pastChunk start length count start ≤ count - (min count length : ℕ) := by
  have bound := start.toNat_lt
  have word : (start + UInt32.ofInt count - (start + UInt32.ofInt length)).toNat =
      (2 ^ 32 - length + count % 2 ^ 32) % 2 ^ 32 := by
    rw [UInt32.toNat_sub, UInt32.toNat_add, UInt32.toNat_add, toNat_ofInt, toNat_ofInt]
    omega
  rw [pastChunk, toInt, word]
  omega

/-- What starts inside a chunk by the plain comparisons is inside it. -/
theorem inside_of_within (inside : within start length seq) (short : length < 2 ^ 31) :
    (seq - start).toNat < length := by
  simp only [within, decide_eq_true_eq] at inside
  have first := UInt32.lt_iff_toNat_lt.mp inside.1
  have second := UInt32.lt_iff_toNat_lt.mp inside.2
  have length_eq : (UInt32.ofInt length).toNat = length := by
    rw [toNat_ofInt]
    omega
  have bound := start.toNat_lt
  rw [UInt32.toNat_add, length_eq] at second
  rw [toNat_sub_eq (by omega)]
  omega

end Ditto.ChunkHeadings
