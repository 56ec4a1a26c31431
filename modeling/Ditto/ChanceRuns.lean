import Ditto.ChanceSteps
import Ditto.FlowNames

/-! A capture in multi-chance mode that loses nothing. Whatever a flow has captured is in every
chunk of the flow that has its number, and in the flow's list if it is in no record with a
chunk. A step keeps this when the segment's bytes and those that a new chunk claims arrive;
the conditions are on the state that the segment meets. -/
namespace Ditto.ChanceRuns
open Sniffer Buffers SniffTcp ContiguousBlock ChunkReassembly Spans Windows Words Traces Traced FlowLists Runs
open ChunkHeadings SegmentHandling FlowInsertion FlowStore OverlappingSegments ChunkClaiming HeaderlessSegments
open RecordFraming SettledBytes ChunkStocks ClaimedRecords ChanceSteps
open FlowIdentity (Captured)

/-- The numbers of a chunk's record, with the four bytes behind the chunk. -/
def recordRange (ci : ChunkInfo) : Set ℕ := Set.Ico ci.sSeqNum.toNat (ci.sSeqNum.toNat + (ci.chunkLength + 4))

/-- A position of a flow is where it belongs, when the flow has these chunks. -/
structure InPlace (infos : List ChunkInfo) (b : Buffers) (flow : FlowId) (x : ℕ) : Prop where
  inChunks : ∀ ci ∈ infos, x ∈ range ci → Has b ci x
  inList : (∀ ci ∈ infos, x ∉ recordRange ci) → x ∈ covered (b.blocksOf flow)

/-- A sniffer that has lost nothing of what its flows captured. -/
structure Lossless {streams : Streams} (framing : Framing streams) (captured : FlowId → Set ℕ) (told : List Call)
    (s : SniffTcp ChunkInfo) : Prop where
  ready : Ready s
  stocked : Stocked framing told s.buffers
  stand : ∀ flow, Captured flow → AllStand streams flow (infosOf s flow)
  placed : ∀ flow, Captured flow → ∀ x ∈ captured flow, InPlace (infosOf s flow) s.buffers flow x

/-- What a segment that shows a chunk at `p` has to meet: what is past the chunk is in its
place or comes to the list; a new chunk may claim what the list has of it; and a chunk that
is known has it, or the segment does. -/
structure Accommodates (s : SniffTcp ChunkInfo) (flow : FlowId) (chunkId : ChunkId) (p length last : ℕ) : Prop where
  others : ∀ ci ∈ infosOf s flow, ∀ x, p + length ≤ x → x < last → x ∈ range ci → Has s.buffers ci x
  past : p + length < last → Settles (s.buffers.blocksOf flow) (p + length) last (Outside s flow)
  fresh : s.buffers.chunkIdReconstructedChunkMap chunkId = none →
    Claimable (s.buffers.blocksOf flow) p length last
  known : ∀ pRc, s.buffers.chunkIdReconstructedChunkMap chunkId = some pRc →
    ∀ x ∈ covered (s.buffers.blocksOf flow), p ≤ x → x < p + length → x < last ∨ x - p ∈ covered pRc.lcb

/-- A segment of which nothing is lost, and nothing that its flow captured before. -/
structure Conserved (s : SniffTcp ChunkInfo) (flow : FlowId) (payload : Pointer) (size : ℕ) (seq : TcpSeq) :
    Prop where
  orderly : Orderly s flow payload size seq
  headed : ∀ chunkId offset, getChunkId payload size = some (chunkId, offset) → offset + 68 ≤ size
  front : 0 < headSize payload size → Welcome s flow seq (seq.toNat + headSize payload size)
  shown : ∀ chunkId offset, getChunkId payload size = some (chunkId, offset) →
    Accommodates s flow chunkId (seq.toNat + offset) (getLengthFromByteStream (payload.advance offset))
      (seq.toNat + size)

variable {streams : Streams} {framing : Framing streams} {captured : FlowId → Set ℕ} {told : List Call}
  {s s' : SniffTcp ChunkInfo} {flow other : FlowId} {payload : Pointer} {size p length first last x : ℕ} {seq : TcpSeq}
  {b b' t : Buffers} {mem : Memory} {chunkId : ChunkId} {infos : List ChunkInfo} {ci ci' : ChunkInfo}

/-- Captured flows with one name are the same. -/
theorem captured_name (one : Captured flow) (two : Captured other) (same : flow.toString = other.toString) :
    flow = other := by
  refine (one.beq_iff two).mp ((FlowIdentity.beq_iff_to_string one.plain two.plain).mpr ?_)
  rw [one.to_string_eq, two.to_string_eq, same]

theorem infos_of_set (infos : List ChunkInfo) (b : Buffers) (one : Captured flow) (two : Captured other) :
    infosOf { s.setInfos flow infos with buffers := b } other = if other = flow then infos else infosOf s other := by
  split
  · rename_i same
    subst same
    simp [infosOf, setInfos]
  · rename_i different
    have apart : other.toString ≠ flow.toString := fun same => different (captured_name two one same)
    simp only [infosOf, setInfos, Function.update_of_ne apart]

/-! ## Chunks of one flow -/

/-- Records of a stream have no position in common. -/
theorem stands_apart (framing : Framing streams) {chunkId' : ChunkId} {q length' : ℕ}
    (one : Stands streams flow p chunkId length) (two : Stands streams flow q chunkId' length') (different : p ≠ q) :
    p + (length + 4) ≤ q ∨ q + (length' + 4) ≤ p := by
  rw [← one.length_eq, ← two.length_eq]
  rcases Nat.lt_or_gt_of_ne different with less | more
  · exact Or.inl (framing.apart flow p q one.marked two.marked less)
  · exact Or.inr (framing.apart flow q p two.marked one.marked more)

theorem range_subset (ci : ChunkInfo) : range ci ⊆ recordRange ci := fun _ ⟨lower, upper⟩ =>
  ⟨lower, by omega⟩

/-- A flow's record that has a position of another one is that. -/
theorem same_chunk (framing : Framing streams) (stand : AllStand streams flow infos) (member : ci ∈ infos)
    (shown : Stands streams flow p chunkId length) (within : x ∈ recordRange ci) (lower : p ≤ x)
    (upper : x < p + (length + 4)) : ci.sSeqNum.toNat = p ∧ ci.chunkId = chunkId ∧ ci.chunkLength = length := by
  have same : ci.sSeqNum.toNat = p := by
    by_contra different
    have := within.1
    have := within.2
    rcases stands_apart framing (stand ci member) shown different with before | after <;> omega
  obtain ⟨id, len⟩ := (stand ci member).unique (same ▸ shown)
  exact ⟨same, id, len⟩

/-- The chunks of a flow after it showed one: the one shown, and the others that it had. -/
theorem note_chunk_cases (stand : AllStand streams flow infos) (shown : Stands streams flow seq.toNat chunkId length)
    (unmoved : ∀ ci ∈ infos, ci.chunkId = chunkId → ci.sSeqNum = seq) :
    (∀ ci ∈ noteChunk infos chunkId seq length, ci = ⟨chunkId, seq, length⟩ ∨ ci ∈ infos ∧ ci.chunkId ≠ chunkId) ∧
      ⟨chunkId, seq, length⟩ ∈ noteChunk infos chunkId seq length ∧
      ∀ ci ∈ infos, ci ∈ noteChunk infos chunkId seq length := by
  have own : ∀ ci ∈ infos, ci.chunkId = chunkId → ci = ⟨chunkId, seq, length⟩ := fun ci member same => by
    have start := unmoved ci member same
    obtain ⟨_, len⟩ := (stand ci member).unique (start ▸ shown)
    obtain ⟨_, _, _⟩ := ci
    exact ChunkInfo.mk.injEq .. ▸ ⟨same, start, len⟩
  rw [noteChunk]
  split
  · rename_i listed
    obtain ⟨ci, member, same⟩ := List.any_eq_true.mp listed
    have same : ci.chunkId = chunkId := by simpa [Remembers.chunkId] using same
    refine ⟨fun other member' => ?_, own ci member same ▸ member, fun _ member' => member'⟩
    by_cases isOwn : other.chunkId = chunkId
    · exact Or.inl (own other member' isOwn)
    · exact Or.inr ⟨member', isOwn⟩
  · rename_i fresh
    refine ⟨fun other member' => ?_, by simp [Remembers.info], fun _ member' => List.mem_append_left _ member'⟩
    rcases List.mem_append.mp member' with old | new
    · refine Or.inr ⟨old, fun same => fresh (List.any_eq_true.mpr ⟨other, old, ?_⟩)⟩
      simpa [Remembers.chunkId] using same
    · exact Or.inl (List.mem_singleton.mp new)

/-! ## A step -/

/-- The front of a segment leaves the captured positions in place, and puts its own there. -/
theorem front_in_place (before : ∀ x ∈ captured flow, InPlace (infosOf s flow) s.buffers flow x)
    (grows : Grows flow first last s.buffers b) (placed : Placed s flow first last b)
    (inside : x ∈ captured flow ∨ first ≤ x ∧ x < last) : InPlace (infosOf s flow) b flow x := by
  rcases inside with old | new
  · obtain ⟨inChunks, inList⟩ := before x old
    exact ⟨fun ci member within => grows.has (inChunks ci member within), fun out => grows.kept (inList out)⟩
  · exact ⟨fun ci member within => placed.inChunks ci member x new within,
      fun out => placed.inList x new fun ci member within => out ci member (range_subset ci within)⟩

/-- A flow that nothing was captured of. -/
theorem other_in_place (before : InPlace infos s.buffers other x) (has : ∀ ci, Has s.buffers ci x → Has b ci x)
    (same : b.blocksOf other = s.buffers.blocksOf other) : InPlace infos b other x :=
  ⟨fun ci member within => has ci (before.inChunks ci member within), fun out => same ▸ before.inList out⟩

/-- **A segment that shows a chunk** leaves the captured positions in place, and its own. -/
theorem shown_in_place (framing : Framing streams) (stand : AllStand streams flow (infosOf s flow))
    (shown : Stands streams flow seq.toNat chunkId length)
    (unmoved : ∀ ci ∈ infosOf s flow, ci.chunkId = chunkId → ci.sSeqNum = seq)
    (front : ∀ x, x ∈ captured flow ∨ first ≤ x ∧ x < seq.toNat → InPlace (infosOf s flow) b flow x)
    (others : ∀ ci ∈ infosOf s flow, ∀ x, seq.toNat + length ≤ x → x < last → x ∈ range ci → Has b ci x)
    (revealed : Revealed b flow chunkId seq.toNat length last (Outside s flow) b')
    (inside : x ∈ captured flow ∨ first ≤ x ∧ x < last) :
    InPlace (noteChunk (infosOf s flow) chunkId seq length) b' flow x := by
  obtain ⟨cases, listed, keeps⟩ := note_chunk_cases stand shown unmoved
  obtain ⟨pRc', held, kept, has⟩ := revealed.own
  have before : x < seq.toNat ∨ x ∈ captured flow → InPlace (infosOf s flow) b flow x := fun early => by
    refine front x ?_
    rcases inside with old | new
    · exact Or.inl old
    · exact early.elim (fun less => Or.inr ⟨new.1, less⟩) Or.inl
  by_cases own : seq.toNat ≤ x ∧ x < seq.toNat + length
  · -- the position is the chunk's
    obtain ⟨lower, upper⟩ := own
    have member : x - seq.toNat ∈ covered pRc'.lcb := by
      rcases inside with old | new
      · obtain ⟨inChunks, inList⟩ := before (Or.inr old)
        by_cases some : ∃ ci ∈ infosOf s flow, x ∈ recordRange ci
        · obtain ⟨ci, member, within⟩ := some
          obtain ⟨start, id, len⟩ := same_chunk framing stand member shown within lower (by omega)
          obtain ⟨pRc, found, stored⟩ := inChunks ci member ⟨start ▸ lower, by omega⟩
          exact kept pRc (id ▸ found) (start ▸ stored)
        · exact has x lower upper (Or.inr (inList fun ci member within => some ⟨ci, member, within⟩))
      · exact has x lower upper (Or.inl new.2)
    refine ⟨fun ci listed' within => ?_, fun out => absurd ⟨lower, Nat.lt_add_right 4 upper⟩ (out _ listed)⟩
    rcases cases ci listed' with rfl | ⟨old, different⟩
    · exact ⟨pRc', held, member⟩
    · exact absurd (same_chunk framing stand old shown (range_subset ci within) lower (by omega)).2.1 different
  · refine ⟨fun ci listed' within => ?_, fun out => ?_⟩
    · rcases cases ci listed' with rfl | ⟨old, _⟩
      · exact absurd ⟨within.1, within.2⟩ own
      · by_cases early : x < seq.toNat ∨ x ∈ captured flow
        · exact revealed.has ((before early).inChunks ci old within)
        · rw [not_or] at early
          have new := inside.resolve_left early.2
          exact revealed.has (others ci old x (by omega) new.2 within)
    · have apart : x < seq.toNat ∨ seq.toNat + (length + 4) ≤ x := by
        by_contra within
        exact out _ listed ⟨show seq.toNat ≤ x by omega, show x < seq.toNat + (length + 4) by omega⟩
      by_cases early : x < seq.toNat ∨ x ∈ captured flow
      · exact revealed.left x ((before early).inList fun ci old => out ci (keeps ci old)) apart
      · rw [not_or] at early
        have new := inside.resolve_left early.2
        exact revealed.past x (by omega) new.2 fun ci old within => out ci (keeps ci old) (range_subset ci within)

/-- What a step adds to what the flows captured. -/
def Adds (captured : FlowId → Set ℕ) (flow : FlowId) (first last : ℕ) (captured' : FlowId → Set ℕ) : Prop :=
  ∀ other x, x ∈ captured' other → x ∈ captured other ∨ other = flow ∧ first ≤ x ∧ x < last

variable {captured' : FlowId → Set ℕ}

/-- A segment that shows no chunk. -/
theorem headerless_lossless (mem : Memory) (lossless : Lossless framing captured told s) (nonempty : size ≠ 0)
    (unshown : getChunkId payload size = none) (carries : Carries (streams flow) Set.univ payload size seq)
    (own : Captured flow) (small : size < 2 ^ 31) (conserved : Conserved s flow payload size seq)
    (adds : Adds captured flow seq.toNat (seq.toNat + size) captured') :
    ∃ s', (s.handleIp true mem flow payload size seq).result = some s' ∧
      Lossless framing captured' (told ++ (s.handleIp true mem flow payload size seq).calls) s' := by
  obtain ⟨ready, stocked, stand, placed⟩ := lossless
  have head : headSize payload size = size := by rw [headSize, unshown]
  have welcome := conserved.front
  rw [head] at welcome
  obtain ⟨b, ran, stocked', grows, arrived⟩ :=
    front_placed mem size ready stocked (stand flow own) carries small welcome
  have shape := @handle_ip_multi _ _ s mem flow payload size seq nonempty
  simp only [unshown, head] at shape
  have result : (s.handleIp true mem flow payload size seq).result = some { s with buffers := b } := by
    rw [shape, result_bind, ran]
    rfl
  refine ⟨_, result, handle_ip_ready result ready conserved.orderly, ?_, stand, fun other isCaptured x inside => ?_⟩
  · rw [shape, calls_bind_some ran, calls_pure, List.append_nil]
    exact stocked'
  · by_cases same : other = flow
    · subst same
      have here : InPlace (infosOf s other) b other x :=
        front_in_place (placed other isCaptured) grows arrived ((adds other x inside).imp_right And.right)
      exact here
    · have old := (adds other x inside).resolve_right fun new => same new.1
      exact other_in_place (placed other isCaptured x old) (fun _ => grows.has) (grows.others other same)

/-- The chunk that a segment shows, and what is past it, after the segment's front. -/
theorem shown_revealed {offset : ℕ} (mem : Memory) (stocked : Stocked framing told b)
    (before : Listed streams wrap s.buffers) (grows : Grows flow seq.toNat (seq.toNat + offset) s.buffers b)
    (same : headings b = headings s.buffers) (inside : offset + 68 ≤ size)
    (carries : Carries (streams flow) Set.univ payload size seq)
    (room : volume (b.blocksOf flow) + (size - offset) < 2 ^ 31)
    (stands : Stands streams flow (seq.toNat + offset) chunkId (getLengthFromByteStream (payload.advance offset)))
    (fits : seq.toNat + offset + getLengthFromByteStream (payload.advance offset) < 2 ^ 32)
    (accommodates : Accommodates s flow chunkId (seq.toNat + offset)
      (getLengthFromByteStream (payload.advance offset)) (seq.toNat + size)) :
    ∃ b', (b.announceChunk mem flow chunkId (payload.advance offset) (size - offset)
        (seq + UInt32.ofInt offset)).result = some b' ∧
      Stocked framing (told ++ (b.announceChunk mem flow chunkId (payload.advance offset) (size - offset)
        (seq + UInt32.ofInt offset)).calls) b' ∧
      Revealed b flow chunkId (seq.toNat + offset) (getLengthFromByteStream (payload.advance offset))
        (seq.toNat + size) (Outside s flow) b' := by
  obtain ⟨length, isLength⟩ : ∃ length, length = getLengthFromByteStream (payload.advance offset) := ⟨_, rfl⟩
  rw [← isLength] at stands fits accommodates ⊢
  obtain ⟨_, past, fresh, known⟩ := accommodates
  have carries' := carries.drop (show offset ≤ size by omega)
  have bound := carries.fits
  have number := toNat_add_ofInt seq offset (by omega)
  have upto : (seq + UInt32.ofInt offset).toNat + (size - offset) = seq.toNat + size := by omega
  have long : 0 < length := by
    obtain ⟨_, _, described, _⟩ := stands.described framing
    exact (by decide : 0 < minPayloadLength).trans_le described.long
  have ok := before.ok flow
  have ok' := stocked.lists.ok flow
  have free : seq.toNat + offset + length < seq.toNat + size →
      Free (b.blocksOf flow) (seq.toNat + offset + length) (seq.toNat + size) (Outside s flow) := fun beyond =>
    ((past beyond).free ok beyond.le).later ok' grows.kept grows.added (by omega)
  have old : ∀ x ∈ covered (b.blocksOf flow), seq.toNat + offset ≤ x → x ∈ covered (s.buffers.blocksOf flow) :=
    fun x member above => (grows.added member).resolve_right fun new => Nat.not_lt_of_le above new.2
  rw [← number] at stands fits ⊢
  rw [← upto]
  cases found : b.chunkIdReconstructedChunkMap chunkId with
  | none =>
    have unknown : s.buffers.chunkIdReconstructedChunkMap chunkId = none := by
      have here := congrFun same chunkId
      rw [headings, headings, found, Option.map_none, eq_comm, Option.map_eq_none_iff] at here
      exact here
    refine announce_new mem stocked found stands isLength.symm carries' (by omega) room fits ?_ ?_
    · rw [upto, number]
      exact (fresh unknown).later ok ok' grows.kept grows.added (by omega)
    · rw [upto, number]
      exact free
  | some pRc =>
    refine announce_old mem stocked found stands carries' (by omega) (by omega) ?_ ?_
    · rw [upto, number]
      intro x member lower upper
      obtain ⟨pRc₀, found₀⟩ : ∃ pRc₀, s.buffers.chunkIdReconstructedChunkMap chunkId = some pRc₀ := by
        have here := congrFun same chunkId
        rw [headings, headings, found, Option.map_some, eq_comm, Option.map_eq_some_iff] at here
        exact here.imp fun _ => And.left
      obtain ⟨_, found', kept⟩ := grows.chunks chunkId pRc₀ found₀
      cases found.symm.trans found'
      exact (known pRc₀ found₀ x (old x member lower) lower upper).imp_right fun has => kept has
    · rw [upto, number]
      exact free

/-- A segment that shows a chunk. -/
theorem shown_lossless {offset : ℕ} (mem : Memory) (lossless : Lossless framing captured told s) (nonempty : size ≠ 0)
    (shown : getChunkId payload size = some (chunkId, offset))
    (carries : Carries (streams flow) Set.univ payload size seq) (own : Captured flow) (small : size < 2 ^ 31)
    (conserved : Conserved s flow payload size seq) (adds : Adds captured flow seq.toNat (seq.toNat + size) captured') :
    ∃ s', (s.handleIp true mem flow payload size seq).result = some s' ∧
      Lossless framing captured' (told ++ (s.handleIp true mem flow payload size seq).calls) s' := by
  obtain ⟨ready, stocked, stand, placed⟩ := lossless
  obtain ⟨orderly, headed, welcome, accommodates⟩ := conserved
  have inside := headed chunkId offset shown
  have head : headSize payload size = offset := by rw [headSize, shown]
  rw [head] at welcome
  have bound := carries.fits
  have number := toNat_add_ofInt seq offset (by omega)
  obtain ⟨marked, length_eq, replied⟩ := shown_in_stream carries.agree shown inside
  have stands : Stands streams flow (seq.toNat + offset) chunkId
      (getLengthFromByteStream (payload.advance offset)) := ⟨marked, length_eq, replied⟩
  obtain ⟨b, ran, stocked', grows, arrived⟩ := front_placed mem size ready stocked (stand flow own)
    (carries.take (by omega)) (show offset < 2 ^ 31 by omega) welcome
  have stored := (front_tidy ran ready (show offset < 2 ^ 31 by omega) (by omega)).2
  have room := orderly.room
  obtain ⟨b', announced, stocked'', revealed⟩ := shown_revealed mem stocked' stocked.lists grows
    (front_headings ran) inside carries (by omega) stands (orderly.announced chunkId offset shown)
    (accommodates chunkId offset shown)
  have shape := @handle_ip_multi _ _ s mem flow payload size seq nonempty
  simp only [shown, head] at shape
  have result : (s.handleIp true mem flow payload size seq).result =
      some { s.setInfos flow (noteChunk (infosOf s flow) chunkId (seq + UInt32.ofInt offset)
        (getLengthFromByteStream (payload.advance offset))) with buffers := b' } := by
    rw [shape, result_bind, ran, Option.bind_some, showRecord, result_bind, announced]
    rfl
  have unmoved := (orderly.unmoved chunkId offset shown).1
  have infos := fun other isCaptured => @infos_of_set s flow other (noteChunk (infosOf s flow) chunkId
    (seq + UInt32.ofInt offset) (getLengthFromByteStream (payload.advance offset))) b' own isCaptured
  rw [← number] at stands revealed
  refine ⟨_, result, handle_ip_ready result ready orderly, ?_, fun other isCaptured => ?_,
    fun other isCaptured x inside => ?_⟩
  · rw [shape, calls_bind_some ran, showRecord, calls_bind_some announced, calls_pure, List.append_nil,
      ← List.append_assoc]
    exact stocked''
  · rw [infos other isCaptured]
    split
    · rename_i same
      intro ci member
      rcases (note_chunk_cases (stand flow own) stands unmoved).1 ci member with rfl | ⟨old, _⟩
      · exact same ▸ stands
      · exact same ▸ stand flow own ci old
    · exact stand other isCaptured
  · rw [infos other isCaptured]
    split
    · rename_i same
      subst same
      refine shown_in_place framing (stand other own) stands unmoved (fun y front => ?_) (fun ci member y lower upper
        within => grows.has ((accommodates chunkId offset shown).others ci member y (by omega) upper within)) revealed
        ((adds other x inside).imp_right And.right)
      rw [number] at front
      exact front_in_place (placed other own) grows arrived front
    · rename_i different
      have old := (adds other x inside).resolve_right fun new => different new.1
      exact other_in_place (placed other isCaptured x old) (fun _ has => revealed.has (grows.has has))
        ((revealed.others other different).trans (grows.others other different))

/-- **A segment loses nothing** if it conserves what there is. -/
theorem segment_lossless (mem : Memory) (lossless : Lossless framing captured told s)
    (carries : Carries (streams flow) Set.univ payload size seq) (own : Captured flow) (small : size < 2 ^ 31)
    (conserved : Conserved s flow payload size seq) (adds : Adds captured flow seq.toNat (seq.toNat + size) captured') :
    ∃ s', (s.handleIp true mem flow payload size seq).result = some s' ∧
      Lossless framing captured' (told ++ (s.handleIp true mem flow payload size seq).calls) s' := by
  by_cases empty : size = 0
  · have shape : s.handleIp true mem flow payload size seq = pure s := by rw [handleIp, if_pos empty]
    rw [shape, calls_pure, List.append_nil]
    obtain ⟨ready, stocked, stand, placed⟩ := lossless
    refine ⟨s, rfl, ready, stocked, stand, fun other isCaptured x inside => placed other isCaptured x ?_⟩
    exact (adds other x inside).resolve_right fun new => by omega
  · cases shown : getChunkId payload size with
    | none => exact headerless_lossless mem lossless empty shown carries own small conserved adds
    | some found => exact shown_lossless mem lossless empty shown carries own small conserved adds

end Ditto.ChanceRuns
