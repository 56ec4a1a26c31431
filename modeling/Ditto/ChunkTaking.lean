import Ditto.RecordLayout

/-! The chunks of records that are captured in order. A chunk's bytes are one block from
its start up to the point reached, so the bytes that come next are always new to it,
and the chunk is done when the point reaches its end. -/
namespace Ditto.ChunkTaking
open Sniffer Buffers ChunkReassembly Spans Windows Words Placement Traces Traced
open ChunkHeadings RecordHeaders RecordScan FlowInsertion RecordLayout

/-- A record's chunk when its bytes were captured up to `t`. -/
structure Taken (spot : ℕ × ChunkRecord) (name : String) (t : ℕ) (pRc : ReconstructedChunk) : Prop where
  start : pRc.flowSeqMap name = some (UInt32.ofNat spot.1)
  length : pRc.length = tracked spot.2
  ok : BlocksOk (streamFrom 0 spot.2.bytes) (tracked spot.2) pRc.lcb
  covers : covered pRc.lcb = Set.Ico 0 (min (t - spot.1) (tracked spot.2))

/-- The chunks of the records that start before `k`. -/
structure Chunking (spots : List (ℕ × ChunkRecord)) (name : String) (k t : ℕ)
    (chunks : ChunkId → Option ReconstructedChunk) : Prop where
  taken : ∀ spot ∈ spots, spot.1 < k → ∃ pRc, chunks spot.2.chunkId = some pRc ∧ Taken spot name t pRc
  fresh : ∀ spot ∈ spots, k ≤ spot.1 → chunks spot.2.chunkId = none

variable {source : ℕ → UInt8} {limit k t v : ℕ} {spots : List (ℕ × ChunkRecord)} {spot : ℕ × ChunkRecord}
  {flow : FlowId} {name : String} {payload : Pointer} {size : ℕ} {seq : TcpSeq} {mem : Memory} {b : Buffers}
  {pRc : ReconstructedChunk} {dups : UInt64}

/-! ## One chunk -/

theorem toNat_start (inside : spot.1 < 2 ^ 32) : (UInt32.ofNat spot.1).toNat = spot.1 := by
  rw [UInt32.toNat_ofNat']
  exact Nat.mod_eq_of_lt inside

/-- **A chunk takes** the bytes that come next. -/
theorem Taken.takes (taken : Taken spot name t pRc) (small : spot.1 + spot.2.bytes.length < 2 ^ 32)
    (lower : spot.1 ≤ t) (positive : 0 < size) (upper : t + size ≤ spot.1 + tracked spot.2)
    (starts : seq.toNat = t)
    (agree : payload.bytes size = (spot.2.bytes.drop (t - spot.1)).take size) (dups : UInt64) :
    ∃ pRc' dups', pRc.fillGapsInChunk name payload size seq dups =
        some (pRc', dups', decide (spot.1 + tracked spot.2 ≤ t + size)) ∧
      Taken spot name (t + size) pRc' ∧ pRc'.getData = some (spot.2.bytes.take (t + size - spot.1)) := by
  have whole := tracked_add spot.2
  have short := record_short spot.2
  have base := @toNat_start spot (by omega)
  have place : (seq - UInt32.ofNat spot.1).toNat = t - spot.1 := by
    rw [toNat_sub_eq (by omega), base, starts]
  have part : payload.bytes size = window (streamFrom 0 spot.2.bytes) (t - spot.1) (t - spot.1 + size) := by
    have cut := @window_stream 0 spot.2.bytes (t - spot.1) (t - spot.1 + size) (by omega)
    rw [Nat.zero_add, Nat.zero_add, Nat.add_sub_cancel_left] at cut
    rw [agree, cut]
  obtain ⟨lcb, dups', isDuplicate, ran, filled⟩ := @fill_blocks_spec _ (tracked spot.2) size pRc.lcb payload
    (seq - UInt32.ofNat spot.1) taken.ok (by omega) positive (by omega) (place ▸ part) dups
  rw [place] at filled
  have reached : min (t - spot.1) (tracked spot.2) = t - spot.1 := by omega
  have covers := taken.covers
  rw [reached] at covers
  have clear : ¬ Swallows pRc.lcb (t - spot.1) (t - spot.1 + size) := by
    rintro ⟨block, found, early, _⟩
    have inside : startOf block ∈ covered pRc.lcb :=
      start_covered taken.ok.proper (List.mem_of_find?_eq_some found)
    rw [covers] at inside
    exact absurd inside.2 (by omega)
  have shape : covered lcb = Set.Ico 0 (t - spot.1 + size) := by
    refine Set.Subset.antisymm (fun x member => ?_) (fun x member => ?_)
    · rcases filled.added member with old | new
      · rw [covers] at old
        exact ⟨Nat.zero_le _, by have := old.2; omega⟩
      · exact ⟨Nat.zero_le _, new.2⟩
    · by_cases old : x < t - spot.1
      · exact filled.kept (covers ▸ ⟨Nat.zero_le _, old⟩)
      · exact filled.whole clear ⟨by omega, member.2⟩
  have fresh : isDuplicate = false := by
    by_contra duplicate
    have same := filled.duplicate (by simpa using duplicate)
    rw [same, covers] at shape
    have next : t - spot.1 ∈ Set.Ico 0 (t - spot.1 + size) := ⟨Nat.zero_le _, by omega⟩
    rw [← shape] at next
    exact absurd next.2 (by omega)
  obtain ⟨block, only, first, last⟩ := one_span filled.ok.proper filled.ok.separated (by omega) shape
  have holds := (filled.ok.each block (only ▸ List.mem_singleton_self block)).holds
  have content : block.contiguousBlock = spot.2.bytes.take (t + size - spot.1) := by
    have cut := @window_stream 0 spot.2.bytes 0 (t - spot.1 + size) (by omega)
    have first : block.startingSeqNumber.toNat = 0 := first
    have last : block.nextExpectedSeqNumber.toNat = t - spot.1 + size := last
    rw [holds.content, first, last, Nat.sub_add_comm lower]
    simpa using cut
  have done : decide (pRc.length ≤ block.contiguousBlock.length) =
      decide (spot.1 + tracked spot.2 ≤ t + size) := by
    rw [content, List.length_take, taken.length]
    exact decide_eq_decide.mpr (by omega)
  refine ⟨{ pRc with
    lcb := lcb
    uniquelyContributingFlows := pRc.uniquelyContributingFlows.insert name }, dups', ?_, ?_, ?_⟩
  · rw [ReconstructedChunk.fillGapsInChunk]
    simp only [taken.start, ran, fresh, only, Option.bind_eq_bind, Option.bind_some, List.head?_cons, done]
    rfl
  · refine ⟨taken.start, taken.length, filled.ok, ?_⟩
    rw [shape]
    congr 1
    omega
  · simp [ReconstructedChunk.getData, only, content]

/-! ## All chunks -/

/-- The bytes of a record from its stream. -/
theorem record_part (laid : Laid source limit spots) (member : spot ∈ spots) (lower : spot.1 ≤ t)
    (upper : t + size ≤ spot.1 + spot.2.bytes.length) :
    window source t (t + size) = (spot.2.bytes.drop (t - spot.1)).take size := by
  have shift : spot.1 + (t - spot.1) = t := by omega
  rw [laid.part spot member, drop_window, take_window source (by omega), shift]

/-- The data of a chunk that is done are in it. -/
theorem send_done_record (r : ChunkRecord) (fits : 68 + r.dataLength ≤ tracked r) (mem : Memory)
    (chunkLength : Option ℕ) : Sends (sendChunkToSnifferPlugin flow (mem.cStr (r.bytes.take (tracked r)))
      (r.bytes.take (tracked r)).length chunkLength) [(flow, r.data)] () := by
  have whole := tracked_add r
  have length : (r.bytes.take (tracked r)).length = tracked r := by
    rw [List.length_take]
    omega
  have shown : (mem.cStr (r.bytes.take (tracked r))).bytes (tracked r) = r.bytes.take (tracked r) := by
    rw [Memory.cStr, bytes_of_front _ (by omega), List.take_take, Nat.min_self]
  have header : (mem.cStr (r.bytes.take (tracked r))).bytes 68 = r.bytes.take 68 := by
    simpa using slice_eq 0 68 shown (by omega)
  have data : ((mem.cStr (r.bytes.take (tracked r))).advance 68).bytes r.dataLength = r.data :=
    slice_eq 68 r.dataLength shown fits
  rw [sendChunkToSnifferPlugin, r.extract_header header, data]
  exact sends_put _

/-- A chunk is sent exactly if its end is reached. -/
theorem send_reached (fits : 68 + spot.2.dataLength ≤ tracked spot.2)
    (held : b.chunkIdReconstructedChunkMap spot.2.chunkId = some pRc) {reached : ℕ}
    (data : pRc.getData = some (spot.2.bytes.take reached)) (upper : reached ≤ tracked spot.2) :
    Sends (b.sendDone mem spot.2.chunkId flow (decide (tracked spot.2 ≤ reached)))
      (if tracked spot.2 ≤ reached then [(flow, spot.2.data)] else []) () := by
  by_cases done : tracked spot.2 ≤ reached
  · obtain rfl : reached = tracked spot.2 := Nat.le_antisymm upper done
    rw [if_pos done, decide_eq_true done]
    refine (sends_lift held).bind ?_
    simp only [data]
    exact send_done_record spot.2 fits mem _
  · rw [if_neg done, decide_eq_false done]
    exact sends_pure _

/-- Other chunks are taken up to a point in a record as they are up to another. -/
theorem Taken.elsewhere {other : ℕ × ChunkRecord} {u : ℕ} (taken : Taken other name t pRc)
    (apart : other.1 + other.2.bytes.length ≤ t ∧ t ≤ u ∨ t ≤ other.1 ∧ u ≤ other.1) :
    Taken other name u pRc := by
  have whole := tracked_add other.2
  refine ⟨taken.start, taken.length, taken.ok, ?_⟩
  rw [taken.covers]
  congr 1
  omega

theorem past_in_order (small : spot.1 + spot.2.bytes.length < 2 ^ 32) (lower : spot.1 ≤ t)
    (before : t < spot.1 + tracked spot.2) (upper : t + size ≤ spot.1 + spot.2.bytes.length)
    (starts : seq.toNat = t) : pastChunk (UInt32.ofNat spot.1) (tracked spot.2) size seq =
      ((t + size - (spot.1 + tracked spot.2) : ℕ) : ℤ) := by
  have whole := tracked_add spot.2
  have short := record_short spot.2
  have base := @toNat_start spot (by omega)
  have place : (seq - UInt32.ofNat spot.1).toNat = t - spot.1 := by
    rw [toNat_sub_eq (by omega), base, starts]
  rw [past_inside (by omega) (by omega) (by omega), place]
  omega

theorem insert_sends {flows : List (FlowId × List ContiguousBlock)} {edit : Edit} {count first held : ℤ}
    (ran : insertFlow flow payload count seq b.pFlowList = some (flows, edit)) :
    Sends (b.insert flow payload count seq first held) [] ({ b with pFlowList := flows }, edit) :=
  (sends_note rfl).bind ((sends_lift ran).bind (sends_pure _))

/-- The bytes past a chunk go to the list. -/
theorem past_stored (laid : Laid source limit spots) (small : limit < 2 ^ 32) (member : spot ∈ spots)
    (listing : Listing source limit spots flow t b.pFlowList) (lower : spot.1 ≤ t)
    (before : t < spot.1 + tracked spot.2) (upper : t + size ≤ spot.1 + spot.2.bytes.length)
    (starts : seq.toNat = t) (agree : payload.bytes size = window source t (t + size)) :
    ∃ flows edit, Sends (b.insertPast flow payload (t + size - (spot.1 + tracked spot.2) : ℕ) size seq) []
        ({ b with pFlowList := flows }, edit) ∧ Listing source limit spots flow (t + size) flows := by
  have whole := tracked_add spot.2
  have inside := laid.inside spot member
  rw [insertPast]
  by_cases past : spot.1 + tracked spot.2 < t + size
  · have offset : (size : ℤ) - (t + size - (spot.1 + tracked spot.2) : ℕ) = (spot.1 + tracked spot.2 - t : ℕ) := by
      omega
    have number : (seq + UInt32.ofInt size -
        UInt32.ofInt (t + size - (spot.1 + tracked spot.2) : ℕ)).toNat = spot.1 + tracked spot.2 := by
      have last := toNat_add_ofInt seq size (by omega)
      have count : (UInt32.ofInt (t + size - (spot.1 + tracked spot.2) : ℕ)).toNat =
          t + size - (spot.1 + tracked spot.2) := by
        rw [toNat_ofInt]
        omega
      rw [toNat_sub_eq (by omega), last, count]
      omega
    have cut : (payload.advance (spot.1 + tracked spot.2 - t : ℕ)).bytes (t + size - (spot.1 + tracked spot.2)) =
        window source (spot.1 + tracked spot.2) (t + size) := by
      have first : t + (spot.1 + tracked spot.2 - t) = spot.1 + tracked spot.2 := by omega
      have last : spot.1 + tracked spot.2 + (t + size - (spot.1 + tracked spot.2)) = t + size := by omega
      rw [window_part agree _ _ (by omega), first, last]
    have ends : spot.1 + tracked spot.2 + (t + size - (spot.1 + tracked spot.2)) = t + size := by omega
    have piece : Piece source limit (payload.advance (spot.1 + tracked spot.2 - t : ℕ))
        (t + size - (spot.1 + tracked spot.2))
        (seq + UInt32.ofInt size - UInt32.ofInt (t + size - (spot.1 + tracked spot.2) : ℕ)) :=
      ⟨by omega, by omega, by rw [number, ends, cut]⟩
    obtain ⟨flows, edit, ran, stored⟩ := listing.insert laid small member lower piece (by omega) (by omega)
    rw [number, ends] at stored
    refine ⟨flows, edit, ?_, stored⟩
    rw [if_pos (by omega), offset]
    exact insert_sends ran
  · have none : t + size - (spot.1 + tracked spot.2) = 0 := by omega
    rw [none, if_neg (by simp)]
    exact ⟨_, .kept, sends_pure _, listing.skip laid member lower (by omega) (by omega)⟩

/-- The other chunks are as before when one takes bytes. -/
theorem Chunking.update (chunking : Chunking spots name k t b.chunkIdReconstructedChunkMap)
    (laid : Laid source limit spots) (member : spot ∈ spots) (opened : spot.1 < k) (lower : spot.1 ≤ t)
    (upper : t + size ≤ spot.1 + spot.2.bytes.length) (taken : Taken spot name (t + size) pRc) :
    Chunking spots name k (t + size) (b.setChunk spot.2.chunkId pRc).chunkIdReconstructedChunkMap := by
  have elsewhere : ∀ other ∈ spots, other ≠ spot →
      (b.setChunk spot.2.chunkId pRc).chunkIdReconstructedChunkMap other.2.chunkId =
        b.chunkIdReconstructedChunkMap other.2.chunkId := by
    intro other listed different
    exact Function.update_of_ne (fun same => different (laid.same_id listed member same)) _ _
  refine ⟨fun other listed started => ?_, fun other listed later => ?_⟩
  · by_cases same : other = spot
    · subst same
      exact ⟨pRc, Function.update_self .., taken⟩
    · obtain ⟨held, found, taken⟩ := chunking.taken other listed started
      rw [elsewhere other listed same]
      refine ⟨held, found, taken.elsewhere ?_⟩
      rcases laid.apart member listed with rfl | before | after
      · exact absurd rfl same
      · exact Or.inr ⟨by omega, by omega⟩
      · exact Or.inl ⟨by omega, by omega⟩
  · rw [elsewhere other listed (fun same => by rw [same] at later; omega)]
    exact chunking.fresh other listed later

/-- **Bytes of one record, in order**: its chunk takes them and is sent when it is done, and
what is past the chunk goes to the list. -/
theorem fill_in_order (laid : Laid source limit spots) (small : limit < 2 ^ 32) (member : spot ∈ spots)
    (listing : Listing source limit spots flow t b.pFlowList)
    (chunking : Chunking spots flow.toString k t b.chunkIdReconstructedChunkMap) (opened : spot.1 < k)
    (lower : spot.1 ≤ t) (before : t < spot.1 + tracked spot.2) (positive : 0 < size)
    (upper : t + size ≤ spot.1 + spot.2.bytes.length) (starts : seq.toNat = t)
    (agree : payload.bytes size = window source t (t + size)) :
    ∃ b' edit, Sends (b.fillAndSend mem spot.2.chunkId flow payload size seq)
        (if spot.1 + tracked spot.2 ≤ t + size then [(flow, spot.2.data)] else []) (b', edit) ∧
      Listing source limit spots flow (t + size) b'.pFlowList ∧
      Chunking spots flow.toString k (t + size) b'.chunkIdReconstructedChunkMap := by
  have whole := tracked_add spot.2
  have inside := laid.inside spot member
  obtain ⟨pRc, held, taken⟩ := chunking.taken spot member opened
  obtain ⟨flows, edit, stored, listed⟩ := past_stored laid small member listing lower before upper starts agree
  have past := past_in_order (by omega) lower before upper starts
  -- what the chunk takes
  obtain ⟨count, split⟩ : ∃ count, count = min size (spot.1 + tracked spot.2 - t) := ⟨_, rfl⟩
  have rest : (size : ℤ) - (t + size - (spot.1 + tracked spot.2) : ℕ) = (count : ℕ) := by omega
  have part : payload.bytes count = (spot.2.bytes.drop (t - spot.1)).take count := by
    rw [← record_part laid member lower (by omega)]
    simpa using window_part agree 0 count (by omega)
  obtain ⟨pRc', dups, ran, taken', data⟩ := taken.takes (by omega) lower (by omega) (by omega) starts part
    b.numDuplicateBytes
  have reached : Taken spot flow.toString (t + size) pRc' := by
    refine ⟨taken'.start, taken'.length, taken'.ok, ?_⟩
    rw [taken'.covers]
    congr 1
    omega
  have known : pRc.flowSeqMap flow.toString = some (UInt32.ofNat spot.1) := taken.start
  have filled : Sends (b.fillGapsInChunk spot.2.chunkId flow payload size seq) []
      ({ ({ b with pFlowList := flows } : Buffers).setChunk spot.2.chunkId pRc' with numDuplicateBytes := dups },
        decide (spot.1 + tracked spot.2 ≤ t + count), edit) := by
    refine (sends_lift held).bind ?_
    simp only [known, taken.length, past, rest]
    exact stored.bind ((sends_note rfl).bind ((sends_lift ran).bind (sends_pure _)))
  have updated : Chunking spots flow.toString k (t + size)
      (({ b with pFlowList := flows } : Buffers).setChunk spot.2.chunkId pRc').chunkIdReconstructedChunkMap :=
    Chunking.update chunking laid member opened lower upper reached
  have same : decide (spot.1 + tracked spot.2 ≤ t + count) =
      decide (tracked spot.2 ≤ t + count - spot.1) := decide_eq_decide.mpr (by omega)
  have sent := @send_reached spot flow mem
    { ({ b with pFlowList := flows } : Buffers).setChunk spot.2.chunkId pRc' with numDuplicateBytes := dups }
    pRc' (laid.fits spot member) (Function.update_self ..) _ data (by omega)
  rw [if_congr (show tracked spot.2 ≤ t + count - spot.1 ↔ spot.1 + tracked spot.2 ≤ t + size by omega) rfl rfl,
    ← same] at sent
  exact ⟨_, edit, filled.bind (sent.finish fun _ => (_, edit)), listed, updated⟩

end Ditto.ChunkTaking
