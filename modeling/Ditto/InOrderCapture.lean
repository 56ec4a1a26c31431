import Ditto.ChunkTaking
import Ditto.Runs

/-! Lossless capture with multiple chances: the segments of a stream of records come in
order. Each record's chunk is open from the segment that shows its header until the
one that reaches its end, and that segment sends it. -/
namespace Ditto.InOrderCapture
open Sniffer Buffers SniffTcp ChunkReassembly Spans Windows Words Placement Traces Traced
open ChunkHeadings SegmentHandling RecordHeaders RecordScan FlowLists FlowInsertion RecordLayout ChunkTaking

/-- What a flow remembers of a record. -/
def infoOf (spot : ℕ × ChunkRecord) : ChunkInfo :=
  ⟨spot.2.chunkId, UInt32.ofNat spot.1, tracked spot.2⟩

/-- Where a record's chunk ends. -/
def doneAt (spot : ℕ × ChunkRecord) : ℕ := spot.1 + tracked spot.2

/-- The records whose chunks are done after `t` and up to `u`. -/
def finished (spots : List (ℕ × ChunkRecord)) (t u : ℕ) : List (ℕ × ChunkRecord) :=
  spots.filter fun spot => t < doneAt spot ∧ doneAt spot ≤ u

/-- The data of records as they are sent. -/
def sentOf (flow : FlowId) (spots : List (ℕ × ChunkRecord)) : List (FlowId × List UInt8) :=
  spots.map fun spot => (flow, spot.2.data)

/-- A sniffer that captured the stream up to `t`. -/
structure Following (source : ℕ → UInt8) (limit : ℕ) (spots : List (ℕ × ChunkRecord)) (flow : FlowId) (t : ℕ)
    (s : SniffTcp ChunkInfo) : Prop where
  known : ∀ ci, ci ∈ infosOf s flow ↔ ∃ spot ∈ spots, spot.1 < t ∧ ci = infoOf spot
  listing : Listing source limit spots flow t s.buffers.pFlowList
  chunking : Chunking spots flow.toString t t s.buffers.chunkIdReconstructedChunkMap

variable {source : ℕ → UInt8} {limit first t u : ℕ} {spots : List (ℕ × ChunkRecord)} {spot other : ℕ × ChunkRecord}
  {flow : FlowId} {payload : Pointer} {size : ℕ} {seq : TcpSeq} {mem : Memory} {b : Buffers}
  {s : SniffTcp ChunkInfo} {held : ℤ}

/-! ## Which records are done -/

theorem filter_one {α : Type} {l : List α} {a : α} {p : α → Bool} (distinct : l.Pairwise (· ≠ ·))
    (member : a ∈ l) (only : ∀ x ∈ l, p x = true ↔ x = a) : l.filter p = [a] := by
  induction l with
  | nil => cases member
  | cons x rest ih =>
    obtain ⟨apart, distinct⟩ := List.pairwise_cons.mp distinct
    obtain ⟨head, tail⟩ := List.forall_mem_cons.mp only
    by_cases same : x = a
    · subst same
      rw [List.filter_cons_of_pos (head.mpr rfl), List.filter_eq_nil_iff.mpr]
      exact fun y later is => apart y later ((tail y later).mp is).symm
    · rw [List.filter_cons_of_neg (fun is => same (head.mp is))]
      rcases List.mem_cons.mp member with rfl | later
      · exact absurd rfl same
      · exact ih distinct later tail

/-- In the range of one record only its own chunk can end. -/
theorem finished_in_record (laid : Laid source limit spots) (member : spot ∈ spots) (lower : spot.1 ≤ t)
    (upper : u ≤ spot.1 + spot.2.bytes.length) :
    finished spots t u = if t < doneAt spot ∧ doneAt spot ≤ u then [spot] else [] := by
  have only : ∀ other ∈ spots, t < doneAt other ∧ doneAt other ≤ u → other = spot := by
    intro other listed ends
    have whole := tracked_add other.2
    have size := other.2.long
    rw [doneAt] at ends
    exact (laid.same_place member listed (x := doneAt other - 1) ⟨by rw [doneAt]; omega, by rw [doneAt]; omega⟩
      ⟨by rw [doneAt]; omega, by rw [doneAt]; omega⟩).symm
  rw [finished]
  by_cases ends : t < doneAt spot ∧ doneAt spot ≤ u
  · rw [if_pos ends]
    refine filter_one (laid.distinct.imp fun different same => different (by rw [same])) member fun other listed => ?_
    rw [decide_eq_true_eq]
    exact ⟨only other listed, fun same => same ▸ ends⟩
  · rw [if_neg ends]
    refine List.filter_eq_nil_iff.mpr fun other listed is => ends ?_
    rw [decide_eq_true_eq] at is
    exact only other listed is ▸ is

/-- Chunks end in the order of their records. -/
theorem finished_append (laid : Laid source limit spots) (ordered : t ≤ u) {v : ℕ} (later : u ≤ v) :
    finished spots t v = finished spots t u ++ finished spots u v := by
  have sorted : spots.Pairwise fun one other => doneAt one < doneAt other :=
      laid.ordered.imp fun {one other} before => by
    have whole := tracked_add one.2
    have size := other.2.long
    have whole' := tracked_add other.2
    rw [doneAt, doneAt]
    omega
  clear laid
  induction spots with
  | nil => rfl
  | cons spot rest ih =>
    obtain ⟨apart, sorted⟩ := List.pairwise_cons.mp sorted
    have tail := ih sorted
    by_cases early : doneAt spot ≤ u
    · have none : ¬ (u < doneAt spot ∧ doneAt spot ≤ v) := by omega
      by_cases inside : t < doneAt spot
      · simp only [finished] at tail ⊢
        rw [List.filter_cons_of_pos (by simp; omega), List.filter_cons_of_pos (by simp; omega),
          List.filter_cons_of_neg (by simpa using none), tail, List.cons_append]
      · simp only [finished] at tail ⊢
        rw [List.filter_cons_of_neg (by simp; omega), List.filter_cons_of_neg (by simp; omega),
          List.filter_cons_of_neg (by simpa using none), tail]
    · have none : finished (spot :: rest) t u = [] := by
        refine List.filter_eq_nil_iff.mpr fun other listed is => ?_
        rw [decide_eq_true_eq] at is
        rcases List.mem_cons.mp listed with rfl | member
        · omega
        · have := apart other member
          omega
      rw [none, List.nil_append]
      refine List.filter_congr fun other listed => decide_eq_decide.mpr ?_
      rcases List.mem_cons.mp listed with rfl | member
      · omega
      · have := apart other member
        omega

/-! ## The front of a segment -/

theorem within_info (laid : Laid source limit spots) (small : limit < 2 ^ 32) (listed : other ∈ spots)
    (starts : seq.toNat = t) : within (infoOf other).sSeqNum (infoOf other).chunkLength seq =
      decide (other.1 < t ∧ t < doneAt other) := by
  have inside := laid.inside other listed
  have whole := tracked_add other.2
  have base := @toNat_start other (by omega)
  have ends := toNat_add_ofInt (UInt32.ofNat other.1) (tracked other.2) (by omega)
  refine decide_eq_decide.mpr ?_
  rw [infoOf, UInt32.lt_iff_toNat_lt, UInt32.lt_iff_toNat_lt, ends, base, starts, doneAt]

/-- A segment goes to the chunk of the record it is in, up to the chunk's end. -/
theorem routed_in_record (following : Following source limit spots flow t s) (laid : Laid source limit spots)
    (small : limit < 2 ^ 32) (member : spot ∈ spots) (lower : spot.1 < t)
    (upper : t < spot.1 + spot.2.bytes.length) (starts : seq.toNat = t) :
    routed s flow seq = if t < doneAt spot then some (infoOf spot) else none := by
  have chosen : ∀ ci ∈ infosOf s flow, within ci.sSeqNum ci.chunkLength seq = true →
      ci = infoOf spot ∧ t < doneAt spot := by
    intro ci listed inside
    obtain ⟨other, listed', _, rfl⟩ := (following.known ci).mp listed
    rw [within_info laid small listed' starts, decide_eq_true_eq] at inside
    have whole := tracked_add other.2
    have ends := inside.2
    rw [doneAt] at ends
    obtain rfl := laid.same_place member listed' ⟨Nat.le_of_lt lower, upper⟩ ⟨Nat.le_of_lt inside.1, by omega⟩
    exact ⟨rfl, inside.2⟩
  have search : routed s flow seq =
      (infosOf s flow).find? fun ci => within ci.sSeqNum ci.chunkLength seq := rfl
  rw [search]
  cases found : (infosOf s flow).find? fun ci => within ci.sSeqNum ci.chunkLength seq with
  | some ci =>
    obtain ⟨rfl, before⟩ := chosen ci (List.mem_of_find?_eq_some found) (List.find?_eq_some_iff_append.mp found).1
    rw [if_pos before]
  | none =>
    rw [if_neg]
    intro before
    have listed := (following.known (infoOf spot)).mpr ⟨spot, member, lower, rfl⟩
    have missed := List.find?_eq_none.mp found _ listed
    rw [within_info laid small member starts] at missed
    exact missed (decide_eq_true ⟨lower, before⟩)

/-- What is past a chunk that is done changes no chunk. -/
theorem chunking_past {k : ℕ} {name : String} {chunks : ChunkId → Option ReconstructedChunk}
    (chunking : Chunking spots name k t chunks) (laid : Laid source limit spots) (member : spot ∈ spots)
    (past : doneAt spot ≤ t) (ordered : t ≤ u) (upper : u ≤ spot.1 + spot.2.bytes.length) :
    Chunking spots name k u chunks := by
  rw [doneAt] at past
  have whole := tracked_add spot.2
  refine ⟨fun other listed started => ?_, chunking.fresh⟩
  obtain ⟨pRc, found, taken⟩ := chunking.taken other listed started
  rcases laid.apart member listed with rfl | before | after
  · refine ⟨pRc, found, taken.start, taken.length, taken.ok, ?_⟩
    rw [taken.covers]
    congr 1
    omega
  · exact ⟨pRc, found, taken.elsewhere (Or.inr ⟨by omega, by omega⟩)⟩
  · exact ⟨pRc, found, taken.elsewhere (Or.inl ⟨by omega, by omega⟩)⟩

/-- **The front of a segment** within a record that was announced. -/
theorem front_in_record (following : Following source limit spots flow t s) (laid : Laid source limit spots)
    (small : limit < 2 ^ 32) (member : spot ∈ spots) (lower : spot.1 < t) (positive : 0 < size)
    (upper : t + size ≤ spot.1 + spot.2.bytes.length) (starts : seq.toNat = t)
    (agree : payload.bytes size = window source t (t + size)) :
    ∃ b', Sends (front s mem flow payload size seq held) (sentOf flow (finished spots t (t + size))) b' ∧
      Listing source limit spots flow (t + size) b'.pFlowList ∧
      Chunking spots flow.toString t (t + size) b'.chunkIdReconstructedChunkMap := by
  have inside := laid.inside spot member
  rw [finished_in_record laid member (Nat.le_of_lt lower) upper, front, if_neg (by omega),
    routed_in_record following laid small member lower (by omega) starts]
  by_cases before : t < doneAt spot
  · obtain ⟨b', edit, sent, listing, chunking⟩ := @fill_in_order source limit t t spots spot flow payload size seq
      mem s.buffers laid small member following.listing following.chunking lower (Nat.le_of_lt lower) before positive
      upper starts agree
    refine ⟨b', ?_, listing, chunking⟩
    have reached : sentOf flow (if t < doneAt spot ∧ doneAt spot ≤ t + size then [spot] else []) =
        if spot.1 + tracked spot.2 ≤ t + size then [(flow, spot.2.data)] else [] := by
      rw [if_congr (and_iff_right before) rfl rfl, apply_ite (sentOf flow)]
      rfl
    rw [if_pos before, reached]
    exact sent.map Prod.fst
  · have piece : Piece source limit payload size seq := ⟨positive, by omega, starts ▸ agree⟩
    have passed : spot.1 + tracked spot.2 ≤ t := Nat.le_of_not_lt before
    obtain ⟨flows, edit, ran, listing⟩ := following.listing.insert laid small member (Nat.le_of_lt lower) piece
      (by omega) (by omega)
    rw [starts] at listing
    refine ⟨{ s.buffers with pFlowList := flows }, ?_, listing,
      chunking_past following.chunking laid member passed (by omega) upper⟩
    rw [if_neg before, if_neg (fun both => before both.1)]
    exact (insert_sends ran).map Prod.fst

/-! ## A record that a segment shows -/

/-- A record's chunk before its first byte. -/
theorem chunking_opened {name : String} (chunking : Chunking spots name spot.1 spot.1 b.chunkIdReconstructedChunkMap)
    (laid : Laid source limit spots) (member : spot ∈ spots) (starts : seq.toNat = spot.1) {chunkId : ChunkId}
    (isId : chunkId = spot.2.chunkId) :
    Chunking spots name (spot.1 + 1) spot.1 (b.setChunk chunkId
      ((ReconstructedChunk.create chunkId (tracked spot.2)).setFlowStart name seq)).chunkIdReconstructedChunkMap := by
  subst isId
  have number : seq = UInt32.ofNat spot.1 := by
    rw [← starts, UInt32.ofNat_toNat]
  have elsewhere : ∀ other ∈ spots, other ≠ spot →
      (b.setChunk spot.2.chunkId ((ReconstructedChunk.create spot.2.chunkId (tracked spot.2)).setFlowStart
        name seq)).chunkIdReconstructedChunkMap other.2.chunkId =
      b.chunkIdReconstructedChunkMap other.2.chunkId := fun other listed different =>
    Function.update_of_ne (fun same => different (laid.same_id listed member same)) _ _
  refine ⟨fun other listed started => ?_, fun other listed later => ?_⟩
  · by_cases same : other = spot
    · subst same
      refine ⟨_, Function.update_self .., ?_, rfl, blocks_ok_nil, ?_⟩
      · rw [ReconstructedChunk.setFlowStart, number]
        exact Function.update_self ..
      · rw [Nat.sub_self, Nat.zero_min, Set.Ico_self]
        exact coverage_nil
    · rw [elsewhere other listed same]
      have long := other.2.long
      have long' := spot.2.long
      refine chunking.taken other listed ?_
      rcases laid.apart member listed with rfl | before | after
      · exact absurd rfl same
      · omega
      · omega
  · rw [elsewhere other listed (fun same => by rw [same] at later; omega)]
    exact chunking.fresh other listed (by omega)

/-- **A record that a segment shows**: its chunk is new, and nothing stored is for it. -/
theorem announce_in_order (laid : Laid source limit spots) (small : limit < 2 ^ 32) (member : spot ∈ spots)
    (listing : Listing source limit spots flow spot.1 b.pFlowList)
    (chunking : Chunking spots flow.toString spot.1 spot.1 b.chunkIdReconstructedChunkMap)
    (header : payload.bytes 68 = spot.2.bytes.take 68) (positive : 0 < size)
    (upper : spot.1 + size ≤ spot.1 + spot.2.bytes.length) (starts : seq.toNat = spot.1)
    (agree : payload.bytes size = window source spot.1 (spot.1 + size)) :
    ∃ b', Sends (b.announceChunk mem flow spot.2.chunkId payload size seq)
        (sentOf flow (finished spots spot.1 (spot.1 + size))) b' ∧
      Listing source limit spots flow (spot.1 + size) b'.pFlowList ∧
      Chunking spots flow.toString (spot.1 + 1) (spot.1 + size) b'.chunkIdReconstructedChunkMap := by
  have whole := tracked_add spot.2
  have long := spot.2.long
  obtain ⟨_, _, length, _⟩ := spot.2.reads header
  have measured : getLengthFromByteStream payload = tracked spot.2 := by omega
  have fresh := chunking.fresh spot member (Nat.le_refl _)
  have opened := chunking_opened chunking laid member starts rfl
  obtain ⟨b', edit, sent, listing', chunking'⟩ := @fill_in_order source limit (spot.1 + 1) spot.1 spots spot flow payload
    size seq mem (b.setChunk spot.2.chunkId ((ReconstructedChunk.create spot.2.chunkId
      (tracked spot.2)).setFlowStart flow.toString seq)) laid small member listing opened (Nat.lt_succ_self _)
    (Nat.le_refl _) (by omega) positive upper starts agree
  obtain ⟨pRc, found, taken⟩ := chunking'.taken spot member (Nat.lt_succ_self _)
  have known : pRc.flowSeqMap flow.toString = some (UInt32.ofNat spot.1) := taken.start
  refine ⟨b', ?_, listing', chunking'⟩
  have inside := laid.inside spot member
  have nothing : Sends (b'.dealWithCandidatesForChunk mem spot.2.chunkId flow) [] b' := by
    refine (sends_lift found).bind ?_
    rw [known, taken.length, Option.getD_some]
    refine candidates_none fun li stored => ?_
    exact listing'.not_within laid small member stored (toNat_start (by omega))
  have reached : sentOf flow (finished spots spot.1 (spot.1 + size)) =
      if spot.1 + tracked spot.2 ≤ spot.1 + size then [(flow, spot.2.data)] else [] := by
    rw [finished_in_record laid member (Nat.le_refl _) upper, doneAt,
      if_congr (and_iff_right (by omega)) rfl rfl, apply_ite (sentOf flow)]
    rfl
  rw [announceChunk, fresh, reached]
  simp only [measured]
  exact sent.before nothing

/-! ## A segment -/

/-- The test for a record header, at an offset. -/
def ShowsHeader (p : Pointer) (i : ℕ) : Prop :=
  p i = rpcHeader ∧ (p.advance (i + 8)).bytes maskSizeInBytes = mask

/-- A segment of a stream, from `t` on: it shows headers only where records start, and if a
record starts in it, just one does and its first 68 bytes are there. -/
structure Segment (spots : List (ℕ × ChunkRecord)) (t : ℕ) (payload : Pointer) (size : ℕ) : Prop where
  shows : ∀ i < size, ShowsHeader payload i → ∃ spot ∈ spots, spot.1 = t + i
  header : ∀ spot ∈ spots, t ≤ spot.1 → spot.1 < t + size → spot.1 + 68 ≤ t + size
  one : ∀ spot ∈ spots, ∀ other ∈ spots, t ≤ spot.1 → spot.1 < t + size → t ≤ other.1 → other.1 < t + size →
    spot = other

/-- The records leave no position of the stream out. -/
def Full (first limit : ℕ) (spots : List (ℕ × ChunkRecord)) : Prop :=
  ∀ x, first ≤ x → x < limit → ∃ spot ∈ spots, spot.1 ≤ x ∧ x < spot.1 + spot.2.bytes.length

/-- What starts no record is in one. -/
theorem in_one_record (laid : Laid source limit spots) (full : Full first limit spots) (lower : first ≤ t)
    (upper : t + size ≤ limit) (positive : 0 < size)
    (clear : ∀ spot ∈ spots, t ≤ spot.1 → t + size ≤ spot.1) :
    ∃ spot ∈ spots, spot.1 < t ∧ t + size ≤ spot.1 + spot.2.bytes.length := by
  obtain ⟨spot, member, starts, ends⟩ := full t lower (by omega)
  have before : spot.1 < t := by
    by_contra late
    have := clear spot member (by omega)
    omega
  refine ⟨spot, member, before, ?_⟩
  by_contra beyond
  obtain ⟨other, listed, starts', ends'⟩ := full (spot.1 + spot.2.bytes.length) (by omega) (by omega)
  rcases laid.apart member listed with rfl | after | earlier
  · omega
  · have := clear other listed (by omega)
    omega
  · omega

theorem finished_same (t : ℕ) : finished spots t t = [] :=
  List.filter_eq_nil_iff.mpr fun spot _ is => by
    rw [decide_eq_true_eq] at is
    omega

/-- The front of a segment, up to where a record starts. -/
theorem front_in_order (following : Following source limit spots flow t s) (laid : Laid source limit spots)
    (small : limit < 2 ^ 32) (full : Full first limit spots) (lower : first ≤ t) (upper : t + size ≤ limit)
    (clear : ∀ spot ∈ spots, t ≤ spot.1 → t + size ≤ spot.1) (starts : seq.toNat = t)
    (agree : payload.bytes size = window source t (t + size)) :
    ∃ b', Sends (front s mem flow payload size seq held) (sentOf flow (finished spots t (t + size))) b' ∧
      Listing source limit spots flow (t + size) b'.pFlowList ∧
      Chunking spots flow.toString (t + size) (t + size) b'.chunkIdReconstructedChunkMap := by
  by_cases empty : size = 0
  · subst empty
    refine ⟨s.buffers, ?_, following.listing, following.chunking⟩
    rw [front, if_pos rfl, Nat.add_zero, finished_same]
    exact sends_pure _
  · obtain ⟨spot, member, before, inside⟩ := in_one_record laid full lower upper (by omega) clear
    obtain ⟨b', sent, listing, chunking⟩ := @front_in_record source limit t spots spot flow payload size seq mem s held
      following laid small member before (by omega) inside starts agree
    refine ⟨b', sent, listing, fun other listed started => chunking.taken other listed ?_,
      fun other listed later => chunking.fresh other listed (by omega)⟩
    by_contra late
    have := clear other listed (by omega)
    omega

/-- The header that a segment shows is its record's. -/
theorem shows_record (laid : Laid source limit spots) (segment : Segment spots t payload size)
    (member : spot ∈ spots) (lower : t ≤ spot.1) (upper : spot.1 < t + size)
    (agree : payload.bytes size = window source t (t + size)) :
    getChunkId payload size = some (spot.2.chunkId, spot.1 - t) ∧
      (payload.advance (spot.1 - t : ℕ)).bytes 68 = spot.2.bytes.take 68 := by
  have inside := segment.header spot member lower upper
  have long := spot.2.long
  have place : t + (spot.1 - t) = spot.1 := by omega
  have header : (payload.advance (spot.1 - t : ℕ)).bytes 68 = spot.2.bytes.take 68 := by
    rw [window_part agree _ _ (by omega), place, record_part laid member (Nat.le_refl _) (by omega), Nat.sub_self,
      List.drop_zero]
  obtain ⟨mark, masked, _⟩ := spot.2.reads header
  have search : rpcHeaderInStream payload size = some (spot.1 - t) := by
    refine List.find?_range_eq_some.mpr ⟨?_, List.mem_range.mpr (by omega), fun i before => ?_⟩
    · rw [decide_eq_true_eq]
      rw [Pointer.advance_advance] at masked
      exact ⟨by simpa [Pointer.advance] using mark, masked⟩
    · rw [Bool.not_eq_true', decide_eq_false_iff_not]
      intro shown
      obtain ⟨other, listed, starts⟩ := segment.shows i (by omega) shown
      have := segment.one spot member other listed lower upper (by omega) (by omega)
      subst this
      omega
  refine ⟨?_, header⟩
  rw [getChunkId, search]
  simp only [Option.bind_eq_bind, Option.bind_some, spot.2.extract_header header]

theorem shows_nothing (segment : Segment spots t payload size)
    (clear : ∀ spot ∈ spots, t ≤ spot.1 → t + size ≤ spot.1) : getChunkId payload size = none := by
  have search : rpcHeaderInStream payload size = none := by
    refine List.find?_eq_none.mpr fun i inside shown => ?_
    have bound := List.mem_range.mp inside
    rw [decide_eq_true_eq] at shown
    obtain ⟨spot, member, starts⟩ := segment.shows i bound shown
    have := clear spot member (by omega)
    omega
  rw [getChunkId, search]
  rfl

/-- A flow comes to know the record that a segment shows. -/
theorem known_shown {ci : ChunkInfo} (known : ∀ ci, ci ∈ infosOf s flow ↔ ∃ spot ∈ spots, spot.1 < t ∧ ci = infoOf spot)
    (laid : Laid source limit spots) (member : spot ∈ spots) (lower : t ≤ spot.1) (upper : spot.1 < u)
    (one : ∀ other ∈ spots, t ≤ other.1 → other.1 < u → spot = other) (starts : seq.toNat = spot.1) :
    ci ∈ noteChunk (infosOf s flow) spot.2.chunkId seq (tracked spot.2) ↔
      ∃ spot ∈ spots, spot.1 < u ∧ ci = infoOf spot := by
  have number : seq = UInt32.ofNat spot.1 := by
    rw [← starts, UInt32.ofNat_toNat]
  have new : ¬ (infosOf s flow).any (Remembers.chunkId · = spot.2.chunkId) = true := by
    rw [List.any_eq_true]
    rintro ⟨info, listed, same⟩
    obtain ⟨other, listed', before, rfl⟩ := (known info).mp listed
    have := laid.same_id listed' member (of_decide_eq_true same)
    subst this
    omega
  rw [noteChunk, if_neg new, List.mem_append, List.mem_singleton, known]
  constructor
  · rintro (⟨other, listed, before, rfl⟩ | rfl)
    · exact ⟨other, listed, by omega, rfl⟩
    · exact ⟨spot, member, upper, by rw [number]; rfl⟩
  · rintro ⟨other, listed, before, rfl⟩
    by_cases old : other.1 < t
    · exact Or.inl ⟨other, listed, old, rfl⟩
    · obtain rfl := one other listed (by omega) before
      exact Or.inr (by rw [number]; rfl)

theorem head_size_eq {found : Option (ChunkId × ℕ)} (shown : getChunkId payload size = found) :
    headSize payload size = found.elim size Prod.snd := by
  rw [headSize, shown]
  cases found <;> rfl

/-- **A segment**, in order. -/
theorem segment_in_order (following : Following source limit spots flow t s) (laid : Laid source limit spots)
    (small : limit < 2 ^ 32) (full : Full first limit spots) (lower : first ≤ t) (upper : t + size ≤ limit)
    (positive : 0 < size) (segment : Segment spots t payload size) (starts : seq.toNat = t)
    (agree : payload.bytes size = window source t (t + size)) :
    ∃ s', Sends (s.handleIp true mem flow payload size seq) (sentOf flow (finished spots t (t + size))) s' ∧
      Following source limit spots flow (t + size) s' := by
  rw [handle_ip_multi (by omega)]
  by_cases shown : ∃ spot ∈ spots, t ≤ spot.1 ∧ spot.1 < t + size
  · obtain ⟨spot, member, after, inside⟩ := shown
    obtain ⟨found, header⟩ := shows_record laid segment member after inside agree
    have one := fun other listed => segment.one spot member other listed after inside
    have whole := segment.header spot member after inside
    have long := spot.2.long
    have place : t + (spot.1 - t) = spot.1 := by omega
    have rest : spot.1 + (size - (spot.1 - t)) = t + size := by omega
    have clear : ∀ other ∈ spots, t ≤ other.1 → t + (spot.1 - t) ≤ other.1 := fun other listed later => by
      by_contra early
      have := one other listed later (by omega)
      subst this
      omega
    -- what comes before the record
    have before : payload.bytes (spot.1 - t) = window source t (t + (spot.1 - t)) := by
      simpa using window_part agree 0 (spot.1 - t) (by omega)
    obtain ⟨b₁, sent₁, listing₁, chunking₁⟩ := @front_in_order source limit first t spots flow payload (spot.1 - t) seq
      mem s size following laid small full lower (by omega) clear starts before
    rw [place] at sent₁ listing₁ chunking₁
    -- the record
    have ends : t + size ≤ spot.1 + spot.2.bytes.length := by
      have later : ∀ other ∈ spots, spot.1 + 1 ≤ other.1 → spot.1 + 1 + (size - (spot.1 - t) - 1) ≤ other.1 := by
        intro other listed next
        by_contra early
        have := one other listed (by omega) (by omega)
        subst this
        omega
      obtain ⟨other, listed, before, after⟩ := in_one_record laid full (by omega) (by omega) (by omega) later
      obtain rfl := laid.same_place member listed ⟨Nat.le_refl _, by omega⟩ ⟨by omega, by omega⟩
      omega
    have starts' : (seq + UInt32.ofInt (spot.1 - t : ℕ)).toNat = spot.1 := by
      rw [toNat_add_ofInt _ _ (by omega), starts, place]
    have part : (payload.advance (spot.1 - t : ℕ)).bytes (size - (spot.1 - t)) =
        window source spot.1 (spot.1 + (size - (spot.1 - t))) := by
      rw [window_part agree _ _ (by omega), place]
    obtain ⟨b₂, sent₂, listing₂, chunking₂⟩ := @announce_in_order source limit spots spot flow
      (payload.advance (spot.1 - t : ℕ)) (size - (spot.1 - t)) _ mem b₁ laid small member listing₁ chunking₁ header
      (by omega) (by omega) starts' part
    rw [rest] at sent₂ listing₂ chunking₂
    obtain ⟨_, _, length, _⟩ := spot.2.reads header
    have measured : getLengthFromByteStream (payload.advance (spot.1 - t : ℕ)) = tracked spot.2 := by
      rw [tracked]
      omega
    refine ⟨{ s.setInfos flow (noteChunk (infosOf s flow) spot.2.chunkId (seq + UInt32.ofInt (spot.1 - t : ℕ))
        (tracked spot.2)) with buffers := b₂ }, ?_, fun ci => ?_, listing₂, fun other listed started =>
        chunking₂.taken other listed ?_, fun other listed later => chunking₂.fresh other listed (by omega)⟩
    · rw [head_size_eq found, found, finished_append laid after (Nat.le_of_lt inside), sentOf, List.map_append]
      refine sent₁.bind ?_
      simp only [showRecord, measured]
      exact sent₂.finish _
    · rw [← known_shown following.known laid member after inside one starts']
      simp [infosOf, setInfos]
    · by_contra late
      have := one other listed (by omega) started
      subst this
      omega
  · have clear : ∀ spot ∈ spots, t ≤ spot.1 → t + size ≤ spot.1 := fun spot member after => by
      by_contra inside
      exact shown ⟨spot, member, after, by omega⟩
    have nothing := shows_nothing segment clear
    obtain ⟨b', sent, listing, chunking⟩ := @front_in_order source limit first t spots flow payload size seq mem s size
      following laid small full lower upper clear starts agree
    refine ⟨{ s with buffers := b' }, ?_, fun ci => ?_, listing, chunking⟩
    · rw [head_size_eq nothing, nothing]
      exact sent.finish _
    · refine (following.known ci).trans (exists_congr fun spot => and_congr_right fun member => ?_)
      refine and_congr_left fun _ => ⟨fun before => by omega, fun before => ?_⟩
      by_contra late
      have := clear spot member (by omega)
      omega

/-! ## A run -/

/-- An event of the run: a segment of the stream, or a pass. -/
def Fits (source : ℕ → UInt8) (first limit : ℕ) (spots : List (ℕ × ChunkRecord)) (flow : FlowId)
    (event : Memory × SniffEvent) : Prop :=
  match event.2 with
  | .segment other payload around seqNum => other = flow ∧ first ≤ seqNum.toNat ∧ 0 < payload.length ∧
      seqNum.toNat + payload.length ≤ limit ∧
      Segment spots seqNum.toNat (.ofBytes payload around) payload.length ∧
      payload = window source seqNum.toNat (seqNum.toNat + payload.length)
  | .grepFlows => True

/-- A pass in between. -/
theorem pass_in_order (following : Following source limit spots flow t s) (laid : Laid source limit spots)
    (mem : Memory) : ∃ s', Sends (s.step true (mem, .grepFlows)) [] s' ∧ Following source limit spots flow t s' := by
  obtain ⟨after, sent, listing⟩ := following.listing.pass laid mem
  refine ⟨{ s with buffers := { s.buffers with pFlowList := after } }, ?_, following.known, listing,
    following.chunking⟩
  rw [SniffTcp.step]
  exact (sent.finish fun flows => { s.buffers with pFlowList := flows }).finish _

theorem step_of_sends {event : Memory × SniffEvent} {sent : List (FlowId × List UInt8)} {s' : SniffTcp ChunkInfo}
    (ran : Sends (s.step true event) sent s') (calls : List Call) :
    ∃ later, Capture.step true ⟨some s, calls⟩ event = some ⟨some s', calls ++ later⟩ ∧
      later.filterMap Call.sent = sent := by
  refine ⟨(s.step true event).calls, ?_, ran.calls⟩
  simp only [Capture.step, Option.map_some, ran.result]

/-- **A run**: what is sent between two points are the records whose chunks are done there. -/
theorem run_in_order (laid : Laid source limit spots) (small : limit < 2 ^ 32) (full : Full first limit spots)
    {events : List (Memory × SniffEvent)} {pieces : List (List UInt8)} {calls : List Call}
    (following : Following source limit spots flow t s)
    (fits : ∀ event ∈ events, Fits source first limit spots flow event)
    (ordered : events.filterMap (captures flow) = placed id t pieces) (ends : t + pieces.flatten.length = limit) :
    ∃ s' later, events.foldlM (Capture.step true) ⟨some s, calls⟩ = some ⟨some s', calls ++ later⟩ ∧
      later.filterMap Call.sent = sentOf flow (finished spots t limit) := by
  induction events generalizing t s pieces calls with
  | nil =>
    cases pieces with
    | nil =>
      obtain rfl : t = limit := ends
      refine ⟨s, [], by simp, ?_⟩
      rw [finished_same]
      rfl
    | cons piece rest => cases ordered
  | cons event events ih =>
    obtain ⟨head, tail⟩ := List.forall_mem_cons.mp fits
    obtain ⟨mem, event⟩ := event
    cases event with
    | grepFlows =>
      obtain ⟨s₁, sent, following₁⟩ := pass_in_order following laid mem
      obtain ⟨later₁, ran, silent⟩ := step_of_sends sent calls
      rw [List.filterMap_cons_none rfl] at ordered
      obtain ⟨s', later, ran', sent'⟩ := @ih t s₁ pieces (calls ++ later₁) following₁ tail ordered ends
      refine ⟨s', later₁ ++ later, ?_, ?_⟩
      · rw [List.foldlM_cons, ran]
        simpa using ran'
      · rw [List.filterMap_append, silent, sent', List.nil_append]
    | segment other payload around seq =>
      obtain ⟨rfl, lower, positive, upper, segment, part⟩ := head
      have first : captures other (mem, .segment other payload around seq) = some (seq.toNat, payload) := if_pos rfl
      rw [List.filterMap_cons_some first] at ordered
      cases pieces with
      | nil => cases ordered
      | cons piece rest =>
        rw [placed] at ordered
        obtain ⟨same, ordered⟩ := List.cons.inj ordered
        obtain ⟨starts, rfl⟩ := Prod.mk.inj same
        rw [List.flatten_cons, List.length_append, ← Nat.add_assoc] at ends
        have agree : (Pointer.ofBytes payload around).bytes payload.length =
            window source t (t + payload.length) := by
          rw [Pointer.bytes_ofBytes, part, starts]
          simp
        rw [starts] at lower upper segment
        obtain ⟨s₁, sent, following₁⟩ := @segment_in_order _ _ _ _ _ other _ _ seq mem s following laid small full lower
          upper positive segment starts agree
        obtain ⟨later₁, ran, sent₁⟩ := @step_of_sends s (mem, .segment other payload around seq) _ _ sent calls
        obtain ⟨s', later, ran', sent'⟩ := @ih _ s₁ rest (calls ++ later₁) following₁ tail ordered ends
        refine ⟨s', later₁ ++ later, ?_, ?_⟩
        · rw [List.foldlM_cons, ran]
          simpa using ran'
        · rw [List.filterMap_append, sent₁, sent', finished_append laid (Nat.le_add_right ..) upper, sentOf, sentOf,
            sentOf, List.map_append]

/-! ## All records -/

/-- The event is a segment of the flow, or a pass. -/
def Feeds (flow : FlowId) (event : Memory × SniffEvent) : Prop :=
  match event.2 with
  | .segment other .. => other = flow
  | .grepFlows => True

/-- What is read past the end of a segment does not complete a header. -/
def Quiet (event : Memory × SniffEvent) : Prop :=
  match event.2 with
  | .segment _ payload around _ => ∀ i < payload.length, payload.length < i + 8 + maskSizeInBytes →
      ¬ ShowsHeader (.ofBytes payload around) i
  | .grepFlows => True

/-- A flow's stream of records, cut into segments that are captured in order, with passes
in between. -/
structure Lossless (flow : FlowId) (first : ℕ) (records : List ChunkRecord) (pieces : List (List UInt8))
    (events : List (Memory × SniffEvent)) : Prop where
  complete : ∀ r ∈ records, 68 + r.dataLength ≤ r.bytes.length - 4
  distinct : (records.map ChunkRecord.chunkId).Nodup
  headers : ∀ i, (joined ChunkRecord.bytes records)[i]? = some rpcHeader →
    ((joined ChunkRecord.bytes records).drop (i + 8)).take maskSizeInBytes = mask →
    ∃ spot ∈ placed ChunkRecord.bytes first records, spot.1 = first + i
  unwrapped : first + (joined ChunkRecord.bytes records).length < 2 ^ 32
  cut : pieces.flatten = joined ChunkRecord.bytes records
  nonempty : ∀ piece ∈ pieces, piece ≠ []
  whole : ∀ spot ∈ placed ChunkRecord.bytes first records, ∃ piece ∈ placed id first pieces,
    piece.1 ≤ spot.1 ∧ spot.1 + 68 ≤ piece.1 + piece.2.length
  single : ∀ piece ∈ placed id first pieces, ∀ spot ∈ placed ChunkRecord.bytes first records,
    ∀ other ∈ placed ChunkRecord.bytes first records, piece.1 ≤ spot.1 → spot.1 < piece.1 + piece.2.length →
    piece.1 ≤ other.1 → other.1 < piece.1 + piece.2.length → spot = other
  feeds : ∀ event ∈ events, Feeds flow event
  ordered : events.filterMap (captures flow) = placed id first pieces
  quiet : ∀ event ∈ events, Quiet event

namespace Lossless

variable {records : List ChunkRecord} {pieces : List (List UInt8)} {events : List (Memory × SniffEvent)}

theorem laid (lossless : Lossless flow first records pieces events) :
    Laid (streamFrom first (joined ChunkRecord.bytes records)) (first + (joined ChunkRecord.bytes records).length)
      (placed ChunkRecord.bytes first records) := by
  have parts := fun spot => @placed_part _ ChunkRecord.bytes first records (joined ChunkRecord.bytes records) [] rfl spot
  refine ⟨(placed_ordered _ _ _).2, ?_, fun spot member => (parts spot member).2.1,
    fun spot member => (parts spot member).2.2, fun spot member => lossless.complete spot.2 (mem_of_placed member)⟩
  have distinct := lossless.distinct
  rw [← map_placed ChunkRecord.bytes first records, List.map_map] at distinct
  exact List.pairwise_map.mp distinct

theorem full (_ : Lossless flow first records pieces events) :
    Full first (first + (joined ChunkRecord.bytes records).length) (placed ChunkRecord.bytes first records) := by
  intro x lower upper
  have inside : x ∈ positions ChunkRecord.bytes (placed ChunkRecord.bytes first records) := by
    rw [positions_placed]
    exact ⟨lower, upper⟩
  exact inside

/-- A header in a segment is one in the stream. -/
theorem shows (lossless : Lossless flow first records pieces events) {payload : List UInt8} {around : ℤ → UInt8}
    {mem : Memory} (event : (mem, SniffEvent.segment flow payload around seq) ∈ events)
    (lower : first ≤ seq.toNat) (upper : seq.toNat + payload.length ≤ first + (joined ChunkRecord.bytes records).length)
    (part : payload = window (streamFrom first (joined ChunkRecord.bytes records)) seq.toNat
      (seq.toNat + payload.length)) {i : ℕ} (inside : i < payload.length)
    (shown : ShowsHeader (.ofBytes payload around) i) :
    ∃ spot ∈ placed ChunkRecord.bytes first records, spot.1 = seq.toNat + i := by
  have fits : i + 8 + maskSizeInBytes ≤ payload.length := by
    by_contra beyond
    exact lossless.quiet _ event i inside (by omega) shown
  obtain ⟨before, split⟩ : ∃ before, seq.toNat = first + before := ⟨seq.toNat - first, by omega⟩
  have cut : payload = ((joined ChunkRecord.bytes records).drop before).take payload.length := by
    have shifted := @window_stream first (joined ChunkRecord.bytes records) before (before + payload.length) (by omega)
    rw [Nat.add_sub_cancel_left, ← Nat.add_assoc] at shifted
    rw [← shifted, ← split]
    exact part
  have marked : payload[i]? = some rpcHeader := by
    have shown := shown.1
    rw [Pointer.ofBytes, if_pos ⟨by omega, by omega⟩, Int.toNat_natCast, List.getD_eq_getElem?_getD,
      List.getElem?_eq_getElem inside, Option.getD_some] at shown
    rw [List.getElem?_eq_getElem inside, shown]
  have held : (Pointer.ofBytes payload around).bytes payload.length = payload.take payload.length :=
    bytes_of_front _ (Nat.le_refl _)
  have masked : (payload.drop (i + 8)).take maskSizeInBytes = mask := by
    rw [← slice_eq (i + 8) maskSizeInBytes held fits]
    exact shown.2
  rw [cut, List.getElem?_take_of_lt inside, List.getElem?_drop] at marked
  rw [cut, List.drop_take, List.take_take, List.drop_drop, Nat.min_eq_left (by omega), ← Nat.add_assoc] at masked
  obtain ⟨spot, member, starts⟩ := lossless.headers (before + i) marked masked
  exact ⟨spot, member, by omega⟩

/-- All events are those of a run. -/
theorem fits (lossless : Lossless flow first records pieces events) : ∀ event ∈ events,
    Fits (streamFrom first (joined ChunkRecord.bytes records)) first
      (first + (joined ChunkRecord.bytes records).length) (placed ChunkRecord.bytes first records) flow event := by
  rintro ⟨mem, event⟩ member
  cases event with
  | grepFlows => trivial
  | segment other payload around seq =>
    obtain rfl : other = flow := lossless.feeds _ member
    have listed : (seq.toNat, payload) ∈ placed id first pieces := by
      rw [← lossless.ordered]
      exact List.mem_filterMap.mpr ⟨_, member, if_pos rfl⟩
    obtain ⟨lower, upper, part⟩ := @placed_part _ id first pieces (joined ChunkRecord.bytes records) []
      (by simpa using lossless.cut.symm) _ listed
    have some_bytes := List.length_pos_iff.mpr (lossless.nonempty payload (mem_of_placed listed))
    refine ⟨rfl, lower, some_bytes, upper, ⟨fun i inside shown => ?_, fun spot known after before => ?_,
      lossless.single _ listed⟩, part⟩
    · exact lossless.shows member lower upper part inside shown
    · -- the piece with the header is this one
      obtain ⟨piece, placed, starts, ends⟩ := lossless.whole spot known
      rcases Spans.same_or_ordered (placed_ordered id first pieces).2 placed listed with rfl | before | after
      · exact ends
      · dsimp only [id] at before
        omega
      · dsimp only [id] at after
        omega

/-- A sniffer that starts. -/
theorem start (_ : Lossless flow first records pieces events) :
    Following (streamFrom first (joined ChunkRecord.bytes records)) (first + (joined ChunkRecord.bytes records).length)
      (placed ChunkRecord.bytes first records) flow first .create := by
  have later := (placed_ordered ChunkRecord.bytes first records).1
  refine ⟨fun ci => ⟨fun listed => (nomatch listed), ?_⟩, ⟨Or.inl rfl, blocks_ok_nil, ?_⟩,
    ⟨fun spot member started => ?_, fun _ _ _ => rfl⟩⟩
  · rintro ⟨spot, member, before, _⟩
    exact absurd (later spot member) (by omega)
  · refine coverage_nil.trans (Set.eq_empty_iff_forall_notMem.mpr ?_).symm
    rintro x ⟨before, spot, member, past, _⟩
    have := later spot member
    omega
  · exact absurd (later spot member) (by omega)

/-- All chunks end within the stream. -/
theorem all_finished (lossless : Lossless flow first records pieces events) :
    sentOf flow (finished (placed ChunkRecord.bytes first records) first
      (first + (joined ChunkRecord.bytes records).length)) = records.map fun r => (flow, r.data) := by
  have all : finished (placed ChunkRecord.bytes first records) first
      (first + (joined ChunkRecord.bytes records).length) = placed ChunkRecord.bytes first records := by
    refine List.filter_eq_self.mpr fun spot member => decide_eq_true ?_
    have whole := tracked_add spot.2
    have long := spot.2.long
    have lower := (placed_ordered ChunkRecord.bytes first records).1 spot member
    have upper := lossless.laid.inside spot member
    rw [doneAt]
    omega
  rw [all, sentOf]
  conv_rhs => rw [← map_placed ChunkRecord.bytes first records, List.map_map]
  rfl

end Lossless

/-- **Every chunk exactly once**, in the order of the records. -/
theorem in_order_lossless (flow : FlowId) (first : ℕ) (records : List ChunkRecord) (pieces : List (List UInt8))
    (events : List (Memory × SniffEvent)) (lossless : Lossless flow first records pieces events) :
    ∃ c s, events.foldlM (Capture.step true) .start = some c ∧ c.sniffer = some s ∧
      c.calls.filterMap Call.sent = records.map fun r => (flow, r.data) := by
  obtain ⟨s, later, ran, sent⟩ := @run_in_order _ _ first first _ flow .create lossless.laid lossless.unwrapped
    lossless.full events pieces [] lossless.start lossless.fits lossless.ordered (by rw [lossless.cut])
  exact ⟨_, s, ran, rfl, sent.trans lossless.all_finished⟩

theorem quiet_of_tail {payload : List UInt8} {around : ℤ → UInt8} (flow : FlowId)
    (tail : ∀ j < 31, payload.getD (payload.length - 31 + j) 0 ≠ rpcHeader) :
    Quiet (mem, .segment flow payload around seq) := by
  intro i inside late shown
  have marked := shown.1
  rw [Pointer.ofBytes, if_pos ⟨by omega, by omega⟩, Int.toNat_natCast] at marked
  rw [maskSizeInBytes] at late
  obtain ⟨j, small, place⟩ : ∃ j < 31, payload.length - 31 + j = i :=
    ⟨i - (payload.length - 31), by omega, by omega⟩
  exact tail j small (place ▸ marked)

/-- Two records in three segments, the second of which has bytes of both. -/
def twoRecords : List (List UInt8) :=
  [(plainRecord 7).bytes.take 500, (plainRecord 7).bytes.drop 500 ++ (plainRecord 8).bytes.take 100,
    (plainRecord 8).bytes.drop 100]

theorem in_order_lossless_of_two : ∃ c s,
    [(zeroMemory, SniffEvent.segment someFlow ((plainRecord 7).bytes.take 500) (fun _ => 0) 5),
      (zeroMemory, .grepFlows),
      (zeroMemory, .segment someFlow ((plainRecord 7).bytes.drop 500 ++ (plainRecord 8).bytes.take 100)
        (fun _ => 0) 505),
      (zeroMemory, .segment someFlow ((plainRecord 8).bytes.drop 100) (fun _ => 0) 1209)].foldlM
        (Capture.step true) .start = some c ∧ c.sniffer = some s ∧
      c.calls.filterMap Call.sent = [plainRecord 7, plainRecord 8].map fun r => (someFlow, r.data) := by
  have length₇ : (plainRecord 7).bytes.length = 1104 := length_plain 7
  have length₈ : (plainRecord 8).bytes.length = 1104 := length_plain 8
  have spots : placed ChunkRecord.bytes 5 [plainRecord 7, plainRecord 8] =
      [(5, plainRecord 7), (1109, plainRecord 8)] := by
    simp [placed, length₇]
  have cuts : placed id 5 twoRecords = [(5, (plainRecord 7).bytes.take 500),
      (505, (plainRecord 7).bytes.drop 500 ++ (plainRecord 8).bytes.take 100),
          (1209, (plainRecord 8).bytes.drop 100)] := by
    simp [twoRecords, placed, length₇, length₈]
  apply in_order_lossless someFlow 5 _ twoRecords
  constructor
  · intro r member
    rcases List.mem_pair.mp member with first | second
    · rw [first, length₇]
      exact (by decide : 68 + 1024 ≤ 1104 - 4)
    · rw [second, length₈]
      exact (by decide : 68 + 1024 ≤ 1104 - 4)
  · decide
  · rw [spots]
    intro i marked _
    have only : (joined ChunkRecord.bytes [plainRecord 7, plainRecord 8]).zipIdx.all
        (fun entry => entry.1 ≠ rpcHeader ∨ entry.2 = 0 ∨ entry.2 = 1104) = true := by decide +kernel
    have place := List.all_eq_true.mp only (rpcHeader, i) (List.mem_zipIdx_iff_getElem?.mpr marked)
    rcases of_decide_eq_true place with other | rfl | rfl
    · exact absurd rfl other
    · exact ⟨_, List.mem_cons_self .., rfl⟩
    · exact ⟨_, List.mem_cons_of_mem _ (List.mem_cons_self ..), rfl⟩
  · simp [joined, length₇, length₈]
  · simp only [joined, twoRecords, List.map_cons, List.map_nil, List.flatten_cons, List.flatten_nil,
      List.append_nil, List.append_assoc, List.take_append_drop]
    rw [← List.append_assoc, List.take_append_drop]
  · intro piece member
    rw [← List.length_pos_iff]
    simp only [twoRecords, List.mem_cons, List.not_mem_nil, or_false] at member
    rcases member with first | second | third
    · rw [first, List.length_take, length₇]
      decide
    · rw [second, List.length_append, List.length_drop, length₇]
      omega
    · rw [third, List.length_drop, length₈]
      decide
  · rw [spots, cuts]
    intro spot member
    rcases List.mem_pair.mp member with first | second
    · refine ⟨_, List.mem_cons_self .., ?_⟩
      rw [first, List.length_take, length₇]
      decide
    · refine ⟨_, List.mem_cons_of_mem _ (List.mem_cons_self ..), ?_⟩
      rw [second, List.length_append, List.length_drop, List.length_take, length₇, length₈]
      decide
  · rw [spots, cuts]
    intro piece listed spot one other two
    have short : piece.2.length ≤ 1004 := by
      simp only [List.mem_cons, List.not_mem_nil, or_false] at listed
      rcases listed with first | second | third
      · rw [first, List.length_take, length₇]
        decide
      · rw [second, List.length_append, List.length_drop, List.length_take, length₇, length₈]
        decide
      · rw [third, List.length_drop, length₈]
    rcases List.mem_pair.mp one with one | one <;> rcases List.mem_pair.mp two with two | two
    · exact fun _ _ _ _ => one.trans two.symm
    · rw [one, two]
      omega
    · rw [one, two]
      omega
    · exact fun _ _ _ _ => one.trans two.symm
  · simp [Feeds]
  · rw [cuts]
    rfl
  · intro event member
    simp only [List.mem_cons, List.not_mem_nil, or_false] at member
    rcases member with first | second | third | fourth
    · rw [first]
      exact quiet_of_tail someFlow (by decide +kernel)
    · rw [second]
      trivial
    · rw [third]
      exact quiet_of_tail someFlow (by decide +kernel)
    · rw [fourth]
      exact quiet_of_tail someFlow (by decide +kernel)

end Ditto.InOrderCapture
