import Ditto.ChunkAccounts
import Ditto.ChunkHeadings
import Ditto.RecordHeaders

/-! The front of a chunk. The first block of a chunk that was announced starts at the
chunk's first byte with the header that announced it, and nothing that is done to the
chunk later takes that away: whatever it is handed, the block is only made longer. -/
namespace Ditto.ChunkFronts
open Sniffer ContiguousBlock ReconstructedChunk Windows Words Traces Traced RecordHeaders ChunkHeadings

/-- The bytes start with the header of a reply that carries this id. -/
def Headed (chunkId : ChunkId) (bytes : List UInt8) : Prop :=
  68 ≤ bytes.length ∧ ∀ p : Pointer, p.bytes 68 = bytes.take 68 →
    ∃ r, extractChunkResponse p = some r ∧ r.chunkId = chunkId

/-- The first block starts at the chunk's first byte, with the header. -/
def Fronted (chunkId : ChunkId) (lcb : List ContiguousBlock) : Prop :=
  ∃ li rest, lcb = li :: rest ∧ li.startingSeqNumber = 0 ∧ Headed chunkId li.contiguousBlock

/-- A chunk no flow has announced, or one with its header. -/
structure ChunkOk (chunkId : ChunkId) (pRc : ReconstructedChunk) : Prop where
  long : minPayloadLength ≤ pRc.length
  short : pRc.length < 2 ^ 31
  shape : (pRc.lcb = [] ∧ ∀ name, pRc.flowSeqMap name = none) ∨ Fronted chunkId pRc.lcb

/-- So are all of them. -/
def ChunksOk (b : Buffers) : Prop :=
  ∀ chunkId pRc, b.chunkIdReconstructedChunkMap chunkId = some pRc → ChunkOk chunkId pRc

variable {p : Pointer} {r : DotChunkRes} {chunkId x : ChunkId} {bytes more : List UInt8} {n size : ℕ}
  {li li' : ContiguousBlock} {lcb lcb' rest rest' : List ContiguousBlock} {payload : Pointer} {count held : ℤ}
  {seq : TcpSeq} {dups dups' : UInt64} {bDuplicate done : Bool} {b b' : Buffers} {flow : FlowId} {edit : Edit}
  {pRc after : ReconstructedChunk} {name : String}

/-! ## Headers -/

theorem extract_fields (extracted : extractChunkResponse p = some r) :
    minPayloadLength ≤ getLengthFromByteStream p ∧ ntohl (p.advance 40) = 20 ∧
      minChunkSize ≤ ntohl (p.advance 64) ∧ r.chunkId = (p.advance 44).bytes 20 := by
  rw [extractChunkResponse] at extracted
  simp only [Pointer.advance_advance, Int.reduceAdd] at extracted
  split at extracted
  · cases extracted
  · split at extracted
    · cases extracted
    · rename_i idLength
      split at extracted
      · cases extracted
      · cases extracted
        have idLength := not_not.mp idLength
        exact ⟨by omega, idLength, by omega, by rw [idLength]⟩

/-- A reply is told by its first 68 bytes. -/
theorem headed_of_extract (long : 68 ≤ bytes.length) (holds : p.bytes 68 = bytes.take 68)
    (extracted : extractChunkResponse p = some r) : Headed r.chunkId bytes := by
  obtain ⟨payloadLength, idLength, dataLength, chunkId⟩ := extract_fields extracted
  refine ⟨long, fun q same => ?_⟩
  have field : ∀ first count : ℕ, first + count ≤ 68 →
      (q.advance first).bytes count = (p.advance first).bytes count := fun first count inside => by
    rw [slice_eq first count same inside, slice_eq first count holds inside]
  have word : ∀ first : ℕ, first + 4 ≤ 68 → ntohl (q.advance first) = ntohl (p.advance first) :=
    fun first inside => by rw [ntohl_eq, ntohl_eq, field first 4 inside]
  have start : getLengthFromByteStream q = getLengthFromByteStream p := by
    have first := word 0 (by omega)
    rw [Int.natCast_zero, Pointer.advance_zero, Pointer.advance_zero] at first
    rw [get_length_eq, get_length_eq, first]
  have idLength' : ntohl (q.advance 40) = 20 := (word 40 (by omega)).trans idLength
  have dataLength' : minChunkSize ≤ ntohl (q.advance 64) := dataLength.trans_eq (word 64 (by omega)).symm
  refine ⟨_, extract_eq (start ▸ payloadLength) idLength' dataLength', ?_⟩
  rw [chunkId]
  exact field 44 20 (by omega)

theorem Headed.append (headed : Headed x bytes) (more : List UInt8) : Headed x (bytes ++ more) := by
  refine ⟨?_, fun p holds => headed.2 p ?_⟩
  · rw [List.length_append]
    exact Nat.le_add_right_of_le headed.1
  · rw [holds, List.take_append_of_le_length headed.1]

/-- A string with a header is read as a reply with its id. -/
theorem Headed.read (headed : Headed x bytes) (mem : Memory) :
    ∃ r, extractChunkResponse (mem.cStr bytes) = some r ∧ r.chunkId = x :=
  headed.2 _ (bytes_of_front _ headed.1)

theorem headed_of_payload (long : 68 ≤ n) (extracted : extractChunkResponse p = some r) :
    Headed r.chunkId (p.bytes n) := by
  refine headed_of_extract (by simpa using long) ?_ extracted
  rw [Pointer.bytes, Pointer.bytes, take_window _ (by omega), Nat.zero_add]

/-! ## The front of a chunk -/

/-- A walk over blocks with a header leaves it where it is, whatever the bytes. -/
theorem fill_blocks_front (front : Fronted x lcb)
    (ran : fillBlocks payload count seq lcb dups = some (lcb', dups', bDuplicate)) : Fronted x lcb' := by
  obtain ⟨li, rest, rfl, first, headed⟩ := front
  have late : ¬ seq < li.startingSeqNumber := by
    rw [first, UInt32.lt_iff_toNat_lt]
    exact Nat.not_lt_zero _
  rw [fillBlocks] at ran
  simp only [if_neg late] at ran
  split at ran
  · split at ran
    · obtain ⟨s, _, ran⟩ := Option.bind_eq_some_iff.mp ran
      obtain ⟨grown, appended, ran⟩ := Option.bind_eq_some_iff.mp ran
      obtain ⟨⟨made, others, counted⟩, merged, ran⟩ := Option.bind_eq_some_iff.mp ran
      cases ran
      obtain ⟨same, _, more, content⟩ := ChunkAccounts.merge_following_extends merged
      rw [overlappingAppend] at appended
      split at appended
      · cases appended
        refine ⟨made, others, rfl, same.trans first, ?_⟩
        rw [content, List.append_assoc]
        exact headed.append _
      · cases appended
    · cases ran
      exact ⟨li, rest, rfl, first, headed⟩
  · obtain ⟨⟨others, counted, same⟩, _, ran⟩ := Option.bind_eq_some_iff.mp ran
    cases ran
    exact ⟨li, others, rfl, first, headed⟩

/-- The first bytes of a chunk that has none. -/
theorem fill_blocks_first (headed : Headed x (payload.bytes n))
    (ran : fillBlocks payload n 0 [] dups = some (lcb', dups', bDuplicate)) : Fronted x lcb' := by
  rw [fillBlocks, create_append] at ran
  cases ran
  exact ⟨_, [], rfl, rfl, headed⟩

/-- What becomes of the chunks when one of them takes bytes. -/
theorem fill_gaps_chunks (ran : (b.fillGapsInChunk chunkId flow payload count seq).result = some (b', done, edit)) :
    ∃ pRc, b.chunkIdReconstructedChunkMap chunkId = some pRc ∧
      (pRc.flowSeqMap flow.toString = none ∧ b' = b ∧ done = false ∨
        ∃ start after dups dups' bDuplicate, pRc.flowSeqMap flow.toString = some start ∧
          fillBlocks payload (count - pastChunk start pRc.length count seq) (seq - start) pRc.lcb dups =
            some (after.lcb, dups', bDuplicate) ∧
          after.flowSeqMap = pRc.flowSeqMap ∧ after.length = pRc.length ∧
          b'.chunkIdReconstructedChunkMap = Function.update b.chunkIdReconstructedChunkMap chunkId (some after)) := by
  obtain ⟨pRc, found, dropped | ⟨start, t, after, dups', known, stored, filled, rfl⟩⟩ := fill_gaps_ends ran
  · exact ⟨pRc, found, .inl dropped⟩
  · obtain ⟨bDuplicate, walked, _⟩ := ChunkAccounts.fill_gaps_inv known filled
    obtain ⟨sameFlows, sameLength⟩ := Prod.mk.inj (fill_gaps_heading filled)
    refine ⟨pRc, found, .inr ⟨start, after, _, _, bDuplicate, known, walked, sameFlows, sameLength, ?_⟩⟩
    rw [insert_past_frame stored]
    rfl

/-- The chunk has its header. -/
def Readable (b : Buffers) (chunkId : ChunkId) : Prop :=
  ∃ pRc, b.chunkIdReconstructedChunkMap chunkId = some pRc ∧ Fronted chunkId pRc.lcb

/-- The chunks there were are still there, and know the flows they knew. -/
def Extends (b b' : Buffers) : Prop := ∀ x pRc, b.chunkIdReconstructedChunkMap x = some pRc →
  ∃ after, b'.chunkIdReconstructedChunkMap x = some after ∧
    ∀ name, pRc.flowSeqMap name ≠ none → after.flowSeqMap name ≠ none

/-- What has to hold when a chunk was handed bytes. -/
structure Took (b : Buffers) (chunkId : ChunkId) (b' : Buffers) (done : Bool) : Prop where
  ok : ChunksOk b'
  kept : Extends b b'
  readable : done = true → Readable b' chunkId

theorem extends_refl (b : Buffers) : Extends b b := fun _ pRc found => ⟨pRc, found, fun _ known => known⟩

/-- A chunk put in the place of none, or of one that knew no more flows. -/
theorem extends_update
    (flows : ∀ pRc, b.chunkIdReconstructedChunkMap chunkId = some pRc →
      ∀ name, pRc.flowSeqMap name ≠ none → after.flowSeqMap name ≠ none)
    (same : b'.chunkIdReconstructedChunkMap = Function.update b.chunkIdReconstructedChunkMap chunkId (some after)) :
    Extends b b' := by
  intro x other held
  rw [same]
  by_cases isIt : x = chunkId
  · subst isIt
    exact ⟨after, Function.update_self .., flows other held⟩
  · exact ⟨other, by rw [Function.update_of_ne isIt, held], fun _ known => known⟩

theorem took_of_update
    (others : ∀ x ≠ chunkId, ∀ pRc, b.chunkIdReconstructedChunkMap x = some pRc → ChunkOk x pRc)
    (found : b.chunkIdReconstructedChunkMap chunkId = some pRc) (front : Fronted chunkId after.lcb)
    (long : minPayloadLength ≤ pRc.length) (short : pRc.length < 2 ^ 31)
    (sameFlows : after.flowSeqMap = pRc.flowSeqMap) (sameLength : after.length = pRc.length)
    (same : b'.chunkIdReconstructedChunkMap = Function.update b.chunkIdReconstructedChunkMap chunkId (some after)) :
    Took b chunkId b' done := by
  have here : b'.chunkIdReconstructedChunkMap chunkId = some after := by rw [same, Function.update_self]
  have kept : Extends b b' := extends_update (fun other held name known => by
    cases found.symm.trans held
    exact sameFlows ▸ known) same
  refine ⟨fun x other held => ?_, kept, fun _ => ⟨after, here, front⟩⟩
  by_cases isIt : x = chunkId
  · subst isIt
    cases here.symm.trans held
    exact ⟨sameLength ▸ long, sameLength ▸ short, Or.inr front⟩
  · rw [same, Function.update_of_ne isIt] at held
    exact others x isIt other held

/-- Any bytes for any chunk. -/
theorem fill_gaps_took (ok : ChunksOk b)
    (ran : (b.fillGapsInChunk chunkId flow payload count seq).result = some (b', done, edit)) :
    Took b chunkId b' done := by
  obtain ⟨pRc, found, rest⟩ := fill_gaps_chunks ran
  obtain ⟨_, rfl, rfl⟩ | ⟨start, after, dups, dups', bDuplicate, known, walked, flows, length, same⟩ := rest
  · exact ⟨ok, extends_refl b', nofun⟩
  · obtain ⟨long, short, shape⟩ := ok chunkId pRc found
    have front : Fronted chunkId pRc.lcb := by
      refine shape.resolve_left fun ⟨_, unknown⟩ => ?_
      cases known.symm.trans (unknown flow.toString)
    exact took_of_update (fun x _ => ok x) found (fill_blocks_front front walked) long short flows length same

/-- The segment that announces a chunk, for a chunk that has no bytes. -/
theorem fill_gaps_first {size : ℕ}
    (others : ∀ x ≠ r.chunkId, ∀ pRc, b.chunkIdReconstructedChunkMap x = some pRc → ChunkOk x pRc)
    (found : b.chunkIdReconstructedChunkMap r.chunkId = some pRc) (empty : pRc.lcb = [])
    (known : pRc.flowSeqMap flow.toString = some seq) (long : minPayloadLength ≤ pRc.length)
    (short : pRc.length < 2 ^ 31) (extracted : extractChunkResponse payload = some r) (whole : 68 ≤ size)
    (ran : (b.fillGapsInChunk r.chunkId flow payload size seq).result = some (b', done, edit)) :
    Took b r.chunkId b' done := by
  obtain ⟨other, held, rest⟩ := fill_gaps_chunks ran
  cases found.symm.trans held
  obtain ⟨unknown, _⟩ | ⟨start, after, dups, dups', bDuplicate, begun, walked, flows, length, same⟩ := rest
  · cases known.symm.trans unknown
  · cases known.symm.trans begun
    have long' : 68 ≤ pRc.length := Nat.le_trans (by decide) long
    have handed := @past_start seq size pRc.length short
    obtain ⟨taken, left⟩ := Int.eq_ofNat_of_zero_le (show 0 ≤ (size : ℤ) - pastChunk seq pRc.length size seq by omega)
    have enough : 68 ≤ taken := by omega
    rw [left, empty, UInt32.sub_self] at walked
    exact took_of_update others found (fill_blocks_first (headed_of_payload enough extracted) walked) long short
      flows length same

end Ditto.ChunkFronts
