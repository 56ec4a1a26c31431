import Ditto.RecordFraming
import Ditto.SettledBytes

/-! What the chunks of a sniffer have when its flows carry records. A chunk holds bytes of the
record with its id, whichever flow they came from: the transaction ids of two replies differ,
but a chunk has one from the segment that it was made for, and keeps it. A chunk that has all
of its bytes was sent when it got the last of them. -/
namespace Ditto.ChunkStocks
open Sniffer Buffers ContiguousBlock ReconstructedChunk ChunkReassembly ChunkHistories ChunkAccounts
open Spans Windows Words Traces Traced ChunkHeadings RecordHeaders RecordScan FirstHeader ChunkIdReach
open RecordExtraction FlowStore RecordFraming SettledBytes

/-- A record with a chunk of this id and length stands at a position of a flow. -/
structure Stands (streams : Streams) (flow : FlowId) (p : ℕ) (chunkId : ChunkId) (length : ℕ) : Prop where
  marked : Marked (streams flow) p
  length_eq : lengthAt (streams flow) p = length
  replied : ∃ reply, replyAt (streams flow) p = some reply ∧ reply.chunkId = chunkId

/-- What the records with a chunk id have in common. -/
structure Described {streams : Streams} (framing : Framing streams) (chunkId : ChunkId) (length : ℕ)
    (reply : DotChunkRes) : Prop where
  marked : Marked (framing.record chunkId) 0
  length_eq : lengthAt (framing.record chunkId) 0 = length
  replied : replyAt (framing.record chunkId) 0 = some reply
  inside : 68 + reply.chunkData.length ≤ length

/-- The chunk has bytes of its record, and if it has all of them its data were sent. -/
structure Filling {streams : Streams} (framing : Framing streams) (told : List Call) (chunkId : ChunkId)
    (pRc : ReconstructedChunk) : Prop where
  content : ∃ data : List UInt8, data.length = pRc.length ∧ BlocksOk (byteOf data) data.length pRc.lcb ∧
    Same (streamAt (byteOf data) 0) (streamAt (framing.record chunkId) 0) data.length
  delivered : ∃ reply, Described framing chunkId pRc.length reply ∧
    (Set.Ico 0 pRc.length ⊆ covered pRc.lcb → ∃ flow, (flow, reply.chunkData) ∈ told.filterMap Call.sent)

/-- The chunk has the bytes up to the end of its transaction id. -/
def Headed (pRc : ReconstructedChunk) : Prop := Set.Ico 0 8 ⊆ covered pRc.lcb

variable {streams : Streams} {framing : Framing streams} {told later : List Call} {chunkId : ChunkId}
  {flow : FlowId} {p n size length : ℕ} {pRc : ReconstructedChunk} {reply : DotChunkRes} {data : List UInt8}
  {li : ContiguousBlock} {rest lcb : List ContiguousBlock} {payload : Pointer} {start seq : TcpSeq}
  {b b' : Buffers} {mem : Memory} {edit : Edit}

/-! ## Records -/

/-- Every copy of a record is as the records with its id are. -/
theorem Stands.described (framing : Framing streams) (stands : Stands streams flow p chunkId length) :
    ∃ reply, replyAt (streams flow) p = some reply ∧ Described framing chunkId length reply ∧
      Same (streamAt (streams flow) p) (streamAt (framing.record chunkId) 0) length := by
  obtain ⟨marked, rfl, reply, replied, rfl⟩ := stands
  have inside := framing.whole flow p reply marked replied
  have same : Same (streamAt (streams flow) p) (streamAt (framing.record reply.chunkId) 0)
      (lengthAt (streams flow) p) := by
    intro i within lasting
    rw [stream_at, stream_at, Nat.zero_add]
    exact framing.alike flow p reply marked replied i within lasting
  have marked' := shows_same (same.mono (by omega)) marked
  exact ⟨reply, replied, ⟨marked', (same.length (by omega)).symm, reply_same same marked marked' replied inside,
    inside⟩, same⟩

theorem Described.unique {length' : ℕ} {reply' : DotChunkRes} (one : Described framing chunkId length reply)
    (two : Described framing chunkId length' reply') : length = length' ∧ reply = reply' :=
  ⟨one.length_eq.symm.trans two.length_eq, Option.some_inj.mp (one.replied.symm.trans two.replied)⟩

theorem Described.short (described : Described framing chunkId length reply) : length < 2 ^ 31 :=
  described.length_eq ▸ get_length_small _

theorem Described.long (described : Described framing chunkId length reply) : minPayloadLength ≤ length :=
  described.length_eq ▸ long_of_reply described.marked described.replied

/-- Two records at one position are the same. -/
theorem Stands.unique {chunkId' : ChunkId} {length' : ℕ} (one : Stands streams flow p chunkId length)
    (two : Stands streams flow p chunkId' length') : chunkId = chunkId' ∧ length = length' := by
  obtain ⟨_, rfl, reply, replied, rfl⟩ := one
  obtain ⟨_, rfl, reply', replied', rfl⟩ := two
  cases replied.symm.trans replied'
  exact ⟨rfl, rfl⟩

/-- What is sent later takes nothing back. -/
theorem Filling.more (filling : Filling framing told chunkId pRc) : Filling framing (told ++ later) chunkId pRc := by
  obtain ⟨content, reply, described, sent⟩ := filling
  refine ⟨content, reply, described, fun whole => ?_⟩
  obtain ⟨flow, member⟩ := sent whole
  exact ⟨flow, by rw [List.filterMap_append]; exact List.mem_append_left _ member⟩

/-- A chunk before its first byte. -/
theorem filling_fresh (described : Described framing chunkId length reply) (empty : pRc.lcb = [])
    (len : pRc.length = length) : Filling framing told chunkId pRc := by
  have long := described.long
  subst len
  refine ⟨⟨window (framing.record chunkId) 0 pRc.length, by simp, ?_, fun i inside _ => ?_⟩, reply, described,
    fun whole => ?_⟩
  · rw [empty]
    exact blocks_ok_nil
  · rw [length_window] at inside
    rw [stream_at, stream_at, byteOf, List.getD_eq_getElem?_getD, getElem?_window _ (by omega), Option.getD_some,
      Nat.zero_add]
  · have none : (0 : ℕ) ∈ covered pRc.lcb := whole ⟨Nat.le_refl 0, (by decide : 0 < minPayloadLength).trans_le long⟩
    rw [empty] at none
    obtain ⟨_, member, _⟩ := none
    cases member

/-! ## A chunk takes bytes -/

/-- A payload for an offset of a chunk, with the chunk's own bytes for the first eight. -/
def patched (data : List UInt8) (payload : Pointer) (n : ℕ) : Pointer :=
  fun i => if n + i.toNat < 8 then byteOf data (n + i.toNat) else payload i

theorem patched_past (past : 8 ≤ n) : patched data payload n = payload := by
  funext i
  exact if_neg (by omega)

/-- The walk never reads the first eight bytes of a payload when the first block has them. -/
theorem fill_blocks_patched {m : TcpSeq} (starts : startOf li = 0) (reaches : 8 ≤ nextOf li) :
    fillBlocks (patched data payload m.toNat) size m (li :: rest) dups =
      fillBlocks payload size m (li :: rest) dups := by
  by_cases past : 8 ≤ m.toNat
  · rw [patched_past past]
  · have late : ¬ m < li.startingSeqNumber := by
      rw [UInt32.lt_iff_toNat_lt]
      change ¬ m.toNat < startOf li
      omega
    have met : m ≤ li.nextExpectedSeqNumber := by
      rw [UInt32.le_iff_toNat_le]
      change m.toNat ≤ nextOf li
      omega
    have offset : (li.nextExpectedSeqNumber - m).toNat = nextOf li - m.toNat :=
      toNat_sub_eq (UInt32.le_iff_toNat_le.mp met)
    have drops : ((patched data payload m.toNat).bytes size).drop (nextOf li - m.toNat) =
        (payload.bytes size).drop (nextOf li - m.toNat) := by
      rw [Pointer.bytes, Pointer.bytes, drop_window, drop_window]
      exact window_congr fun i lower _ => if_neg (by omega)
    have appended : ∀ ends, li.overlappingAppend ((patched data payload m.toNat).bytes size)
        (li.nextExpectedSeqNumber - m) ends = li.overlappingAppend (payload.bytes size)
          (li.nextExpectedSeqNumber - m) ends := fun ends => by
      simp only [overlappingAppend, Pointer.length_bytes, offset, drops]
    simp only [fillBlocks, if_neg late, if_pos met, appendChars, Int.natCast_nonneg, if_true, List.nil_append,
      Int.toNat_natCast, Option.bind_eq_bind, Option.bind_some, appended]

/-- The first block of a chunk with a header has it. -/
theorem headed_front {limit : ℕ} {source : ℕ → UInt8} (ok : BlocksOk source limit lcb)
    (headed : Set.Ico 0 8 ⊆ covered lcb) :
    ∃ li rest, lcb = li :: rest ∧ startOf li = 0 ∧ 8 ≤ nextOf li := by
  obtain ⟨block, member, starts, reaches⟩ := interval_within_one ok.proper ok.separated (by omega) headed
  cases lcb with
  | nil => cases member
  | cons li rest =>
    refine ⟨li, rest, rfl, ?_⟩
    rcases List.mem_cons.mp member with rfl | later
    · omega
    · have := (blocks_ok_cons.mp ok).2.2 block later
      omega

theorem fill_gaps_patched {name : String} (ok : BlocksOk (byteOf data) data.length pRc.lcb) (headed : Headed pRc)
    (known : pRc.flowSeqMap name = some start) :
    pRc.fillGapsInChunk name (patched data payload (seq - start).toNat) size seq dups =
      pRc.fillGapsInChunk name payload size seq dups := by
  obtain ⟨li, rest, shape, starts, reaches⟩ := headed_front ok headed
  simp only [ReconstructedChunk.fillGapsInChunk, known, shape, fill_blocks_patched starts reaches]

/-- A part of a string is a window of it. -/
theorem cut_eq_window (inside : n + size ≤ data.length) :
    (data.drop n).take size = window (byteOf data) n (n + size) := by
  have part := @take_drop_eq_window _ (n + size) n data 0 (by omega)
  rwa [Nat.add_sub_cancel_left] at part

theorem byte_of_window {source : ℕ → UInt8} {i : ℕ} (inside : i < length) :
    byteOf (window source 0 length) i = source i := by
  rw [byteOf, List.getD_eq_getElem?_getD, getElem?_window _ (by omega), Option.getD_some, Nat.zero_add]

/-- A chunk that has a header takes a payload of its record as a slice of what it holds. -/
theorem slice_headed {record : ℕ → UInt8} (same : Same (streamAt (byteOf data) 0) (streamAt record 0) data.length)
    (inside : n + size ≤ data.length) (agree : ∀ k < size, Lasting (n + k) → payload k = record (n + k)) :
    (patched data payload n).bytes size = (data.drop n).take size := by
  rw [cut_eq_window inside, Pointer.bytes]
  refine Eq.trans (window_congr fun k _ within => ?_) (window_shift (byteOf data) n 0 size)
  rw [patched, Int.toNat_natCast]
  split
  · rfl
  · have lasting : Lasting (n + k) := Or.inr (by omega)
    have here := same (n + k) (by omega) lasting
    rw [stream_at, stream_at, Nat.zero_add] at here
    exact (agree k within lasting).trans here.symm

/-- A new chunk has the transaction id of its first payload. -/
theorem slice_fresh {record : ℕ → UInt8} (inside : size ≤ length)
    (agree : ∀ k < size, Lasting k → payload k = record k) :
    ∃ data : List UInt8, data.length = length ∧ payload.bytes size = (data.drop 0).take size ∧
      Same (streamAt (byteOf data) 0) (streamAt record 0) data.length := by
  obtain ⟨source, isSource⟩ : ∃ source : ℕ → UInt8, source =
      fun i : ℕ => if 4 ≤ i ∧ i < 8 then payload i else record i := ⟨_, rfl⟩
  refine ⟨window source 0 length, by simp, ?_, fun i within lasting => ?_⟩
  · rw [cut_eq_window (by rw [length_window]; omega), Pointer.bytes, Nat.zero_add]
    refine window_congr fun k _ within => ?_
    rw [byte_of_window (by omega), isSource]
    by_cases between : 4 ≤ k ∧ k < 8
    · exact (if_pos between).symm
    · exact (agree k within (by rw [Lasting]; omega)).trans (if_neg between).symm
  · rw [length_window] at within
    rw [stream_at, stream_at, Nat.zero_add, byte_of_window (by omega), isSource]
    exact if_neg (by rw [Lasting] at lasting; omega)

/-- A payload of its record is to a chunk like a slice of one string that has what it holds. -/
theorem reads_slice {name : String} (filling : Filling framing told chunkId pRc)
    (known : pRc.flowSeqMap name = some start) (headed : Headed pRc ∨ pRc.lcb = [] ∧ seq = start)
    (inside : (seq - start).toNat + size ≤ pRc.length)
    (agree : ∀ k < size, Lasting ((seq - start).toNat + k) →
      payload k = framing.record chunkId ((seq - start).toNat + k)) :
    ∃ (data : List UInt8) (q : Pointer), data.length = pRc.length ∧
      BlocksOk (byteOf data) data.length pRc.lcb ∧
      Same (streamAt (byteOf data) 0) (streamAt (framing.record chunkId) 0) data.length ∧
      q.bytes size = (data.drop (seq - start).toNat).take size ∧
      ∀ dups, pRc.fillGapsInChunk name q size seq dups = pRc.fillGapsInChunk name payload size seq dups := by
  rcases headed with headed | ⟨empty, rfl⟩
  · obtain ⟨data, length, ok, same⟩ := filling.content
    exact ⟨data, patched data payload (seq - start).toNat, length, ok, same,
      slice_headed same (by omega) agree, fun dups => fill_gaps_patched ok headed known⟩
  · have zero : (seq - seq).toNat = 0 := by simp
    simp only [zero, Nat.zero_add] at inside agree ⊢
    obtain ⟨data, length, slice, same⟩ := slice_fresh inside agree
    exact ⟨data, payload, length, empty ▸ blocks_ok_nil, same, slice, fun dups => rfl⟩

/-- What a chunk is after it took a payload, and whether that completed it. -/
structure Taken (framing : Framing streams) (chunkId : ChunkId) (pRc : ReconstructedChunk) (first last : ℕ)
    (pRc' : ReconstructedChunk) (done : Bool) : Prop where
  starts : pRc'.flowSeqMap = pRc.flowSeqMap
  length_eq : pRc'.length = pRc.length
  content : ∃ data : List UInt8, data.length = pRc'.length ∧ BlocksOk (byteOf data) data.length pRc'.lcb ∧
    Same (streamAt (byteOf data) 0) (streamAt (framing.record chunkId) 0) data.length ∧
    (done = true → pRc'.getData = some data)
  kept : covered pRc.lcb ⊆ covered pRc'.lcb
  added : covered pRc'.lcb ⊆ covered pRc.lcb ∪ Set.Ico first last
  whole : ¬ Swallows pRc.lcb first last → Set.Ico first last ⊆ covered pRc'.lcb
  completes : Set.Ico 0 pRc.length ⊆ covered pRc'.lcb → ¬ Set.Ico 0 pRc.length ⊆ covered pRc.lcb → done = true

/-- **A chunk takes** a payload of its record. -/
theorem fill_gaps_taken {name : String} (filling : Filling framing told chunkId pRc)
    (known : pRc.flowSeqMap name = some start) (headed : Headed pRc ∨ pRc.lcb = [] ∧ seq = start)
    (positive : 0 < size) (inside : (seq - start).toNat + size ≤ pRc.length)
    (agree : ∀ k < size, Lasting ((seq - start).toNat + k) →
      payload k = framing.record chunkId ((seq - start).toNat + k)) (dups : UInt64) :
    ∃ pRc' dups' done, pRc.fillGapsInChunk name payload size seq dups = some (pRc', dups', done) ∧
      Taken framing chunkId pRc (seq - start).toNat ((seq - start).toNat + size) pRc' done := by
  obtain ⟨reply, described, _⟩ := filling.delivered
  have short := described.short
  obtain ⟨data, q, length, ok, same, slice, reads⟩ := reads_slice filling known headed inside agree
  obtain ⟨pRc', dups', done, _, ran, filled, length', _⟩ :=
    fill_gaps_spec ok (by omega) known positive (by omega) slice dups
  -- the answer is that of a run of slices
  have isSlice : IsSlice data ⟨pRc, dups, [], []⟩ (.fill name q size seq) :=
    ⟨_, by rw [normalized, known]; rfl, positive, by omega, slice⟩
  obtain ⟨h', done', stepped, answered, _, _, signalled, read⟩ :=
    step_done (⟨ok, length.symm⟩ : Reassembling data ⟨pRc, dups, [], []⟩) (by omega) isSlice
  have stepped' : History.step ⟨pRc, dups, [], []⟩ (.fill name q size seq) =
      some ⟨pRc', dups', [((seq - start).toNat, (seq - start).toNat + size)], [done]⟩ := by
    simp [History.step, ran, normalized, known]
  cases stepped'.symm.trans stepped
  cases answered
  obtain ⟨starts, _⟩ := Prod.mk.inj (fill_gaps_heading ran)
  refine ⟨pRc', dups', done, (reads dups).symm.trans ran, starts, length', ⟨data, by omega, filled.ok, same, read⟩,
    filled.kept, filled.added, filled.whole, fun now before => signalled.mpr ⟨?_, ?_⟩⟩
  · rw [Whole, length]
    exact now
  · rw [Whole, length]
    exact before

/-! ## A sniffer's chunks and lists -/

/-- No sequence number reaches this. -/
def wrap : ℕ := 2 ^ 32 - 1

/-- The lists hold separate pieces of their streams, and the chunks bytes of their records. -/
structure Stocked {streams : Streams} (framing : Framing streams) (told : List Call) (b : Buffers) : Prop where
  lists : Listed streams wrap b
  chunks : ∀ chunkId pRc, b.chunkIdReconstructedChunkMap chunkId = some pRc →
    Filling framing told chunkId pRc ∧ Headed pRc

/-- What a chunk and a flow's list are after the chunk took a piece of the flow from `first` to
`last`: the chunk has what lies in it, and the list the rest. -/
structure Fed {streams : Streams} (framing : Framing streams) (told : List Call) (b : Buffers) (chunkId : ChunkId)
    (flow : FlowId) (pRc : ReconstructedChunk) (low first last : ℕ) (outside : ℕ → Prop) (b' : Buffers) : Prop where
  lists : Listed streams wrap b'
  took : Took (streams flow) wrap (b.blocksOf flow) (low + pRc.length) (max (low + pRc.length) last) outside
    (b'.blocksOf flow)
  others : ∀ other, other ≠ flow → b'.blocksOf other = b.blocksOf other
  chunk : ∃ pRc', b'.chunkIdReconstructedChunkMap =
      Function.update b.chunkIdReconstructedChunkMap chunkId (some pRc') ∧
    pRc'.flowSeqMap = pRc.flowSeqMap ∧ pRc'.length = pRc.length ∧ Filling framing told chunkId pRc' ∧
    covered pRc.lcb ⊆ covered pRc'.lcb ∧
    covered pRc'.lcb ⊆ covered pRc.lcb ∪ Set.Ico (first - low) (min last (low + pRc.length) - low) ∧
    (¬ Swallows pRc.lcb (first - low) (min last (low + pRc.length) - low) →
      Set.Ico (first - low) (min last (low + pRc.length) - low) ⊆ covered pRc'.lcb)

variable {captured : Set ℕ} {outside : ℕ → Prop}

/-- What is past a chunk's end settles in the flow's list. -/
theorem insert_past_settles (listed : Listed streams wrap b) (carries : Carries (streams flow) captured payload size seq)
    (lower : start.toNat ≤ seq.toNat) (inside : seq.toNat < start.toNat + length) (short : length < 2 ^ 31)
    (small : size < 2 ^ 31)
    (free : start.toNat + length < seq.toNat + size →
      Free (b.blocksOf flow) (start.toNat + length) (seq.toNat + size) outside) :
    ∃ t edit, (b.insertPast flow payload (pastChunk start length size seq) size seq).result = some (t, edit) ∧
      t = { b with pFlowList := t.pFlowList } ∧ Listed streams wrap t ∧
      Took (streams flow) wrap (b.blocksOf flow) (start.toNat + length)
        (max (start.toNat + length) (seq.toNat + size)) outside (t.blocksOf flow) ∧
      (∀ other, other ≠ flow → t.blocksOf other = b.blocksOf other) ∧
      (seq.toNat + size ≤ start.toNat + length → t = b ∧ edit = .kept) := by
  have fits := carries.fits
  have place : (seq - start).toNat = seq.toNat - start.toNat := toNat_sub_eq lower
  obtain ⟨diff, past, isDiff, part, number⟩ := HeaderlessSegments.past_number
    (show (seq - start).toNat < length by omega) short small fits
  rw [past, insertPast]
  by_cases none : diff = 0
  · subst none
    rw [if_neg (by simp), Nat.max_eq_left (by omega)]
    exact ⟨b, .kept, rfl, rfl, listed, took_nothing (listed.ok flow), fun _ _ => rfl, fun _ => ⟨rfl, rfl⟩⟩
  · have positive : (0 : ℤ) < diff := by omega
    have tail := carries.tail part
    have starts : (seq + UInt32.ofInt size - UInt32.ofInt diff).toNat = start.toNat + length := by omega
    have ends : start.toNat + length + diff = seq.toNat + size := by omega
    have agree := tail.agree
    have piece : FlowInsertion.Piece (streams flow) wrap (payload.advance (size - diff)) diff
        (seq + UInt32.ofInt size - UInt32.ofInt diff) := ⟨by omega, by rw [wrap]; omega, agree⟩
    have free' : Free (b.blocksOf flow) (seq + UInt32.ofInt size - UInt32.ofInt diff).toNat
        ((seq + UInt32.ofInt size - UInt32.ofInt diff).toNat + diff) outside := by
      rw [starts, ends]
      exact free (by omega)
    obtain ⟨t, edit, ran, same, listed', took, others⟩ :=
      insert_settles listed (by rw [wrap]; omega) piece free' (size - diff) size
    rw [starts, ends] at took
    rw [if_pos positive, Nat.max_eq_right (by omega)]
    exact ⟨t, edit, ran, same, listed', took, others, fun inner => absurd inner (by omega)⟩

/-- What a chunk that is complete sends. -/
theorem send_done_sent (described : Described framing chunkId pRc.length reply)
    (found : b.chunkIdReconstructedChunkMap chunkId = some pRc) (read : pRc.getData = some data)
    (length_eq : data.length = pRc.length)
    (same : Same (streamAt (byteOf data) 0) (streamAt (framing.record chunkId) 0) data.length) (mem : Memory) :
    (b.sendDone mem chunkId flow true).calls.filterMap Call.sent = [(flow, reply.chunkData)] := by
  have long := described.long
  have inside := described.inside
  have shown : Same (streamAt (framing.record chunkId) 0) (mem.cStr data) data.length := by
    refine same.symm.trans fun i within _ => ?_
    have held := c_str_at mem within
    rw [List.getElem?_eq_getElem within] at held
    rw [stream_at, Nat.zero_add, byteOf, List.getD_eq_getElem?_getD, List.getElem?_eq_getElem within]
    exact (Option.some_inj.mp held).symm
  have marked := shows_same (shown.mono (by simp only [minPayloadLength, minChunkSize, rpcHeaderLen] at long; omega))
    described.marked
  have extracted := reply_same shown described.marked marked described.replied (by omega)
  have ran : b.sendDone mem chunkId flow true =
      sendChunkToSnifferPlugin flow (mem.cStr data) data.length (some pRc.length) := by
    rw [sendDone, found, lift_some_bind, read]
  rw [ran, sendChunkToSnifferPlugin, extracted]
  rfl

/-- **A chunk is fed** a piece of its flow that starts inside it. -/
theorem fill_and_send_feeds (mem : Memory) (listed : Listed streams wrap b)
    (found : b.chunkIdReconstructedChunkMap chunkId = some pRc)
    (known : pRc.flowSeqMap flow.toString = some start) (filling : Filling framing told chunkId pRc)
    (headed : Headed pRc ∨ pRc.lcb = [] ∧ seq = start)
    (stands : Stands streams flow start.toNat chunkId pRc.length)
    (carries : Carries (streams flow) captured payload size seq) (positive : 0 < size) (small : size < 2 ^ 31)
    (lower : start.toNat ≤ seq.toNat) (inside : seq.toNat < start.toNat + pRc.length)
    (free : start.toNat + pRc.length < seq.toNat + size →
      Free (b.blocksOf flow) (start.toNat + pRc.length) (seq.toNat + size) outside) :
    ∃ b' edit, (b.fillAndSend mem chunkId flow payload size seq).result = some (b', edit) ∧
      Fed framing (told ++ (b.fillAndSend mem chunkId flow payload size seq).calls) b chunkId flow pRc
        start.toNat seq.toNat (seq.toNat + size) outside b' ∧
      (seq.toNat + size ≤ start.toNat + pRc.length → b'.pFlowList = b.pFlowList ∧ edit = .kept) := by
  obtain ⟨reply, described, sent⟩ := filling.delivered
  have short := described.short
  have fits := carries.fits
  have place : (seq - start).toNat = seq.toNat - start.toNat := toNat_sub_eq lower
  obtain ⟨t, edit, stored, frame, listed', took, others, inner⟩ :=
    insert_past_settles listed carries lower inside short small free
  obtain ⟨count, isCount⟩ : ∃ count, count = min size (pRc.length - (seq.toNat - start.toNat)) := ⟨_, rfl⟩
  have past := past_inside (by omega : (seq - start).toNat < pRc.length) short small
  have rest : (size : ℤ) - pastChunk start pRc.length size seq = (count : ℕ) := by omega
  obtain ⟨_, _, _, same⟩ := stands.described framing
  have agree : ∀ k < count, Lasting ((seq - start).toNat + k) →
      payload k = framing.record chunkId ((seq - start).toNat + k) := by
    intro k within lasting
    have here := shows_stream carries.agree (show k < size by omega)
    have there := same ((seq - start).toNat + k) (by omega) lasting
    rw [stream_at, stream_at, Nat.zero_add, place] at there
    rw [place, here, ← there]
    congr 1
    omega
  obtain ⟨pRc', dups, done, ran, taken⟩ := fill_gaps_taken filling known headed (show 0 < count by omega)
    (by omega) agree t.numDuplicateBytes
  obtain ⟨starts, length', ⟨data, isLength, ok, alike, read⟩, kept, added, whole, completes⟩ := taken
  have upto : (seq - start).toNat + count = min (seq.toNat + size) (start.toNat + pRc.length) - start.toNat := by
    omega
  rw [upto, place] at added whole
  have handed : (b.fillGapsInChunk chunkId flow payload size seq).result =
      some ({ t.setChunk chunkId pRc' with numDuplicateBytes := dups }, done, edit) := by
    rw [Buffers.fillGapsInChunk, result_bind, result_lift, found, Option.bind_some]
    simp only [known]
    rw [result_bind, stored, Option.bind_some, result_bind, result_note, Option.bind_some, rest, result_bind,
      result_lift, ran]
    rfl
  have held : ({ t.setChunk chunkId pRc' with numDuplicateBytes := dups } : Buffers).chunkIdReconstructedChunkMap
      chunkId = some pRc' := Function.update_self ..
  have sends := @ChunkClaiming.send_done_total _ mem chunkId flow pRc' done held
  have result : (b.fillAndSend mem chunkId flow payload size seq).result =
      some ({ t.setChunk chunkId pRc' with numDuplicateBytes := dups }, edit) := by
    rw [fillAndSend, result_bind, handed, Option.bind_some, result_bind, sends]
    rfl
  refine ⟨_, edit, result, ⟨listed'.same rfl, took, others, pRc', ?_, starts, length', ⟨⟨data, isLength, ok, alike⟩,
    reply, length' ▸ described, fun now => ?_⟩, kept, added, whole⟩, fun ends => ?_⟩
  · show Function.update t.chunkIdReconstructedChunkMap _ _ = _
    rw [frame]
  · rw [length'] at now
    by_cases before : Set.Ico 0 pRc.length ⊆ covered pRc.lcb
    · obtain ⟨flow, member⟩ := sent before
      exact ⟨flow, by rw [List.filterMap_append]; exact List.mem_append_left _ member⟩
    · have isDone := completes now before
      subst isDone
      refine ⟨flow, ?_⟩
      have delivered := @send_done_sent streams framing chunkId flow pRc' reply data _ (length' ▸ described) held
        (read rfl) isLength alike mem
      rw [fillAndSend, calls_bind_some handed]
      simp only
      rw [calls_bind_some sends, List.filterMap_append, List.filterMap_append, List.filterMap_append, delivered]
      simp
  · obtain ⟨rfl, rfl⟩ := inner ends
    exact ⟨rfl, rfl⟩

end Ditto.ChunkStocks
