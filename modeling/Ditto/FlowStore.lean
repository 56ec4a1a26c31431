import Ditto.ChunkHeadings
import Ditto.InsertWalk

/-! What the operations of the sniffer do to its stored blocks. Each block holds
its flow's stream at captured positions, and an insertion of captured bytes keeps
that whichever branch it takes. The other operations reach the lists through
insertions and removals alone; only the bytes an insertion is given can be wrong,
and the part of a segment past a chunk's end is taken from inside the segment
exactly when the segment does not start past that end. -/
namespace Ditto.FlowStore
open Sniffer Buffers ContiguousBlock Windows Words Traces Traced ChunkHeadings InsertWalk

/-- The bytes of each flow by sequence number. -/
abbrev Streams := FlowId → ℕ → UInt8

/-- The block holds what `source` has, at positions that were captured. -/
structure Stored (source : ℕ → UInt8) (captured : Set ℕ) (block : ContiguousBlock) : Prop where
  holds : Holds source block
  within : ∀ i, block.startingSeqNumber.toNat ≤ i → i < block.nextExpectedSeqNumber.toNat → i ∈ captured

/-- Every block of every flow. -/
def Kept (streams : Streams) (captured : FlowId → Set ℕ) (b : Buffers) : Prop :=
  ∀ entry ∈ b.pFlowList, ∀ block ∈ entry.2, Stored (streams entry.1) (captured entry.1) block

/-- The payload is what the stream has from `seq` on, and all of it is captured. -/
structure Carries (source : ℕ → UInt8) (captured : Set ℕ) (payload : Pointer) (size : ℕ)
    (seq : TcpSeq) : Prop where
  fits : seq.toNat + size < 2 ^ 32
  agree : payload.bytes size = window source seq.toNat (seq.toNat + size)
  within : ∀ i, seq.toNat ≤ i → i < seq.toNat + size → i ∈ captured

variable {streams : Streams} {source : ℕ → UInt8} {captured : Set ℕ} {kept : FlowId → Set ℕ}
  {payload : Pointer} {size : ℕ} {seq : TcpSeq} {flow : FlowId} {b b' : Buffers} {edit : Edit}
  {mem : Memory} {chunkId : ChunkId} {first held : ℤ}

/-! ## Insertion -/

/-- What a property of blocks needs for an insertion to keep it, whichever branch it
takes. -/
structure Inserts (payload : Pointer) (size : ℤ) (seq : TcpSeq) (P : ContiguousBlock → Prop) : Prop where
  created : ∀ made, create.append payload size seq = some made → P made
  prepended : ∀ li made, P li → seq + UInt32.ofInt size = li.startingSeqNumber →
    li.prepend payload size seq = some made → P made
  appended : ∀ li made, P li → seq = li.nextExpectedSeqNumber →
    li.append payload size (seq + UInt32.ofInt size) = some made → P made
  merged : ∀ li li2, P li → P li2 → li.nextExpectedSeqNumber = li2.startingSeqNumber →
    P (li.appendString li2.contiguousBlock li2.nextExpectedSeqNumber)

theorem insert_blocks_keeps {size : ℤ} {P : ContiguousBlock → Prop} {blocks after : List ContiguousBlock}
    (inserts : Inserts payload size seq P) (each : ∀ li ∈ blocks, P li)
    (ran : insertBlocks payload size seq blocks = some (after, edit)) : ∀ li ∈ after, P li := by
  replace ran := walk_of_insert ran
  induction ran with
  | atEnd filled => exact List.forall_mem_singleton.mpr (inserts.created _ filled)
  | before early touches filled =>
    obtain ⟨head, tail⟩ := List.forall_mem_cons.mp each
    exact List.forall_mem_cons.mpr ⟨inserts.prepended _ _ head touches filled, tail⟩
  | between early ahead filled => exact List.forall_mem_cons.mpr ⟨inserts.created _ filled, each⟩
  | dropped early overlaps => exact each
  | after joins filled apart =>
    obtain ⟨head, tail⟩ := List.forall_mem_cons.mp each
    exact List.forall_mem_cons.mpr ⟨inserts.appended _ _ head joins filled, tail⟩
  | bridging joins filled meets =>
    obtain ⟨head, tail⟩ := List.forall_mem_cons.mp each
    obtain ⟨second, others⟩ := List.forall_mem_cons.mp tail
    have grown := inserts.appended _ _ head joins filled
    exact List.forall_mem_cons.mpr ⟨inserts.merged _ _ grown second meets, others⟩
  | past passed inner ih =>
    obtain ⟨head, tail⟩ := List.forall_mem_cons.mp each
    exact List.forall_mem_cons.mpr ⟨head, ih tail⟩

theorem insert_flow_keeps {size : ℤ} {P : FlowId → ContiguousBlock → Prop}
    {flows after : List (FlowId × List ContiguousBlock)} (inserts : Inserts payload size seq (P flow))
    (each : ∀ entry ∈ flows, ∀ li ∈ entry.2, P entry.1 li)
    (ran : insertFlow flow payload size seq flows = some (after, edit)) :
    ∀ entry ∈ after, ∀ li ∈ entry.2, P entry.1 li := by
  induction flows generalizing after edit with
  | nil =>
    obtain ⟨made, filled, ran⟩ := Option.bind_eq_some_iff.mp ran
    cases ran
    exact List.forall_mem_singleton.mpr (List.forall_mem_singleton.mpr (inserts.created made filled))
  | cons entry rest ih =>
    obtain ⟨other, blocks⟩ := entry
    obtain ⟨head, tail⟩ := List.forall_mem_cons.mp each
    rw [insertFlow] at ran
    split at ran
    next same =>
      subst same
      obtain ⟨⟨left, inner⟩, walked, ran⟩ := Option.bind_eq_some_iff.mp ran
      cases ran
      exact List.forall_mem_cons.mpr ⟨insert_blocks_keeps inserts head walked, tail⟩
    next =>
      obtain ⟨⟨left, inner⟩, walked, ran⟩ := Option.bind_eq_some_iff.mp ran
      cases ran
      exact List.forall_mem_cons.mpr ⟨head, ih tail walked⟩

theorem create_stored (carries : Carries source captured payload size seq) :
    ∃ made, create.append payload size seq = some made ∧ Stored source captured made := by
  obtain ⟨made, ran, holds, first, last⟩ := create_append_holds carries.fits carries.agree
  refine ⟨made, ran, holds, ?_⟩
  rw [first, last]
  exact carries.within

theorem append_stored {li : ContiguousBlock} (stored : Stored source captured li)
    (carries : Carries source captured payload size li.nextExpectedSeqNumber) (start : TcpSeq) :
    ∃ made, li.append payload size start = some made ∧ Stored source captured made := by
  obtain ⟨made, ran, holds, first, last⟩ :=
    append_holds stored.holds rfl carries.fits carries.agree start
  refine ⟨made, ran, holds, ?_⟩
  rw [first, last]
  intro i above below
  by_cases old : i < li.nextExpectedSeqNumber.toNat
  · exact stored.within i above old
  · exact carries.within i (by omega) below

theorem prepend_stored {li : ContiguousBlock} (stored : Stored source captured li)
    (carries : Carries source captured payload size seq)
    (joins : seq.toNat + size = li.startingSeqNumber.toNat) :
    ∃ made, li.prepend payload size seq = some made ∧ Stored source captured made := by
  obtain ⟨made, ran, holds, first, last⟩ := prepend_holds stored.holds joins carries.agree
  refine ⟨made, ran, holds, ?_⟩
  rw [first, last]
  intro i above below
  by_cases fresh : i < li.startingSeqNumber.toNat
  · exact carries.within i above (by omega)
  · exact stored.within i (by omega) below

theorem merge_stored {li li2 : ContiguousBlock} (stored : Stored source captured li)
    (after : Stored source captured li2)
    (joins : li.nextExpectedSeqNumber = li2.startingSeqNumber) :
    Stored source captured (li.appendString li2.contiguousBlock li2.nextExpectedSeqNumber) := by
  refine ⟨append_string_holds stored.holds after.holds joins, fun i above below => ?_⟩
  by_cases old : i < li.nextExpectedSeqNumber.toNat
  · exact stored.within i above old
  · exact after.within i (joins ▸ Nat.le_of_not_lt old) below

/-- Every branch of the walk leaves blocks of captured bytes. -/
theorem Carries.inserts (carries : Carries source captured payload size seq) :
    Inserts payload size seq (Stored source captured) where
  created := fun made filled => by
    obtain ⟨other, filled', fresh⟩ := create_stored carries
    cases filled.symm.trans filled'
    exact fresh
  prepended := fun li made stored touches filled => by
    have joins := toNat_add_ofInt seq size carries.fits
    rw [touches] at joins
    obtain ⟨other, filled', grown⟩ := prepend_stored stored carries joins.symm
    cases filled.symm.trans filled'
    exact grown
  appended := fun li made stored contiguous filled => by
    subst contiguous
    obtain ⟨other, filled', grown⟩ :=
      append_stored stored carries (li.nextExpectedSeqNumber + UInt32.ofInt size)
    cases filled.symm.trans filled'
    exact grown
  merged := fun li li2 stored after joins => merge_stored stored after joins

theorem insert_kept (carries : Carries (streams flow) (kept flow) payload size seq)
    (before : Kept streams kept b)
    (ran : (b.insert flow payload size seq first held).result = some (b', edit)) :
    Kept streams kept b' :=
  insert_flow_keeps (P := fun flow => Stored (streams flow) (kept flow)) carries.inserts before
    (insert_frame ran).1

/-! ## Chunks -/

/-- A segment does not start past the end of its flow's copy of the chunk, so what
is past the end comes from the segment. -/
def StartsInside (b : Buffers) (chunkId : ChunkId) (flow : FlowId) (size : ℕ) (seq : TcpSeq) : Prop :=
  ∀ start length, copyOf b chunkId flow = some (start, length) → pastChunk start length size seq ≤ size

/-- The last `count` bytes of what is carried. -/
theorem Carries.tail {count : ℕ} (carries : Carries source captured payload size seq)
    (inside : count ≤ size) : Carries source captured (payload.advance (size - count)) count
      (seq + UInt32.ofInt size - UInt32.ofInt count) := by
  have fits := carries.fits
  have last := toNat_add_ofInt seq size fits
  have count_eq : (UInt32.ofInt count).toNat = count := by
    rw [toNat_ofInt]
    omega
  have first : (seq + UInt32.ofInt size - UInt32.ofInt count).toNat = seq.toNat + (size - count) := by
    rw [toNat_sub_eq (by omega), last, count_eq]
    omega
  refine ⟨by omega, ?_, fun i above below => carries.within i (by omega) (by omega)⟩
  have offset : (size : ℤ) - count = (size - count : ℕ) := by omega
  rw [offset, Pointer.bytes_advance, first, Nat.sub_add_cancel inside]
  have cut := congrArg (List.drop (size - count)) carries.agree
  rw [Pointer.bytes, drop_window, drop_window, Nat.zero_add] at cut
  rw [cut, Nat.add_assoc, Nat.sub_add_cancel inside]

/-- The first `count` bytes of what is carried. -/
theorem Carries.take {count : ℕ} (carries : Carries source captured payload size seq)
    (inside : count ≤ size) : Carries source captured payload count seq := by
  have fits := carries.fits
  refine ⟨by omega, ?_, fun i above below => carries.within i above (by omega)⟩
  have cut := congrArg (List.take count) carries.agree
  rwa [Pointer.bytes, take_window _ (by omega), take_window _ (by omega), Nat.zero_add] at cut

/-- What is carried after its first `count` bytes. -/
theorem Carries.drop {count : ℕ} (carries : Carries source captured payload size seq)
    (inside : count ≤ size) :
    Carries source captured (payload.advance count) (size - count) (seq + UInt32.ofInt count) := by
  have fits := carries.fits
  have moved := carries.tail (Nat.sub_le size count)
  have offset : (size : ℤ) - (size - count : ℕ) = count := by omega
  have first : seq + UInt32.ofInt size - UInt32.ofInt (size - count : ℕ) = seq + UInt32.ofInt count := by
    apply UInt32.toNat_inj.mp
    have total := toNat_add_ofInt seq size fits
    have part := toNat_add_ofInt seq count (by omega)
    have rest := toNat_ofInt (size - count)
    rw [toNat_sub_eq (by omega), total, part, rest]
    omega
  rwa [offset, first] at moved

/-- A stored block carries its own bytes. -/
theorem Stored.carries {li : ContiguousBlock} (stored : Stored source captured li) (mem : Memory) :
    Carries source captured (mem.cStr li.contiguousBlock) li.contiguousBlock.length
      li.startingSeqNumber := by
  have length := stored.holds.length
  have ordered := stored.holds.ordered
  have bound := li.nextExpectedSeqNumber.toNat_lt
  have last : li.startingSeqNumber.toNat + li.contiguousBlock.length =
      li.nextExpectedSeqNumber.toNat := by omega
  refine ⟨by omega, ?_, fun i above below => stored.within i above (by omega)⟩
  rw [Memory.cStr, Pointer.bytes_ofBytes, last, ← stored.holds.content]

/-- The bytes past a chunk are stored when they are part of the segment. -/
theorem insert_past_kept {diff : ℤ} (carries : Carries (streams flow) (kept flow) payload size seq)
    (inside : diff ≤ size) (before : Kept streams kept b)
    (ran : (b.insertPast flow payload diff size seq).result = some (b', edit)) :
    Kept streams kept b' := by
  rw [insertPast] at ran
  split at ran
  · rename_i positive
    obtain ⟨count, rfl⟩ := Int.eq_ofNat_of_zero_le (Int.le_of_lt positive)
    exact insert_kept (carries.tail (by omega)) before ran
  · cases ran
    exact before

theorem fill_and_send_kept (carries : Carries (streams flow) (kept flow) payload size seq)
    (inside : StartsInside b chunkId flow size seq) (before : Kept streams kept b)
    (ran : (b.fillAndSend mem chunkId flow payload size seq).result = some (b', edit)) :
    Kept streams kept b' := by
  obtain ⟨done, ran⟩ := fill_and_send_cases ran
  obtain ⟨pRc, found, ⟨-, rfl, -⟩ | ⟨start, t, pRc', dups, known, stored, -, rfl⟩⟩ := fill_gaps_ends ran
  · exact before
  · have lists := insert_past_kept carries (inside _ _ (copy_of_chunk found known)) before stored
    exact lists

/-! ## Candidates -/

/-- A block that starts inside a chunk is not past its end. -/
theorem past_within {start : TcpSeq} {length : ℕ} (inside : within start length seq)
    (short : length < 2 ^ 31) (small : size < 2 ^ 31) :
    pastChunk start length size seq ≤ size := by
  have distance := inside_of_within inside short
  rw [past_inside distance short small]
  omega

theorem mem_blocks_of {li : ContiguousBlock} (member : li ∈ b.blocksOf flow) :
    ∃ entry ∈ b.pFlowList, entry.1 = flow ∧ li ∈ entry.2 := by
  rw [blocksOf] at member
  split at member
  · rename_i entry found
    have same := List.find?_some found
    exact ⟨entry, List.mem_of_find?_eq_some found, by simpa using same, member⟩
  · cases member

/-- Erasing a block leaves the others as they are. -/
theorem erase_block_keeps {P : FlowId → ContiguousBlock → Prop} {flows : List (FlowId × List ContiguousBlock)}
    {index : ℕ} (each : ∀ entry ∈ flows, ∀ li ∈ entry.2, P entry.1 li) :
    ∀ entry ∈ eraseBlock flow index flows, ∀ li ∈ entry.2, P entry.1 li := by
  induction flows with
  | nil => exact each
  | cons entry rest ih =>
    obtain ⟨head, tail⟩ := List.forall_mem_cons.mp each
    rw [eraseBlock]
    split
    · exact List.forall_mem_cons.mpr ⟨fun li member => head li (List.mem_of_mem_eraseIdx member), tail⟩
    · exact List.forall_mem_cons.mpr ⟨head, ih tail⟩

/-- The captured positions lie within `int` distance of each other. -/
def Near (captured : Set ℕ) : Prop := ∃ low, ∀ i ∈ captured, low ≤ i ∧ i + 1 < low + 2 ^ 31

theorem Stored.short {li : ContiguousBlock} (stored : Stored source captured li)
    (near : Near captured) : li.contiguousBlock.length < 2 ^ 31 := by
  obtain ⟨low, bounds⟩ := near
  have length := stored.holds.length
  have ordered := stored.holds.ordered
  by_cases empty : li.startingSeqNumber.toNat = li.nextExpectedSeqNumber.toNat
  · omega
  · have first := bounds _ (stored.within li.startingSeqNumber.toNat (Nat.le_refl _) (by omega))
    have last := bounds _ (stored.within (li.nextExpectedSeqNumber.toNat - 1) (by omega) (by omega))
    omega

/-- The `int` size of a short string. -/
theorem to_int_length {length : ℕ} (short : length < 2 ^ 31) :
    toInt (UInt32.ofNat length) = length := by
  have exactly : (UInt32.ofNat length).toNat = length := by
    rw [UInt32.toNat_ofNat']
    omega
  rw [toInt_of_small (by omega), exactly]

/-- The blocks that start inside a new chunk go to it one by one. -/
theorem candidates_kept {start : TcpSeq} {length index rounds : ℕ} (near : Near (kept flow))
    (copied : copyOf b chunkId flow = some (start, length)) (short : length < 2 ^ 31)
    (before : Kept streams kept b)
    (ran : (candidatesFrom mem chunkId flow start length rounds index b).result = some b') :
    Kept streams kept b' := by
  refine (candidates_invariant (fun t => Kept streams kept t ∧ copyOf t chunkId flow = some (start, length)) ?_
    ⟨before, copied⟩ ran).1
  rintro t t' i li inserted place ⟨before, copied⟩ taken fits filled moved
  obtain ⟨entry, held, same, member⟩ := mem_blocks_of (List.mem_of_getElem? taken)
  have stored := before entry held li member
  rw [same] at stored
  have small := stored.short near
  rw [to_int_length small] at filled
  have inside : StartsInside t chunkId flow li.contiguousBlock.length li.startingSeqNumber := by
    intro other count copied'
    obtain ⟨rfl, rfl⟩ := Prod.mk.inj (Option.some_inj.mp (copied.symm.trans copied'))
    exact past_within fits short small
  have flows := fill_and_send_kept (stored.carries mem) inside before filled
  refine ⟨erase_block_keeps (P := fun flow => Stored (streams flow) (kept flow)) flows, ?_⟩
  rw [copyOf, headings_of_lists, fill_and_send_headings filled]
  exact copied

/-! ## Segments -/

/-- Every chunk has a length that an `int` can hold. -/
def Sized (b : Buffers) : Prop :=
  ∀ chunkId heading, headings b chunkId = some heading → heading.2 < 2 ^ 31

theorem announced_short (sized : Sized b) : (announced b chunkId flow payload seq).2 < 2 ^ 31 := by
  cases found : headings b chunkId with
  | none => simpa [announced, found] using get_length_small payload
  | some heading => simpa [announced, found] using sized chunkId heading found

theorem Sized.announce (sized : Sized b) {heading : Heading} (short : heading.2 < 2 ^ 31)
    (put : headings b' = Function.update (headings b) chunkId (some heading)) : Sized b' := by
  intro other found held
  rw [put] at held
  by_cases isIt : other = chunkId
  · rw [isIt, Function.update_self] at held
    cases held
    exact short
  · rw [Function.update_of_ne isIt] at held
    exact sized other found held

/-- A segment that shows a chunk goes to it from the chunk's first byte on. -/
theorem announce_kept (carries : Carries (streams flow) (kept flow) payload size seq)
    (near : Near (kept flow)) (sized : Sized b) (before : Kept streams kept b)
    (ran : (b.announceChunk mem flow chunkId payload size seq).result = some b') :
    Kept streams kept b' ∧ Sized b' := by
  have short : (opened b chunkId flow payload seq).length < 2 ^ 31 := by
    have heading : (announced b chunkId flow payload seq).2 < 2 ^ 31 := announced_short sized
    rwa [← opened_heading] at heading
  refine ⟨?_, sized.announce (announced_short sized) (announce_headings ran)⟩
  obtain ⟨t, edit, filled, after⟩ := announce_cases ran
  have copied : copyOf (b.setChunk chunkId (opened b chunkId flow payload seq)) chunkId flow =
      some (seq, (opened b chunkId flow payload seq).length) := copy_of_announced
  have flows : Kept streams kept t := by
    refine fill_and_send_kept carries (fun start length copied' => ?_) (by exact before) filled
    obtain ⟨rfl, rfl⟩ := Prod.mk.inj (Option.some_inj.mp (copied.symm.trans copied'))
    exact Int.le_trans (past_start short) (by omega)
  rcases after with rfl | ⟨_, ran⟩
  · exact flows
  · obtain ⟨pRc, found, ran⟩ := bind_eq_some.mp ran
    have copied' : copyOf t chunkId flow = some (seq, (opened b chunkId flow payload seq).length) := by
      rw [copyOf, fill_and_send_headings filled]
      exact copied
    obtain ⟨other, found', known, length_eq⟩ := chunk_of_copy copied'
    obtain rfl := Option.some_inj.mp (found.symm.trans found')
    rw [known, length_eq, Option.getD_some] at ran
    exact candidates_kept near copied' short flows ran

end Ditto.FlowStore
