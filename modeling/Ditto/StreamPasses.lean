import Ditto.RecordFraming
import Ditto.FlagSteps

/-! A pass over blocks that are pieces of streams. It sends records of the streams alone, each
of which was captured whole; and of a block that it does not get stuck on it sends every record
that lies inside. -/
namespace Ditto.StreamPasses
open Sniffer Buffers ContiguousBlock Windows Words Traces Traced RecordHeaders RecordScan RecordExtraction Handovers
open ChunkIdReach FirstHeader FlowStore RecordFraming FlagSteps

variable {streams : Streams} {framing : Framing streams} {source : ℕ → UInt8} {captured : Set ℕ}
  {kept : FlowId → Set ℕ} {mem : Memory} {flow : FlowId} {block left : ContiguousBlock}
  {front blocks : List ContiguousBlock} {start last : UInt32} {rounds p n : ℕ} {reply : DotChunkRes}

/-! ## Headers in a block -/

/-- The bytes of a block are those of the stream. -/
theorem block_agrees (holds : Holds source block) (mem : Memory) :
    (mem.cStr block.contiguousBlock).bytes block.contiguousBlock.length =
      window source block.startingSeqNumber.toNat
        (block.startingSeqNumber.toNat + block.contiguousBlock.length) := by
  have ordered := holds.ordered
  have length := holds.length
  rw [Memory.cStr, Pointer.bytes_ofBytes]
  conv_lhs => rw [holds.content]
  congr 1
  omega

/-- From an offset on, a block shows what the stream has there. -/
theorem block_same (holds : Holds source block) (mem : Memory) {offset : ℕ}
    (inside : offset + n ≤ block.contiguousBlock.length) :
    Same ((mem.cStr block.contiguousBlock).advance offset)
      (streamAt source (block.startingSeqNumber.toNat + offset)) n :=
  same_stream (block_agrees holds mem) inside

/-- The test for a record finds what the stream has marked. -/
theorem is_record_marked (holds : Holds source block) (mem : Memory)
    (inside : n + 32 < block.contiguousBlock.length) :
    isRecord (mem.cStr block.contiguousBlock) block.contiguousBlock.length (UInt32.ofNat n) ↔
      Marked source (block.startingSeqNumber.toNat + n) := by
  have bound := block.nextExpectedSeqNumber.toNat_lt
  have length := holds.length
  have same := block_same holds mem inside.le
  have shows : isRecord (mem.cStr block.contiguousBlock) block.contiguousBlock.length (UInt32.ofNat n) ↔
      Shows ((mem.cStr block.contiguousBlock).advance n) 0 := by
    rw [is_record_at (by omega), Shows]
    simp [Pointer.advance, inside]
  rw [shows]
  exact ⟨shows_same same, shows_same same.symm⟩

/-- What is read of a record that lies in a block is what the stream has there. -/
theorem block_reply (framing : Framing streams) (holds : Holds (streams flow) block) (mem : Memory)
    (inside : n + lengthAt (streams flow) (block.startingSeqNumber.toNat + n) ≤ block.contiguousBlock.length)
    (marked : Marked (streams flow) (block.startingSeqNumber.toNat + n))
    (read : replyAt (streams flow) (block.startingSeqNumber.toNat + n) = some reply) :
    extractChunkResponse ((mem.cStr block.contiguousBlock).advance n) = some reply := by
  have whole := framing.whole flow _ reply marked read
  have same := block_same holds mem inside
  exact reply_same same.symm marked (shows_same (same.symm.mono (by omega)) marked) read whole

/-- What is left behind a record. -/
theorem behind_stored (stored : Stored source captured block) (inside : last.toNat ≤ block.contiguousBlock.length) :
    (behind block last).startingSeqNumber.toNat = block.startingSeqNumber.toNat + last.toNat ∧
      Stored source captured (behind block last) := by
  have bound := block.nextExpectedSeqNumber.toNat_lt
  have ordered := stored.holds.ordered
  have length := stored.holds.length
  have moved : (behind block last).startingSeqNumber.toNat = block.startingSeqNumber.toNat + last.toNat := by
    simp only [behind, UInt32.toNat_add]
    omega
  refine ⟨moved, ⟨stored.holds.opened, ?_, ?_⟩, fun i above below => stored.within i (by omega) below⟩
  · show (behind block last).startingSeqNumber.toNat ≤ block.nextExpectedSeqNumber.toNat
    omega
  · show block.contiguousBlock.drop last.toNat = _
    rw [moved, stored.holds.content, drop_window]
    rfl

/-- What a round leaves of a block. -/
theorem grep_once_stored (stored : Stored source captured block)
    (ran : (grepContiguousBlockForChunks mem flow block).result = some (front, left)) :
    Stored source captured left ∧ left.contiguousBlock.length ≤ block.contiguousBlock.length := by
  refine ⟨?_, grep_once_shorter ran⟩
  have read : Stored source captured { block with bModified := false } :=
    ⟨⟨stored.holds.opened, stored.holds.ordered, stored.holds.content⟩, stored.within⟩
  rw [grepContiguousBlockForChunks] at ran
  split at ran
  · split at ran
    · cases ran
      exact read
    · cases ran
  · rename_i start last found
    split at ran
    · rename_i whole
      have rest := (behind_stored stored whole).2
      obtain ⟨_, _, ran⟩ := bind_eq_some.mp ran
      split at ran
      · cases ran
        exact rest
      · obtain ⟨_, _, ran⟩ := bind_eq_some.mp ran
        obtain ⟨_, _, ran⟩ := bind_eq_some.mp ran
        cases ran
        exact rest
    · cases ran
      exact read

/-! ## Nothing but records -/

/-- What the call sends is the data of a record that the flow's stream has, captured whole. -/
def Recorded (streams : Streams) (kept : FlowId → Set ℕ) (call : Call) : Prop :=
  ∀ flow data, call.sent = some (flow, data) → ∃ p reply, Marked (streams flow) p ∧
    replyAt (streams flow) p = some reply ∧ reply.chunkData = data ∧
    Set.Ico p (p + (lengthAt (streams flow) p + 4)) ⊆ kept flow

/-- A round sends a record of the stream. -/
theorem grep_once_recorded (framing : Framing streams) (stored : Stored (streams flow) (kept flow) block)
    (short : block.contiguousBlock.length < 2 ^ 31) :
    Logs (Recorded streams kept) (grepContiguousBlockForChunks mem flow block) := by
  cases found : firstRecord (mem.cStr block.contiguousBlock) block.contiguousBlock.length with
  | none =>
    rw [grep_nothing found (by omega)]
    exact logs_pure _
  | some place =>
    obtain ⟨start, last⟩ := place
    by_cases whole : last.toNat ≤ block.contiguousBlock.length
    · obtain ⟨header, ends⟩ := first_record_place found short.le
      obtain ⟨shows, _⟩ := found_shows found (by omega)
      have length := stored.holds.length
      have ordered := stored.holds.ordered
      have near := block_same stored.holds mem (show start.toNat + 32 ≤ _ from header.le)
      have marked : Marked (streams flow) (block.startingSeqNumber.toNat + start.toNat) := shows_same near shows
      have count : lengthAt (streams flow) (block.startingSeqNumber.toNat + start.toNat) =
          getLengthFromByteStream ((mem.cStr block.contiguousBlock).advance start.toNat) :=
        (near.length (by omega)).symm
      intro call member
      rw [grep_once_calls found whole, sendChunkToSnifferPlugin] at member
      split at member
      · cases member
      · rename_i chunkRes extracted
        rw [calls_note, List.mem_singleton] at member
        subst member
        have header := header_of_reply shows extracted
        have long := header.payloadLength
        rw [Nat.cast_zero, Pointer.advance_zero] at long
        simp only [minPayloadLength, minChunkSize, rpcHeaderLen] at long
        obtain ⟨reply, read, _, _⟩ := reply_alike (block_same stored.holds mem (by omega)) shows marked extracted
        have again := block_reply framing stored.holds mem (by omega) marked read
        cases again.symm.trans extracted
        intro other data sent
        cases sent
        refine ⟨_, chunkRes, marked, read, rfl, ?_⟩
        rintro x ⟨lower, upper⟩
        exact stored.within x (by omega) (by omega)
    · rw [grep_waits found whole]
      exact logs_pure _

theorem grep_block_recorded (framing : Framing streams) (stored : Stored (streams flow) (kept flow) block)
    (short : block.contiguousBlock.length < 2 ^ 31) :
    Logs (Recorded streams kept) (grepBlock mem flow rounds block) := by
  induction rounds generalizing block with
  | zero => exact logs_lift _
  | succ rounds ih =>
    rw [grepBlock]
    split
    · refine (grep_once_recorded framing stored short).bind fun round ran => ?_
      obtain ⟨front, left⟩ := round
      obtain ⟨stored', shorter⟩ := grep_once_stored stored ran
      exact (ih stored' (by omega)).bind fun _ _ => logs_pure _
    · exact logs_pure _

theorem grep_blocks_recorded (framing : Framing streams) (near : Near (kept flow))
    (stored : ∀ block ∈ blocks, Stored (streams flow) (kept flow) block) :
    Logs (Recorded streams kept) (grepBlocks mem flow blocks) := by
  induction blocks with
  | nil => exact logs_pure _
  | cons block rest ih =>
    obtain ⟨head, tail⟩ := List.forall_mem_cons.mp stored
    exact (grep_block_recorded framing head (head.short near)).bind fun _ _ => (ih tail).bind fun _ _ => logs_pure _

/-- **A pass sends records of the streams**, captured whole. -/
theorem grep_flows_recorded {flows : List (FlowId × List ContiguousBlock)} (framing : Framing streams)
    (near : ∀ flow, Near (kept flow))
    (stored : ∀ entry ∈ flows, ∀ block ∈ entry.2, Stored (streams entry.1) (kept entry.1) block) :
    Logs (Recorded streams kept) (grepFlows mem flows) := by
  induction flows with
  | nil => exact logs_pure _
  | cons entry rest ih =>
    obtain ⟨head, tail⟩ := List.forall_mem_cons.mp stored
    exact (grep_blocks_recorded framing (near entry.1) head).bind fun _ _ => (ih tail).bind fun _ _ => logs_pure _

/-! ## Every record -/

/-- A record of a flow's stream lies in a block. -/
structure Inside (streams : Streams) (flow : FlowId) (p : ℕ) (reply : DotChunkRes) (block : ContiguousBlock) : Prop where
  marked : Marked (streams flow) p
  replied : replyAt (streams flow) p = some reply
  starts : block.startingSeqNumber.toNat ≤ p
  ends : p + (lengthAt (streams flow) p + 4) ≤ block.nextExpectedSeqNumber.toNat

/-- The pass finds the record, or one that ends before it. -/
theorem first_record_inside (framing : Framing streams) (holds : Holds (streams flow) block) (mem : Memory)
    (inside : Inside streams flow p reply block) :
    ∃ start last, firstRecord (mem.cStr block.contiguousBlock) block.contiguousBlock.length = some (start, last) ∧
      last.toNat ≤ block.contiguousBlock.length ∧ 0 < last.toNat ∧
      (block.startingSeqNumber.toNat + start.toNat = p ∨ block.startingSeqNumber.toNat + last.toNat ≤ p) := by
  obtain ⟨marked, replied, starts, ends⟩ := inside
  have bound := block.nextExpectedSeqNumber.toNat_lt
  have length := holds.length
  have long := long_of_reply marked replied
  simp only [minPayloadLength, minChunkSize, rpcHeaderLen] at long
  obtain ⟨n, rfl⟩ := Nat.exists_eq_add_of_le starts
  have found : isRecord (mem.cStr block.contiguousBlock) block.contiguousBlock.length (UInt32.ofNat n) :=
    (is_record_marked holds mem (by omega)).mpr marked
  -- the first index at which the test holds
  have some_record : ∃ i, isRecord (mem.cStr block.contiguousBlock) block.contiguousBlock.length (UInt32.ofNat i) :=
    ⟨n, found⟩
  obtain ⟨i, least, is, before⟩ : ∃ i ≤ n,
      isRecord (mem.cStr block.contiguousBlock) block.contiguousBlock.length (UInt32.ofNat i) ∧
      ∀ j < i, ¬ isRecord (mem.cStr block.contiguousBlock) block.contiguousBlock.length (UInt32.ofNat j) :=
    ⟨Nat.find some_record, Nat.find_min' some_record found, Nat.find_spec some_record, fun j => Nat.find_min some_record⟩
  have marked' := (is_record_marked holds mem (by omega)).mp is
  have index : (UInt32.ofNat i).toNat = i := by
    rw [UInt32.toNat_ofNat']
    omega
  have count : getLengthFromByteStream ((mem.cStr block.contiguousBlock).advance i) =
      lengthAt (streams flow) (block.startingSeqNumber.toNat + i) :=
    (block_same holds mem (show i + 4 ≤ _ by omega)).length (by omega)
  have apart : i = n ∨ block.startingSeqNumber.toNat + i +
      (lengthAt (streams flow) (block.startingSeqNumber.toNat + i) + 4) ≤ block.startingSeqNumber.toNat + n := by
    rcases Nat.lt_or_eq_of_le least with earlier | same
    · exact Or.inr (framing.apart flow _ _ marked' marked (by omega))
    · exact Or.inl same
  have fits : i + (lengthAt (streams flow) (block.startingSeqNumber.toNat + i) + 4) ≤
      block.contiguousBlock.length := by
    rcases apart with rfl | before <;> omega
  have last : (UInt32.ofNat i + UInt32.ofInt (getLengthFromByteStream
      ((mem.cStr block.contiguousBlock).advance (UInt32.ofNat i).toNat) + 4)).toNat =
      i + (lengthAt (streams flow) (block.startingSeqNumber.toNat + i) + 4) := by
    have number := toNat_add_ofInt (UInt32.ofNat i)
      (lengthAt (streams flow) (block.startingSeqNumber.toNat + i) + 4) (by omega)
    rw [index] at number ⊢
    rw [count]
    exact_mod_cast number
  refine ⟨_, _, first_record_at is (by omega) before, by rw [last]; exact fits, by rw [last]; omega, ?_⟩
  rw [last, index]
  rcases apart with rfl | before <;> omega

/-- The loop over a block sends every record that lies in it. -/
theorem grep_block_sends (framing : Framing streams) (holds : Holds (streams flow) block) (free : ¬ Stuck mem block)
    (unread : block.bModified = true) (inside : Inside streams flow p reply block)
    (enough : block.contiguousBlock.length < rounds) :
    (flow, reply.chunkData) ∈ (grepBlock mem flow rounds block).calls.filterMap Call.sent := by
  induction rounds generalizing block with
  | zero => omega
  | succ rounds ih =>
    obtain ⟨start, last, found, whole, positive, place⟩ := first_record_inside framing holds mem inside
    obtain ⟨marked, replied, starts, ends⟩ := inside
    have length := holds.length
    have nonempty : block.startingSeqNumber < block.nextExpectedSeqNumber := UInt32.lt_iff_toNat_lt.mpr (by omega)
    have scanned : Scanned block := ⟨unread, nonempty⟩
    have near : Copied mem block start := by
      by_contra far
      exact free (.thrown scanned found whole far)
    obtain ⟨front, ran⟩ := @grep_once_takes mem flow block start last found whole near
    obtain ⟨moved, stored⟩ := @behind_stored _ Set.univ _ _ ⟨holds, fun _ _ _ => trivial⟩ whole
    rw [grepBlock, if_pos ⟨unread, nonempty⟩, calls_bind_some ran, List.filterMap_append]
    rcases place with rfl | before
    · refine List.mem_append_left _ ?_
      rw [grep_once_calls found whole, sendChunkToSnifferPlugin,
        block_reply framing holds mem (by omega) marked replied]
      exact List.mem_singleton_self _
    · refine List.mem_append_right _ ?_
      have later := @ih (behind block last) stored.holds (fun stuck => free (.later scanned found whole near stuck))
        unread ⟨marked, replied, by omega, ends⟩
        (show (block.contiguousBlock.drop last.toNat).length < rounds by rw [List.length_drop]; omega)
      rw [calls_bind, List.filterMap_append]
      exact List.mem_append_left _ later

theorem grep_blocks_sends (framing : Framing streams) (holds : ∀ block ∈ blocks, Holds (streams flow) block)
    (free : ∀ block ∈ blocks, ¬ Stuck mem block) (unread : ∀ block ∈ blocks, block.bModified = true)
    (member : block ∈ blocks) (inside : Inside streams flow p reply block) :
    (flow, reply.chunkData) ∈ (grepBlocks mem flow blocks).calls.filterMap Call.sent := by
  induction blocks with
  | nil => cases member
  | cons head rest ih =>
    obtain ⟨holds, others⟩ := List.forall_mem_cons.mp holds
    obtain ⟨free, free'⟩ := List.forall_mem_cons.mp free
    obtain ⟨unread, unread'⟩ := List.forall_mem_cons.mp unread
    obtain ⟨left, ran⟩ := @grep_block_total mem flow head _ free (fun _ => Nat.lt_succ_self _) (Nat.succ_pos _)
    rw [grepBlocks, calls_bind_some ran, List.filterMap_append, List.mem_append]
    rcases List.mem_cons.mp member with rfl | later
    · exact Or.inl (grep_block_sends framing holds free unread inside (by omega))
    · refine Or.inr ?_
      rw [calls_bind, List.filterMap_append]
      exact List.mem_append_left _ (ih others free' unread' later)

/-- **A pass sends every record** that lies in a block, if it gets stuck on none. -/
theorem grep_flows_sends {flows : List (FlowId × List ContiguousBlock)} (framing : Framing streams)
    (free : ∀ entry ∈ flows, ∀ block ∈ entry.2, ¬ Stuck mem block) (listed : (flow, blocks) ∈ flows)
    (holds : ∀ block ∈ blocks, Holds (streams flow) block) (unread : ∀ block ∈ blocks, block.bModified = true)
    (member : block ∈ blocks) (inside : Inside streams flow p reply block) :
    (flow, reply.chunkData) ∈ (grepFlows mem flows).calls.filterMap Call.sent := by
  induction flows with
  | nil => cases listed
  | cons entry rest ih =>
    obtain ⟨name, own⟩ := entry
    obtain ⟨free, free'⟩ := List.forall_mem_cons.mp free
    obtain ⟨left, ran⟩ : ∃ left, (grepBlocks mem name own).result = some left := by
      cases ran : (grepBlocks mem name own).result with
      | none =>
        obtain ⟨block, held, stuck⟩ := grep_blocks_none.mp ran
        exact absurd stuck (free block held)
      | some left => exact ⟨left, rfl⟩
    rw [grepFlows, calls_bind_some ran, List.filterMap_append, List.mem_append]
    rcases List.mem_cons.mp listed with same | later
    · cases same
      exact Or.inl (grep_blocks_sends framing holds free unread member inside)
    · refine Or.inr ?_
      rw [calls_bind, List.filterMap_append]
      exact List.mem_append_left _ (ih free' later)

end Ditto.StreamPasses
