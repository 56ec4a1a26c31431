import Mathlib.Data.UInt
import Ditto.ChunkReassembly
import Ditto.Runs

/-! A chunk over a whole run of calls, from any number of flows. Every reachable
chunk holds separated slices of the string it is a copy of; it holds all of what
it was handed, and says when it is done, as long as no payload swallows a stored
block. -/
namespace Ditto.ChunkHistories
open Sniffer ReconstructedChunk ChunkReassembly Spans Windows Runs

/-- What happens to a chunk: the sniffer records where a flow's copy starts, or
hands it a payload. -/
inductive Event where
  | setFlowStart (flow : String) (seqNum : TcpSeq)
  | fill (flow : String) (payload : Pointer) (sizePayload : ℕ) (seqNum : TcpSeq)

/-- A chunk with the normalized ranges it was handed and the answers it gave. -/
structure History where
  chunk : ReconstructedChunk
  numDuplicateBytes : UInt64
  ranges : List (ℕ × ℕ)
  answers : List Bool

/-- A fresh chunk of the given length. -/
def History.fresh (cid : List UInt8) (len : ℕ) : History where
  chunk := ReconstructedChunk.create cid len
  numDuplicateBytes := 0
  ranges := []
  answers := []

/-- The offset a flow's sequence number has in the chunk, if the flow has a start. -/
def normalized (chunk : ReconstructedChunk) (flow : String) (seqNum : TcpSeq) : Option ℕ :=
  (chunk.flowSeqMap flow).map fun start => (seqNum - start).toNat

/-- One event. -/
def History.step (h : History) : Event → Option History
  | .setFlowStart flow seqNum => some { h with chunk := h.chunk.setFlowStart flow seqNum }
  | .fill flow payload sizePayload seqNum => do
    let (chunk, numDuplicateBytes, done) ←
      h.chunk.fillGapsInChunk flow payload sizePayload seqNum h.numDuplicateBytes
    let first ← normalized h.chunk flow seqNum
    some {
      chunk := chunk
      numDuplicateBytes := numDuplicateBytes
      ranges := h.ranges ++ [(first, first + sizePayload)]
      answers := h.answers ++ [done] }

/-- The payload handed over is a nonempty slice of `data` at its normalized offset. -/
def IsSlice (data : List UInt8) (h : History) : Event → Prop
  | .setFlowStart _ _ => True
  | .fill flow payload size seqNum => ∃ n, normalized h.chunk flow seqNum = some n ∧
      0 < size ∧ n + size ≤ data.length ∧ payload.bytes size = (data.drop n).take size

/-- The payload handed over swallows no stored block. -/
def Unswallowing (h : History) : Event → Prop
  | .setFlowStart _ _ => True
  | .fill flow _ size seqNum => ∀ n, normalized h.chunk flow seqNum = some n →
      ¬ Swallows h.chunk.lcb n (n + size)

/-- The block list is sorted and strictly separated, and every block is nonempty,
ends within `data` and carries exactly its slice of it. -/
structure Sound (data : List UInt8) (lcb : List ContiguousBlock) : Prop where
  separated : lcb.Pairwise fun a b => nextOf a < startOf b
  bounds : ∀ b ∈ lcb, startOf b < nextOf b ∧ nextOf b ≤ data.length
  content : ∀ b ∈ lcb, b.contiguousBlock = (data.drop (startOf b)).take (nextOf b - startOf b)

/-- The bytes of a string as an infinite sequence. -/
def byteOf (data : List UInt8) : ℕ → UInt8 := fun i => data.getD i 0

variable {data cid : List UInt8} {h h' : History} {lcb : List ContiguousBlock} {payload : Pointer}
  {source : ℕ → UInt8} {limit size : ℕ}

theorem sound_of_blocks_ok (ok : BlocksOk (byteOf data) data.length lcb) : Sound data lcb where
  separated := ok.separated
  bounds := fun b member => ⟨(ok.each b member).proper, (ok.each b member).bounded⟩
  content := fun b member => by
    rw [take_drop_eq_window data 0 (ok.each b member).bounded]
    exact (ok.each b member).holds.content

/-- What one call does to a chunk whose blocks are in order. A call that is no
duplicate answers by the length of the first block. -/
theorem fill_gaps_spec {chunk : ReconstructedChunk} {flow : String} {seqNum start : TcpSeq}
    (ok : BlocksOk (byteOf data) data.length chunk.lcb) (small : data.length < 2 ^ 31)
    (known : chunk.flowSeqMap flow = some start) (positive : 0 < size)
    (inside : (seqNum - start).toNat + size ≤ data.length)
    (agree : payload.bytes size = (data.drop (seqNum - start).toNat).take size) (dups : UInt64) :
    ∃ after dups' done bDuplicate,
      chunk.fillGapsInChunk flow payload size seqNum dups = some (after, dups', done) ∧
      Filled (byteOf data) data.length chunk.lcb (seqNum - start).toNat
        ((seqNum - start).toNat + size) after.lcb bDuplicate ∧
      after.length = chunk.length ∧
      (bDuplicate = false → ∀ front ∈ after.lcb.head?,
        done = decide (chunk.length ≤ front.contiguousBlock.length)) := by
  have agree' : payload.bytes size = window (byteOf data) (seqNum - start).toNat
      ((seqNum - start).toNat + size) := by
    rw [agree]
    unfold byteOf
    rw [← take_drop_eq_window data 0 inside, Nat.add_sub_cancel_left]
  obtain ⟨lcb', dups', bDuplicate, ran, filled⟩ := fill_blocks_spec ok small positive inside agree' dups
  cases bDuplicate with
  | true =>
    refine ⟨{ chunk with lcb := lcb' }, dups', false, true, ?_, filled, rfl, by simp⟩
    simp only [fillGapsInChunk, known, ran]
    rfl
  | false =>
    obtain ⟨front, shape⟩ := Option.isSome_iff_exists.mp (List.isSome_head?.mpr filled.nonempty)
    refine ⟨{ chunk with
        lcb := lcb'
        uniquelyContributingFlows := chunk.uniquelyContributingFlows.insert flow },
      dups', decide (chunk.length ≤ front.contiguousBlock.length), false, ?_, filled, rfl, ?_⟩
    · simp only [fillGapsInChunk, known, ran, Option.bind_eq_bind, Option.bind_some, shape,
        Bool.false_eq_true, if_false]
    · intro _ other isFront
      rw [shape] at isFront
      rw [Option.mem_some_iff.mp isFront]

/-- What every run of slices keeps. -/
structure Reassembling (data : List UInt8) (h : History) : Prop where
  ok : BlocksOk (byteOf data) data.length h.chunk.lcb
  length_eq : h.chunk.length = data.length

theorem fresh_reassembling : Reassembling data (.fresh cid data.length) :=
  ⟨blocks_ok_nil, rfl⟩

/-- One call in a run of slices: it does not throw, and the list it leaves is
what `Filled` says of the old one. -/
theorem step_fill {flow : String} {seqNum : TcpSeq} {first : ℕ} (inv : Reassembling data h)
    (small : data.length < 2 ^ 31) (slice : IsSlice data h (.fill flow payload size seqNum))
    (placed : normalized h.chunk flow seqNum = some first) :
    ∃ h' done bDuplicate, h.step (.fill flow payload size seqNum) = some h' ∧
      Reassembling data h' ∧
      Filled (byteOf data) data.length h.chunk.lcb first (first + size) h'.chunk.lcb bDuplicate ∧
      h'.ranges = h.ranges ++ [(first, first + size)] ∧ h'.answers = h.answers ++ [done] ∧
      (bDuplicate = false → ∀ front ∈ h'.chunk.lcb.head?,
        done = decide (data.length ≤ front.contiguousBlock.length)) := by
  obtain ⟨n, placed', positive, inside, agree⟩ := slice
  obtain rfl : n = first := Option.some_inj.mp (placed'.symm.trans placed)
  obtain ⟨start, known, rfl⟩ := Option.map_eq_some_iff.mp placed
  obtain ⟨after, dups', done, bDuplicate, ran, filled, length_eq, answer⟩ :=
    fill_gaps_spec inv.ok small known positive inside agree h.numDuplicateBytes
  refine ⟨{
      chunk := after
      numDuplicateBytes := dups'
      ranges := h.ranges ++ [((seqNum - start).toNat, (seqNum - start).toNat + size)]
      answers := h.answers ++ [done] }, done, bDuplicate, ?_,
    ⟨filled.ok, length_eq.trans inv.length_eq⟩, filled, rfl, rfl, inv.length_eq ▸ answer⟩
  simp only [History.step, ran, placed, Option.bind_eq_bind, Option.bind_some]

theorem step_reassembling {event : Event} (small : data.length < 2 ^ 31)
    (inv : Reassembling data h) (slice : IsSlice data h event) (ran : h.step event = some h') :
    Reassembling data h' := by
  cases event with
  | setFlowStart flow seqNum =>
    obtain rfl := Option.some_inj.mp ran
    exact ⟨inv.ok, inv.length_eq⟩
  | fill flow payload size seqNum =>
    obtain ⟨first, placed, _⟩ := id slice
    obtain ⟨made, _, _, ran', inv', _⟩ := step_fill inv small slice placed
    obtain rfl := Option.some_inj.mp (ran.symm.trans ran')
    exact inv'

theorem run_reassembling (small : data.length < 2 ^ 31)
    (run : Reaches History.step (IsSlice data) (.fresh cid data.length) h) :
    Reassembling data h :=
  invariant fresh_reassembling (fun _ _ _ inv slice ran => step_reassembling small inv slice ran) run

/-- **Reassembly is sound over every run.** From any reachable history a call on
a slice succeeds, leaves separated true slices of the chunk, forgets no offset
and covers none outside the slice. -/
theorem reassembly_sound {flow : String} {seqNum : TcpSeq}
    (small : data.length < 2 ^ 31)
    (run : Reaches History.step (IsSlice data) (.fresh cid data.length) h)
    (slice : IsSlice data h (.fill flow payload size seqNum)) :
    ∃ h' n, h.step (.fill flow payload size seqNum) = some h' ∧
      normalized h.chunk flow seqNum = some n ∧ Sound data h'.chunk.lcb ∧
      covered h.chunk.lcb ⊆ covered h'.chunk.lcb ∧
      covered h'.chunk.lcb ⊆ covered h.chunk.lcb ∪ Set.Ico n (n + size) := by
  obtain ⟨n, placed, _⟩ := id slice
  obtain ⟨h', _, _, ran, inv, filled, _⟩ :=
    step_fill (run_reassembling small run) small slice placed
  exact ⟨h', n, ran, placed, sound_of_blocks_ok inv.ok, filled.kept, filled.added⟩

/-- A flow opens the three-byte chunk `1 2 3` and delivers its middle byte; the
whole chunk comes next. -/
theorem reassembly_sound_over_middle_byte :
    ∃ h', (((History.fresh [] 3).step (.setFlowStart "f" 7)).bind
        (·.step (.fill "f" (.ofBytes [2] 0) 1 8))).bind
        (·.step (.fill "f" (.ofBytes [1, 2, 3] 0) 3 7)) = some h' ∧
      Sound [1, 2, 3] h'.chunk.lcb :=
  have run : Reaches History.step (IsSlice [1, 2, 3]) (.fresh [] 3) _ :=
    (Reaches.refl.snoc (.setFlowStart "f" 7) trivial rfl).snoc (.fill "f" (.ofBytes [2] 0) 1 8)
      ⟨1, rfl, by decide, by decide, by decide⟩ rfl
  have slice : IsSlice [1, 2, 3] _ (.fill "f" (.ofBytes [1, 2, 3] 0) 3 7) :=
    ⟨0, rfl, by decide, by decide, by decide⟩
  have ⟨h', _, ran, _, sound, _⟩ := reassembly_sound (by decide) run slice
  ⟨h', ran, sound⟩

/-! ## Completeness -/

/-- The coverage grows by the whole slice exactly when no block is swallowed. -/
theorem exact_iff {after : List ContiguousBlock} {bDuplicate : Bool} {first last : ℕ}
    (filled : Filled source limit lcb first last after bDuplicate) :
    covered after = covered lcb ∪ Set.Ico first last ↔ ¬ Swallows lcb first last := by
  constructor
  · intro exactly swallowed
    exact filled.lost swallowed (exactly ▸ Set.subset_union_right)
  · intro clear
    exact filled.added.antisymm (Set.union_subset filled.kept (filled.whole clear))

/-- A list that covers the whole chunk has it in its first block. -/
theorem full_front (ok : BlocksOk source limit lcb) (positive : 0 < limit)
    (full : Set.Ico 0 limit ⊆ covered lcb) :
    ∃ front ∈ lcb.head?, limit ≤ front.contiguousBlock.length := by
  obtain ⟨b, member, start, last⟩ := interval_within_one ok.proper ok.separated positive full
  cases lcb with
  | nil => cases member
  | cons front rest =>
    obtain ⟨head, _, apart⟩ := blocks_ok_cons.mp ok
    refine ⟨front, rfl, ?_⟩
    rw [head.holds.length]
    rcases List.mem_cons.mp member with rfl | later
    · simp only [startOf, nextOf] at start last ⊢
      omega
    · have := apart b later
      omega

/-- Runs that swallow no block: everything handed over is stored, and the call
that completed the chunk has said so. -/
structure Complete (data : List UInt8) (h : History) : Prop where
  inv : Reassembling data h
  stored : covered h.chunk.lcb = coverage Prod.fst Prod.snd h.ranges
  answered : Set.Ico 0 data.length ⊆ covered h.chunk.lcb → true ∈ h.answers

theorem step_complete {event : Event} (positive : 0 < data.length) (small : data.length < 2 ^ 31)
    (before : Complete data h) (slice : IsSlice data h event) (clear : Unswallowing h event)
    (ran : h.step event = some h') : Complete data h' := by
  cases event with
  | setFlowStart flow seqNum =>
    obtain rfl := Option.some_inj.mp ran
    exact ⟨⟨before.inv.ok, before.inv.length_eq⟩, before.stored, before.answered⟩
  | fill flow payload size seqNum =>
    obtain ⟨first, placed, _⟩ := id slice
    obtain ⟨made, done, bDuplicate, ran', inv', filled, ranges, answers, answer⟩ :=
      step_fill before.inv small slice placed
    obtain rfl := Option.some_inj.mp (ran.symm.trans ran')
    refine ⟨inv', ?_, fun full => ?_⟩
    · rw [(exact_iff filled).mpr (clear first placed), before.stored, ranges]
      simp
    · rw [answers, List.mem_append]
      cases bDuplicate with
      | true =>
        -- nothing new came in, so an earlier call completed the chunk
        rw [filled.duplicate rfl] at full
        exact Or.inl (before.answered full)
      | false =>
        obtain ⟨front, isFront, long⟩ := full_front inv'.ok positive full
        have finished := answer rfl front isFront
        exact Or.inr (by simpa [finished] using long)

theorem run_complete (positive : 0 < data.length) (small : data.length < 2 ^ 31)
    (run : Reaches History.step (fun h e => IsSlice data h e ∧ Unswallowing h e)
      (.fresh cid data.length) h) : Complete data h := by
  refine invariant ?_ (fun _ _ _ before admitted ran =>
    step_complete positive small before admitted.1 admitted.2 ran) run
  refine ⟨fresh_reassembling, by simp [History.fresh, ReconstructedChunk.create], fun full => ?_⟩
  exact absurd (full ⟨le_rfl, positive⟩) (by simp [History.fresh, ReconstructedChunk.create])

/-- **Reassembly is complete exactly when nothing is swallowed.** In any reachable
history a call covers its whole slice if and only if it swallows no block; in a
run without such calls, once the slices cover the chunk some call has answered
`true`. -/
theorem reassembly_complete_iff (positive : 0 < data.length) (small : data.length < 2 ^ 31) :
    (∀ h flow payload size seqNum,
      Reaches History.step (IsSlice data) (.fresh cid data.length) h →
      IsSlice data h (.fill flow payload size seqNum) →
      ∃ h' n, h.step (.fill flow payload size seqNum) = some h' ∧
        normalized h.chunk flow seqNum = some n ∧
        (covered h'.chunk.lcb = covered h.chunk.lcb ∪ Set.Ico n (n + size) ↔
          ¬ Swallows h.chunk.lcb n (n + size))) ∧
    ∀ h, Reaches History.step (fun h e => IsSlice data h e ∧ Unswallowing h e)
        (.fresh cid data.length) h →
      Set.Ico 0 data.length ⊆ coverage Prod.fst Prod.snd h.ranges → true ∈ h.answers := by
  constructor
  · intro h flow payload size seqNum run slice
    obtain ⟨n, placed, _⟩ := id slice
    obtain ⟨h', _, _, ran, _, filled, _⟩ :=
      step_fill (run_reassembling small run) small slice placed
    exact ⟨h', n, ran, placed, exact_iff filled⟩
  · intro h run full
    have complete := run_complete positive small run
    exact complete.answered (complete.stored ▸ full)

/-- Once the middle byte is stored, the whole chunk is a payload that swallows
it: byte 2 is dropped, and no call answers `true`. -/
theorem swallowed_tail_is_lost :
    ¬ ∀ h, Reaches History.step (IsSlice [1, 2, 3]) (.fresh [] 3) h →
      Set.Ico 0 3 ⊆ coverage Prod.fst Prod.snd h.ranges → true ∈ h.answers := by
  intro complete
  have run : Reaches History.step (IsSlice [1, 2, 3]) (.fresh [] 3) _ :=
    ((Reaches.refl.snoc (.setFlowStart "f" 7) trivial rfl).snoc (.fill "f" (.ofBytes [2] 0) 1 8)
      ⟨1, rfl, by decide, by decide, by decide⟩ rfl).snoc (.fill "f" (.ofBytes [1, 2, 3] 0) 3 7)
      ⟨0, rfl, by decide, by decide, by decide⟩ rfl
  have answered := complete _ run (fun x inside => ⟨(0, 3), by decide, inside.1, inside.2⟩)
  exact absurd answered (by decide)

/-- The same chunk handed over as its last two bytes and then the whole of it. -/
theorem overlapping_slices_complete :
    ∃ h, (((History.fresh [] 3).step (.setFlowStart "f" 7)).bind
        (·.step (.fill "f" (.ofBytes [2, 3] 0) 2 8))).bind
        (·.step (.fill "f" (.ofBytes [1, 2, 3] 0) 3 7)) = some h ∧ true ∈ h.answers :=
  have clear {h : History} {seqNum : TcpSeq} {first size : ℕ}
      (placed : normalized h.chunk "f" seqNum = some first) (payload : Pointer)
      (bound : ¬ Swallows h.chunk.lcb first (first + size)) :
      Unswallowing h (.fill "f" payload size seqNum) :=
    fun n known => Option.some_inj.mp (placed.symm.trans known) ▸ bound
  have run : Reaches History.step (fun h e => IsSlice [1, 2, 3] h e ∧ Unswallowing h e)
      (.fresh [] 3) _ :=
    ((Reaches.refl.snoc (.setFlowStart "f" 7) ⟨trivial, trivial⟩ rfl).snoc
      (.fill "f" (.ofBytes [2, 3] 0) 2 8)
      ⟨⟨1, rfl, by decide, by decide, by decide⟩, clear rfl _ (by decide)⟩ rfl).snoc
      (.fill "f" (.ofBytes [1, 2, 3] 0) 3 7)
      ⟨⟨0, rfl, by decide, by decide, by decide⟩, clear rfl _ (by decide)⟩ rfl
  ⟨_, rfl, (reassembly_complete_iff (by decide) (by decide)).2 _ run
    fun x inside => ⟨(0, 3), by decide, inside.1, inside.2⟩⟩

end Ditto.ChunkHistories
