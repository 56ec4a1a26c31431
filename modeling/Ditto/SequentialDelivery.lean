import Ditto.StatusRange

/-! Sequential downloads over whole runs. What was delivered and the buffer are the
chunks copied, which are those of the first descriptors in order; so the client has
a prefix of the object, and all of it when the last reply is sent. -/
namespace Ditto.Downloads
open XferGtc (Descriptor)
open Outcomes Runs

variable {stored : List UInt8 → Option (List UInt8)} {t : Transfer} {pdp : XferData}
  {descs : List Descriptor} {content : List UInt8 → List UInt8} {g g' : Gtcd} {xferId : XferId}

/-! ## The object -/

/-- The object that a list of descriptors is of. -/
def objectOf (content : List UInt8 → List UInt8) (descs : List Descriptor) : List UInt8 :=
  descs.flatMap fun d => content d.id

/-- The chunks that are stored are those of the object, and none is empty. -/
structure Agrees (content : List UInt8 → List UInt8) (stored : List UInt8 → Option (List UInt8))
    (descs : List Descriptor) : Prop where
  chunk : ∀ d ∈ descs, ∀ data, stored d.id = some data → data = content d.id
  filled : ∀ d ∈ descs, content d.id ≠ []

/-- What the client of a sequential transfer has is a prefix of the object, and all of
it once a reply has ended the transfer; no descriptor is counted ahead of a read. -/
structure DeliversObject (content : List UInt8 → List UInt8) (descs : List Descriptor)
    (t : Transfer) : Prop where
  inOrder : t.delivered <+: objectOf content descs
  count : ∀ pdp, t.pdp = some pdp → t.reads = [] → pdp.descsCount = pdp.descsXfered
  whole : t.delivered = objectOf content descs ↔ ∃ reply ∈ t.replies, EndsTransfer reply.2

theorem objectOf_take_append (content : List UInt8 → List UInt8) (descs : List Descriptor) (n : ℕ) :
    objectOf content (descs.take n) ++ objectOf content (descs.drop n) = objectOf content descs := by
  rw [objectOf, objectOf, ← List.flatMap_append, List.take_append_drop, objectOf]

/-- The copied chunks are the object of the first descriptors. -/
theorem CopiedInOrder.bytes {count : ℕ} (copies : CopiedInOrder stored descs t.copied count)
    (agrees : Agrees content stored descs) : t.copiedBytes = objectOf content (descs.take count) := by
  have size : t.copied.length = count := by
    rw [← List.length_map, copies.order, List.length_range]
  have chunks : t.copied.map Prod.snd = (descs.take count).map fun d => content d.id := by
    refine List.ext_getElem? fun i => ?_
    by_cases inside : i < count
    · have copied : i < t.copied.length := size ▸ inside
      have place : t.copied[i].1 = i := by
        have indexed : (t.copied.map Prod.fst)[i]? = (List.range count)[i]? := by rw [copies.order]
        simpa [List.getElem?_eq_getElem copied, List.getElem?_range inside] using indexed
      obtain ⟨d, listed, chunk⟩ := copies.right _ (List.getElem_mem copied)
      rw [place] at listed
      have same := agrees.chunk d (List.mem_of_getElem? listed) _ chunk
      simp [List.getElem?_eq_getElem copied, List.getElem?_take_of_lt inside, listed, same]
    · simp [List.getElem?_eq_none_iff.mpr (size ▸ Nat.not_lt.mp inside), inside]
  rw [Transfer.copiedBytes, objectOf, List.flatMap_def, chunks, ← List.flatMap_def]

/-- What is left of an object is not empty. -/
theorem objectOf_drop_ne_nil (agrees : Agrees content stored descs) {n : ℕ} (left : n < descs.length) :
    objectOf content (descs.drop n) ≠ [] := by
  intro empty
  have next : descs[n] ∈ descs.drop n := by
    rw [List.drop_eq_getElem_cons left]
    exact List.mem_cons_self ..
  exact agrees.filled _ (List.getElem_mem left) (List.flatMap_eq_nil_iff.mp empty _ next)

/-- While a request or a read is due, something of the object is left. -/
theorem Served.left {status : List DescStatus} {hand : Hand} {fetched : Bool}
    (served : Served True stored t pdp descs status hand fetched) (handled : hand ≠ .handled)
    (listed : descs ≠ []) : pdp.descsXfered < descs.length ∨ pdp.buf ≠ [] := by
  have left := (served.counted (served.sound trivial).mode).left
  cases hand with
  | answered =>
    obtain none_listed | short | more := left
    · exact absurd (List.length_eq_zero_iff.mp none_listed) listed
    · exact .inl short
    · exact .inr more
  | parked sbp => exact .inl left
  | reading read =>
    have place := served.placed read (List.mem_singleton_self _)
    exact .inl (left ▸ (List.getElem?_eq_some_iff.mp place).1)
  | dropped => exact left.elim
  | handled => exact absurd rfl handled

theorem Kept.delivers (kept : Kept True stored descs t) (listed : descs ≠ [])
    (agrees : Agrees content stored descs) : DeliversObject content descs t := by
  obtain ⟨fetched, moved⟩ := kept
  cases moved with
  | stays pdp status hand served handled =>
    have sound := served.sound trivial
    have bytes : t.delivered ++ pdp.buf = objectOf content (descs.take pdp.descsXfered) := by
      rw [sound.bytes, sound.copies.bytes agrees]
    have object : t.delivered ++ (pdp.buf ++ objectOf content (descs.drop pdp.descsXfered)) =
        objectOf content descs := by
      rw [← List.append_assoc, bytes, objectOf_take_append]
    refine ⟨⟨_, object⟩, fun pdp' held unread => ?_, fun whole => ?_, fun ended => ?_⟩
    · cases served.held.symm.trans held
      rw [(served.counted sound.mode).count, ← served.reads, unread]
      rfl
    · obtain ⟨empty, rest⟩ := List.append_eq_nil_iff.mp
        (List.append_right_eq_self.mp (object.trans whole.symm))
      obtain short | more := served.left handled listed
      · exact absurd rest (objectOf_drop_ne_nil agrees short)
      · exact absurd empty more
    · obtain ⟨reply, member, ends⟩ := ended
      exact absurd ends (sound.unended reply member)
  | leaves gone finished =>
    obtain ⟨bytes, copies, ended⟩ := finished trivial
    have whole : t.delivered = objectOf content descs := by
      rw [bytes, copies.bytes agrees, List.take_length]
    refine ⟨whole ▸ List.prefix_refl _, fun pdp held => ?_, fun _ => ended, fun _ => whole⟩
    cases held.symm.trans gone.absent

/-! ## Runs -/

/-- The transfer is sequential, its object has a chunk, the client asks again only after
a reply, the transfer plugin finds its chunks, and the storage returns each chunk it has
in full. -/
def InSequence (xferId : XferId) (g : Gtcd) : Event → Prop
  | .getInit _ _ _ xmode => g.xferCounter = xferId → xmode ≠ some .outOfOrder
  | .getInitCb _ _ => True
  | .getData _ asked => asked = xferId →
      (g.transfers xferId).opening = none ∧
        (g.transfers xferId).gets.length = (g.transfers xferId).replies.length ∧
        ∀ pdp, (g.transfers xferId).pdp = some pdp → pdp.descs ≠ some []
  | .fetchData _ => True
  | .xpFetchDataCb fetching _ res => fetching = xferId → ∃ data, res = .ok data ∧ data ≠ []
  | .getChunkCb reading index res => reading = xferId →
      ∀ read, (g.transfers xferId).reads[index]? = some read →
        ∃ data, res = .ok data ∧ g.stored read.desc.id = some data
  | .putIchunk _ _ => True

/-- A transfer of such a run is sequential. -/
theorem Standing.sequential (standing : Standing True stored t) (held : t.pdp = some pdp) :
    pdp.xmode = .sequential := by
  cases standing with
  | new new => cases held.symm.trans new.absent
  | opening call xmode hints listed awaited held' mode pristine =>
    cases held.symm.trans held'
    exact mode trivial
  | refused gone => cases held.symm.trans gone.absent
  | served descs kept =>
    obtain ⟨fetched, moved⟩ := kept
    cases moved with
    | stays pdp' status hand served handled =>
      cases held.symm.trans served.held
      exact (served.sound trivial).mode
    | leaves gone finished => cases held.symm.trans gone.absent

theorem admits_of_sequence {event : Event} (stands : Stands True xferId g) [SendSize]
    (inSequence : InSequence xferId g event) (own : event.target = some xferId) :
    (g.transfers xferId).Admits True g.stored event := by
  cases event with
  | getData sbp id =>
    cases own
    obtain ⟨opened, answered, listed⟩ := inSequence rfl
    exact ⟨opened, answered, fun pdp held _ _ => listed pdp held⟩
  | fetchData id => trivial
  | xpFetchDataCb id index res =>
    cases own
    exact fun _ => inSequence rfl
  | getChunkCb id index res =>
    cases own
    refine fun read inFlight => ⟨fun _ => inSequence rfl read inFlight, ?_⟩
    intro data pdp descs _ held _ outOfOrder
    cases outOfOrder.symm.trans (stands.standing.sequential held)
  | _ => trivial

section
variable [SendSize]

theorem step_of_sequence {event : (ℕ → DescStatus) × Event} (stands : Stands True xferId g)
    (inSequence : InSequence xferId g event.2) :
    Ends (Stands True xferId) (fun _ => event.2.target ≠ some xferId) (g.step event.1 event.2) := by
  refine step_stands stands ?_ (admits_of_sequence stands inSequence)
  rintro sbp oid hints xmode same counter _
  rw [same] at inSequence
  exact inSequence counter

theorem sequence_stands
    (run : Reaches Gtcd.next (fun g event => InSequence xferId g event.2) g g')
    (stands : Stands True xferId g) : Stands True xferId g' := by
  refine Runs.invariant stands (fun before event after stands inSequence ran => ?_) run
  exact (step_of_sequence stands inSequence).of_ok (next_ok ran)

theorem sequence_keeps
    (run : Reaches Gtcd.next (fun g event => InSequence xferId g event.2) g g')
    (stands : Stands True xferId g) (kept : Kept True g.stored descs (g.transfers xferId))
    (taken : xferId < g.xferCounter) : Kept True g'.stored descs (g'.transfers xferId) := by
  have both : Stands True xferId g' ∧ Kept True g'.stored descs (g'.transfers xferId) ∧
      xferId < g'.xferCounter := by
    refine @Runs.invariant _ _ _ _ (fun g => Stands True xferId g ∧
      Kept True g.stored descs (g.transfers xferId) ∧ xferId < g.xferCounter) _ _
      ⟨stands, kept, taken⟩ ?_ run
    rintro before event after ⟨stands, kept, taken⟩ inSequence ran
    exact ⟨(step_of_sequence stands inSequence).of_ok (next_ok ran),
      (step_keeps kept taken (admits_of_sequence stands inSequence)).of_ok (next_ok ran)⟩
  exact both.2.1

/-- **At every point of a run, once a sequential transfer is open, its client has a prefix
of the object, and all of it exactly when a reply has ended the transfer; no descriptor is
counted ahead of a read, and no event of the transfer stops the daemon.** -/
theorem delivers_object
    (opened : Reaches Gtcd.next (fun g event => InSequence xferId g event.2) (Gtcd.init stored) g)
    (held : (g.transfers xferId).pdp = some pdp) (answered : (g.transfers xferId).opening = none)
    (listed : pdp.descs = some descs) (some_listed : descs ≠ [])
    (run : Reaches Gtcd.next (fun g event => InSequence xferId g event.2) g g')
    (agrees : Agrees content g'.stored descs) :
    DeliversObject content descs (g'.transfers xferId) ∧
      ∀ event : (ℕ → DescStatus) × Event, InSequence xferId g' event.2 →
        event.2.target = some xferId → ∃ after, g'.next event = some after := by
  have stands := sequence_stands opened (init_stands True stored xferId)
  have kept : Kept True g.stored descs (g.transfers xferId) := by
    obtain ⟨descs', fetched, status, hand, served, handled⟩ := stands.standing.served_of held answered
    cases served.listed.symm.trans listed
    exact ⟨fetched, .stays pdp status hand served handled⟩
  have taken : xferId < g.xferCounter := by
    by_contra unused
    cases held.symm.trans (stands.unused (Nat.not_lt.mp unused)).absent
  refine ⟨(sequence_keeps run stands kept taken).delivers some_listed agrees, fun event inSequence own => ?_⟩
  have steps := step_of_sequence (sequence_stands run stands) inSequence
  unfold Gtcd.next
  cases ran : g'.step event.1 event.2 with
  | ok after => exact ⟨after, rfl⟩
  | error fault => exact absurd own (steps.of_error ran)

end

/-! ## An object of one chunk twice -/

/-- A download of an object that has one chunk twice, after its answer. -/
def twiceInSequence : List Event :=
  [.getData 1 1, .fetchData 1, .xpFetchDataCb 1 0 (.ok [7]), .getChunkCb 1 0 (.ok [7]),
    .getChunkCb 1 0 (.ok [7])]

/-- The state after some of its events. -/
def sequenceAfter (n : ℕ) : Gtcd :=
  ranOn (opening [⟨[1], 1⟩, ⟨[1], 1⟩] ++ twiceInSequence.take n)

theorem sequence_run :
    Reaches Gtcd.next (fun g event => InSequence 1 g event.2) (sequenceAfter 0) (sequenceAfter 5) := by
  have asked : Reaches Gtcd.next (fun g event => InSequence 1 g event.2) (sequenceAfter 0)
      (sequenceAfter 1) := by
    refine Reaches.refl.snoc (fun _ => .unknown, .getData 1 1) (fun _ => ⟨rfl, rfl, ?_⟩) rfl
    intro pdp held unlisted
    have listed : ((sequenceAfter 0).transfers 1).pdp.bind (·.descs) =
        some [⟨[1], 1⟩, ⟨[1], 1⟩] := rfl
    rw [held, Option.bind_some] at listed
    cases listed.symm.trans unlisted
  have fetched : Reaches Gtcd.next (fun g event => InSequence 1 g event.2) (sequenceAfter 0)
      (sequenceAfter 2) := asked.snoc (fun _ => .unknown, .fetchData 1) trivial rfl
  have arrived : Reaches Gtcd.next (fun g event => InSequence 1 g event.2) (sequenceAfter 0)
      (sequenceAfter 3) :=
    fetched.snoc (fun _ => .unknown, .xpFetchDataCb 1 0 (.ok [7])) (fun _ => ⟨[7], rfl, by simp⟩) rfl
  have first : Reaches Gtcd.next (fun g event => InSequence 1 g event.2) (sequenceAfter 0)
      (sequenceAfter 4) := by
    refine arrived.snoc (fun _ => .unknown, .getChunkCb 1 0 (.ok [7])) ?_ rfl
    intro _ read inFlight
    have first : ((sequenceAfter 3).transfers 1).reads[0]? = some ⟨1, 0, -1, ⟨[1], 1⟩⟩ := rfl
    cases first.symm.trans inFlight
    exact ⟨[7], rfl, rfl⟩
  refine first.snoc (fun _ => .unknown, .getChunkCb 1 0 (.ok [7])) ?_ rfl
  intro _ read inFlight
  have second : ((sequenceAfter 4).transfers 1).reads[0]? = some ⟨1, 1, -1, ⟨[1], 1⟩⟩ := rfl
  cases second.symm.trans inFlight
  exact ⟨[7], rfl, rfl⟩

/-- The client gets the chunk twice, in one reply that ends the transfer. -/
theorem delivers_object_twice :
    DeliversObject (fun _ => [7]) [⟨[1], 1⟩, ⟨[1], 1⟩] ((sequenceAfter 5).transfers 1) := by
  have opened : Reaches Gtcd.next (fun g event => InSequence 1 g event.2) (Gtcd.init fun _ => none)
      (sequenceAfter 0) := by
    refine opening_run _ fun g event member => ?_
    obtain rfl | rfl : event = _ ∨ event = _ := by simpa [opening] using member
    · exact fun _ => by simp
    · trivial
  have agrees : Agrees (fun _ => [7]) (sequenceAfter 5).stored [⟨[1], 1⟩, ⟨[1], 1⟩] := by
    constructor
    · intro d member data chunk
      obtain rfl : d = ⟨[1], 1⟩ := by simpa using member
      exact (Option.some.inj (chunk.symm.trans rfl))
    · simp
  have listed : ((sequenceAfter 0).transfers 1).pdp.bind (·.descs) = some [⟨[1], 1⟩, ⟨[1], 1⟩] := rfl
  exact (delivers_object opened rfl rfl listed (List.cons_ne_nil _ _) sequence_run agrees).1

end Ditto.Downloads
