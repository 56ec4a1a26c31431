import Ditto.TransferRuns

/-! Where the status vector of a transfer is read. A request that follows the
previous reply, an arrival and a storage callback read it inside, except at an
empty list in sequential mode and after the last descriptor when it is read out
of order before the others. -/
namespace Ditto.Downloads
open XferGtc (Descriptor)
open SendSize (sendSize)
open Outcomes Runs

/-! ## What is in range -/

/-- The client asks for data once GET_INIT is answered and again after each reply. -/
def AskedInTurn (xferId : XferId) (g : Gtcd) : Event → Prop
  | .getData _ asked => asked = xferId →
      (g.transfers xferId).opening = none ∧
        (g.transfers xferId).gets.length = (g.transfers xferId).replies.length
  | _ => True

/-- No request in sequential mode for an empty list of descriptors, and no chunk read
out of order that is the last one, leaves the buffer short and does not complete the
transfer. -/
def WithinList [SendSize] (xferId : XferId) (g : Gtcd) : Event → Prop
  | .getData _ asked => asked = xferId →
      ∀ pdp, (g.transfers xferId).pdp = some pdp → pdp.xmode = .sequential → pdp.buf = [] →
        pdp.descs ≠ some []
  | .getChunkCb reading index res => reading = xferId →
      ∀ read data pdp descs, (g.transfers xferId).reads[index]? = some read → res = .ok data →
        (g.transfers xferId).pdp = some pdp → pdp.descs = some descs → pdp.xmode = .outOfOrder →
        ¬ PastLast pdp descs read data
  | _ => True

/-- Nothing was read past the status vector, which has one entry a descriptor. -/
structure StatusInRange (t : Transfer) : Prop where
  inside : t.overreads = []
  sized : ∀ pdp descs status, t.pdp = some pdp → pdp.descs = some descs →
    pdp.descsStatus = some status → status.length = descs.length

/-- A step reads the statuses and the descriptors of a transfer in range. -/
def StepInRange [SendSize] (xferId : XferId) (g : Gtcd) (event : (ℕ → DescStatus) × Event) : Prop :=
  Ends (fun g' => StatusInRange (g'.transfers xferId))
    (fun fault => event.2.target = some xferId → fault ≠ .outOfRange) (g.step event.1 event.2)

variable {stored : List UInt8 → Option (List UInt8)} {t : Transfer} {pdp : XferData}
  {descs : List Descriptor} {status : List DescStatus} {beyond : ℕ → DescStatus} {sbp : Sbp}
  {fetched : Bool} {g : Gtcd} {xferId : XferId}

/-! ## Reads inside -/

theorem Standing.in_range (standing : Standing False stored t) : StatusInRange t := by
  cases standing with
  | new new => exact ⟨new.inside, fun _ _ _ held => by cases new.absent.symm.trans held⟩
  | opening call xmode hints listed awaited held mode pristine =>
    refine ⟨pristine.inside, fun pdp descs status held' _ known => ?_⟩
    cases held.symm.trans held'
    cases known
  | refused gone => exact ⟨gone.inside, fun _ _ _ held => by cases gone.absent.symm.trans held⟩
  | served descs kept =>
    obtain ⟨fetched, moved⟩ := kept
    cases moved with
    | stays pdp status hand served handled =>
      refine ⟨served.inside, fun pdp' descs' status' held listed known => ?_⟩
      cases served.held.symm.trans held
      cases served.listed.symm.trans listed
      cases served.known.symm.trans known
      exact served.sized
    | leaves gone finished =>
      exact ⟨gone.inside, fun _ _ _ held => by cases gone.absent.symm.trans held⟩

section
variable [SendSize]

theorem admits_of_within {event : Event} (asked : AskedInTurn xferId g event)
    (within : WithinList xferId g event) (own : event.target = some xferId) :
    (g.transfers xferId).Admits False g.stored event := by
  cases event with
  | getData sbp id =>
    cases own
    exact ⟨(asked rfl).1, (asked rfl).2, within rfl⟩
  | fetchData id => trivial
  | xpFetchDataCb id index res => exact False.elim
  | getChunkCb id index res =>
    cases own
    exact fun read inFlight => ⟨False.elim, fun data pdp descs =>
      within rfl read data pdp descs inFlight⟩
  | _ => trivial

theorem step_of_within {event : (ℕ → DescStatus) × Event} (stands : Stands False xferId g)
    (asked : AskedInTurn xferId g event.2) (within : WithinList xferId g event.2) :
    Ends (Stands False xferId) (fun _ => event.2.target ≠ some xferId) (g.step event.1 event.2) :=
  step_stands stands (fun _ _ _ _ _ _ => False.elim) (admits_of_within asked within)

theorem reached_stands
    (run : Reaches Gtcd.next (fun g event => AskedInTurn xferId g event.2 ∧ WithinList xferId g event.2)
      (Gtcd.init stored) g) : Stands False xferId g := by
  refine Runs.invariant (init_stands False stored xferId) (fun before event after stands ok ran => ?_) run
  exact (step_of_within stands ok.1 ok.2).of_ok (next_ok ran)

end

/-! ## Reads past the vector -/

section
variable [SendSize]

theorem actual_transfer_data_past (held : t.pdp = some pdp) (listed : pdp.descs = some descs)
    (past : t.overreads ≠ []) :
    Ends (fun after => after.overreads ≠ []) (fun _ => False) (t.actualTransferData sbp) := by
  simp only [Transfer.actualTransferData, Transfer.deref, held, listed, Transfer.derefMember, bind,
    Except.bind]
  split
  · exact past
  split
  · split
    · exact past
    · exact past
  · exact past

/-- A request for an empty list reads the status at 0. -/
theorem get_data_past {errorFree : Prop} (served : Served errorFree stored t pdp [] status .answered fetched)
    (mode : pdp.xmode = .sequential) (empty : pdp.buf = []) :
    Ends (fun after => after.overreads ≠ []) (fun _ => False)
      ({ t with gets := t.gets ++ [sbp] }.getData beyond xferId sbp) := by
  have xfered : pdp.descsXfered = 0 := Nat.le_zero.mp (served.counted mode).few
  have unlisted : status = [] := List.length_eq_zero_iff.mp served.sized
  have none_left : ¬ 0 < pdp.buf.length := by simp [empty]
  simp only [Transfer.getData, Transfer.sendable, served.held, none_left, if_false, mode,
    served.deref_status, unlisted, Transfer.readStatus, List.getElem?_nil, served.deref_descs, bind,
    Except.bind, xfered, List.length_nil, if_true]
  split
  next =>
    have sends : ∀ before : Transfer, before.pdp = some pdp → before.overreads ≠ [] →
        Ends (fun after => after.overreads ≠ []) (fun _ => False) (before.transferData beyond sbp) := by
      intro before held past
      have sent : Ends (fun after => after.overreads ≠ []) (fun _ => False)
          (before.actualTransferData sbp) := actual_transfer_data_past held served.listed past
      simpa [Transfer.transferData, Transfer.deref, held, mode, served.deref_descs, xfered, bind,
        Except.bind] using sent
    exact sends _ rfl (List.append_ne_nil_of_right_ne_nil _ (List.cons_ne_nil _ _))
  next => exact List.append_ne_nil_of_right_ne_nil _ (List.cons_ne_nil _ _)

/-- The status after the last descriptor is read, and past it the descriptor too if
memory has it on storage. -/
theorem get_chunk_cb_past {errorFree : Prop} {read : SpRead} {data : List UInt8}
    (served : Served errorFree stored t pdp descs status (.reading read) fetched)
    (mode : pdp.xmode = .outOfOrder) (past : PastLast pdp descs read data) :
    Ends (fun after => after.overreads ≠ []) (fun fault => fault = .outOfRange)
      ({ t with reads := [] }.getChunkCb beyond read (.ok data)) := by
  have inside : read.descNo < descs.length :=
    (List.getElem?_eq_some_iff.mp (served.placed read (List.mem_singleton_self _))).1
  have outside : (status.set read.descNo .done)[read.descNo + 1]? = none := by
    rw [List.getElem?_eq_none_iff, List.length_set, served.sized, past.1]
  have unlisted : descs[read.descNo + 1]? = none := by
    rw [List.getElem?_eq_none_iff, past.1]
  simp only [Transfer.getChunkCb, Transfer.deref, served.held, served.deref_descs,
    served.deref_status, bind, Except.bind, if_neg (Nat.not_le.mpr (served.sized ▸ inside)),
    if_pos past.2, Transfer.readStatus, outside, mode, Transfer.getChunk, unlisted]
  split
  next => rfl
  next =>
    refine (actual_transfer_data_past rfl (by exact served.listed) ?_).imp_fault fun _ => False.elim
    exact List.append_ne_nil_of_right_ne_nil _ (List.cons_ne_nil _ _)

/-- A step that is not within the list reads past it. -/
theorem not_in_range_of_past {event : (ℕ → DescStatus) × Event} (stands : Stands False xferId g)
    (asked : AskedInTurn xferId g event.2) (inRange : StepInRange xferId g event) :
    WithinList xferId g event.2 := by
  obtain ⟨beyond, event⟩ := event
  have rejects : ∀ {after : Except Fault Transfer}, event.target = some xferId →
      Ends (fun t => t.overreads ≠ []) (fun fault => fault = .outOfRange) after →
      g.step beyond event = after >>= (fun t => .ok (g.update xferId t)) → False := by
    intro after own past ran
    have reads : Ends (fun g' : Gtcd => StatusInRange (g'.transfers xferId))
      (fun fault => event.target = some xferId → fault ≠ .outOfRange) (g.step beyond event) := inRange
    rw [ran] at reads
    cases after with
    | ok t =>
      have inside := reads.inside
      rw [update_transfers] at inside
      exact past inside
    | error fault => exact reads own past
  cases event with
  | getData sbp id =>
    rintro rfl pdp held mode empty listed
    obtain ⟨descs, fetched, status, hand, served, _⟩ := stands.standing.served_of held (asked rfl).1
    cases served.listed.symm.trans listed
    obtain rfl := served.answered_of (asked rfl).2
    exact rejects rfl ((get_data_past served mode empty).imp_fault fun _ => False.elim) (step_target rfl)
  | getChunkCb id index res =>
    rintro rfl read data pdp descs inFlight rfl held listed mode past
    have opened : (g.transfers id).opening = none := by
      refine stands.standing.opened_of_read fun unread => ?_
      rw [unread] at inFlight
      cases inFlight
    obtain ⟨descs, fetched, status, hand, served, _⟩ := stands.standing.served_of held opened
    cases served.listed.symm.trans listed
    obtain ⟨rfl, emptied⟩ := served.reading_of inFlight
    have reads : Ends (fun after => after.overreads ≠ []) (fun fault => fault = .outOfRange)
        ((g.transfers id).handle beyond g.stored (.getChunkCb id index (.ok data))) := by
      simp only [Transfer.handle, inFlight, emptied]
      exact get_chunk_cb_past served mode past
    exact rejects rfl reads (step_target rfl)
  | _ => trivial

/-! ## Runs -/

/-- **In every run in which the client asks in turn and each step is within the list of
descriptors, the statuses are read in range; and of the steps that can follow, exactly
those within the list read them in range.** -/
theorem in_range_iff_within
    (run : Reaches Gtcd.next (fun g event => AskedInTurn xferId g event.2 ∧ WithinList xferId g event.2)
      (Gtcd.init stored) g) :
    StatusInRange (g.transfers xferId) ∧ ∀ event : (ℕ → DescStatus) × Event,
      AskedInTurn xferId g event.2 → (StepInRange xferId g event ↔ WithinList xferId g event.2) := by
  have stands := reached_stands run
  refine ⟨stands.standing.in_range, fun event asked => ⟨not_in_range_of_past stands asked, fun within => ?_⟩⟩
  refine ((step_of_within stands asked within).imp fun g' stands => stands.standing.in_range).imp_fault ?_
  exact fun fault other own => absurd own other

end

/-- A sequential download of a list of descriptors, up to its answer. -/
def opening (descs : List Descriptor) : List Event :=
  [.getInit 0 [0] ["gtc://peer:12000"] (some .sequential), .getInitCb 1 (.ok (descs, true))]

/-- The state after some events, on an empty storage. -/
def ranOn (events : List Event) : Gtcd :=
  events.foldl (fun g event => (g.next (fun _ => .unknown, event)).getD g) (Gtcd.init fun _ => none)

/-- Events none of which raises lead from one such state to the next. -/
theorem ran_on_next {events : List Event}
    (fine : (events.foldlM (fun (g : Gtcd) event => g.next (fun _ => .unknown, event))
      (Gtcd.init fun _ => none)).isSome) :
    ∀ n event, (events.map fun event => ((fun _ => .unknown : ℕ → DescStatus), event))[n]? = some event →
      Gtcd.next (ranOn (events.take n)) event = some (ranOn (events.take (n + 1))) := by
  intro n event place
  obtain ⟨same, found, rfl⟩ := Option.map_eq_some_iff.mp (List.getElem?_map .. ▸ place)
  exact Runs.step_of_walk fine n same found

theorem opening_run (descs : List Descriptor) {guard : Gtcd → (ℕ → DescStatus) × Event → Prop}
    (admitted : ∀ g event, event ∈ opening descs → guard g (fun _ => .unknown, event)) :
    Reaches Gtcd.next guard (Gtcd.init fun _ => none) (ranOn (opening descs)) := by
  have opened : Reaches Gtcd.next guard (Gtcd.init fun _ => none) (ranOn ((opening descs).take 1)) :=
    Reaches.refl.snoc (fun _ => .unknown, .getInit 0 [0] ["gtc://peer:12000"] (some .sequential))
      (admitted _ _ (List.mem_cons_self ..)) rfl
  refine opened.snoc (fun _ => .unknown, .getInitCb 1 (.ok (descs, true))) ?_ rfl
  exact admitted _ _ (List.mem_cons_of_mem _ (List.mem_singleton_self _))

theorem opening_admitted (descs : List Descriptor) (g : Gtcd) (event : Event)
    (member : event ∈ opening descs) : AskedInTurn 1 g event ∧ WithinList 1 g event := by
  obtain rfl | rfl : event = _ ∨ event = _ := by simpa [opening] using member
  · exact ⟨trivial, trivial⟩
  · exact ⟨trivial, trivial⟩

/-- The first request for an object of one chunk reads a status in range. -/
theorem in_range_iff_within_one :
    StepInRange 1 (ranOn (opening [⟨[1], 1⟩])) (fun _ => .unknown, .getData 1 1) := by
  have run : Reaches Gtcd.next
      (fun g event => AskedInTurn 1 g event.2 ∧ WithinList 1 g event.2) (Gtcd.init fun _ => none)
      (ranOn (opening [⟨[1], 1⟩])) := opening_run _ (opening_admitted _)
  refine ((in_range_iff_within run).2 (fun _ => .unknown, .getData 1 1) fun _ => ⟨rfl, rfl⟩).mpr ?_
  intro _ pdp held _ _ unlisted
  have listed : ((ranOn (opening [⟨[1], 1⟩])).transfers 1).pdp.bind (·.descs) = some [⟨[1], 1⟩] := rfl
  rw [held, Option.bind_some] at listed
  cases listed.symm.trans unlisted

/-- Out of order, the last of two chunks read first. -/
example : ((ranOn [.getInit 0 [0] ["gtc://peer:12000"] (some .outOfOrder),
    .getInitCb 1 (.ok ([⟨[1], 1⟩, ⟨[2], 1⟩], true)), .putIchunk [2] [8], .getData 1 1, .fetchData 1,
    .getChunkCb 1 0 (.ok [8])]).transfers 1).overreads = [2] := rfl

/-- **A request for an empty object reads the status at 0.** -/
theorem not_in_range : ¬ ∀ (stored : List UInt8 → Option (List UInt8)) (xferId : XferId) (g : Gtcd),
    Reaches Gtcd.next (fun g event => AskedInTurn xferId g event.2) (Gtcd.init stored) g →
    StatusInRange (g.transfers xferId) := by
  intro claimed
  have opened : Reaches Gtcd.next (fun g event => AskedInTurn 1 g event.2) (Gtcd.init fun _ => none)
      (ranOn (opening [])) := opening_run _ fun g event member => (opening_admitted _ g event member).1
  have asked := opened.snoc (fun _ => .unknown, .getData 1 1) (fun _ => ⟨rfl, rfl⟩) rfl
  have inside := (claimed _ 1 _ asked).inside
  cases inside

end Ditto.Downloads
