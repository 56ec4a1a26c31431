import Ditto.OutOfOrder

/-! A transfer in either mode and the one request its client has in hand. The
request is answered, parked until a chunk arrives, or waits for a storage read;
what is counted and what is read of the statuses follows from where it is. Where
no error occurs, a sequential transfer copies its descriptors in order. -/
namespace Ditto.Downloads
open XferGtc (Descriptor)
open SendSize (sendSize)
open Outcomes

variable {errorFree : Prop} {stored more : List UInt8 → Option (List UInt8)}
  {t : Transfer} {pdp : XferData} {descs : List Descriptor} {status : List DescStatus}
  {beyond : ℕ → DescStatus} {sbp : Sbp} {fetched : Bool}

/-! ## The request in hand -/

/-- Where the one request of a client is. Out of order an arrival can drop it. -/
inductive Hand where
  | answered
  | parked (sbp : Sbp)
  | reading (read : SpRead)
  | dropped
  | handled

namespace Hand

/-- The storage read that the request waits for. -/
def reads : Hand → List SpRead
  | .reading read => [read]
  | _ => []

/-- The continuation that is parked for the request. -/
def xcb : Hand → Option Sbp
  | .parked sbp => some sbp
  | _ => none

/-- The requests without a reply. -/
def unanswered : Hand → ℕ
  | .answered => 0
  | _ => 1

/-- What a sequential transfer has left where its request is. -/
def Left (pdp : XferData) (size : ℕ) : Hand → Prop
  | .answered => size = 0 ∨ pdp.descsXfered < size ∨ pdp.buf ≠ []
  | .parked _ => pdp.descsXfered < size
  | .reading read => read.descNo = pdp.descsXfered
  | .dropped => False
  | .handled => True

theorem eq_parked {hand : Hand} (parked : hand.xcb = some sbp) : hand = .parked sbp := by
  cases hand with
  | parked sbp' =>
    cases parked
    rfl
  | _ => cases parked

end Hand

/-- The counts of a sequential transfer. -/
structure Counted (pdp : XferData) (descs : List Descriptor) (hand : Hand) : Prop where
  count : pdp.descsCount = pdp.descsXfered + hand.reads.length
  few : pdp.descsXfered ≤ descs.length
  left : hand.Left pdp descs.length

/-- The chunks copied are the stored ones of the first descriptors, in order. -/
structure CopiedInOrder (stored : List UInt8 → Option (List UInt8)) (descs : List Descriptor)
    (copied : List (ℕ × List UInt8)) (count : ℕ) : Prop where
  order : copied.map Prod.fst = List.range count
  right : ∀ copy ∈ copied, ∃ d, descs[copy.1]? = some d ∧ stored d.id = some copy.2

/-- A sequential transfer in which no error has occurred. -/
structure Sound (stored : List UInt8 → Option (List UInt8)) (t : Transfer) (pdp : XferData)
    (descs : List Descriptor) : Prop where
  mode : pdp.xmode = .sequential
  fine : pdp.err = none
  bytes : t.delivered ++ pdp.buf = t.copiedBytes
  copies : CopiedInOrder stored descs t.copied pdp.descsXfered
  unended : ∀ reply ∈ t.replies, ¬ EndsTransfer reply.2

/-- A sequential transfer that has delivered its object. -/
structure Finished (stored : List UInt8 → Option (List UInt8)) (t : Transfer)
    (descs : List Descriptor) : Prop where
  bytes : t.delivered = t.copiedBytes
  copies : CopiedInOrder stored descs t.copied descs.length
  ended : ∃ reply ∈ t.replies, EndsTransfer reply.2

/-- A fetch is due only while a request is parked, and after it no other is. -/
def Fetch (t : Transfer) (pdp : XferData) (hand : Hand) : Bool → Prop
  | false => t.requested = [] ∧ (t.scheduled ≠ 0 →
      t.scheduled = 1 ∧ pdp.fetching = true ∧ ∃ sbp, hand = .parked sbp)
  | true => pdp.fetching = true ∧ t.scheduled = 0

/-- A transfer in the table, with its request in hand. -/
structure Served (errorFree : Prop) (stored : List UInt8 → Option (List UInt8)) (t : Transfer)
    (pdp : XferData) (descs : List Descriptor) (status : List DescStatus) (hand : Hand)
    (fetched : Bool) : Prop where
  held : t.pdp = some pdp
  opened : t.opening = none
  listed : pdp.descs = some descs
  known : pdp.descsStatus = some status
  sized : status.length = descs.length
  hinted : ∃ hints, pdp.hints = some hints
  inside : t.overreads = []
  turn : t.gets.length = t.replies.length + hand.unanswered
  reads : t.reads = hand.reads
  placed : ∀ read ∈ hand.reads, descs[read.descNo]? = some read.desc
  parked : pdp.xcb = hand.xcb
  fetch : Fetch t pdp hand fetched
  counted : pdp.xmode = .sequential → Counted pdp descs hand
  sound : errorFree → Sound stored t pdp descs

/-- A transfer that is not in the table, with nothing in flight that needs it. -/
structure Gone (t : Transfer) : Prop where
  absent : t.pdp = none
  opened : t.opening = none
  unread : t.reads = []
  undue : t.scheduled = 0
  inside : t.overreads = []

/-- What a handler leaves of a transfer: it is in the table with its request in hand,
or it is gone, and where no error occurred it has delivered its object. -/
inductive Moved (errorFree : Prop) (stored : List UInt8 → Option (List UInt8))
    (descs : List Descriptor) (fetched : Bool) (t : Transfer) : Prop
  | stays (pdp : XferData) (status : List DescStatus) (hand : Hand)
      (served : Served errorFree stored t pdp descs status hand fetched)
      (handled : hand ≠ .handled)
  | leaves (gone : Gone t) (finished : errorFree → Finished stored t descs)

theorem CopiedInOrder.extend {copied : List (ℕ × List UInt8)} {count : ℕ}
    (copies : CopiedInOrder stored descs copied count) (extended : Extends more stored) :
    CopiedInOrder more descs copied count where
  order := copies.order
  right := fun copy member => by
    obtain ⟨d, place, holds⟩ := copies.right copy member
    exact ⟨d, place, extended _ _ holds⟩

theorem CopiedInOrder.copy {copied : List (ℕ × List UInt8)} {count : ℕ} {d : Descriptor}
    {data : List UInt8} (copies : CopiedInOrder stored descs copied count)
    (place : descs[count]? = some d) (chunk : stored d.id = some data) :
    CopiedInOrder stored descs (copied ++ [(count, data)]) (count + 1) where
  order := by rw [List.map_append, copies.order, List.map_singleton, List.range_succ]
  right := fun copy member => by
    obtain old | new := List.mem_append.mp member
    · exact copies.right copy old
    · rw [List.mem_singleton.mp new]
      exact ⟨d, place, chunk⟩

theorem Moved.extend (moved : Moved errorFree stored descs fetched t) (extended : Extends more stored) :
    Moved errorFree more descs fetched t := by
  cases moved with
  | stays pdp status hand served handled =>
    refine .stays pdp status hand { served with sound := fun free => ?_ } handled
    exact { served.sound free with copies := (served.sound free).copies.extend extended }
  | leaves gone finished =>
    refine .leaves gone fun free => ?_
    exact { finished free with copies := (finished free).copies.extend extended }

theorem Moved.request (moved : Moved errorFree stored descs true t) (requested : List Descriptor) :
    Moved errorFree stored descs true { t with requested := requested } := by
  cases moved with
  | stays pdp status hand served handled =>
    refine .stays pdp status hand ?_ handled
    exact { served with sound := fun free => { served.sound free with } }
  | leaves gone finished => exact .leaves { gone with } fun free => { finished free with }

/-! ## The handlers -/

namespace Served

variable {hand : Hand}

theorem deref (served : Served errorFree stored t pdp descs status hand fetched) : t.deref = .ok pdp := by
  rw [Transfer.deref, served.held]

theorem deref_descs (served : Served errorFree stored t pdp descs status hand fetched) :
    Transfer.derefMember pdp.descs = .ok descs := by
  rw [served.listed, Transfer.derefMember]

theorem deref_status (served : Served errorFree stored t pdp descs status hand fetched) :
    Transfer.derefMember pdp.descsStatus = .ok status := by
  rw [served.known, Transfer.derefMember]

/-- No fetch is due while a request is in hand that is not parked. -/
theorem undue (served : Served errorFree stored t pdp descs status hand fetched)
    (unparked : ∀ sbp, hand ≠ .parked sbp) : t.scheduled = 0 := by
  cases fetched with
  | false =>
    by_contra due
    obtain ⟨_, _, sbp, parked⟩ := served.fetch.2 due
    exact unparked sbp parked
  | true => exact served.fetch.2

/-- A request that is not parked goes on without a fetch. -/
theorem fetch_on (served : Served errorFree stored t pdp descs status hand fetched)
    (unparked : ∀ sbp, hand ≠ .parked sbp) (hand' : Hand) : Fetch t pdp hand' fetched := by
  have undue := served.undue unparked
  cases fetched with
  | false => exact ⟨served.fetch.1, fun due => absurd undue due⟩
  | true => exact served.fetch

/-- A reply that takes the transfer out of the table. -/
theorem leaves (served : Served errorFree stored t pdp descs status .handled fetched) {ops : List SpOp}
    {res : Except String GetDataOk}
    (finished : errorFree → EndsTransfer res ∧ replyData res = pdp.buf ∧
      pdp.descsXfered = descs.length) :
    Moved errorFree stored descs fetched { t.reply sbp res with spOps := ops, pdp := none } := by
  refine .leaves ⟨rfl, served.opened, served.reads, served.undue fun _ => nofun, served.inside⟩
    fun free => ?_
  obtain ⟨ended, all, full⟩ := finished free
  have sound := served.sound free
  constructor
  case bytes =>
    rw [Transfer.delivered_append rfl, all]
    exact sound.bytes
  case copies => exact full ▸ sound.copies
  case ended => exact ⟨(sbp, res), List.mem_append_right _ (List.mem_singleton_self _), ended⟩

/-- A reply that leaves the transfer in the table. -/
theorem answers (served : Served errorFree stored t pdp descs status .handled fetched) {ok : GetDataOk}
    {rest : List UInt8} {offset : ℤ} (unended : ok.ended = false) (cut : ok.data ++ rest = pdp.buf)
    (left : pdp.descsXfered ≠ descs.length ∨ rest ≠ []) :
    Moved errorFree stored descs fetched { t.reply sbp (.ok ok) with
      pdp := some { pdp with bufOffset := offset, buf := rest } } := by
  refine .stays { pdp with bufOffset := offset, buf := rest } status .answered ?_ fun same => by cases same
  constructor
  case held => rfl
  case opened => exact served.opened
  case listed => exact served.listed
  case known => exact served.known
  case sized => exact served.sized
  case hinted => exact served.hinted
  case inside => exact served.inside
  case turn =>
    simp only [Transfer.reply, List.length_append, List.length_singleton]
    exact served.turn
  case reads => exact served.reads
  case placed => exact served.placed
  case parked => exact served.parked
  case fetch => exact served.fetch_on (fun _ same => by cases same) _
  case counted =>
    intro mode
    have counted := served.counted mode
    refine ⟨counted.count, counted.few, ?_⟩
    obtain short | more := left
    · exact .inr (.inl (Nat.lt_of_le_of_ne counted.few short))
    · exact .inr (.inr more)
  case sound =>
    intro free
    have sound := served.sound free
    refine ⟨sound.mode, sound.fine, ?_, sound.copies, ?_⟩
    · rw [Transfer.delivered_append rfl]
      calc t.delivered ++ ok.data ++ rest = t.delivered ++ pdp.buf := by
            rw [List.append_assoc, cut]
        _ = t.copiedBytes := sound.bytes
    · intro reply member
      obtain old | new := List.mem_append.mp member
      · exact sound.unended reply old
      · rw [List.mem_singleton.mp new]
        rintro ⟨ok', same, last⟩
        cases same
        cases unended.symm.trans last

/-- A storage read of a descriptor, in sequential mode the next one. -/
theorem reading (served : Served errorFree stored t pdp descs status .handled fetched) {i count : ℕ}
    {offset : ℤ} {d : Descriptor} (place : descs[i]? = some d)
    (next : pdp.xmode = .sequential → i = pdp.descsXfered ∧ count = pdp.descsXfered + 1) :
    Moved errorFree stored descs fetched { t with
      pdp := some { pdp with descsCount := count }
      reads := t.reads ++ [⟨sbp, i, offset, d⟩] } := by
  refine .stays { pdp with descsCount := count } status (.reading ⟨sbp, i, offset, d⟩) ?_ nofun
  exact { served with
    held := rfl
    reads := by
      rw [served.reads]
      rfl
    placed := by
      intro read member
      rw [List.mem_singleton.mp member]
      exact place
    fetch := served.fetch_on (fun _ => nofun) _
    counted := fun mode => {
      count := (next mode).2
      few := (served.counted mode).few
      left := (next mode).1 }
    sound := fun free => { served.sound free with } }

end Served

theorem get_chunk_moves (served : Served errorFree stored t pdp descs status .handled fetched) {i count : ℕ}
    {offset : ℤ} (inside : i < descs.length)
    (next : pdp.xmode = .sequential → i = pdp.descsXfered ∧ count = pdp.descsXfered + 1) :
    Ends (Moved errorFree stored descs fetched) (fun _ => False)
      ({ t with pdp := some { pdp with descsCount := count } }.getChunk sbp descs i offset) := by
  simp only [Transfer.getChunk, List.getElem?_eq_getElem inside]
  exact served.reading (List.getElem?_eq_getElem inside) next

/-- A status read inside the vector. -/
theorem read_status_at {i : ℕ} (inside : i < status.length) :
    t.readStatus beyond status i = (status[i], t) := by
  simp only [Transfer.readStatus, List.getElem?_eq_getElem inside]

theorem Served.count (served : Served errorFree stored t pdp descs status .handled fetched)
    (mode : pdp.xmode = .sequential) : pdp.descsCount = pdp.descsXfered :=
  (served.counted mode).count

/-- A parked sequential request waits for a chunk of the list. -/
theorem Served.parked_inside (served : Served errorFree stored t pdp descs status (.parked sbp) fetched)
    (mode : pdp.xmode = .sequential) : pdp.descsCount < status.length := by
  have left : pdp.descsXfered < descs.length := (served.counted mode).left
  have count : pdp.descsCount = pdp.descsXfered := (served.counted mode).count
  rw [count, served.sized]
  exact left

/-- A request is dropped out of order. -/
theorem Served.drop (served : Served errorFree stored t pdp descs status .handled fetched)
    (mode : pdp.xmode = .outOfOrder) : Moved errorFree stored descs fetched t := by
  refine .stays pdp status .dropped ?_ nofun
  exact { served with
    fetch := served.fetch_on (fun _ => nofun) _
    counted := fun sequential => by cases mode.symm.trans sequential }

/-- The one read in flight is copied. -/
theorem Served.copied {read : SpRead} (served : Served errorFree stored t pdp descs status (.reading read) fetched)
    {data : List UInt8} (chunk : errorFree → stored read.desc.id = some data) (offset : ℤ) :
    let pdp' := { pdp with
      buf := pdp.buf ++ data
      descsStatus := some (status.set read.descNo .done)
      descsXfered := pdp.descsXfered + 1
      bufOffset := offset }
    Served errorFree stored
      { t with reads := [], copied := t.copied ++ [(read.descNo, data)], pdp := some pdp' }
      pdp' descs (status.set read.descNo .done) .handled fetched := by
  have place := served.placed read (List.mem_singleton_self _)
  exact { served with
    held := rfl
    known := rfl
    sized := by rw [List.length_set, served.sized]
    reads := rfl
    placed := fun _ member => absurd member List.not_mem_nil
    fetch := served.fetch_on (fun _ => nofun) _
    counted := fun mode => {
      count := (served.counted mode).count
      few := by
        have next : read.descNo = pdp.descsXfered := (served.counted mode).left
        exact next ▸ (List.getElem?_eq_some_iff.mp place).1
      left := trivial }
    sound := fun free => by
      have sound := served.sound free
      have next : read.descNo = pdp.descsXfered := (served.counted sound.mode).left
      refine ⟨sound.mode, sound.fine, ?_, ?_, sound.unended⟩
      · have bytes : t.delivered ++ pdp.buf = t.copiedBytes := sound.bytes
        simp only [Transfer.copiedBytes, List.flatMap_append, List.flatMap_singleton] at bytes ⊢
        rw [← bytes, List.append_assoc]
        rfl
      · rw [next]
        exact sound.copies.copy (next ▸ place) (chunk free) }

/-- A request comes in when the one before is answered. -/
theorem Served.ask (served : Served errorFree stored t pdp descs status .answered fetched)
    (sbp : Sbp) : Served errorFree stored { t with pdp := some pdp, gets := t.gets ++ [sbp] } pdp descs
      status .handled fetched :=
  { served with
    held := rfl
    turn := by
      rw [List.length_append, served.turn]
      rfl
    fetch := served.fetch_on (fun _ => nofun) _
    counted := fun mode => { served.counted mode with left := trivial }
    sound := fun free => { served.sound free with } }

/-- A sequential transfer that can send nothing has a descriptor left. -/
theorem Served.unsent (served : Served errorFree stored t pdp descs status .answered fetched)
    (mode : pdp.xmode = .sequential) (listed : descs ≠ []) (empty : pdp.buf = []) :
    pdp.descsCount = pdp.descsXfered ∧ pdp.descsXfered < descs.length := by
  refine ⟨(served.counted mode).count, ?_⟩
  obtain none_listed | left | more := (served.counted mode).left
  · exact absurd (List.length_eq_zero_iff.mp none_listed) listed
  · exact left
  · exact absurd empty more

/-- A request is parked, and the first that is sets the fetch off. -/
theorem Served.park (served : Served errorFree stored t pdp descs status .handled fetched) (sbp : Sbp)
    (left : pdp.xmode = .sequential → pdp.descsXfered < descs.length) :
    Moved errorFree stored descs fetched (if pdp.fetching then
      { t with pdp := some { pdp with xcb := some sbp } }
    else { t with
      pdp := some { pdp with fetching := true, xcb := some sbp }
      scheduled := t.scheduled + 1 }) := by
  have undue := served.undue fun _ => nofun
  split
  next fetching =>
    refine .stays { pdp with xcb := some sbp } status (.parked sbp) ?_ nofun
    exact { served with
      held := rfl
      parked := rfl
      fetch := served.fetch_on (fun _ => nofun) _
      counted := fun mode => { served.counted mode with left := left mode }
      sound := fun free => { served.sound free with } }
  next idle =>
    refine .stays { pdp with fetching := true, xcb := some sbp } status (.parked sbp) ?_ nofun
    exact { served with
      held := rfl
      parked := rfl
      fetch := by
        cases fetched with
        | false => exact ⟨served.fetch.1, fun _ => ⟨by rw [undue], rfl, sbp, rfl⟩⟩
        | true => exact absurd served.fetch.1 idle
      counted := fun mode => { served.counted mode with left := left mode }
      sound := fun free => { served.sound free with } }

/-- What `get_data` finds out, with no status read past the vector. -/
theorem Served.sendable (served : Served errorFree stored t pdp descs status .answered fetched)
    (within : pdp.xmode = .sequential → pdp.buf = [] → descs ≠ []) (beyond : ℕ → DescStatus)
    (sbp : Sbp) : ∃ ready, { t with gets := t.gets ++ [sbp] }.sendable beyond pdp =
        .ok (ready, { t with gets := t.gets ++ [sbp] }) ∧
      (ready = false → pdp.xmode = .sequential → pdp.descsXfered < descs.length) := by
  unfold Transfer.sendable
  split
  next => exact ⟨true, rfl, nofun⟩
  next none_left =>
    have empty : pdp.buf = [] := List.length_eq_zero_iff.mp (Nat.eq_zero_of_not_pos none_left)
    split
    next mode => exact ⟨false, rfl, fun _ sequential => by cases mode.symm.trans sequential⟩
    next mode =>
      obtain ⟨count, left⟩ := served.unsent mode (within mode empty) empty
      simp only [served.deref_status, bind, Except.bind]
      rw [read_status_at (by rw [count, served.sized]; exact left)]
      exact ⟨_, rfl, fun _ _ => left⟩

theorem Served.available (served : Served errorFree stored t pdp descs status .answered fetched) :
    ∃ found, Transfer.available pdp descs = .ok found := by
  unfold Transfer.available
  split
  · exact ⟨false, rfl⟩
  · simp only [served.deref_status, bind, Except.bind]
    split
    · exact ⟨false, rfl⟩
    · exact ⟨_, rfl⟩

variable [SendSize]

theorem actual_transfer_data_moves (served : Served errorFree stored t pdp descs status .handled fetched) :
    Ends (Moved errorFree stored descs fetched) (fun _ => False) (t.actualTransferData sbp) := by
  simp only [Transfer.actualTransferData, served.deref, served.deref_descs, bind, Except.bind]
  split
  next err failed =>
    exact served.leaves fun free => by cases (served.sound free).fine.symm.trans failed
  next =>
    split_ifs with short full
    · exact served.leaves fun _ => ⟨⟨_, rfl, rfl⟩, rfl, full⟩
    · exact served.answers rfl (List.append_nil _) (.inl full)
    · refine served.answers rfl (List.take_append_drop ..) (.inr fun empty => ?_)
      exact short (List.drop_eq_nil_iff.mp empty)

theorem transfer_data_moves (served : Served errorFree stored t pdp descs status .handled fetched) :
    Ends (Moved errorFree stored descs fetched) (fun _ => False) (t.transferData beyond sbp) := by
  have sends : Ends (Moved errorFree stored descs fetched) (fun _ => False)
      (t.actualTransferData sbp) := actual_transfer_data_moves served
  simp only [Transfer.transferData, served.deref, served.deref_descs, served.deref_status, bind,
    Except.bind]
  split
  · exact sends
  split
  next mode =>
    have count := served.count mode
    split
    next short =>
      split
      next left =>
        have inside : pdp.descsCount < descs.length :=
          count ▸ Nat.lt_of_le_of_ne (served.counted mode).few left
        rw [read_status_at (served.sized ▸ inside)]
        dsimp only
        split
        next => exact get_chunk_moves served inside fun _ => ⟨count, congrArg (· + 1) count⟩
        next => exact sends
      next => exact sends
    next => exact sends
  next mode =>
    split_ifs
    · exact sends
    · exact served.drop mode
    · split
      next i found =>
        have inside : i < status.length :=
          (List.getElem?_eq_some_iff.mp (first_on_storage_some found)).1
        have reads : ∀ offset, Ends (Moved errorFree stored descs fetched) (fun _ => False)
            ({ t with pdp := some pdp }.getChunk sbp descs i offset) :=
          fun offset => get_chunk_moves served (served.sized ▸ inside) fun sequential => by
            cases mode.symm.trans sequential
        rw [← served.held] at reads
        exact reads _
      next => exact served.drop mode

theorem resume_xcb_moves (served : Served errorFree stored t pdp descs status (.parked sbp) true) :
    Ends (Moved errorFree stored descs true) (fun _ => False) (t.resumeXcb beyond pdp sbp) := by
  have resumed : Served errorFree stored { t with pdp := some { pdp with xcb := none } }
      { pdp with xcb := none } descs status .handled true :=
    { served with
      held := rfl
      parked := rfl
      counted := fun mode => { served.counted mode with left := trivial }
      sound := fun free => { served.sound free with } }
  exact transfer_data_moves resumed

/-! ## A storage read comes back -/

/-- A chunk read out of turn is the last one, leaves the buffer short, and does not
complete the transfer: the status after it is past the vector. -/
def PastLast (pdp : XferData) (descs : List Descriptor) (read : SpRead) (data : List UInt8) : Prop :=
  read.descNo + 1 = descs.length ∧ (pdp.buf ++ data).length < sendSize ∧
    pdp.descsXfered + 1 ≠ descs.length

theorem get_chunk_cb_moves {read : SpRead}
    (served : Served errorFree stored t pdp descs status (.reading read) fetched)
    {res : Except String (List UInt8)}
    (chunk : errorFree → ∃ data, res = .ok data ∧ stored read.desc.id = some data)
    (within : ∀ data, res = .ok data → pdp.xmode = .outOfOrder → ¬ PastLast pdp descs read data) :
    Ends (Moved errorFree stored descs fetched) (fun _ => False)
      ({ t with reads := [] }.getChunkCb beyond read res) := by
  simp only [Transfer.getChunkCb, Transfer.deref, served.held, served.deref_descs,
    served.deref_status, bind, Except.bind]
  split
  next s =>
    refine .leaves ⟨rfl, served.opened, rfl, served.undue (fun _ same => by cases same), served.inside⟩
      fun free => ?_
    obtain ⟨data, same, _⟩ := chunk free
    cases same
  next data =>
    have inside : read.descNo < descs.length :=
      (List.getElem?_eq_some_iff.mp (served.placed read (List.mem_singleton_self _))).1
    have found : errorFree → stored read.desc.id = some data := fun free => by
      obtain ⟨_, same, stored⟩ := chunk free
      cases same
      exact stored
    rw [if_neg (Nat.not_le.mpr (served.sized ▸ inside))]
    generalize (if 0 ≤ read.offset then int32 read.offset else pdp.bufOffset) = offset
    have served' := served.copied found offset
    have sends := @actual_transfer_data_moves _ _ _ _ _ _ read.sbp _ _ served'
    split
    next short =>
      have next : read.descNo + 1 < descs.length := by
        refine Nat.lt_of_le_of_ne inside fun last => ?_
        cases mode : pdp.xmode with
        | sequential =>
          have next : read.descNo = pdp.descsXfered := (served.counted mode).left
          exact short.2 (next ▸ last)
        | outOfOrder => exact within data rfl mode ⟨last, short⟩
      rw [read_status_at (by rw [List.length_set, served.sized]; exact next)]
      dsimp only
      split
      next =>
        split
        next mode =>
          have descNo : read.descNo = pdp.descsXfered := (served.counted mode).left
          have count : pdp.descsCount = read.descNo + 1 := by
            rw [descNo]
            exact (served.counted mode).count
          rw [if_neg (not_not.mpr count)]
          exact get_chunk_moves served' next fun _ => ⟨by rw [descNo], by rw [count, descNo]⟩
        next mode =>
          exact get_chunk_moves served' next fun sequential => by cases mode.symm.trans sequential
      next => exact sends
    next => exact sends

/-! ## The fetch and the arrivals -/

theorem resume_fetched_moves (served : Served errorFree stored t pdp descs status (.parked sbp) true) :
    Ends (Moved errorFree stored descs true) (fun _ => False) (t.resumeFetched beyond pdp status) := by
  have waits : Moved errorFree stored descs true t := .stays pdp status (.parked sbp) served nofun
  unfold Transfer.resumeFetched
  split
  next => exact waits
  next sbp' parked mode =>
    cases served.parked.symm.trans parked
    rw [read_status_at (served.parked_inside mode)]
    dsimp only
    split
    · exact resume_xcb_moves served
    · exact waits
  next sbp' parked mode =>
    cases served.parked.symm.trans parked
    split
    · exact resume_xcb_moves served
    · exact waits

theorem fetch_data_moves (served : Served errorFree stored t pdp descs status (.parked sbp) false)
    (due : t.scheduled ≠ 0) (held : Descriptor → Bool) :
    Ends (Moved errorFree stored descs true) (fun _ => False)
      ({ t with scheduled := t.scheduled - 1 }.fetchData beyond held) := by
  obtain ⟨once, fetching, _⟩ := served.fetch.2 due
  obtain ⟨hints, hinted⟩ := served.hinted
  have fetched : ∀ ops, Served errorFree stored
      { t with
        scheduled := t.scheduled - 1
        pdp := some { pdp with
          descsStatus := some (descs.map fun d => if held d then DescStatus.onStorage else .requested) }
        spOps := ops }
      { pdp with
        descsStatus := some (descs.map fun d => if held d then DescStatus.onStorage else .requested) }
      descs (descs.map fun d => if held d then DescStatus.onStorage else .requested) (.parked sbp)
      true := fun ops =>
    { served with
      held := rfl
      known := rfl
      sized := List.length_map ..
      fetch := ⟨fetching, by simp only [once, Nat.sub_self]⟩
      counted := fun mode => { served.counted mode with }
      sound := fun free => { served.sound free with } }
  simp only [Transfer.fetchData, Transfer.deref, served.held, served.deref_descs,
    served.deref_status, Except.bind, bind]
  split
  next fault failed => exact (resume_fetched_moves (fetched _)).of_error failed
  next after ran =>
    have moved := (resume_fetched_moves (fetched _)).of_ok ran
    split
    · exact moved
    · simp only [hinted, Transfer.derefMember]
      exact moved.request _

theorem resume_arrived_moves {hand : Hand} (handled : hand ≠ .handled)
    (served : Served errorFree stored t pdp descs status hand true) :
    Ends (Moved errorFree stored descs true) (fun _ => False) (t.resumeArrived beyond pdp status) := by
  have waits : Moved errorFree stored descs true t := .stays pdp status hand served handled
  unfold Transfer.resumeArrived
  split
  next => exact waits
  next sbp parked mode =>
    obtain rfl := Hand.eq_parked (served.parked.symm.trans parked)
    exact resume_xcb_moves served
  next sbp parked mode =>
    obtain rfl := Hand.eq_parked (served.parked.symm.trans parked)
    rw [read_status_at (served.parked_inside mode)]
    dsimp only
    split
    · exact resume_xcb_moves served
    · exact waits

theorem xp_fetch_data_cb_moves {hand : Hand} (handled : hand ≠ .handled)
    (served : Served errorFree stored t pdp descs status hand true)
    {res : Except String (Descriptor × List UInt8)}
    (filled : errorFree → ∃ d data, res = .ok (d, data) ∧ data ≠ []) (rest : List Descriptor) :
    Ends (Moved errorFree stored descs true) (fun _ => False)
      ({ t with requested := rest }.xpFetchDataCb beyond res) := by
  have noted : ∀ err, (errorFree → False) → Served errorFree stored
      { t with requested := rest, pdp := some { pdp with err := some err } }
      { pdp with err := some err } descs status hand true := fun err never =>
    { served with
      held := rfl
      counted := fun mode => { served.counted mode with }
      sound := fun free => (never free).elim }
  have told : ∀ err sbp, (errorFree → False) → pdp.xcb = some sbp →
      Ends (Moved errorFree stored descs true) (fun _ => False)
        ({ t with requested := rest }.resumeXcb beyond { pdp with err := some err } sbp) := by
    intro err sbp never parked
    obtain rfl := Hand.eq_parked (served.parked.symm.trans parked)
    exact resume_xcb_moves (t := { t with
      requested := rest, pdp := some { pdp with err := some err } }) (noted err never)
  simp only [Transfer.xpFetchDataCb, served.held, served.deref_descs, served.deref_status,
    Except.bind, bind]
  split
  next s =>
    have never : errorFree → False := fun free => by
      obtain ⟨_, _, same, _⟩ := filled free
      cases same
    split
    next sbp parked => exact told s sbp never parked
    next => exact .stays _ status hand (noted s never) handled
  next =>
    have never : errorFree → False := fun free => by
      obtain ⟨_, _, same, some_data⟩ := filled free
      cases same
      exact some_data rfl
    split
    next sbp parked => exact told _ sbp never parked
    next => exact .stays _ status hand (noted _ never) handled
  next desc data _ =>
    have arrived : ∀ ops, Served errorFree stored
        { t with
          requested := rest
          pdp := some { pdp with descsStatus := some (Transfer.arrive desc.id descs status).1 }
          spOps := ops }
        { pdp with descsStatus := some (Transfer.arrive desc.id descs status).1 } descs
        (Transfer.arrive desc.id descs status).1 hand true := fun ops =>
      { served with
        held := rfl
        known := rfl
        sized := by rw [arrive_length, served.sized]
        counted := fun mode => { served.counted mode with }
        sound := fun free => { served.sound free with } }
    exact resume_arrived_moves handled (arrived _)

/-! ## A request of the client -/

theorem get_data_moves (served : Served errorFree stored t pdp descs status .answered fetched)
    (within : pdp.xmode = .sequential → pdp.buf = [] → descs ≠ []) (xferId : XferId) :
    Ends (Moved errorFree stored descs fetched) (fun _ => False)
      ({ t with gets := t.gets ++ [sbp] }.getData beyond xferId sbp) := by
  have asked := served.ask sbp
  obtain ⟨ready, sendable, left⟩ := served.sendable within beyond sbp
  obtain ⟨found, available⟩ := served.available
  have sends : Ends (Moved errorFree stored descs fetched) (fun _ => False)
      ({ t with pdp := some pdp, gets := t.gets ++ [sbp] }.transferData beyond sbp) :=
    transfer_data_moves asked
  simp only [served.held] at sendable
  simp only [Transfer.getData, served.held, sendable, served.deref_descs, available, bind,
    Except.bind]
  split
  next => exact sends
  next unready =>
    have left := left (Bool.eq_false_iff.mpr unready)
    split
    next full =>
      refine asked.leaves fun free => ?_
      exact absurd full (Nat.ne_of_lt (left (served.sound free).mode))
    split
    next => exact sends
    next =>
      have parks := asked.park sbp left
      split
      next fetching => rwa [if_pos fetching] at parks
      next idle => rwa [if_neg idle] at parks

end Ditto.Downloads
