import Ditto.TransferService

/-! A transfer over the runs of a `gtcd`, in either mode: opened, in the table with
one request in hand, and gone. The steps of other transfers leave it alone, and
what the storage has it keeps. -/
namespace Ditto.Downloads
open XferGtc (Descriptor)
open Outcomes Runs

variable {errorFree : Prop} {stored more : List UInt8 → Option (List UInt8)}
  {t after : Transfer} {pdp : XferData} {descs : List Descriptor} {status : List DescStatus}
  {fetched : Bool} {beyond : ℕ → DescStatus} {sbp : Sbp} {g g' : Gtcd} {xferId : XferId}

/-! ## The handlers of a transfer -/

/-- The client has its reply. -/
theorem Served.answered_of {hand : Hand} (served : Served errorFree stored t pdp descs status hand fetched)
    (answered : t.gets.length = t.replies.length) : hand = .answered := by
  have turn := served.turn
  cases hand with
  | answered => rfl
  | _ => exact absurd (turn.symm.trans answered) (Nat.succ_ne_self _)

/-- The one read in flight. -/
theorem Served.reading_of {hand : Hand} (served : Served errorFree stored t pdp descs status hand fetched)
    {index : ℕ} {read : SpRead} (inFlight : t.reads[index]? = some read) :
    hand = .reading read ∧ t.reads.eraseIdx index = [] := by
  rw [served.reads] at inFlight ⊢
  cases hand with
  | reading read' =>
    cases index with
    | zero =>
      cases inFlight
      exact ⟨rfl, rfl⟩
    | succ index => cases inFlight
  | _ => cases inFlight

/-- A transfer of a descriptor list that is in the table or gone. -/
def Kept (errorFree : Prop) (stored : List UInt8 → Option (List UInt8)) (descs : List Descriptor)
    (t : Transfer) : Prop :=
  ∃ fetched, Moved errorFree stored descs fetched t

theorem Kept.extend (kept : Kept errorFree stored descs t) (extended : Extends more stored) :
    Kept errorFree more descs t := by
  obtain ⟨fetched, moved⟩ := kept
  exact ⟨fetched, moved.extend extended⟩

theorem Kept.opened (kept : Kept errorFree stored descs t) : t.opening = none := by
  obtain ⟨fetched, moved⟩ := kept
  cases moved with
  | stays pdp status hand served handled => exact served.opened
  | leaves gone finished => exact gone.opened

theorem Ends.kept {result : Except Fault Transfer}
    (ends : Ends (Moved errorFree stored descs fetched) (fun _ => False) result) :
    Ends (Kept errorFree stored descs) (fun _ => False) result :=
  ends.imp fun _ moved => ⟨fetched, moved⟩

/-- A request for a transfer that is gone is refused. -/
theorem Gone.refused (gone : Gone t) (sbp : Sbp) (text : String) :
    Gone ({ t with gets := t.gets ++ [sbp] }.reply sbp (.error text)) :=
  { gone with }

theorem Finished.refused (finished : Finished stored t descs) (sbp : Sbp) (text : String) :
    Finished stored ({ t with gets := t.gets ++ [sbp] }.reply sbp (.error text)) descs where
  bytes := by
    rw [Transfer.delivered_append (t := t) rfl]
    exact (List.append_nil _).trans finished.bytes
  copies := finished.copies
  ended := by
    obtain ⟨reply, member, ended⟩ := finished.ended
    exact ⟨reply, List.mem_append_left _ member, ended⟩

section
variable [SendSize]

theorem Kept.get_data (kept : Kept errorFree stored descs t)
    (answered : t.gets.length = t.replies.length)
    (within : ∀ pdp, t.pdp = some pdp → pdp.xmode = .sequential → pdp.buf = [] →
      pdp.descs ≠ some []) :
    Ends (Kept errorFree stored descs) (fun _ => False)
      ({ t with gets := t.gets ++ [sbp] }.getData beyond xferId sbp) := by
  obtain ⟨fetched, moved⟩ := kept
  cases moved with
  | stays pdp status hand served handled =>
    obtain rfl := served.answered_of answered
    refine Ends.kept (get_data_moves served (fun mode empty none_listed => ?_) xferId)
    exact within pdp served.held mode empty (none_listed ▸ served.listed)
  | leaves gone finished =>
    simp only [Transfer.getData, gone.absent]
    have refused := gone.refused sbp ("unknown transfer id: " ++ toString xferId)
    have still : errorFree → Finished stored _ descs := fun free =>
      (finished free).refused sbp ("unknown transfer id: " ++ toString xferId)
    simp only [gone.absent] at refused still
    exact ⟨fetched, .leaves refused still⟩

theorem Kept.fetch_data (kept : Kept errorFree stored descs t) (due : t.scheduled ≠ 0)
    (held : Descriptor → Bool) :
    Ends (Kept errorFree stored descs) (fun _ => False)
      ({ t with scheduled := t.scheduled - 1 }.fetchData beyond held) := by
  obtain ⟨fetched, moved⟩ := kept
  cases moved with
  | stays pdp status hand served handled =>
    cases fetched with
    | false =>
      obtain ⟨_, _, sbp, rfl⟩ := served.fetch.2 due
      exact Ends.kept (fetch_data_moves served due held)
    | true => exact absurd served.fetch.2 due
  | leaves gone finished => exact absurd gone.undue due

theorem Kept.xp_fetch_data_cb (kept : Kept errorFree stored descs t) {index : ℕ} {d : Descriptor}
    (inFlight : t.requested[index]? = some d) {res : Except String (List UInt8)}
    (filled : errorFree → ∃ data, res = .ok data ∧ data ≠ []) :
    Ends (Kept errorFree stored descs) (fun _ => False)
      ({ t with requested := t.requested.eraseIdx index }.xpFetchDataCb beyond
        (res.map fun data => (d, data))) := by
  obtain ⟨fetched, moved⟩ := kept
  cases moved with
  | stays pdp status hand served handled =>
    cases fetched with
    | false =>
      rw [served.fetch.1] at inFlight
      cases inFlight
    | true =>
      refine Ends.kept (xp_fetch_data_cb_moves handled served (fun free => ?_) _)
      obtain ⟨data, rfl, some_data⟩ := filled free
      exact ⟨d, data, rfl, some_data⟩
  | leaves gone finished =>
    simp only [Transfer.xpFetchDataCb, gone.absent]
    exact ⟨fetched, .leaves { gone with absent := rfl } fun free => { finished free with }⟩

theorem Kept.get_chunk_cb (kept : Kept errorFree stored descs t) {index : ℕ} {read : SpRead}
    (inFlight : t.reads[index]? = some read) {res : Except String (List UInt8)}
    (chunk : errorFree → ∃ data, res = .ok data ∧ stored read.desc.id = some data)
    (within : ∀ data pdp descs, res = .ok data → t.pdp = some pdp → pdp.descs = some descs →
      pdp.xmode = .outOfOrder → ¬ PastLast pdp descs read data) :
    Ends (Kept errorFree stored descs) (fun _ => False)
      ({ t with reads := t.reads.eraseIdx index }.getChunkCb beyond read res) := by
  obtain ⟨fetched, moved⟩ := kept
  cases moved with
  | stays pdp status hand served handled =>
    obtain ⟨rfl, emptied⟩ := served.reading_of inFlight
    rw [emptied]
    exact Ends.kept (get_chunk_cb_moves served chunk fun data same =>
      within data pdp descs same served.held served.listed)
  | leaves gone finished =>
    rw [gone.unread] at inFlight
    cases inFlight

end

/-! ## The events of a transfer -/

/-- The transfer that an event is for once it is open. -/
def Event.target : Event → Option XferId
  | .getData _ xferId => some xferId
  | .fetchData xferId => some xferId
  | .xpFetchDataCb xferId _ _ => some xferId
  | .getChunkCb xferId _ _ => some xferId
  | _ => none

/-- An event of the GET_INIT of a transfer. -/
def Opens (xferId : XferId) (g : Gtcd) : Event → Prop
  | .getInit _ _ _ _ => g.xferCounter = xferId
  | .getInitCb opened _ => opened = xferId
  | _ => False

/-- An event of an open transfer, handled. -/
def Transfer.handle [SendSize] (t : Transfer) (beyond : ℕ → DescStatus)
    (stored : List UInt8 → Option (List UInt8)) : Event → Except Fault Transfer
  | .getData sbp xferId => { t with gets := t.gets ++ [sbp] }.getData beyond xferId sbp
  | .fetchData _ =>
    if t.scheduled = 0 then .ok t
    else { t with scheduled := t.scheduled - 1 }.fetchData beyond fun d => (stored d.id).isSome
  | .xpFetchDataCb _ index res =>
    match t.requested[index]? with
    | none => .ok t
    | some d => { t with requested := t.requested.eraseIdx index }.xpFetchDataCb beyond
        (res.map fun data => (d, data))
  | .getChunkCb _ index res =>
    match t.reads[index]? with
    | none => .ok t
    | some read => { t with reads := t.reads.eraseIdx index }.getChunkCb beyond read res
  | _ => .ok t

theorem update_same (g : Gtcd) (xferId : XferId) : g.update xferId (g.transfers xferId) = g := by
  simp [Gtcd.update, Function.update_eq_self]

theorem update_transfers (g : Gtcd) (xferId : XferId) (t : Transfer) :
    (g.update xferId t).transfers xferId = t :=
  Function.update_self ..

/-- A transfer is left alone by the events of others. -/
structure Spared (xferId : XferId) (g g' : Gtcd) : Prop where
  same : g'.transfers xferId = g.transfers xferId
  extended : Extends g'.stored g.stored
  counter : g.xferCounter ≤ g'.xferCounter

theorem Spared.refl (g : Gtcd) : Spared xferId g g :=
  ⟨rfl, fun _ _ holds => holds, Nat.le_refl _⟩

theorem update_spares {written : XferId} (apart : written ≠ xferId) (t : Transfer) :
    Spared xferId g (g.update written t) :=
  ⟨Function.update_of_ne (Ne.symm apart) .., update_extends g written t, Nat.le_refl _⟩

/-- GET_INIT is refused, or opens the next transfer. -/
theorem get_init_cases (g : Gtcd) (sbp : Sbp) (oid : List UInt8) (hints : List String)
    (xmode : Option XferMode) :
    (∃ replies, g.getInit sbp oid hints xmode = { g with initReplies := replies }) ∨
      ∃ mode, xmode = some mode ∧ g.getInit sbp oid hints xmode = { g with
        transfers := Function.update g.transfers g.xferCounter { g.transfers g.xferCounter with
          pdp := some (.opened mode hints), opening := some ⟨sbp, false⟩ }
        xferCounter := g.xferCounter + 1 } := by
  unfold Gtcd.getInit
  split_ifs
  · exact .inl ⟨_, rfl⟩
  · exact .inl ⟨_, rfl⟩
  · cases xmode with
    | none => exact .inl ⟨_, rfl⟩
    | some mode => exact .inr ⟨mode, rfl, rfl⟩

section
variable [SendSize] {event : Event}

/-- A step on an event of an open transfer is its handler and an update. -/
theorem step_target (own : event.target = some xferId) : g.step beyond event =
    (g.transfers xferId).handle beyond g.stored event >>= fun t => .ok (g.update xferId t) := by
  cases event with
  | getInit sbp oid hints xmode => cases own
  | getInitCb opened res => cases own
  | putIchunk id data => cases own
  | getData sbp asked =>
    cases own
    rfl
  | fetchData fetching =>
    cases own
    simp only [Gtcd.step, Transfer.handle]
    split
    · simp only [bind, Except.bind, update_same]
    · rfl
  | xpFetchDataCb fetching index res =>
    cases own
    simp only [Gtcd.step, Transfer.handle]
    cases (g.transfers xferId).requested[index]? with
    | none => simp only [bind, Except.bind, update_same]
    | some d => rfl
  | getChunkCb reading index res =>
    cases own
    simp only [Gtcd.step, Transfer.handle]
    cases (g.transfers xferId).reads[index]? with
    | none => simp only [bind, Except.bind, update_same]
    | some read => rfl

theorem step_spares (other : event.target ≠ some xferId) (unopened : ¬ Opens xferId g event) :
    Ends (Spared xferId g) (fun _ => True) (g.step beyond event) := by
  by_cases own : ∃ written, event.target = some written
  · obtain ⟨written, own⟩ := own
    rw [step_target own]
    have handled : Ends (fun _ => True) (fun _ => True)
        ((g.transfers written).handle beyond g.stored event) := by
      cases (g.transfers written).handle beyond g.stored event <;> trivial
    refine handled.bind fun t _ => update_spares (fun same => other ?_) t
    rw [own, same]
  · cases event with
    | getInit sbp oid hints xmode =>
      simp only [Gtcd.step, ends_ok]
      obtain ⟨replies, refused⟩ | ⟨mode, _, opened⟩ := get_init_cases g sbp oid hints xmode
      · rw [refused]
        exact ⟨rfl, fun _ _ holds => holds, Nat.le_refl _⟩
      · rw [opened]
        exact ⟨Function.update_of_ne (Ne.symm unopened) .., fun _ _ holds => holds, Nat.le_succ _⟩
    | getInitCb opened res =>
      simp only [Gtcd.step]
      split
      · refine (get_init_cb_ends g opened _ res).imp fun g' answered => ?_
        obtain ⟨stored, counter, t, written, _⟩ := answered
        refine ⟨?_, fun _ _ holds => stored ▸ holds, counter.ge⟩
        rw [written, Function.update_of_ne (Ne.symm unopened)]
      · exact Spared.refl g
    | putIchunk id data =>
      have extended := store_extends g.stored (.putIchunk { id := id, length := data.length } data)
      exact ⟨rfl, extended, Nat.le_refl _⟩
    | _ => exact absurd ⟨_, rfl⟩ own

end

/-! ## The stages of a transfer -/

/-- A transfer that has not been served. -/
structure Pristine (t : Transfer) : Prop extends Idle t where
  inside : t.overreads = []
  unended : ∀ reply ∈ t.replies, ¬ EndsTransfer reply.2

/-- The id of a transfer that has not been opened. -/
structure New (t : Transfer) : Prop extends Pristine t where
  absent : t.pdp = none
  unopened : t.opening = none

/-- The stages of a transfer in either mode. -/
inductive Standing (errorFree : Prop) (stored : List UInt8 → Option (List UInt8)) (t : Transfer) :
    Prop
  | new (new : New t)
  | opening (call : InitCall) (xmode : XferMode) (hints : List String)
      (listed : Option (List Descriptor)) (awaited : t.opening = some call)
      (held : t.pdp = some { XferData.opened xmode hints with descs := listed })
      (mode : errorFree → xmode = .sequential) (pristine : Pristine t)
  | refused (gone : Gone t)
  | served (descs : List Descriptor) (kept : Kept errorFree stored descs t)

/-- GET_INIT is answered before anything is read. -/
theorem Standing.opened_of_read (standing : Standing errorFree stored t) (reading : t.reads ≠ []) :
    t.opening = none := by
  cases standing with
  | new new => exact new.unopened
  | opening call xmode hints listed awaited held mode pristine => exact absurd pristine.unread reading
  | refused gone => exact gone.opened
  | served descs kept => exact kept.opened

/-- A transfer in the table whose GET_INIT is answered is served. -/
theorem Standing.served_of (standing : Standing errorFree stored t) (held : t.pdp = some pdp)
    (opened : t.opening = none) : ∃ descs fetched status hand,
      Served errorFree stored t pdp descs status hand fetched ∧ hand ≠ .handled := by
  cases standing with
  | new new => cases held.symm.trans new.absent
  | opening call xmode hints listed awaited held' mode pristine => cases opened.symm.trans awaited
  | refused gone => cases held.symm.trans gone.absent
  | served descs kept =>
    obtain ⟨fetched, moved⟩ := kept
    cases moved with
    | stays pdp' status hand served handled =>
      cases held.symm.trans served.held
      exact ⟨descs, fetched, status, hand, served, handled⟩
    | leaves gone finished => cases held.symm.trans gone.absent

theorem Standing.extend (standing : Standing errorFree stored t) (extended : Extends more stored) :
    Standing errorFree more t := by
  cases standing with
  | new new => exact .new new
  | opening call xmode hints listed awaited held mode pristine =>
    exact .opening call xmode hints listed awaited held mode pristine
  | refused gone => exact .refused gone
  | served descs kept => exact .served descs (kept.extend extended)

/-- The last descriptors of a transfer arrive, and it can be served. -/
theorem served_of_opened (pristine : Pristine t) {xmode : XferMode}
    (mode : errorFree → xmode = .sequential) (hints : List String) (all : List Descriptor) :
    let pdp' := { XferData.opened xmode hints with
      descs := some all
      descsStatus := some (all.map fun _ => .unknown) }
    Served errorFree stored { t with pdp := some pdp', opening := none } pdp' all
      (all.map fun _ => .unknown) .answered false := by
  constructor
  case held => rfl
  case opened => rfl
  case listed => rfl
  case known => rfl
  case sized => exact List.length_map ..
  case hinted => exact ⟨hints, rfl⟩
  case inside => exact pristine.inside
  case turn => exact pristine.answered
  case reads => exact pristine.unread
  case placed => exact fun _ member => absurd member List.not_mem_nil
  case parked => rfl
  case fetch => exact ⟨pristine.unrequested, fun due => absurd pristine.unscheduled due⟩
  case counted =>
    intro _
    refine ⟨rfl, Nat.zero_le _, ?_⟩
    obtain none_listed | some_listed := Nat.eq_zero_or_pos all.length
    · exact .inl none_listed
    · exact .inr (.inl some_listed)
  case sound =>
    intro free
    refine ⟨mode free, rfl, ?_, ⟨?_, ?_⟩, pristine.unended⟩
    · have undelivered := pristine.undelivered
      simp only [Transfer.delivered] at undelivered
      simp [Transfer.delivered, Transfer.copiedBytes, pristine.uncopied, undelivered, XferData.opened]
    · simp [pristine.uncopied, XferData.opened]
    · simp [pristine.uncopied]

/-- An opening transfer stays so, is served or is refused after an answer. -/
theorem InitAnswered.standing (answered : InitAnswered t after) {call : InitCall} {xmode : XferMode}
    {hints : List String} {listed : Option (List Descriptor)} (awaited : t.opening = some call)
    (held : t.pdp = some { XferData.opened xmode hints with descs := listed })
    (mode : errorFree → xmode = .sequential) (pristine : Pristine t) :
    Standing errorFree stored after := by
  cases answered with
  | failed => exact .refused ⟨rfl, rfl, pristine.unread, pristine.unscheduled, pristine.inside⟩
  | again call => exact .opening call xmode hints listed rfl held mode { pristine with }
  | listed pdp all held' =>
    cases held.symm.trans held'
    exact .opening call xmode hints (some all) awaited rfl mode { pristine with }
  | ended pdp all held' =>
    cases held.symm.trans held'
    exact .served all ⟨false, .stays _ _ .answered (served_of_opened pristine mode hints all) nofun⟩

/-- The stage of a transfer, which is the first while its id has not been given out. -/
structure Stands (errorFree : Prop) (xferId : XferId) (g : Gtcd) : Prop where
  standing : Standing errorFree g.stored (g.transfers xferId)
  unused : g.xferCounter ≤ xferId → New (g.transfers xferId)

theorem Stands.spare (stands : Stands errorFree xferId g) (spared : Spared xferId g g') :
    Stands errorFree xferId g' where
  standing := spared.same ▸ stands.standing.extend spared.extended
  unused := fun small => spared.same ▸ stands.unused (Nat.le_trans spared.counter small)

theorem init_stands (errorFree : Prop) (stored : List UInt8 → Option (List UInt8)) (xferId : XferId) :
    Stands errorFree xferId (Gtcd.init stored) := by
  have new : New ((Gtcd.init stored).transfers xferId) :=
    ⟨⟨⟨rfl, rfl, rfl, rfl, rfl, rfl⟩, rfl, fun _ member => absurd member List.not_mem_nil⟩, rfl, rfl⟩
  exact ⟨.new new, fun _ => new⟩

theorem Stands.update (standing : Standing errorFree g.stored after)
    (unused : g.xferCounter ≤ xferId → New after) : Stands errorFree xferId (g.update xferId after) := by
  refine ⟨?_, fun small => ?_⟩
  · rw [update_transfers]
    exact standing.extend (update_extends g xferId after)
  · rw [update_transfers]
    exact unused small

theorem Stands.get_init (stands : Stands errorFree g.xferCounter g) (sbp : Sbp) (oid : List UInt8)
    (hints : List String) {xmode : Option XferMode} (mode : errorFree → xmode ≠ some .outOfOrder) :
    Stands errorFree g.xferCounter (g.getInit sbp oid hints xmode) := by
  obtain ⟨replies, refused⟩ | ⟨xmode, rfl, opened⟩ := get_init_cases g sbp oid hints xmode
  · rw [refused]
    exact { stands with }
  · have new := stands.unused (Nat.le_refl _)
    have sequential : errorFree → xmode = .sequential := fun free => by
      cases xmode with
      | sequential => rfl
      | outOfOrder => exact absurd rfl (mode free)
    have opening : Standing errorFree g.stored { g.transfers g.xferCounter with
        pdp := some (.opened xmode hints), opening := some ⟨sbp, false⟩ } :=
      .opening _ xmode hints none rfl rfl sequential { new with }
    rw [opened]
    refine ⟨?_, fun small => absurd small (Nat.not_succ_le_self _)⟩
    simp only [Function.update_self]
    exact opening

theorem Stands.get_init_cb (stands : Stands errorFree xferId g) {call : InitCall}
    (awaited : (g.transfers xferId).opening = some call)
    (res : Except String (List Descriptor × Bool)) :
    Ends (Stands errorFree xferId) (fun _ => True) (g.getInitCb xferId call res) := by
  refine (get_init_cb_ends g xferId call res).imp fun g' answered => ?_
  obtain ⟨stored, counter, after, written, answered⟩ := answered
  have self : g'.transfers xferId = after := by rw [written, Function.update_self]
  refine ⟨?_, fun small => ?_⟩
  · rw [self, stored]
    cases stands.standing with
    | new new => cases awaited.symm.trans new.unopened
    | opening call' xmode hints listed awaited' held mode pristine =>
      exact answered.standing awaited held mode pristine
    | refused gone => cases awaited.symm.trans gone.opened
    | served descs kept => cases awaited.symm.trans kept.opened
  · cases awaited.symm.trans (stands.unused (counter ▸ small)).unopened

/-! ## Steps -/

/-- What the client and the plugins of a transfer may do with it. -/
def Transfer.Admits [SendSize] (errorFree : Prop) (stored : List UInt8 → Option (List UInt8))
    (t : Transfer) : Event → Prop
  | .getData _ _ => t.opening = none ∧ t.gets.length = t.replies.length ∧
      ∀ pdp, t.pdp = some pdp → pdp.xmode = .sequential → pdp.buf = [] → pdp.descs ≠ some []
  | .xpFetchDataCb _ _ res => errorFree → ∃ data, res = .ok data ∧ data ≠ []
  | .getChunkCb _ index res => ∀ read, t.reads[index]? = some read →
      (errorFree → ∃ data, res = .ok data ∧ stored read.desc.id = some data) ∧
        ∀ data pdp descs, res = .ok data → t.pdp = some pdp → pdp.descs = some descs →
          pdp.xmode = .outOfOrder → ¬ PastLast pdp descs read data
  | _ => True

section
variable [SendSize] {event : Event}

theorem Kept.handle (kept : Kept errorFree stored descs t) (admits : t.Admits errorFree stored event) :
    Ends (Kept errorFree stored descs) (fun _ => False) (t.handle beyond stored event) := by
  cases event with
  | getData sbp asked => exact kept.get_data admits.2.1 admits.2.2
  | fetchData fetching =>
    simp only [Transfer.handle]
    split
    next => exact kept
    next due => exact kept.fetch_data due _
  | xpFetchDataCb fetching index res =>
    simp only [Transfer.handle]
    split
    next => exact kept
    next d inFlight => exact kept.xp_fetch_data_cb inFlight admits
  | getChunkCb reading index res =>
    simp only [Transfer.handle]
    split
    next => exact kept
    next read inFlight =>
      obtain ⟨chunk, within⟩ := admits read inFlight
      exact kept.get_chunk_cb inFlight chunk within
  | _ => exact kept

/-- Nothing is in flight for an idle transfer. -/
theorem Idle.handle (idle : Idle t) (unasked : ∀ sbp asked, event ≠ .getData sbp asked) :
    t.handle beyond stored event = .ok t := by
  cases event with
  | getData sbp asked => exact absurd rfl (unasked sbp asked)
  | fetchData fetching => simp only [Transfer.handle, idle.unscheduled, if_true]
  | xpFetchDataCb fetching index res => simp only [Transfer.handle, idle.unrequested, List.getElem?_nil]
  | getChunkCb reading index res => simp only [Transfer.handle, idle.unread, List.getElem?_nil]
  | _ => rfl

theorem New.handle (new : New t) : Ends New (fun _ => False) (t.handle beyond stored event) := by
  by_cases asks : ∃ sbp asked, event = .getData sbp asked
  · obtain ⟨sbp, asked, rfl⟩ := asks
    have fresh : Fresh t := { new with }
    have refused := fresh.refused sbp ("unknown transfer id: " ++ toString asked)
    have unended := @error_unended t sbp ("unknown transfer id: " ++ toString asked)
    simp only [Transfer.handle, Transfer.getData, new.absent] at refused ⊢
    refine { refused with inside := new.inside, unended := fun reply member => ?_ }
    obtain old | added := List.mem_append.mp member
    · exact new.unended reply old
    · refine unended reply ?_
      rw [List.drop_left]
      exact added
  · rw [new.toIdle.handle fun sbp asked same => asks ⟨sbp, asked, same⟩]
    exact new

theorem Gone.handle (gone : Gone t) :
    Ends Gone (fun _ => False) (t.handle beyond stored event) := by
  cases event with
  | getData sbp asked =>
    have refused := gone.refused sbp ("unknown transfer id: " ++ toString asked)
    simp only [Transfer.handle, Transfer.getData, gone.absent] at refused ⊢
    exact refused
  | fetchData fetching =>
    simp only [Transfer.handle, gone.undue, if_true]
    exact gone
  | xpFetchDataCb fetching index res =>
    simp only [Transfer.handle]
    split
    · exact gone
    · simp only [Transfer.xpFetchDataCb, gone.absent]
      exact { gone with absent := rfl }
  | getChunkCb reading index res =>
    simp only [Transfer.handle, gone.unread, List.getElem?_nil]
    exact gone
  | _ => exact gone

theorem Standing.handle (standing : Standing errorFree stored t)
    (admits : t.Admits errorFree stored event) :
    Ends (Standing errorFree stored) (fun _ => False) (t.handle beyond stored event) := by
  cases standing with
  | new new => exact new.handle.imp fun _ new => .new new
  | opening call xmode hints listed awaited held mode pristine =>
    rw [pristine.toIdle.handle]
    · exact .opening call xmode hints listed awaited held mode pristine
    · rintro sbp asked rfl
      cases awaited.symm.trans admits.1
  | refused gone => exact gone.handle.imp fun _ gone => .refused gone
  | served descs kept => exact (kept.handle admits).imp fun _ kept => .served descs kept

theorem Stands.handle (stands : Stands errorFree xferId g) (own : event.target = some xferId)
    (admits : (g.transfers xferId).Admits errorFree g.stored event) :
    Ends (Stands errorFree xferId) (fun _ => False) (g.step beyond event) := by
  rw [step_target own]
  by_cases small : g.xferCounter ≤ xferId
  · exact (stands.unused small).handle.bind fun after new => Stands.update (.new new) fun _ => new
  · exact (stands.standing.handle admits).bind fun after standing =>
      Stands.update standing fun small' => absurd small' small

theorem step_stands (stands : Stands errorFree xferId g)
    (mode : ∀ sbp oid hints xmode, event = .getInit sbp oid hints xmode → g.xferCounter = xferId →
      errorFree → xmode ≠ some .outOfOrder)
    (admits : event.target = some xferId → (g.transfers xferId).Admits errorFree g.stored event) :
    Ends (Stands errorFree xferId) (fun _ => event.target ≠ some xferId) (g.step beyond event) := by
  by_cases own : event.target = some xferId
  · exact (stands.handle own (admits own)).imp_fault fun _ => False.elim
  by_cases opens : Opens xferId g event
  · cases event with
    | getInit sbp oid hints xmode =>
      cases opens
      exact stands.get_init sbp oid hints (mode sbp oid hints xmode rfl rfl)
    | getInitCb opened res =>
      cases opens
      simp only [Gtcd.step]
      split
      next call awaited => exact (stands.get_init_cb awaited res).imp_fault fun _ _ => own
      next => exact stands
    | _ => exact opens.elim
  · exact ((step_spares own opens).imp fun _ spared => stands.spare spared).imp_fault fun _ _ => own

theorem step_keeps (kept : Kept errorFree g.stored descs (g.transfers xferId))
    (taken : xferId < g.xferCounter)
    (admits : event.target = some xferId → (g.transfers xferId).Admits errorFree g.stored event) :
    Ends (fun g' => Kept errorFree g'.stored descs (g'.transfers xferId) ∧ xferId < g'.xferCounter)
      (fun _ => event.target ≠ some xferId) (g.step beyond event) := by
  by_cases own : event.target = some xferId
  · rw [step_target own]
    refine ((kept.handle (admits own)).imp_fault fun _ => False.elim).bind fun after kept' => ?_
    refine ⟨?_, taken⟩
    rw [update_transfers]
    exact kept'.extend (update_extends g xferId after)
  by_cases opens : Opens xferId g event
  · cases event with
    | getInit sbp oid hints xmode => exact absurd opens.symm (Nat.ne_of_lt taken)
    | getInitCb opened res =>
      cases opens
      simp only [Gtcd.step, kept.opened]
      exact ⟨kept, taken⟩
    | _ => exact opens.elim
  · refine ((step_spares own opens).imp fun g' spared => ?_).imp_fault fun _ _ => own
    exact ⟨spared.same ▸ kept.extend spared.extended, Nat.lt_of_lt_of_le taken spared.counter⟩

end

end Ditto.Downloads
