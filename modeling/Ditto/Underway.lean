import Ditto.HandlerOutcomes

/-! The life of a download under any order of requests. Its entry is opened, waits for its
fetch and is fetched, once each: until the fetch nothing is in flight for the transfer, and
after it the chunks that are still to come are of its descriptors. -/
namespace Ditto.Downloads
open XferGtc (Descriptor)
open SendSize (sendSize)
open Outcomes

variable {t after : Transfer} {pdp : XferData} {descs : List Descriptor} {status : List DescStatus}
  {beyond : ℕ → DescStatus} {sbp : Sbp} {stored : List UInt8 → Option (List UInt8)} {g g' : Gtcd} {xferId : XferId}

/-- Nothing was read, asked for or taken for a transfer. -/
structure Untouched (t : Transfer) : Prop where
  unread : t.reads = []
  unrequested : t.requested = []
  untaken : t.spOps = []

/-- An id that has not been given out. -/
structure Unborn (t : Transfer) : Prop extends Untouched t where
  absent : t.pdp = none
  unopened : t.opening = none
  unscheduled : t.scheduled = 0

/-- An entry that waits for the answer to its GET_INIT. -/
structure Opening (t : Transfer) (pdp : XferData) : Prop extends Untouched t where
  awaited : t.opening ≠ none
  held : t.pdp = some pdp
  hinted : ∃ hints, pdp.hints = some hints
  unknown : pdp.descsStatus = none
  fine : pdp.err = none
  drained : pdp.buf = []
  uncounted : pdp.descsXfered = 0
  unparked : pdp.xcb = none
  idle : pdp.fetching = false ∧ t.scheduled = 0

/-- An entry whose fetch has not run. -/
structure Waiting (t : Transfer) (pdp : XferData) (descs : List Descriptor) : Prop extends Untouched t where
  opened : t.opening = none
  held : t.pdp = some pdp
  hinted : ∃ hints, pdp.hints = some hints
  listed : pdp.descs = some descs
  known : pdp.descsStatus = some (descs.map fun _ => .unknown)
  fine : pdp.err = none
  drained : pdp.buf = []
  uncounted : pdp.descsXfered = 0
  due : t.scheduled = if pdp.fetching then 1 else 0
  wanted : pdp.fetching = true → descs ≠ []

/-- An entry whose fetch has run. -/
structure Fetching (t : Transfer) (pdp : XferData) (descs : List Descriptor) (status : List DescStatus) :
    Prop where
  opened : t.opening = none
  held : t.pdp = some pdp
  listed : pdp.descs = some descs
  known : pdp.descsStatus = some status
  sized : status.length = descs.length
  fetching : pdp.fetching = true
  ran : t.scheduled = 0
  within : ∀ d ∈ t.requested, d ∈ descs

/-- The stages of a transfer. -/
inductive Underway (t : Transfer) : Prop where
  | absent (absent : t.pdp = none)
  | opening (pdp : XferData) (opening : Opening t pdp)
  | waiting (pdp : XferData) (descs : List Descriptor) (waiting : Waiting t pdp descs)
  | fetching (pdp : XferData) (descs : List Descriptor) (status : List DescStatus)
      (fetching : Fetching t pdp descs status)

/-! ## What a stage rules out -/

theorem first_on_storage_unknown (descs : List Descriptor) :
    Transfer.firstOnStorage (descs.map fun _ => .unknown) = none := by
  simp [Transfer.firstOnStorage]

/-- Before the answer to its GET_INIT there is nothing to send. -/
theorem Opening.unready (opening : Opening t pdp) : ¬ pdp.Ready beyond := by
  rintro (more | ⟨status, known, _⟩)
  · exact more opening.drained
  · cases opening.unknown.symm.trans known

/-- Before its fetch a transfer with something to send has read past its descriptors. -/
theorem Waiting.past (waiting : Waiting t pdp descs) (ready : pdp.Ready beyond) :
    descs.length ≤ pdp.descsCount := by
  obtain more | ⟨status, known, onStorage⟩ := ready
  · exact absurd waiting.drained more
  cases waiting.known.symm.trans known
  cases mode : pdp.xmode with
  | sequential =>
    rw [mode] at onStorage
    by_contra inside
    have place : (descs.map fun _ => DescStatus.unknown)[pdp.descsCount]? = some .unknown := by
      rw [List.getElem?_map, List.getElem?_eq_getElem (Nat.lt_of_not_le inside), Option.map_some]
    simp only [statusAt, place, Option.getD_some] at onStorage
    cases onStorage
  | outOfOrder =>
    rw [mode] at onStorage
    obtain ⟨_, _, _, _, found⟩ := onStorage
    rw [first_on_storage_unknown] at found
    cases found

/-- An entry whose GET_INIT is answered has its descriptors. -/
theorem Underway.listed (underway : Underway t) (held : t.pdp = some pdp) (opened : t.opening = none) :
    ∃ descs, pdp.descs = some descs := by
  cases underway with
  | absent absent => cases held.symm.trans absent
  | opening pdp' opening => exact absurd opened opening.awaited
  | waiting pdp' descs waiting =>
    cases held.symm.trans waiting.held
    exact ⟨descs, waiting.listed⟩
  | fetching pdp' descs status fetching =>
    cases held.symm.trans fetching.held
    exact ⟨descs, fetching.listed⟩

/-- An entry whose GET_INIT is not answered yet is being opened. -/
theorem Underway.of_awaited (underway : Underway t) (held : t.pdp = some pdp) {call : InitCall}
    (awaited : t.opening = some call) : Opening t pdp := by
  cases underway with
  | absent absent => cases held.symm.trans absent
  | opening pdp' opening =>
    cases held.symm.trans opening.held
    exact opening
  | waiting pdp' descs waiting => cases awaited.symm.trans waiting.opened
  | fetching pdp' descs status fetching => cases awaited.symm.trans fetching.opened

/-- An entry with chunks to come has been fetched. -/
theorem Underway.of_requested (underway : Underway t) (held : t.pdp = some pdp) (asked : t.requested ≠ []) :
    ∃ descs status, Fetching t pdp descs status := by
  cases underway with
  | absent absent => cases held.symm.trans absent
  | opening pdp' opening => exact absurd opening.unrequested asked
  | waiting pdp' descs waiting => exact absurd waiting.unrequested asked
  | fetching pdp' descs status fetching =>
    cases held.symm.trans fetching.held
    exact ⟨descs, status, fetching⟩

/-- An entry with storage reads in flight has been fetched. -/
theorem Underway.of_reads (underway : Underway t) (held : t.pdp = some pdp) (reading : t.reads ≠ []) :
    ∃ descs status, Fetching t pdp descs status := by
  cases underway with
  | absent absent => cases held.symm.trans absent
  | opening pdp' opening => exact absurd opening.unread reading
  | waiting pdp' descs waiting => exact absurd waiting.unread reading
  | fetching pdp' descs status fetching =>
    cases held.symm.trans fetching.held
    exact ⟨descs, status, fetching⟩

/-- An entry whose fetch is due waits for it. -/
theorem Underway.of_scheduled (underway : Underway t) (held : t.pdp = some pdp) (due : t.scheduled ≠ 0) :
    ∃ descs, Waiting t pdp descs := by
  cases underway with
  | absent absent => cases held.symm.trans absent
  | opening pdp' opening => exact absurd opening.idle.2 due
  | waiting pdp' descs waiting =>
    cases held.symm.trans waiting.held
    exact ⟨descs, waiting⟩
  | fetching pdp' descs status fetching => exact absurd fetching.ran due

/-- A fetched transfer goes on or leaves the table. -/
def GoesOn (descs : List Descriptor) (status : List DescStatus) (t : Transfer) : Prop :=
  t.pdp = none ∨ ∃ pdp, Fetching t pdp descs status

theorem GoesOn.underway (on : GoesOn descs status t) : Underway t := by
  obtain absent | ⟨pdp, fetching⟩ := on
  · exact .absent absent
  · exact .fetching pdp descs status fetching

/-- The fetch that is due was asked for. -/
theorem Waiting.fetches (waiting : Waiting t pdp descs) (due : t.scheduled ≠ 0) : pdp.fetching = true := by
  by_contra idle
  rw [waiting.due, if_neg idle] at due
  exact due rfl

/-- The entry that a fetch leaves to the parked request. -/
theorem Waiting.fetched (waiting : Waiting t pdp descs) (due : t.scheduled ≠ 0) (held : Descriptor → Bool) :
    Fetching { t with
      scheduled := t.scheduled - 1
      pdp := some { pdp with descsStatus := some (fetchedStatus held descs) }
      spOps := t.spOps ++ (descs.filter held).map .incChunkRefcount }
      { pdp with descsStatus := some (fetchedStatus held descs) } descs (fetchedStatus held descs) := by
  have fetches := waiting.fetches due
  constructor
  case opened => exact waiting.opened
  case held => rfl
  case listed => exact waiting.listed
  case known => rfl
  case sized => exact List.length_map _
  case fetching => exact fetches
  case ran => simp only [waiting.due, if_pos fetches]
  case within =>
    simp only [waiting.unrequested]
    exact fun d member => absurd member List.not_mem_nil

/-- An answer to GET_INIT. -/
theorem Underway.answered (underway : Underway t) {call : InitCall} (awaited : t.opening = some call)
    (answers : InitAnswered t after) : Underway after := by
  cases underway with
  | absent absent =>
    cases answers with
    | failed => exact .absent rfl
    | again call => exact .absent absent
    | listed pdp all held | ended pdp all held => cases held.symm.trans absent
  | opening pdp opening =>
    cases answers with
    | failed => exact .absent rfl
    | again call => exact .opening pdp { opening with awaited := nofun }
    | listed pdp' all held =>
      cases held.symm.trans opening.held
      exact .opening _ { opening with held := rfl }
    | ended pdp' all held =>
      cases held.symm.trans opening.held
      refine .waiting _ all { opening with
        opened := rfl, held := rfl, listed := rfl, known := rfl, due := ?_, wanted := ?_ }
      · simp only [opening.idle.1, Bool.false_eq_true, if_false]
        exact opening.idle.2
      · exact fun fetches => by cases opening.idle.1.symm.trans fetches
  | waiting pdp descs waiting => cases awaited.symm.trans waiting.opened
  | fetching pdp descs status fetching => cases awaited.symm.trans fetching.opened

/-- The stage of a transfer, and of the ids that come after it. -/
structure Stages (xferId : XferId) (g : Gtcd) : Prop where
  underway : Underway (g.transfers xferId)
  unborn : g.xferCounter ≤ xferId → Unborn (g.transfers xferId)

theorem init_stages (stored : List UInt8 → Option (List UInt8)) (xferId : XferId) :
    Stages xferId (Gtcd.init stored) :=
  ⟨.absent rfl, fun _ => ⟨⟨rfl, rfl, rfl⟩, rfl, rfl, rfl⟩⟩

section
variable [SendSize]

/-! ## Replies and reads -/

theorem Replied.requested (replied : Replied t pdp sbp after) : after.requested = t.requested := by
  cases replied <;> rfl

theorem Turned.requested (turned : Turned t pdp sbp after) : after.requested = t.requested := by
  cases turned with
  | replied overreads after replied due => exact replied.requested
  | reads => rfl
  | drops => rfl

theorem Resumed.requested {turn : Prop} (resumed : Resumed t pdp turn after) : after.requested = t.requested := by
  cases resumed with
  | waits overreads idle => rfl
  | turned sbp overreads after parked turned due => exact turned.requested

theorem Replied.goes_on (replied : Replied t pdp sbp after) (fetching : Fetching t pdp descs status) :
    GoesOn descs status after := by
  cases replied with
  | failed err failed => exact .inl rfl
  | ended descs' fine listed ending => exact .inl rfl
  | sent data rest fine cut unending => exact .inr ⟨_, { fetching with held := rfl }⟩

theorem Turned.goes_on (turned : Turned t pdp sbp after) (fetching : Fetching t pdp descs status) :
    GoesOn descs status after := by
  cases turned with
  | replied overreads after replied due => exact replied.goes_on { fetching with }
  | reads overreads descs' status' i count offset d fine listed known aimed place =>
    exact .inr ⟨_, { fetching with held := rfl }⟩
  | drops mode fine drained idle => exact .inr ⟨pdp, fetching⟩

theorem Resumed.goes_on {turn : Prop} (resumed : Resumed t pdp turn after) (fetching : Fetching t pdp descs status) :
    GoesOn descs status after := by
  cases resumed with
  | waits overreads idle => exact .inr ⟨pdp, { fetching with }⟩
  | turned sbp overreads after parked turned due => exact turned.goes_on { fetching with held := rfl }

/-- Before its fetch a transfer sends nothing. -/
theorem Turned.waiting (turned : Turned t pdp sbp after) (waiting : Waiting t pdp descs)
    (ready : pdp.Ready beyond) : Underway after := by
  cases turned with
  | replied overreads after replied due =>
    cases replied with
    | failed err failed => exact .absent rfl
    | ended descs' fine listed ending => exact .absent rfl
    | sent data rest fine cut unending =>
      rw [waiting.drained] at cut
      exact .waiting _ descs { waiting with held := rfl, drained := (List.append_eq_nil_iff.mp cut).2 }
  | reads overreads descs' status' i count offset d fine listed known aimed place =>
    cases waiting.listed.symm.trans listed
    cases waiting.known.symm.trans known
    cases aimed with
    | next mode left =>
      obtain ⟨inside, _⟩ := List.getElem?_eq_some_iff.mp place
      exact absurd inside (Nat.not_lt.mpr (waiting.past ready))
    | first _ mode drained found =>
      rw [first_on_storage_unknown] at found
      cases found
  | drops mode fine drained idle => exact .waiting pdp descs waiting

/-! ## Handlers -/

theorem get_data_underway (underway : Underway t) :
    Ends Underway (fun _ => True) ({ t with gets := t.gets ++ [sbp] }.getData beyond xferId sbp) := by
  rcases Option.eq_none_or_eq_some t.pdp with absent | ⟨pdp, held⟩
  · simp only [Transfer.getData, absent]
    exact .absent rfl
  refine (get_data_got (t := { t with gets := t.gets ++ [sbp] }) held xferId).imp fun after got => ?_
  cases underway with
  | absent absent => cases held.symm.trans absent
  | opening pdp' opening =>
    cases held.symm.trans opening.held
    cases got with
    | turned overreads after ready turned => exact absurd ready opening.unready
    | ended overreads descs unready drained listed full => exact .absent rfl
    | parked overreads descs scheduled unready drained listed left known due =>
      have some_listed : descs ≠ [] := by
        rintro rfl
        exact left opening.uncounted
      obtain ⟨status, known⟩ := known some_listed
      cases opening.unknown.symm.trans known
  | waiting pdp' descs waiting =>
    cases held.symm.trans waiting.held
    cases got with
    | turned overreads after ready turned => exact turned.waiting { waiting with } ready
    | ended overreads descs unready drained listed full => exact .absent rfl
    | parked overreads descs' scheduled unready drained listed left known due =>
      refine .waiting _ descs { waiting with held := rfl, due := ?_, wanted := fun _ => ?_ }
      · obtain ⟨fetching, rfl⟩ | ⟨idle, rfl⟩ := due
        · simpa only [fetching, if_true] using waiting.due
        · simpa [idle] using waiting.due
      · rintro rfl
        cases waiting.listed.symm.trans listed
        exact left waiting.uncounted
  | fetching pdp' descs status fetching =>
    cases held.symm.trans fetching.held
    cases got with
    | turned overreads after ready turned => exact (turned.goes_on { fetching with }).underway
    | ended overreads descs unready drained listed full => exact .absent rfl
    | parked overreads descs' scheduled unready drained listed left known due =>
      refine .fetching _ descs status { fetching with held := rfl, fetching := rfl, ran := ?_ }
      obtain ⟨_, rfl⟩ | ⟨idle, rfl⟩ := due
      · exact fetching.ran
      · cases fetching.fetching.symm.trans idle

theorem fetch_data_underway (underway : Underway t) (due : t.scheduled ≠ 0) (held : Descriptor → Bool) :
    Ends Underway (fun _ => True) ({ t with scheduled := t.scheduled - 1 }.fetchData beyond held) := by
  rcases Option.eq_none_or_eq_some t.pdp with absent | ⟨pdp, present⟩
  · simp only [Transfer.fetchData, Transfer.deref, absent]
    trivial
  obtain ⟨descs, waiting⟩ := underway.of_scheduled present due
  refine (fetch_data_fetched (t := { t with scheduled := t.scheduled - 1 }) present held).imp fun after fetched => ?_
  cases fetched with
  | fetched descs' after listed known resumed =>
    cases waiting.listed.symm.trans listed
    have unrequested : after.requested = [] := resumed.requested.trans waiting.unrequested
    obtain absent | ⟨pdp', fetching⟩ := resumed.goes_on (waiting.fetched due held)
    · exact .absent absent
    · refine .fetching pdp' descs _ { fetching with within := fun d member => ?_ }
      simp only [unrequested, List.nil_append] at member
      exact (List.mem_filter.mp member).1

theorem xp_fetch_data_cb_underway (underway : Underway t) {index : ℕ} (inFlight : index < t.requested.length)
    (res : Except String (Descriptor × List UInt8)) :
    Ends Underway (fun _ => True)
      ({ t with requested := t.requested.eraseIdx index }.xpFetchDataCb beyond res) := by
  rcases Option.eq_none_or_eq_some t.pdp with absent | ⟨pdp, held⟩
  · simp only [Transfer.xpFetchDataCb, absent]
    exact .absent rfl
  obtain ⟨descs, status, fetching⟩ := underway.of_requested held (List.ne_nil_of_length_pos (Nat.zero_lt_of_lt inFlight))
  have within : ∀ d ∈ t.requested.eraseIdx index, d ∈ descs :=
    fun d member => fetching.within d (List.mem_of_mem_eraseIdx member)
  refine (xp_fetch_data_cb_arrived (t := { t with requested := t.requested.eraseIdx index }) held res).imp
    fun after arrived => ?_
  cases arrived with
  | noted res err failed unparked =>
    exact .fetching _ descs status { fetching with held := rfl, within := within }
  | told res err sbp failed parked => exact .absent rfl
  | stored d data status' descs' after filled known listed resumed =>
    cases fetching.listed.symm.trans listed
    cases fetching.known.symm.trans known
    have sized : (Transfer.arrive d.id descs status).1.length = descs.length :=
      (arrive_length ..).trans fetching.sized
    have on : GoesOn descs (Transfer.arrive d.id descs status).1 after :=
      resumed.goes_on { fetching with held := rfl, known := rfl, sized := sized, within := within }
    exact on.underway

theorem get_chunk_cb_underway (underway : Underway t) {index : ℕ} {read : SpRead}
    (inFlight : t.reads[index]? = some read) (res : Except String (List UInt8)) :
    Ends Underway (fun _ => True)
      ({ t with reads := t.reads.eraseIdx index }.getChunkCb beyond read res) := by
  rcases Option.eq_none_or_eq_some t.pdp with absent | ⟨pdp, held⟩
  · simp only [Transfer.getChunkCb, Transfer.deref, absent]
    trivial
  have reading : t.reads ≠ [] := List.ne_nil_of_mem (List.mem_of_getElem? inFlight)
  obtain ⟨descs, status, fetching⟩ := underway.of_reads held reading
  refine (get_chunk_cb_landed (t := { t with reads := t.reads.eraseIdx index }) held res).imp fun after landed => ?_
  cases landed with
  | failed s after replied =>
    have on : GoesOn descs status after := replied.goes_on { fetching with held := rfl }
    exact on.underway
  | replied status' descs' data overreads after known listed unchained replied =>
    cases fetching.known.symm.trans known
    have on : GoesOn descs (status.set read.descNo .done) after := replied.goes_on
      { fetching with held := rfl, known := rfl, sized := (List.length_set ..).trans fetching.sized }
    exact on.underway
  | chained status' descs' data overreads count d known listed chains place counted =>
    cases fetching.known.symm.trans known
    refine .fetching { pdp.landed status read data with descsCount := count } descs (status.set read.descNo .done) ?_
    exact { fetching with held := rfl, known := rfl, sized := (List.length_set ..).trans fetching.sized }

theorem Underway.handle (underway : Underway t) (event : Event) :
    Ends Underway (fun _ => True) (t.handle beyond stored event) := by
  cases event with
  | getData sbp xferId => exact get_data_underway underway
  | fetchData xferId =>
    simp only [Transfer.handle]
    split
    next => exact underway
    next due => exact fetch_data_underway underway due _
  | xpFetchDataCb xferId index res =>
    simp only [Transfer.handle]
    split
    next => exact underway
    next d inFlight => exact xp_fetch_data_cb_underway underway (List.getElem?_eq_some_iff.mp inFlight).1 _
  | getChunkCb xferId index res =>
    simp only [Transfer.handle]
    split
    next => exact underway
    next read inFlight => exact get_chunk_cb_underway underway inFlight res
  | getInit | getInitCb | putIchunk => exact underway

/-! ## Steps -/

theorem Unborn.handle (unborn : Unborn t) (event : Event) :
    Ends Unborn (fun _ => True) (t.handle beyond stored event) := by
  cases event with
  | getData sbp xferId =>
    simp only [Transfer.handle, Transfer.getData, unborn.absent]
    exact { unborn with absent := rfl }
  | fetchData xferId =>
    simp only [Transfer.handle, unborn.unscheduled, if_true]
    exact unborn
  | xpFetchDataCb xferId index res =>
    simp only [Transfer.handle, unborn.unrequested, List.getElem?_nil]
    exact unborn
  | getChunkCb xferId index res =>
    simp only [Transfer.handle, unborn.unread, List.getElem?_nil]
    exact unborn
  | getInit | getInitCb | putIchunk => exact unborn

theorem step_unborn (unborn : g.xferCounter ≤ xferId → Unborn (g.transfers xferId)) (event : Event) :
    Ends (fun g' => g'.xferCounter ≤ xferId → Unborn (g'.transfers xferId)) (fun _ => True)
      (g.step beyond event) := by
  by_cases own : event.target = some xferId
  · rw [step_target own]
    by_cases small : g.xferCounter ≤ xferId
    · refine ((unborn small).handle event).bind fun after unborn' => ?_
      rw [ends_ok, update_transfers]
      exact fun _ => unborn'
    · cases (g.transfers xferId).handle beyond g.stored event with
      | error fault => trivial
      | ok after => exact fun small' => absurd small' small
  by_cases opens : Opens xferId g event
  · cases event with
    | getInit sbp oid hints xmode =>
      cases opens
      obtain ⟨replies, refused⟩ | ⟨mode, _, begun⟩ := get_init_cases g sbp oid hints xmode
      · simp only [Gtcd.step, refused, ends_ok]
        exact unborn
      · simp only [Gtcd.step, begun, ends_ok]
        exact fun small => absurd small (Nat.not_succ_le_self _)
    | getInitCb begun res =>
      cases opens
      simp only [Gtcd.step]
      split
      next call awaited =>
        refine (get_init_cb_ends g xferId call res).imp fun g' after => ?_
        obtain ⟨_, counter, _⟩ := after
        rw [counter]
        exact fun small => by cases awaited.symm.trans (unborn small).unopened
      next => exact unborn
    | _ => exact opens.elim
  · exact (step_spares own opens).imp fun g' spared small =>
      spared.same ▸ unborn (Nat.le_trans spared.counter small)

theorem step_stages (stages : Stages xferId g) (event : Event) :
    Ends (Stages xferId) (fun _ => True) (g.step beyond event) := by
  have underway : Ends (fun g' => Underway (g'.transfers xferId)) (fun _ => True) (g.step beyond event) := by
    apply @step_rule _ _ _ Underway
    case spared => exact fun _ => stages.underway
    case opened =>
      rintro _ sbp mode hints rfl
      have unborn := stages.unborn (Nat.le_refl _)
      refine .opening (.opened mode hints) ?_
      exact { unborn with awaited := nofun, held := rfl, hinted := ⟨hints, rfl⟩, unknown := rfl, fine := rfl,
                          drained := rfl, uncounted := rfl, unparked := rfl, idle := ⟨rfl, unborn.unscheduled⟩ }
    case answered =>
      intro _ call after awaited answers _ _ _
      exact stages.underway.answered awaited answers
    case handled => exact fun own => stages.underway.handle event
  exact (underway.and (step_unborn stages.unborn event)).imp fun g' after => ⟨after.1, after.2⟩

end
end Ditto.Downloads
