import Mathlib.Data.List.Perm.Basic
import Ditto.Underway
import Ditto.StatusRange

/-! Who has the requests of a client. Each one is answered, parked or with a storage read,
and a handler passes the request it works for from one to the next. A second request that
comes while one is parked takes its place, and an entry that leaves the table takes the
parked request along. -/
namespace Ditto.Downloads
open XferGtc (Descriptor)
open SendSize (sendSize)
open Outcomes

variable {t after : Transfer} {pdp : XferData} {descs : List Descriptor} {status : List DescStatus}
  {beyond : ℕ → DescStatus} {sbp : Sbp} {stored : List UInt8 → Option (List UInt8)} {g g' : Gtcd} {xferId : XferId}

/-- The requests that are answered, parked or with a storage read. -/
def Transfer.holders (t : Transfer) : List Sbp :=
  t.replies.map Prod.fst ++ (t.pdp.bind (·.xcb)).toList ++ t.reads.map (·.sbp)

/-- Every request is answered once or held by one continuation, and by none after its
answer. -/
def Accounted (t : Transfer) : Prop := t.holders.Perm t.gets

section
variable [SendSize]

/-- A reply leaves the entry in the table. -/
def XferData.Unending (pdp : XferData) : Prop :=
  pdp.err = none ∧ ∀ descs, pdp.descs = some descs → ¬ pdp.Ending descs

/-- An event spares the parked request: another request is answered without it, and a
storage read does not end the transfer. -/
def SparesParked (t : Transfer) (pdp : XferData) (beyond : ℕ → DescStatus) : Event → Prop
  | .getData _ _ => pdp.Ready beyond ∧ pdp.Unending
  | .getChunkCb _ index (.error _) => t.reads[index]? = none
  | .getChunkCb _ index (.ok data) => ∀ read status descs, t.reads[index]? = some read →
      pdp.descsStatus = some status → pdp.descs = some descs →
      (pdp.landed status read data).Chains beyond (status.set read.descNo .done) descs read ∨
        (pdp.landed status read data).Unending
  | _ => True

/-- The parked request of a transfer, if there is one, is spared. -/
def Spares (xferId : XferId) (g : Gtcd) (beyond : ℕ → DescStatus) (event : Event) : Prop :=
  event.target = some xferId → ∀ pdp, (g.transfers xferId).pdp = some pdp → pdp.xcb ≠ none →
    SparesParked (g.transfers xferId) pdp beyond event

end

/-- Out of order, there is nothing that a read could be started for. -/
def XferData.Lacks (pdp : XferData) : Prop :=
  pdp.descs = some [] ∨ ∃ status, pdp.descsStatus = some status ∧ Transfer.firstOnStorage status = none

/-- The request of a handler is passed on, and the others stay where they are. -/
structure Passes (t : Transfer) (sbp : Sbp) (after : Transfer) : Prop where
  holders : after.holders.Perm (sbp :: t.holders)
  gets : after.gets = t.gets

/-- A request is lost. -/
structure Loses (t after : Transfer) : Prop where
  fewer : after.holders.length ≤ t.holders.length
  gets : after.gets = t.gets

/-! ## Lists of requests -/

theorem answer_perm (answered parked reading : List Sbp) (sbp : Sbp) :
    (answered ++ [sbp] ++ parked ++ reading).Perm (sbp :: (answered ++ parked ++ reading)) := by
  simp only [List.append_assoc, List.singleton_append]
  exact List.perm_middle

theorem park_perm (answered reading : List Sbp) (sbp : Sbp) :
    (answered ++ [sbp] ++ reading).Perm (sbp :: (answered ++ [] ++ reading)) := by
  simp only [List.append_assoc, List.singleton_append, List.nil_append]
  exact List.perm_middle

theorem read_perm (answered parked reading : List Sbp) (sbp : Sbp) :
    (answered ++ parked ++ (reading ++ [sbp])).Perm (sbp :: (answered ++ parked ++ reading)) := by
  rw [← List.append_assoc]
  exact List.perm_append_singleton ..

/-- A storage read that comes back had its request. -/
theorem read_returns (t : Transfer) {index : ℕ} {read : SpRead} (inFlight : t.reads[index]? = some read) :
    t.holders.Perm (read.sbp :: { t with reads := t.reads.eraseIdx index }.holders) := by
  have split : (t.reads.map (·.sbp)).Perm (read.sbp :: (t.reads.eraseIdx index).map (·.sbp)) := by
    obtain ⟨inside, rfl⟩ := List.getElem?_eq_some_iff.mp inFlight
    exact ((List.getElem_cons_eraseIdx_perm inside).map (·.sbp)).symm
  exact (split.append_left _).trans List.perm_middle

/-- Another request has come and is passed on. -/
theorem Passes.asked (passes : Passes { t with gets := t.gets ++ [sbp] } sbp after) (accounted : Accounted t) :
    Accounted after := by
  refine passes.holders.trans ?_
  rw [passes.gets]
  exact ((accounted.cons sbp).trans (List.perm_append_singleton ..).symm)

theorem Loses.asked (loses : Loses { t with gets := t.gets ++ [sbp] } after) (accounted : Accounted t) :
    ¬ Accounted after := by
  intro kept
  have whole := kept.length_eq
  have before := accounted.length_eq
  have fewer : after.holders.length ≤ t.holders.length := loses.fewer
  rw [loses.gets, List.length_append, List.length_singleton] at whole
  omega

/-- The request of a storage read is passed on. -/
theorem Passes.read {index : ℕ} {read : SpRead}
    (passes : Passes { t with reads := t.reads.eraseIdx index } read.sbp after)
    (inFlight : t.reads[index]? = some read) (accounted : Accounted t) : Accounted after := by
  refine passes.holders.trans ((read_returns t inFlight).symm.trans ?_)
  rw [passes.gets]
  exact accounted

theorem Loses.read {index : ℕ} {read : SpRead} (loses : Loses { t with reads := t.reads.eraseIdx index } after)
    (inFlight : t.reads[index]? = some read) (accounted : Accounted t) : ¬ Accounted after := by
  intro kept
  have whole := kept.length_eq
  have before := accounted.length_eq
  have returned := (read_returns t inFlight).length_eq
  have fewer := loses.fewer
  have gets : after.gets = t.gets := loses.gets
  rw [List.length_cons] at returned
  rw [gets] at whole
  omega

/-- Entries without a parked request hold none. -/
theorem Accounted.unparked (accounted : Accounted t) (idle : t.pdp.bind (·.xcb) = none) {entry : Option XferData}
    (idle' : entry.bind (·.xcb) = none) (opening : Option InitCall) :
    Accounted { t with pdp := entry, opening := opening } := by
  simp only [Accounted, Transfer.holders, idle'] at accounted ⊢
  rwa [idle] at accounted

/-- An answer to GET_INIT comes before any request is parked. -/
theorem Accounted.answered (accounted : Accounted t) (underway : Underway t) {call : InitCall}
    (awaited : t.opening = some call) (answers : InitAnswered t after) : Accounted after := by
  have idle : t.pdp.bind (·.xcb) = none := by
    cases held : t.pdp with
    | none => rw [Option.bind_none]
    | some pdp => rw [Option.bind_some, (underway.of_awaited held awaited).unparked]
  cases answers with
  | failed => exact accounted.unparked idle rfl none
  | again call => exact accounted
  | listed pdp all held =>
    refine accounted.unparked idle ?_ t.opening
    rwa [held] at idle
  | ended pdp all held =>
    refine accounted.unparked idle ?_ none
    rwa [held] at idle

/-- A chunk that was asked for has a place. -/
theorem arrive_found (id : List UInt8) (descs : List Descriptor) (status : List DescStatus)
    (sized : status.length = descs.length) (within : ∃ d ∈ descs, d.id = id) :
    (Transfer.firstOnStorage (Transfer.arrive id descs status).1).isSome := by
  suffices found : .onStorage ∈ (Transfer.arrive id descs status).1 by
    simpa [Transfer.firstOnStorage] using found
  obtain ⟨d, member, same⟩ := within
  fun_induction Transfer.arrive id descs status with
  | case1 d' descs status here => exact List.mem_cons_self ..
  | case2 d' descs s status here waiting ih => exact List.mem_cons_self ..
  | case3 d' descs s status other ih =>
    obtain rfl | later := List.mem_cons.mp member
    · exact absurd same other
    · exact List.mem_cons_of_mem _ (ih (Nat.succ.inj sized) later)
  | case4 descs status short =>
    cases descs with
    | nil => cases member
    | cons d' descs =>
      cases status with
      | nil => cases sized
      | cons s status => exact absurd rfl (short d' descs s status rfl)

section
variable [SendSize]

/-! ## Replies and reads -/

theorem Replied.passes (replied : Replied t pdp sbp after) (held : t.pdp = some pdp)
    (safe : pdp.xcb ≠ none → pdp.Unending) : Passes t sbp after := by
  have unparked : ¬ pdp.Unending → (t.pdp.bind (·.xcb)).toList = [] := by
    intro ending
    have none_parked : pdp.xcb = none := by
      by_contra parked
      exact ending (safe parked)
    rw [held, Option.bind_some, none_parked, Option.toList_none]
  cases replied with
  | failed err failed =>
    refine ⟨?_, rfl⟩
    have alone := unparked fun unending => by cases failed.symm.trans unending.1
    simp only [Transfer.holders, Transfer.reply, List.map_append, List.map_singleton, alone]
    exact answer_perm _ [] _ sbp
  | ended descs fine listed ending =>
    refine ⟨?_, rfl⟩
    have alone := unparked fun unending => unending.2 descs listed ending
    simp only [Transfer.holders, Transfer.reply, List.map_append, List.map_singleton, alone]
    exact answer_perm _ [] _ sbp
  | sent data rest fine cut unending =>
    refine ⟨?_, rfl⟩
    simp only [Transfer.holders, Transfer.reply, List.map_append, List.map_singleton, held]
    exact answer_perm _ _ _ sbp

/-- The request goes with the entry. -/
theorem Replied.loses (replied : Replied t pdp sbp after) (held : t.pdp = some pdp) (parked : pdp.xcb ≠ none)
    (ending : ¬ pdp.Unending) : Loses t after := by
  obtain ⟨lost, some_parked⟩ := Option.ne_none_iff_exists'.mp parked
  cases replied with
  | failed err failed =>
    refine ⟨?_, rfl⟩
    simp only [Transfer.holders, Transfer.reply, held, Option.bind_some, some_parked]
    simp
  | ended descs fine listed ending =>
    refine ⟨?_, rfl⟩
    simp only [Transfer.holders, Transfer.reply, held, Option.bind_some, some_parked]
    simp
  | sent data rest fine cut unending => exact absurd ⟨fine, unending⟩ ending

theorem Turned.passes (turned : Turned t pdp sbp after) (held : t.pdp = some pdp)
    (safe : pdp.xcb ≠ none → pdp.Unending) (found : pdp.xmode = .outOfOrder → pdp.buf = [] → ¬ pdp.Lacks) :
    Passes t sbp after := by
  cases turned with
  | replied overreads after replied due =>
    have passes := replied.passes held safe
    exact ⟨passes.holders, passes.gets⟩
  | reads overreads descs status i count offset d fine listed known aimed place =>
    refine ⟨?_, rfl⟩
    simp only [Transfer.holders, held, List.map_append, List.map_singleton]
    exact read_perm _ _ _ sbp
  | drops mode fine drained idle => exact absurd idle (found mode drained)

theorem Turned.loses (turned : Turned t pdp sbp after) (held : t.pdp = some pdp) (parked : pdp.xcb ≠ none)
    (ready : pdp.Ready beyond) (ending : ¬ pdp.Unending) : Loses t after := by
  cases turned with
  | replied overreads after replied due =>
    have loses := replied.loses held parked ending
    exact ⟨loses.fewer, loses.gets⟩
  | reads overreads descs status i count offset d fine listed known aimed place =>
    refine absurd ⟨fine, fun descs' listed' ended => ?_⟩ ending
    cases listed.symm.trans listed'
    cases aimed with
    | next mode left => exact left ended.1
    | first _ mode drained found =>
      obtain more | ⟨status, _, onStorage⟩ := ready
      · exact more drained
      rw [mode] at onStorage
      obtain ⟨descs'', listed'', _, left, _⟩ := onStorage
      cases listed.symm.trans listed''
      exact left ended.1
  | drops mode fine drained idle => exact ⟨Nat.le_refl _, rfl⟩

/-- A parked request that has its turn is passed on. -/
theorem Resumed.keeps {turn : Prop} (resumed : Resumed t pdp turn after) (held : t.pdp = some pdp)
    (found : turn → pdp.xmode = .outOfOrder → ¬ pdp.Lacks) :
    after.holders.Perm t.holders ∧ after.gets = t.gets := by
  cases resumed with
  | waits overreads idle => exact ⟨.refl _, rfl⟩
  | turned sbp overreads after parked turned due =>
    have passes := turned.passes rfl (fun parked => absurd rfl parked) fun mode _ => found due mode
    refine ⟨passes.holders.trans ?_, passes.gets⟩
    simp only [Transfer.holders, held, Option.bind_some, parked]
    exact (park_perm _ _ sbp).symm

/-! ## Handlers -/

theorem get_data_accounted (accounted : Accounted t)
    (spares : ∀ pdp, t.pdp = some pdp → pdp.xcb ≠ none → pdp.Ready beyond ∧ pdp.Unending) :
    Ends Accounted (fun _ => True) ({ t with gets := t.gets ++ [sbp] }.getData beyond xferId sbp) := by
  rcases Option.eq_none_or_eq_some t.pdp with absent | ⟨pdp, held⟩
  · simp only [Transfer.getData, absent]
    refine Passes.asked ⟨?_, rfl⟩ accounted
    simp only [Transfer.holders, Transfer.reply, List.map_append, List.map_singleton, absent]
    exact answer_perm _ _ _ sbp
  refine (get_data_got (t := { t with gets := t.gets ++ [sbp] }) held xferId).imp fun after got => ?_
  have unparked : ¬ pdp.Ready beyond → pdp.xcb = none := by
    intro unready
    by_contra parked
    exact unready (spares pdp held parked).1
  cases got with
  | turned overreads after ready turned =>
    refine @Passes.asked t _ sbp ?_ accounted
    have passes := turned.passes held (fun parked => (spares pdp held parked).2) fun mode drained lacks => ?_
    · exact ⟨passes.holders, passes.gets⟩
    obtain more | ⟨status, known, onStorage⟩ := ready
    · exact more drained
    rw [mode] at onStorage
    obtain ⟨descs, listed, some_listed, _, onStorage⟩ := onStorage
    obtain unlisted | ⟨status', known', none_found⟩ := lacks
    · cases listed.symm.trans unlisted
      exact some_listed rfl
    · cases known.symm.trans known'
      rw [none_found] at onStorage
      cases onStorage
  | ended overreads descs unready drained listed full =>
    refine @Passes.asked t _ sbp ⟨?_, rfl⟩ accounted
    simp only [Transfer.holders, Transfer.reply, List.map_append, List.map_singleton, held, Option.bind_some,
      unparked unready]
    exact answer_perm _ _ _ sbp
  | parked overreads descs scheduled unready drained listed left known due =>
    refine @Passes.asked t _ sbp ⟨?_, rfl⟩ accounted
    simp only [Transfer.holders, held, Option.bind_some, unparked unready]
    exact park_perm _ _ sbp

/-- A request that comes while another is parked and that is not spared is lost. -/
theorem get_data_loses (accounted : Accounted t) (held : t.pdp = some pdp) (parked : pdp.xcb ≠ none)
    (unspared : ¬ (pdp.Ready beyond ∧ pdp.Unending)) :
    Ends (fun after => ¬ Accounted after) (fun _ => True)
      ({ t with gets := t.gets ++ [sbp] }.getData beyond xferId sbp) := by
  obtain ⟨lost, some_parked⟩ := Option.ne_none_iff_exists'.mp parked
  refine (get_data_got (t := { t with gets := t.gets ++ [sbp] }) held xferId).imp fun after got => ?_
  cases got with
  | turned overreads after ready turned =>
    have loses := turned.loses held parked ready fun unending => unspared ⟨ready, unending⟩
    exact @Loses.asked t _ sbp ⟨loses.fewer, loses.gets⟩ accounted
  | ended overreads descs unready drained listed full =>
    refine Loses.asked ⟨?_, rfl⟩ accounted
    simp only [Transfer.holders, Transfer.reply, held, Option.bind_some, some_parked]
    simp
  | parked overreads descs scheduled unready drained listed left known due =>
    refine Loses.asked ⟨?_, rfl⟩ accounted
    simp only [Transfer.holders, held, Option.bind_some, some_parked]
    simp

theorem fetch_data_accounted (accounted : Accounted t) (held : Descriptor → Bool) :
    Ends Accounted (fun _ => True) ({ t with scheduled := t.scheduled - 1 }.fetchData beyond held) := by
  rcases Option.eq_none_or_eq_some t.pdp with absent | ⟨pdp, present⟩
  · simp only [Transfer.fetchData, Transfer.deref, absent]
    trivial
  refine (fetch_data_fetched (t := { t with scheduled := t.scheduled - 1 }) present held).imp fun after fetched => ?_
  cases fetched with
  | fetched descs after listed known resumed =>
    have empty : ({ pdp with descsStatus := some (fetchedStatus held descs) } : XferData).Lacks →
        Transfer.firstOnStorage (fetchedStatus held descs) = none := by
      rintro (unlisted | ⟨status, known', none_found⟩)
      · cases listed.symm.trans unlisted
        rfl
      · cases known'
        exact none_found
    obtain ⟨holders, gets⟩ := resumed.keeps rfl fun turn mode lacks => by
      have found := turn.2 mode
      rw [empty lacks] at found
      cases found
    refine holders.trans ?_
    simp only [gets]
    simpa only [Accounted, Transfer.holders, present, Option.bind_some] using accounted

theorem xp_fetch_data_cb_accounted (accounted : Accounted t) (underway : Underway t) {index : ℕ} {d : Descriptor}
    (inFlight : t.requested[index]? = some d) (res : Except String (List UInt8)) :
    Ends Accounted (fun _ => True)
      ({ t with requested := t.requested.eraseIdx index }.xpFetchDataCb beyond (res.map fun data => (d, data))) := by
  rcases Option.eq_none_or_eq_some t.pdp with absent | ⟨pdp, held⟩
  · simp only [Transfer.xpFetchDataCb, absent]
    simpa only [ends_ok, Accounted, Transfer.holders, absent] using accounted
  have member := List.mem_of_getElem? inFlight
  obtain ⟨descs, status, fetching⟩ := underway.of_requested held (List.ne_nil_of_mem member)
  have arrives : Ends (Arrived { t with requested := t.requested.eraseIdx index } beyond pdp
      (res.map fun data => (d, data)))
      (fun _ => True) ({ t with requested := t.requested.eraseIdx index }.xpFetchDataCb beyond
        (res.map fun data => (d, data))) := xp_fetch_data_cb_arrived (by exact held) _
  generalize reported : (res.map fun data => (d, data)) = answer at arrives ⊢
  refine arrives.imp fun after arrived => ?_
  cases arrived with
  | noted res err failed unparked =>
    simpa only [Accounted, Transfer.holders, held, Option.bind_some] using accounted
  | told res err sbp failed parked =>
    refine List.Perm.trans ?_ accounted
    simp only [Transfer.holders, Transfer.reply, List.map_append, List.map_singleton, held, Option.bind_some, parked]
    exact (answer_perm _ [] _ sbp).trans (park_perm _ _ sbp).symm
  | stored d' data status' descs' after filled known listed resumed =>
    cases fetching.listed.symm.trans listed
    cases fetching.known.symm.trans known
    have same : d' = d := by
      cases res with
      | error s => cases reported
      | ok data => exact (Prod.ext_iff.mp (Except.ok.inj reported)).1.symm
    subst same
    have within := fetching.within d' member
    have found : ¬ ({ pdp with descsStatus := some (Transfer.arrive d'.id descs status).1 } : XferData).Lacks := by
      rintro (unlisted | ⟨status', known', none_found⟩)
      · cases listed.symm.trans unlisted
        exact absurd within List.not_mem_nil
      · cases known'
        have found := arrive_found d'.id descs status fetching.sized ⟨d', within, rfl⟩
        rw [none_found] at found
        cases found
    obtain ⟨holders, gets⟩ := resumed.keeps rfl fun _ _ => found
    refine holders.trans ?_
    simp only [gets]
    simpa only [Accounted, Transfer.holders, held, Option.bind_some] using accounted

theorem get_chunk_cb_accounted (accounted : Accounted t) {index : ℕ} {read : SpRead}
    (inFlight : t.reads[index]? = some read) (res : Except String (List UInt8))
    (spares : ∀ pdp, t.pdp = some pdp → pdp.xcb ≠ none → SparesParked t pdp beyond (.getChunkCb xferId index res)) :
    Ends Accounted (fun _ => True) ({ t with reads := t.reads.eraseIdx index }.getChunkCb beyond read res) := by
  rcases Option.eq_none_or_eq_some t.pdp with absent | ⟨pdp, held⟩
  · simp only [Transfer.getChunkCb, Transfer.deref, absent]
    trivial
  refine (get_chunk_cb_landed (t := { t with reads := t.reads.eraseIdx index }) held res).imp fun after landed => ?_
  cases landed with
  | failed s after replied =>
    have passes := replied.passes rfl fun parked => by cases (spares pdp held parked).symm.trans inFlight
    refine Passes.read (t := t) ⟨passes.holders.trans ?_, passes.gets⟩ inFlight accounted
    simp only [Transfer.holders, held, Option.bind_some]
    exact .refl _
  | replied status descs data overreads after known listed unchained replied =>
    have passes := replied.passes rfl fun parked =>
      (spares pdp held parked read status descs inFlight known listed).resolve_left unchained
    refine Passes.read (t := t) ⟨passes.holders.trans ?_, passes.gets⟩ inFlight accounted
    simp only [Transfer.holders, held, Option.bind_some, XferData.landed]
    exact .refl _
  | chained status descs data overreads count d known listed chains place counted =>
    refine Passes.read (t := t) ⟨?_, rfl⟩ inFlight accounted
    simp only [Transfer.holders, held, Option.bind_some, XferData.landed, List.map_append, List.map_singleton]
    exact read_perm _ _ _ read.sbp

/-- A storage read that ends the transfer loses the parked request. -/
theorem get_chunk_cb_loses (accounted : Accounted t) (held : t.pdp = some pdp) (parked : pdp.xcb ≠ none) {index : ℕ}
    {read : SpRead} (inFlight : t.reads[index]? = some read) (res : Except String (List UInt8))
    (unspared : ¬ SparesParked t pdp beyond (.getChunkCb xferId index res)) :
    Ends (fun after => ¬ Accounted after) (fun _ => True)
      ({ t with reads := t.reads.eraseIdx index }.getChunkCb beyond read res) := by
  refine (get_chunk_cb_landed (t := { t with reads := t.reads.eraseIdx index }) held res).imp fun after landed => ?_
  have unspared' : ∀ data, res = .ok data → ∀ status descs, pdp.descsStatus = some status → pdp.descs = some descs →
      ¬ (pdp.landed status read data).Chains beyond (status.set read.descNo .done) descs read ∧
        ¬ (pdp.landed status read data).Unending := by
    rintro data rfl status descs known listed
    refine not_or.mp fun spared => unspared ?_
    intro read' status' descs' inFlight' known' listed'
    cases inFlight.symm.trans inFlight'
    cases known.symm.trans known'
    cases listed.symm.trans listed'
    exact spared
  cases landed with
  | failed s after replied =>
    have loses := replied.loses rfl (by exact parked) fun unending => by cases unending.1
    refine Loses.read (t := t) ⟨loses.fewer.trans ?_, loses.gets⟩ inFlight accounted
    simp only [Transfer.holders, held, Option.bind_some]
    exact Nat.le_refl _
  | replied status descs data overreads after known listed unchained replied =>
    have loses := replied.loses rfl (by exact parked) (unspared' data rfl status descs known listed).2
    refine Loses.read (t := t) ⟨loses.fewer.trans ?_, loses.gets⟩ inFlight accounted
    simp only [Transfer.holders, held, Option.bind_some, XferData.landed]
    exact Nat.le_refl _
  | chained status descs data overreads count d known listed chains place counted =>
    exact absurd chains (unspared' data rfl status descs known listed).1

/-! ## Steps -/

/-- Every event of a transfer that spares the parked request. -/
theorem handle_accounted (accounted : Accounted t) (underway : Underway t) {event : Event}
    (spares : ∀ pdp, t.pdp = some pdp → pdp.xcb ≠ none → SparesParked t pdp beyond event) :
    Ends Accounted (fun _ => True) (t.handle beyond stored event) := by
  cases event with
  | getData sbp xferId => exact get_data_accounted accounted spares
  | fetchData xferId =>
    simp only [Transfer.handle]
    split
    · exact accounted
    · exact fetch_data_accounted accounted _
  | xpFetchDataCb xferId index res =>
    simp only [Transfer.handle]
    split
    next => exact accounted
    next d inFlight => exact xp_fetch_data_cb_accounted accounted underway inFlight res
  | getChunkCb xferId index res =>
    simp only [Transfer.handle]
    split
    next => exact accounted
    next read inFlight => exact get_chunk_cb_accounted accounted inFlight res spares
  | getInit | getInitCb | putIchunk => exact accounted

/-- Every other event loses a request. -/
theorem handle_loses (accounted : Accounted t) (held : t.pdp = some pdp) (parked : pdp.xcb ≠ none) {event : Event}
    (unspared : ¬ SparesParked t pdp beyond event) :
    Ends (fun after => ¬ Accounted after) (fun _ => True) (t.handle beyond stored event) := by
  cases event with
  | getData sbp xferId => exact get_data_loses accounted held parked unspared
  | getChunkCb xferId index res =>
    simp only [Transfer.handle]
    split
    next none_here =>
      refine absurd ?_ unspared
      cases res with
      | error s => exact none_here
      | ok data => exact fun read _ _ inFlight => by cases none_here.symm.trans inFlight
    next read inFlight => exact get_chunk_cb_loses accounted held parked inFlight res unspared
  | fetchData | xpFetchDataCb | getInit | getInitCb | putIchunk => exact absurd trivial unspared

theorem step_accounted (stages : Stages xferId g) (accounted : Accounted (g.transfers xferId)) {event : Event}
    (spares : Spares xferId g beyond event) :
    Ends (fun g' => Accounted (g'.transfers xferId)) (fun _ => True) (g.step beyond event) := by
  apply @step_rule _ _ _ Accounted
  case spared => exact fun _ => accounted
  case opened =>
    rintro _ sbp mode hints rfl
    have absent := (stages.unborn (Nat.le_refl _)).absent
    exact accounted.unparked (by rw [absent, Option.bind_none]) rfl _
  case answered => exact fun _ call after awaited answers _ _ _ => accounted.answered stages.underway awaited answers
  case handled =>
    exact fun own => handle_accounted accounted stages.underway (spares own)

theorem step_not_accounted (accounted : Accounted (g.transfers xferId)) {event : Event}
    (unspared : ¬ Spares xferId g beyond event) :
    Ends (fun g' => ¬ Accounted (g'.transfers xferId)) (fun _ => True) (g.step beyond event) := by
  simp only [Spares, Classical.not_imp, not_forall] at unspared
  obtain ⟨own, pdp, held, parked, unspared⟩ := unspared
  rw [step_target own]
  refine (handle_loses accounted held parked unspared).bind fun after lost => ?_
  rw [ends_ok, update_transfers]
  exact lost

/-! ## Runs -/

/-- **Every request is answered once or held by one continuation** in exactly the runs in
which every event spares the parked request. -/
theorem accounted_iff (stored : List UInt8 → Option (List UInt8)) (xferId : XferId)
    (events : List ((ℕ → DescStatus) × Event)) :
    Runs.Always Gtcd.next (fun _ _ g' => Accounted (g'.transfers xferId)) (Gtcd.init stored) events ↔
      Runs.Always Gtcd.next (fun g event _ => Spares xferId g event.1 event.2) (Gtcd.init stored) events := by
  apply @Runs.always_iff _ _ _ _ (fun g => Stages xferId g ∧ Accounted (g.transfers xferId)) _ (fun _ _ => True)
  case initial => exact ⟨init_stages stored xferId, .refl _⟩
  case exact =>
    intro before event after inv _ ran
    refine ⟨fun kept => ?_, fun spares => (step_accounted inv.1 inv.2 spares).of_ok (next_ok ran)⟩
    by_contra unspared
    exact (step_not_accounted inv.2 unspared).of_ok (next_ok ran) kept
  case kept =>
    intro before event after inv _ spares ran
    exact ⟨(step_stages inv.1 event.2).of_ok (next_ok ran),
      (step_accounted inv.1 inv.2 spares).of_ok (next_ok ran)⟩
  case within => exact Runs.Always.trivial

end

/-- A client asks a second time before it has an answer. -/
def asksTwice : List Event :=
  opening [⟨[1], 1⟩] ++ [.getData 1 1, .getData 2 1]

/-- The state after some of its events. -/
def asksAfter (n : ℕ) : Gtcd := ranOn (asksTwice.take n)

/-- The second request takes the place of the first. -/
theorem not_accounted : ¬ ∀ (stored : List UInt8 → Option (List UInt8)) (xferId : XferId)
    (events : List ((ℕ → DescStatus) × Event)),
    Runs.Always Gtcd.next (fun _ _ g' => Accounted (g'.transfers xferId)) (Gtcd.init stored) events := by
  intro claimed
  have ran : ∀ n event, (asksTwice.map fun event => ((fun _ => .unknown : ℕ → DescStatus), event))[n]? = some event →
      Gtcd.next (asksAfter n) event = some (asksAfter (n + 1)) := ran_on_next rfl
  have last := (Runs.always_chain ran).mp (claimed (fun _ => none) 1 _) 3 _ rfl
  have lengths := last.length_eq
  cases lengths

end Ditto.Downloads
