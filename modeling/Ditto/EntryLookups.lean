import Ditto.References
import Ditto.RequestHolding

/-! Where a download looks its entry up. A handler takes the entry out of the table with a
reply; a callback that is pending then finds none. -/
namespace Ditto.Downloads
open XferGtc (Descriptor)
open SendSize (sendSize)
open Outcomes

variable {t after : Transfer} {pdp : XferData} {descs : List Descriptor} {status : List DescStatus}
  {beyond : ℕ → DescStatus} {sbp : Sbp} {stored : List UInt8 → Option (List UInt8)} {xferId : XferId} {read : SpRead}

/-- A callback that will look the entry up is pending. -/
def Transfer.Pending (t : Transfer) : Prop :=
  t.reads ≠ [] ∨ t.scheduled ≠ 0 ∨ t.opening ≠ none

/-- A callback is pending for an entry that is not in the table. -/
def Transfer.Stray (t : Transfer) : Prop := t.pdp = none ∧ t.Pending

/-- A transfer without the callback that an event is. -/
def Transfer.without (t : Transfer) : Event → Transfer
  | .fetchData _ => { t with scheduled := t.scheduled - 1 }
  | .getChunkCb _ index _ => { t with reads := t.reads.eraseIdx index }
  | _ => t

section
variable [SendSize]

/-- An event takes the entry out of the table. -/
def Leaves (t : Transfer) (pdp : XferData) (beyond : ℕ → DescStatus) : Event → Prop
  | .getData _ _ => pdp.Ready beyond ∧ pdp.Due ∧ ¬ pdp.Unending ∨
      ¬ pdp.Ready beyond ∧ ∃ descs, pdp.descs = some descs ∧ pdp.descsXfered = descs.length
  | .xpFetchDataCb _ index (.ok (_ :: _)) => ∃ d descs status, t.requested[index]? = some d ∧
      pdp.descs = some descs ∧ pdp.descsStatus = some status ∧
      pdp.Resumes beyond (Transfer.arrive d.id descs status).1 ∧ pdp.Due ∧ ¬ pdp.Unending
  | .xpFetchDataCb _ index _ => index < t.requested.length ∧ pdp.xcb ≠ none
  | .getChunkCb _ index (.error _) => index < t.reads.length
  | .getChunkCb _ index (.ok data) => ∃ read descs status, t.reads[index]? = some read ∧
      pdp.descs = some descs ∧ pdp.descsStatus = some status ∧
      ¬ (pdp.landed status read data).Chains beyond (status.set read.descNo .done) descs read ∧
      ¬ (pdp.landed status read data).Unending
  | _ => False

/-- What an event must find and leave of an entry: a request finds the statuses set, the entry
leaves the table with nothing pending for it, and a parked request is spared. -/
structure Minds (t : Transfer) (pdp : XferData) (beyond : ℕ → DescStatus) (event : Event) : Prop where
  finds : ∀ sbp xferId, event = .getData sbp xferId → pdp.descsStatus ≠ none
  leaves : Leaves t pdp beyond event → ¬ (t.without event).Pending
  spares : pdp.xcb ≠ none → SparesParked t pdp beyond event

end

theorem Transfer.settled (settled : ¬ t.Stray) (absent : t.pdp = none) :
    t.reads = [] ∧ t.scheduled = 0 ∧ t.opening = none := by
  have none_pending : ¬ t.Pending := fun pending => settled ⟨absent, pending⟩
  simpa only [Transfer.Pending, not_or, not_not] using none_pending

theorem Transfer.held_not_stray (held : t.pdp = some pdp) : ¬ t.Stray := fun stray => by
  cases held.symm.trans stray.1

section
variable [SendSize]

/-! ## Entries that leave the table -/

theorem Replied.stray_iff (replied : Replied t pdp sbp after) : after.Stray ↔ ¬ pdp.Unending ∧ t.Pending := by
  cases replied with
  | failed err failed =>
    have ending : ¬ pdp.Unending := fun unending => by cases failed.symm.trans unending.1
    exact ⟨fun stray => ⟨ending, stray.2⟩, fun pending => ⟨rfl, pending.2⟩⟩
  | ended descs fine listed ending =>
    have ending : ¬ pdp.Unending := fun unending => unending.2 descs listed ending
    exact ⟨fun stray => ⟨ending, stray.2⟩, fun pending => ⟨rfl, pending.2⟩⟩
  | sent data rest fine cut unending =>
    exact iff_of_false (fun stray => by cases stray.1) fun ending => ending.1 ⟨fine, unending⟩

theorem Turned.stray_iff (turned : Turned t pdp sbp after) (held : t.pdp = some pdp) :
    after.Stray ↔ pdp.Due ∧ ¬ pdp.Unending ∧ t.Pending := by
  cases turned with
  | replied overreads after replied due =>
    have stray := replied.stray_iff
    exact stray.trans ⟨fun ends => ⟨due, ends⟩, fun ends => ends.2⟩
  | reads overreads descs status i count offset d fine listed known aimed place =>
    refine iff_of_false (fun stray => by cases stray.1) fun ends => ?_
    cases aimed with
    | next mode left =>
      refine ends.2.1 ⟨fine, fun descs' listed' ended => ?_⟩
      cases listed.symm.trans listed'
      exact left ended.1
    | first _ mode drained found => exact ends.1 mode fine drained
  | drops mode fine drained idle =>
    exact iff_of_false (Transfer.held_not_stray held) fun ends => ends.1 mode fine drained

theorem Resumed.stray_iff {turn : Prop} (resumed : Resumed t pdp turn after) (held : t.pdp ≠ none) :
    after.Stray ↔ turn ∧ pdp.Due ∧ ¬ pdp.Unending ∧ t.Pending := by
  cases resumed with
  | waits overreads idle => exact iff_of_false (fun stray => held stray.1) fun ends => idle ends.1
  | turned sbp overreads after parked turned due =>
    have stray := turned.stray_iff rfl
    exact stray.trans ⟨fun ends => ⟨due, ends⟩, fun ends => ends.2⟩

theorem get_data_stray (held : t.pdp = some pdp) (xferId : XferId) :
    Ends (fun after => after.Stray ↔ Leaves t pdp beyond (.getData sbp xferId) ∧ t.Pending) (fun _ => True)
      ({ t with gets := t.gets ++ [sbp] }.getData beyond xferId sbp) := by
  refine (get_data_got (t := { t with gets := t.gets ++ [sbp] }) held xferId).imp fun after got => ?_
  cases got with
  | turned overreads after ready turned =>
    have stray := turned.stray_iff held
    refine stray.trans ⟨fun ends => ⟨.inl ⟨ready, ends.1, ends.2.1⟩, ends.2.2⟩, fun ends => ?_⟩
    obtain ⟨⟨_, due, ending⟩ | ⟨unready, _⟩, pending⟩ := ends
    · exact ⟨due, ending, pending⟩
    · exact absurd ready unready
  | ended overreads descs unready drained listed full =>
    exact ⟨fun stray => ⟨.inr ⟨unready, descs, listed, full⟩, stray.2⟩, fun ends => ⟨rfl, ends.2⟩⟩
  | parked overreads descs scheduled unready drained listed left known due =>
    refine iff_of_false (fun stray => by cases stray.1) fun ends => ?_
    obtain ⟨⟨ready, _⟩ | ⟨_, descs', listed', full⟩, _⟩ := ends
    · exact unready ready
    · cases listed.symm.trans listed'
      exact left full

/-- The fetch ends no transfer. -/
theorem fetch_data_stray (waiting : Waiting t pdp descs) (due : t.scheduled ≠ 0) (held : Descriptor → Bool) :
    Ends (fun after => ¬ after.Stray) (fun _ => True)
      ({ t with scheduled := t.scheduled - 1 }.fetchData beyond held) := by
  refine (fetch_data_fetched (t := { t with scheduled := t.scheduled - 1 }) waiting.held held).imp
    fun after fetched => ?_
  cases fetched with
  | fetched descs' after listed known resumed =>
    cases waiting.listed.symm.trans listed
    intro stray
    obtain ⟨_, full, ending, _⟩ := (resumed.stray_iff nofun).mp stray
    refine ending ⟨waiting.fine, fun descs' listed' ended => ?_⟩
    cases listed.symm.trans listed'
    refine waiting.wanted (waiting.fetches due) (List.length_eq_zero_iff.mp ?_)
    exact ended.1.symm.trans waiting.uncounted

theorem xp_fetch_data_cb_stray (held : t.pdp = some pdp) {index : ℕ} {d : Descriptor}
    (inFlight : t.requested[index]? = some d) (res : Except String (List UInt8)) :
    Ends (fun after => after.Stray ↔ Leaves t pdp beyond (.xpFetchDataCb xferId index res) ∧ t.Pending)
      (fun _ => True)
      ({ t with requested := t.requested.eraseIdx index }.xpFetchDataCb beyond (res.map fun data => (d, data))) := by
  have inside := (List.getElem?_eq_some_iff.mp inFlight).1
  have arrives : Ends (Arrived { t with requested := t.requested.eraseIdx index } beyond pdp
      (res.map fun data => (d, data))) (fun _ => True) ({ t with
        requested := t.requested.eraseIdx index }.xpFetchDataCb beyond (res.map fun data => (d, data))) :=
    xp_fetch_data_cb_arrived (by exact held) _
  have failing : ∀ err, fetchError (res.map fun data => (d, data)) = some err →
      (Leaves t pdp beyond (.xpFetchDataCb xferId index res) ↔ pdp.xcb ≠ none) := by
    intro err failed
    match res with
    | .error s | .ok [] => exact ⟨fun leaves => leaves.2, fun parked => ⟨inside, parked⟩⟩
    | .ok (byte :: rest) => cases failed
  generalize reported : (res.map fun data => (d, data)) = answer at arrives failing ⊢
  refine arrives.imp fun after arrived => ?_
  cases arrived with
  | noted res err failed unparked =>
    rw [failing err failed]
    exact iff_of_false (fun stray => by cases stray.1) fun ends => ends.1 unparked
  | told res err sbp failed parked =>
    rw [failing err failed, parked]
    exact ⟨fun stray => ⟨nofun, stray.2⟩, fun ends => ⟨rfl, ends.2⟩⟩
  | stored d' data status descs after filled known listed resumed =>
    have stray := resumed.stray_iff nofun
    match res with
    | .error s => cases reported
    | .ok [] =>
      cases reported
      exact absurd rfl filled
    | .ok (byte :: rest) =>
      cases reported
      refine stray.trans ⟨fun ends => ?_, fun ends => ?_⟩
      · exact ⟨⟨d, descs, status, inFlight, listed, known, ends.1, ends.2.1, ends.2.2.1⟩, ends.2.2.2⟩
      · obtain ⟨⟨d', descs', status', inFlight', listed', known', turn, due, ending⟩, pending⟩ := ends
        cases inFlight.symm.trans inFlight'
        cases listed.symm.trans listed'
        cases known.symm.trans known'
        exact ⟨turn, due, ending, pending⟩

theorem get_chunk_cb_stray (held : t.pdp = some pdp) {index : ℕ} (inFlight : t.reads[index]? = some read)
    (res : Except String (List UInt8)) :
    Ends (fun after => after.Stray ↔ Leaves t pdp beyond (.getChunkCb xferId index res) ∧
        { t with reads := t.reads.eraseIdx index }.Pending) (fun _ => True)
      ({ t with reads := t.reads.eraseIdx index }.getChunkCb beyond read res) := by
  have inside := (List.getElem?_eq_some_iff.mp inFlight).1
  refine (get_chunk_cb_landed (t := { t with reads := t.reads.eraseIdx index }) held res).imp fun after landed => ?_
  cases landed with
  | failed s after replied =>
    have stray := replied.stray_iff
    exact stray.trans ⟨fun ends => ⟨inside, ends.2⟩, fun ends => ⟨fun unending => (by cases unending.1), ends.2⟩⟩
  | replied status descs data overreads after known listed unchained replied =>
    have stray := replied.stray_iff
    refine stray.trans ⟨fun ends => ?_, fun ends => ?_⟩
    · exact ⟨⟨read, descs, status, inFlight, listed, known, unchained, ends.1⟩, ends.2⟩
    · obtain ⟨⟨read', descs', status', inFlight', listed', known', _, ending⟩, pending⟩ := ends
      cases inFlight.symm.trans inFlight'
      cases known.symm.trans known'
      exact ⟨ending, pending⟩
  | chained status descs data overreads count d known listed chains place counted =>
    refine iff_of_false (fun stray => by cases stray.1) fun ends => ?_
    obtain ⟨⟨read', descs', status', inFlight', listed', known', unchained, _⟩, _⟩ := ends
    cases inFlight.symm.trans inFlight'
    cases listed.symm.trans listed'
    cases known.symm.trans known'
    exact unchained chains

/-- A request for statuses that are not set stops the daemon, or its entry leaves the table
before GET_INIT is answered. -/
theorem get_data_unset (held : t.pdp = some pdp) (unknown : pdp.descsStatus = none) (drained : pdp.buf = [])
    (uncounted : pdp.descsXfered = 0) (awaited : pdp.descs ≠ none → t.opening ≠ none) (xferId : XferId) :
    Ends Transfer.Stray (fun _ => True) ({ t with gets := t.gets ++ [sbp] }.getData beyond xferId sbp) := by
  refine (get_data_got (t := { t with gets := t.gets ++ [sbp] }) held xferId).imp fun after got => ?_
  cases got with
  | turned overreads after ready turned =>
    obtain more | ⟨status, known, _⟩ := ready
    · exact absurd drained more
    · cases unknown.symm.trans known
  | ended overreads descs unready _ listed full =>
    refine ⟨rfl, .inr (.inr (awaited ?_))⟩
    rw [listed]
    nofun
  | parked overreads descs scheduled unready _ listed left known due =>
    have some_listed : descs ≠ [] := by
      rintro rfl
      exact left uncounted
    obtain ⟨status, known⟩ := known some_listed
    cases unknown.symm.trans known

/-! ## Events of a download -/

/-- An event that minds its entry leaves no callback pending without one. -/
theorem handle_settled (underway : Underway t) (settled : ¬ t.Stray) {event : Event}
    (minds : ∀ pdp, t.pdp = some pdp → Minds t pdp beyond event) :
    Ends (fun after => ¬ after.Stray) (fun _ => True) (t.handle beyond stored event) := by
  cases event with
  | getData sbp xferId =>
    rcases Option.eq_none_or_eq_some t.pdp with absent | ⟨pdp, held⟩
    · simp only [Transfer.handle, Transfer.getData, absent]
      exact fun stray => settled ⟨absent, stray.2⟩
    · refine (get_data_stray held xferId).imp fun after stray ends => ?_
      have leaves := stray.mp ends
      exact (minds pdp held).leaves leaves.1 leaves.2
  | fetchData xferId =>
    simp only [Transfer.handle]
    split
    next => exact settled
    next due =>
      rcases Option.eq_none_or_eq_some t.pdp with absent | ⟨pdp, held⟩
      · exact absurd (Transfer.settled settled absent).2.1 due
      obtain ⟨descs, waiting⟩ := underway.of_scheduled held due
      exact fetch_data_stray waiting due _
  | xpFetchDataCb xferId index res =>
    simp only [Transfer.handle]
    split
    next => exact settled
    next d inFlight =>
      rcases Option.eq_none_or_eq_some t.pdp with absent | ⟨pdp, held⟩
      · simp only [Transfer.xpFetchDataCb, absent]
        exact fun stray => settled ⟨absent, stray.2⟩
      have strays : Ends (fun after : Transfer => after.Stray ↔
          Leaves t pdp beyond (.xpFetchDataCb xferId index res) ∧ t.Pending)
        (fun _ => True) _ := xp_fetch_data_cb_stray held inFlight res
      refine strays.imp fun after stray ends => ?_
      have leaves := stray.mp ends
      exact (minds pdp held).leaves leaves.1 leaves.2
  | getChunkCb xferId index res =>
    simp only [Transfer.handle]
    split
    next => exact settled
    next read inFlight =>
      have reading : t.reads ≠ [] := List.ne_nil_of_mem (List.mem_of_getElem? inFlight)
      rcases Option.eq_none_or_eq_some t.pdp with absent | ⟨pdp, held⟩
      · exact absurd (Transfer.settled settled absent).1 reading
      have strays : Ends (fun after : Transfer => after.Stray ↔ Leaves t pdp beyond (.getChunkCb xferId index res) ∧
        { t with reads := t.reads.eraseIdx index }.Pending) (fun _ => True) _ := get_chunk_cb_stray held inFlight res
      refine strays.imp fun after stray ends => ?_
      have leaves := stray.mp ends
      exact (minds pdp held).leaves leaves.1 leaves.2
  | getInit | getInitCb | putIchunk => exact settled

/-- An entry that leaves the table with a callback pending is missed. -/
theorem handle_stray (held : t.pdp = some pdp) {event : Event} (leaves : Leaves t pdp beyond event)
    (pending : (t.without event).Pending) :
    Ends Transfer.Stray (fun _ => True) (t.handle beyond stored event) := by
  cases event with
  | getData sbp xferId => exact (get_data_stray held xferId).imp fun after stray => stray.mpr ⟨leaves, pending⟩
  | xpFetchDataCb xferId index res =>
    simp only [Transfer.handle]
    split
    next none_here =>
      have outside := List.getElem?_eq_none_iff.mp none_here
      cases res with
      | error s => exact absurd leaves.1 (Nat.not_lt.mpr outside)
      | ok data =>
        cases data with
        | nil => exact absurd leaves.1 (Nat.not_lt.mpr outside)
        | cons byte rest =>
          obtain ⟨d, _, _, inFlight, _⟩ := leaves
          cases none_here.symm.trans inFlight
    next d inFlight =>
      exact (xp_fetch_data_cb_stray held inFlight res).imp fun after stray => stray.mpr ⟨leaves, pending⟩
  | getChunkCb xferId index res =>
    simp only [Transfer.handle]
    split
    next none_here =>
      have outside := List.getElem?_eq_none_iff.mp none_here
      cases res with
      | error s => exact absurd leaves (Nat.not_lt.mpr outside)
      | ok data =>
        obtain ⟨read, _, _, inFlight, _⟩ := leaves
        cases none_here.symm.trans inFlight
    next read inFlight =>
      exact (get_chunk_cb_stray held inFlight res).imp fun after stray => stray.mpr ⟨leaves, pending⟩
  | fetchData | getInit | getInitCb | putIchunk => exact leaves.elim

/-! ## The GET_INIT in flight -/

theorem Replied.opening (replied : Replied t pdp sbp after) : after.opening = t.opening := by
  cases replied <;> rfl

theorem Turned.opening (turned : Turned t pdp sbp after) : after.opening = t.opening := by
  cases turned with
  | replied overreads after replied due => exact replied.opening
  | reads => rfl
  | drops => rfl

theorem Resumed.opening {turn : Prop} (resumed : Resumed t pdp turn after) : after.opening = t.opening := by
  cases resumed with
  | waits overreads idle => rfl
  | turned sbp overreads after parked turned due => exact turned.opening

/-- The handlers of a transfer leave its GET_INIT alone. -/
theorem handle_opening (t : Transfer) (event : Event) :
    Ends (fun after => after.opening = t.opening) (fun _ => True) (t.handle beyond stored event) := by
  rcases Option.eq_none_or_eq_some t.pdp with absent | ⟨pdp, held⟩
  · cases event with
    | getData sbp xferId =>
      simp only [Transfer.handle, Transfer.getData, absent]
      rfl
    | fetchData xferId =>
      simp only [Transfer.handle, Transfer.fetchData, Transfer.deref, absent]
      split
      · rfl
      · trivial
    | xpFetchDataCb xferId index res =>
      simp only [Transfer.handle, Transfer.xpFetchDataCb, absent]
      split <;> rfl
    | getChunkCb xferId index res =>
      simp only [Transfer.handle, Transfer.getChunkCb, Transfer.deref, absent]
      split
      · rfl
      · trivial
    | getInit | getInitCb | putIchunk => rfl
  cases event with
  | getData sbp xferId =>
    refine (get_data_got (t := { t with gets := t.gets ++ [sbp] }) held xferId).imp fun after got => ?_
    cases got with
    | turned overreads after ready turned => exact turned.opening
    | ended => rfl
    | parked => rfl
  | fetchData xferId =>
    simp only [Transfer.handle]
    split
    · rfl
    refine (fetch_data_fetched (t := { t with scheduled := t.scheduled - 1 }) held _).imp fun after fetched => ?_
    cases fetched with
    | fetched descs after listed known resumed => exact resumed.opening
  | xpFetchDataCb xferId index res =>
    simp only [Transfer.handle]
    split
    next => rfl
    next d inFlight =>
      generalize (res.map fun data => (d, data)) = answer
      refine (xp_fetch_data_cb_arrived (t := { t with requested := t.requested.eraseIdx index }) held answer).imp
        fun after arrived => ?_
      cases arrived with
      | noted => rfl
      | told => rfl
      | stored d data status descs after filled known listed resumed => exact resumed.opening
  | getChunkCb xferId index res =>
    simp only [Transfer.handle]
    split
    next => rfl
    next read inFlight =>
      refine (get_chunk_cb_landed (t := { t with reads := t.reads.eraseIdx index }) held res).imp fun after landed => ?_
      cases landed with
      | failed s after replied => exact replied.opening
      | replied status descs data overreads after known listed unchained replied => exact replied.opening
      | chained => rfl
  | getInit | getInitCb | putIchunk => rfl

end
end Ditto.Downloads
