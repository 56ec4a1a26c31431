import Ditto.HandlerOutcomes
import Ditto.StatusRange

/-! The errors of a transfer and its client. An error is kept in the entry until a reply
carries it, and the reply takes the entry out of the table. Every handler that answers
looks at it first but `get_data`, which looks only once it has something to send: a request
that comes between the error and the next chunk is parked. -/
namespace Ditto.Downloads
open XferGtc (Descriptor)
open SendSize (sendSize)
open Outcomes

variable {t after : Transfer} {pdp : XferData} {descs : List Descriptor} {status : List DescStatus}
  {beyond : ℕ → DescStatus} {sbp : Sbp} {stored : List UInt8 → Option (List UInt8)} {g g' : Gtcd} {xferId : XferId}

/-- No request is parked while the transfer has an error. -/
def Unparked (t : Transfer) : Prop :=
  ∀ pdp, t.pdp = some pdp → pdp.err ≠ none → pdp.xcb = none

/-- Without an entry there is no request to resume. -/
theorem Unparked.of_absent (absent : t.pdp = none) : Unparked t := by
  intro pdp held
  rw [absent] at held
  cases held

/-- The error that an event meets: the one it reports, or the one of the entry. -/
def errorMet (t : Transfer) (pdp : XferData) : Event → Option String
  | .xpFetchDataCb _ index res =>
    ((t.requested[index]?).bind fun d => fetchError (res.map fun data => (d, data))).or pdp.err
  | .getChunkCb _ index (.error s) => ((t.reads[index]?).map fun _ => s).or pdp.err
  | _ => pdp.err

/-- The request that is due an answer if an event meets an error: one that comes, the one
that is parked, or the one of the storage read that fails. -/
def answerDue (t : Transfer) (pdp : XferData) : Event → Option Sbp
  | .getData sbp _ => some sbp
  | .xpFetchDataCb _ index res =>
    ((t.requested[index]?).bind fun d => fetchError (res.map fun data => (d, data))).bind fun _ => pdp.xcb
  | .getChunkCb _ index (.error _) => (t.reads[index]?).map (·.sbp)
  | _ => none

/-- Where an event meets an error, it is all that is replied, and the request that is due
an answer gets it. -/
structure Told (event : Event) (t after : Transfer) : Prop where
  alone : ∀ pdp err, t.pdp = some pdp → errorMet t pdp event = some err →
    ∀ reply ∈ after.replies.drop t.replies.length, reply.2 = .error err
  told : ∀ pdp err sbp, t.pdp = some pdp → errorMet t pdp event = some err → answerDue t pdp event = some sbp →
    after.replies = t.replies ++ [(sbp, .error err)]

/-- The errors of a transfer reach its client in a step. -/
structure ErrorReaches (xferId : XferId) (g : Gtcd) (event : Event) (g' : Gtcd) : Prop where
  unparked : Unparked (g'.transfers xferId)
  told : event.target = some xferId → Told event (g.transfers xferId) (g'.transfers xferId)

/-- A request that comes after an error finds something to send. -/
def FindsData (xferId : XferId) (g : Gtcd) (beyond : ℕ → DescStatus) (event : Event) : Prop :=
  ∀ sbp, event = .getData sbp xferId → ∀ pdp, (g.transfers xferId).pdp = some pdp → pdp.err ≠ none →
    pdp.Ready beyond

/-! ## Replies -/

/-- Nothing is replied where nothing is due. -/
theorem Told.silent {event : Event} (same : after.replies = t.replies)
    (undue : ∀ pdp err, t.pdp = some pdp → errorMet t pdp event = some err → answerDue t pdp event = none) :
    Told event t after where
  alone := fun _ _ _ _ reply member => by
    rw [same, List.drop_length] at member
    exact absurd member List.not_mem_nil
  told := fun pdp err sbp held met due => by cases (undue pdp err held met).symm.trans due

/-- The error is the one reply. -/
theorem Told.reply {event : Event} (held : t.pdp = some pdp)
    (replied : ∀ err, errorMet t pdp event = some err → ∃ sbp, after.replies = t.replies ++ [(sbp, .error err)] ∧
      ∀ due, answerDue t pdp event = some due → due = sbp) : Told event t after where
  alone := fun pdp' err held' met reply member => by
    cases held.symm.trans held'
    obtain ⟨sbp, same, _⟩ := replied err met
    rw [same, List.drop_left, List.mem_singleton] at member
    rw [member]
  told := fun pdp' err due held' met answer => by
    cases held.symm.trans held'
    obtain ⟨sbp, same, asked⟩ := replied err met
    rw [same, asked due answer]

section
variable [SendSize]

/-- A reply carries the error, and leaves no entry that has one. -/
theorem Replied.tells (replied : Replied t pdp sbp after) :
    (∀ err, pdp.err = some err → after.replies = t.replies ++ [(sbp, .error err)]) ∧
      ∀ pdp', after.pdp = some pdp' → pdp'.err = none := by
  cases replied with
  | failed err failed =>
    refine ⟨fun err' failed' => ?_, fun pdp' held => by cases held⟩
    cases failed.symm.trans failed'
    rfl
  | ended descs fine listed ending =>
    exact ⟨fun err failed => (by cases fine.symm.trans failed), fun pdp' held => by cases held⟩
  | sent data rest fine cut unending =>
    refine ⟨fun err failed => (by cases fine.symm.trans failed), fun pdp' held => ?_⟩
    cases held
    exact fine

theorem Turned.tells (held : t.pdp = some pdp) (turned : Turned t pdp sbp after) :
    (∀ err, pdp.err = some err → after.replies = t.replies ++ [(sbp, .error err)]) ∧
      ∀ pdp', after.pdp = some pdp' → pdp'.err = none := by
  cases turned with
  | replied overreads after replied => exact replied.tells
  | reads overreads descs status i count offset d fine listed known aimed place =>
    refine ⟨fun err failed => (by cases fine.symm.trans failed), fun pdp' held => ?_⟩
    cases held
    exact fine
  | drops mode fine drained idle =>
    refine ⟨fun err failed => (by cases fine.symm.trans failed), fun pdp' held' => ?_⟩
    cases held.symm.trans held'
    exact fine

/-- A transfer with an error has no request to resume. -/
theorem Resumed.tells {turn : Prop} (held : t.pdp = some pdp) (unparked : pdp.err ≠ none → pdp.xcb = none)
    (resumed : Resumed t pdp turn after) : Unparked after ∧ (pdp.err ≠ none → after.replies = t.replies) := by
  cases resumed with
  | waits overreads idle =>
    refine ⟨fun pdp' held' failed => ?_, fun _ => rfl⟩
    cases held.symm.trans held'
    exact unparked failed
  | turned sbp overreads after parked turned due =>
    have fine : pdp.err = none := by
      by_contra failed
      cases parked.symm.trans (unparked failed)
    refine ⟨fun pdp' held' failed => absurd ((turned.tells rfl).2 pdp' held') failed, ?_⟩
    exact fun failed => absurd fine failed

/-! ## Handlers -/

theorem get_data_told (finds : ∀ pdp, t.pdp = some pdp → pdp.err ≠ none → pdp.Ready beyond) :
    Ends (fun after => Unparked after ∧ Told (.getData sbp xferId) t after) (fun _ => True)
      ({ t with gets := t.gets ++ [sbp] }.getData beyond xferId sbp) := by
  rcases Option.eq_none_or_eq_some t.pdp with absent | ⟨pdp, held⟩
  · simp only [Transfer.getData, absent]
    refine ⟨.of_absent rfl, ⟨fun pdp err held => ?_, fun pdp err sbp held => ?_⟩⟩
    · cases absent.symm.trans held
    · cases absent.symm.trans held
  · refine (get_data_got (t := { t with gets := t.gets ++ [sbp] }) held xferId).imp fun after got => ?_
    cases got with
    | turned overreads after ready turned =>
      have tells := Turned.tells (by exact held) turned
      refine ⟨fun pdp' held' failed => absurd (tells.2 pdp' held') failed, Told.reply held fun err met => ?_⟩
      exact ⟨sbp, tells.1 err met, fun due same => (Option.some.inj same).symm⟩
    | ended overreads descs unready drained listed full =>
      refine ⟨.of_absent rfl, Told.reply held fun err met => ?_⟩
      exact absurd (finds pdp held (by rw [show pdp.err = some err from met]; exact Option.some_ne_none _)) unready
    | parked overreads descs scheduled unready drained listed left known due =>
      have fine : pdp.err = none := by
        by_contra failed
        exact unready (finds pdp held failed)
      refine ⟨fun pdp' held' failed => ?_, Told.reply held fun err met => ?_⟩
      · cases held'
        exact absurd fine failed
      · cases fine.symm.trans met

/-- A request that finds nothing to send does not get the error. -/
theorem get_data_not_told (held : t.pdp = some pdp) (failed : pdp.err ≠ none) (unready : ¬ pdp.Ready beyond) :
    Ends (fun after => ¬ (Unparked after ∧ Told (.getData sbp xferId) t after)) (fun _ => True)
      ({ t with gets := t.gets ++ [sbp] }.getData beyond xferId sbp) := by
  obtain ⟨err, met⟩ := Option.ne_none_iff_exists'.mp failed
  refine (get_data_got (t := { t with gets := t.gets ++ [sbp] }) held xferId).imp fun after got => ?_
  rintro ⟨unparked, told⟩
  cases got with
  | turned overreads after ready turned => exact unready ready
  | ended overreads descs unready drained listed full =>
    have replies := told.told pdp err sbp held met rfl
    have last := List.append_cancel_left replies
    cases last
  | parked overreads descs scheduled unready drained listed left known due =>
    cases unparked _ rfl failed

theorem fetch_data_told (unparked : Unparked t) (held : Descriptor → Bool) :
    Ends (fun after => Unparked after ∧ Told (.fetchData xferId) t after) (fun _ => True)
      ({ t with scheduled := t.scheduled - 1 }.fetchData beyond held) := by
  rcases Option.eq_none_or_eq_some t.pdp with absent | ⟨pdp, present⟩
  · simp only [Transfer.fetchData, Transfer.deref, absent]
    trivial
  · refine (fetch_data_fetched (t := { t with scheduled := t.scheduled - 1 }) present held).imp fun after fetched => ?_
    cases fetched with
    | fetched descs after listed known resumed =>
      have tells := Resumed.tells rfl (by exact unparked pdp present) resumed
      refine ⟨tells.1, ?_⟩
      cases fine : pdp.err with
      | none =>
        refine Told.reply present fun err met => ?_
        cases fine.symm.trans met
      | some err => exact Told.silent (tells.2
          (by rw [show pdp.err = some err from fine]; exact Option.some_ne_none _)) fun _ _ _ _ => rfl

theorem xp_fetch_data_cb_told (unparked : Unparked t) {index : ℕ} {d : Descriptor}
    (inFlight : t.requested[index]? = some d) (res : Except String (List UInt8)) :
    Ends (fun after => Unparked after ∧ Told (.xpFetchDataCb xferId index res) t after) (fun _ => True)
      ({ t with requested := t.requested.eraseIdx index }.xpFetchDataCb beyond (res.map fun data => (d, data))) := by
  rcases Option.eq_none_or_eq_some t.pdp with absent | ⟨pdp, held⟩
  · simp only [Transfer.xpFetchDataCb, absent]
    refine ⟨.of_absent rfl, ⟨fun pdp err held => ?_, fun pdp err sbp held => ?_⟩⟩
    · cases absent.symm.trans held
    · cases absent.symm.trans held
  · have arrives : Ends (Arrived { t with requested := t.requested.eraseIdx index } beyond pdp
        (res.map fun data => (d, data)))
        (fun _ => True) ({ t with requested := t.requested.eraseIdx index }.xpFetchDataCb beyond
          (res.map fun data => (d, data))) := xp_fetch_data_cb_arrived (by exact held) _
    generalize reported : (res.map fun data => (d, data)) = answer at arrives ⊢
    have met : errorMet t pdp (.xpFetchDataCb xferId index res) = (fetchError answer).or pdp.err := by
      simp only [errorMet, inFlight, Option.bind_some, reported]
    have due : answerDue t pdp (.xpFetchDataCb xferId index res) = (fetchError answer).bind fun _ => pdp.xcb := by
      simp only [answerDue, inFlight, Option.bind_some, reported]
    refine arrives.imp fun after arrived => ?_
    cases arrived with
    | noted res' err failed idle =>
      refine ⟨fun pdp' held' _ => ?_, Told.silent rfl fun pdp' err' held' _ => ?_⟩
      · cases held'
        exact idle
      · cases held.symm.trans held'
        rw [due, failed, Option.bind_some, idle]
    | told res' err sbp failed parked =>
      refine ⟨.of_absent rfl, Told.reply held fun err' met' => ⟨sbp, ?_, fun due' same => ?_⟩⟩
      · rw [met, failed, Option.some_or] at met'
        cases met'
        rfl
      · rw [due, failed, Option.bind_some, parked] at same
        exact (Option.some.inj same).symm
    | stored d' data status descs after filled known listed resumed =>
      have unfailed : fetchError (.ok (d', data)) = none := by
        cases data with
        | nil => exact absurd rfl filled
        | cons byte rest => rfl
      have tells := Resumed.tells rfl (by exact unparked pdp held) resumed
      refine ⟨tells.1, ?_⟩
      rw [unfailed, Option.none_or] at met
      cases fine : pdp.err with
      | none =>
        refine Told.reply held fun err met' => ?_
        rw [met] at met'
        cases fine.symm.trans met'
      | some err =>
        refine Told.silent (tells.2 (by rw [show pdp.err = some err from fine]; exact Option.some_ne_none _))
          fun pdp' _ held' _ => ?_
        cases held.symm.trans held'
        rw [due, unfailed, Option.bind_none]

theorem get_chunk_cb_told (unparked : Unparked t) {index : ℕ} {read : SpRead}
    (inFlight : t.reads[index]? = some read) (res : Except String (List UInt8)) :
    Ends (fun after => Unparked after ∧ Told (.getChunkCb xferId index res) t after) (fun _ => True)
      ({ t with reads := t.reads.eraseIdx index }.getChunkCb beyond read res) := by
  rcases Option.eq_none_or_eq_some t.pdp with absent | ⟨pdp, held⟩
  · simp only [Transfer.getChunkCb, Transfer.deref, absent]
    trivial
  · refine (get_chunk_cb_landed (t := { t with reads := t.reads.eraseIdx index }) held res).imp fun after landed => ?_
    cases landed with
    | failed s after replied =>
      have tells := replied.tells
      refine ⟨fun pdp' held' failed => absurd (tells.2 pdp' held') failed, Told.reply held fun err met => ?_⟩
      simp only [errorMet, inFlight, Option.map_some, Option.some_or] at met
      refine ⟨read.sbp, tells.1 err met, fun due same => ?_⟩
      simp only [answerDue, inFlight, Option.map_some] at same
      exact (Option.some.inj same).symm
    | replied status descs data overreads after known listed unchained replied =>
      have tells := replied.tells
      refine ⟨fun pdp' held' failed => absurd (tells.2 pdp' held') failed, Told.reply held fun err met => ?_⟩
      exact ⟨read.sbp, tells.1 err met, fun due same => by cases same⟩
    | chained status descs data overreads count d known listed chains place counted =>
      refine ⟨fun pdp' held' failed => ?_, Told.silent rfl fun _ _ _ _ => rfl⟩
      cases held'
      exact unparked pdp held failed

/-- Every event of a transfer, where a request finds data. -/
theorem handle_told (unparked : Unparked t) {event : Event}
    (finds : ∀ sbp xferId, event = .getData sbp xferId → ∀ pdp, t.pdp = some pdp → pdp.err ≠ none →
      pdp.Ready beyond) :
    Ends (fun after => Unparked after ∧ Told event t after) (fun _ => True) (t.handle beyond stored event) := by
  have idle : (∀ pdp err, t.pdp = some pdp → errorMet t pdp event = some err → answerDue t pdp event = none) →
      Unparked t ∧ Told event t t := fun undue => ⟨unparked, Told.silent rfl undue⟩
  cases event with
  | getData sbp xferId => exact get_data_told (finds sbp xferId rfl)
  | fetchData xferId =>
    simp only [Transfer.handle]
    split
    · exact idle fun _ _ _ _ => rfl
    · exact fetch_data_told unparked _
  | xpFetchDataCb xferId index res =>
    simp only [Transfer.handle]
    split
    next none_here =>
      refine idle fun _ _ _ _ => ?_
      simp only [answerDue, none_here, Option.bind_none]
    next d inFlight => exact xp_fetch_data_cb_told unparked inFlight res
  | getChunkCb xferId index res =>
    simp only [Transfer.handle]
    split
    next none_here =>
      refine idle fun _ _ _ _ => ?_
      cases res with
      | error s => simp only [answerDue, none_here, Option.map_none]
      | ok data => rfl
    next read inFlight => exact get_chunk_cb_told unparked inFlight res
  | getInit | getInitCb | putIchunk => exact idle fun _ _ _ _ => rfl

/-! ## Runs -/

theorem step_error_reaches (unparked : Unparked (g.transfers xferId)) {event : Event}
    (finds : FindsData xferId g beyond event) :
    Ends (ErrorReaches xferId g event) (fun _ => True) (g.step beyond event) := by
  have ends : Ends (fun g' => Unparked (g'.transfers xferId) ∧
      (event.target = some xferId → Told event (g.transfers xferId) (g'.transfers xferId))) (fun _ => True)
      (g.step beyond event) := by
    apply @step_rule _ _ _ fun after => Unparked after ∧
      (event.target = some xferId → Told event (g.transfers xferId) after)
    case spared => exact fun other => ⟨unparked, fun own => absurd own other⟩
    case opened =>
      refine fun other sbp mode hints _ => ⟨fun pdp held failed => ?_, fun own => absurd own other⟩
      cases held
      exact absurd rfl failed
    case answered =>
      intro other call after _ answers _ _ _
      refine ⟨?_, fun own => absurd own other⟩
      cases answers with
      | failed => exact nofun
      | again call => exact unparked
      | listed pdp all held | ended pdp all held =>
        intro pdp' held' failed
        cases held'
        exact unparked pdp held failed
    case handled =>
      intro own
      refine (handle_told unparked fun sbp id same => ?_).imp fun after told => ⟨told.1, fun _ => told.2⟩
      subst same
      cases own
      exact finds sbp rfl
  exact ends.imp fun g' after => ⟨after.1, after.2⟩

/-- A request that finds no data does not get the error. -/
theorem step_not_error_reaches {event : Event} (misses : ¬ FindsData xferId g beyond event) :
    Ends (fun g' => ¬ ErrorReaches xferId g event g') (fun _ => True) (g.step beyond event) := by
  simp only [FindsData, not_forall] at misses
  obtain ⟨sbp, rfl, pdp, held, failed, unready⟩ := misses
  rw [step_target (show Event.target (.getData sbp xferId) = some xferId from rfl)]
  refine (get_data_not_told held failed unready).bind fun after missed => ?_
  rintro ⟨unparked, told⟩
  rw [update_transfers] at unparked told
  exact missed ⟨unparked, told rfl⟩

/-- **The errors of a transfer reach its client** exactly in the runs in which every request
that comes after an error finds data to send. -/
theorem error_reaches_iff (stored : List UInt8 → Option (List UInt8)) (xferId : XferId)
    (events : List ((ℕ → DescStatus) × Event)) :
    Runs.Always Gtcd.next (fun g event g' => ErrorReaches xferId g event.2 g') (Gtcd.init stored) events ↔
      Runs.Always Gtcd.next (fun g event _ => FindsData xferId g event.1 event.2) (Gtcd.init stored) events := by
  apply @Runs.always_iff _ _ _ _ (fun g => Unparked (g.transfers xferId)) _ (fun _ _ => True)
  case initial => exact nofun
  case exact =>
    intro before event after unparked _ ran
    refine ⟨fun reaches => ?_, fun finds => (step_error_reaches unparked finds).of_ok (next_ok ran)⟩
    by_contra misses
    exact (step_not_error_reaches misses).of_ok (next_ok ran) reaches
  case kept =>
    intro before event after unparked _ finds ran
    exact ((step_error_reaches unparked finds).of_ok (next_ok ran)).unparked
  case within => exact Runs.Always.trivial

end

/-- A download of two chunks, the first of them stored: the second fails after the client has
the first, and the client asks again. -/
def failsBetween : List Event :=
  opening [⟨[1], 1⟩, ⟨[2], 1⟩] ++ [.putIchunk [1] [7], .getData 1 1, .fetchData 1, .getChunkCb 1 0 (.ok [7]),
    .xpFetchDataCb 1 0 (.error "unreachable"), .getData 2 1]

/-- The state after some of its events. -/
def failsAfter (n : ℕ) : Gtcd := ranOn (failsBetween.take n)

/-- The last request is parked, and nothing will resume it. -/
theorem not_error_reaches : ¬ ∀ (stored : List UInt8 → Option (List UInt8)) (xferId : XferId)
    (events : List ((ℕ → DescStatus) × Event)),
    Runs.Always Gtcd.next (fun g event _ => AskedInTurn xferId g event.2) (Gtcd.init stored) events →
    Runs.Always Gtcd.next (fun g event g' => ErrorReaches xferId g event.2 g') (Gtcd.init stored) events := by
  intro claimed
  have ran : ∀ n event, (failsBetween.map fun event => ((fun _ => .unknown : ℕ → DescStatus), event))[n]? = some event →
      Gtcd.next (failsAfter n) event = some (failsAfter (n + 1)) := ran_on_next rfl
  have inTurn : Runs.Always Gtcd.next (fun g event _ => AskedInTurn 1 g event.2) (failsAfter 0)
      (failsBetween.map (fun _ => .unknown, ·)) := by
    refine (Runs.always_chain ran).mpr fun n event place => ?_
    match n with
    | 3 | 7 =>
      cases place
      exact fun _ => ⟨rfl, rfl⟩
    | 0 | 1 | 2 | 4 | 5 | 6 =>
      cases place
      trivial
  have last := (Runs.always_chain ran).mp (claimed (fun _ => none) 1 _ inTurn) 7 _ rfl
  have parked : ((failsAfter 8).transfers 1).pdp.bind (·.xcb) = some 2 := rfl
  have failed : ((failsAfter 8).transfers 1).pdp.bind (·.err) = some "unreachable" := rfl
  obtain ⟨pdp, held, _⟩ := Option.bind_eq_some_iff.mp parked
  rw [held, Option.bind_some] at parked failed
  have unparked := last.unparked pdp held (by rw [failed]; nofun)
  cases parked.symm.trans unparked

end Ditto.Downloads
