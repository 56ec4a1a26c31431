import Mathlib.Data.List.Count
import Mathlib.Data.List.Perm.Basic
import Ditto.Underway
import Ditto.StatusRange

/-! The references a transfer holds on its chunks. It takes one for each descriptor, when
its fetch finds the chunk or when the chunk arrives, and gives them back only where the last
reply is sent: an error and the end that `get_data` finds leave them taken, and the last
reply may come before the last chunk. -/
namespace Ditto.Downloads
open XferGtc (Descriptor)
open SendSize (sendSize)
open Outcomes

variable {t after : Transfer} {pdp : XferData} {descs : List Descriptor} {status : List DescStatus}
  {beyond : ℕ → DescStatus} {sbp : Sbp} {stored : List UInt8 → Option (List UInt8)} {g g' : Gtcd} {xferId : XferId}

/-- The chunk id that a call of the storage takes a reference on. -/
def SpOp.takes : SpOp → Option (List UInt8)
  | .incChunkRefcount d => some d.id
  | .putIchunk d _ => some d.id
  | .releaseIchunk _ => none

/-- The chunk id that it gives a reference back on. -/
def SpOp.gives : SpOp → Option (List UInt8)
  | .releaseIchunk d => some d.id
  | _ => none

/-- The references that a transfer took. -/
def Transfer.taken (t : Transfer) : List (List UInt8) := t.spOps.filterMap SpOp.takes

/-- The references that it gave back. -/
def Transfer.given (t : Transfer) : List (List UInt8) := t.spOps.filterMap SpOp.gives

/-- Where a transfer leaves the table it has given back on each chunk what it took. -/
def Returned (t after : Transfer) : Prop :=
  t.pdp ≠ none → after.pdp = none → ∀ id, after.taken.count id = after.given.count id

/-- A chunk that arrives is taken: it has a place before the first that has it already. -/
def Taken (t : Transfer) (pdp : XferData) : Event → Prop
  | .xpFetchDataCb _ index (.ok (_ :: _)) => ∀ d descs status, t.requested[index]? = some d →
      pdp.descs = some descs → pdp.descsStatus = some status → (Transfer.arrive d.id descs status).2 = true
  | _ => True

/-- Out of order, an entry without an error has something in its buffer. -/
def XferData.Due (pdp : XferData) : Prop :=
  pdp.xmode = .outOfOrder → pdp.err = none → pdp.buf ≠ []

section
variable [SendSize]

/-- A reply leaves nothing taken: an error is answered where nothing was taken yet, and the
last reply where no chunk is still to come. -/
structure Fits (t : Transfer) (pdp : XferData) (descs coming : List Descriptor) : Prop where
  failing : pdp.err ≠ none → t.spOps = []
  ending : pdp.err = none → pdp.Ending descs → coming = []

/-- Every reply of an event leaves nothing taken. The end that `get_data` finds comes where
nothing was taken, and no error is answered with an arrival that was taken. -/
def Balances (t : Transfer) (pdp : XferData) (beyond : ℕ → DescStatus) : Event → Prop
  | .getData _ _ => ∀ descs, pdp.descs = some descs →
      (pdp.Ready beyond → pdp.Due → Fits t pdp descs t.requested) ∧
      (¬ pdp.Ready beyond → pdp.descsXfered = descs.length → t.spOps = [])
  | .xpFetchDataCb _ index (.ok (_ :: _)) => ∀ d descs status, t.requested[index]? = some d →
      pdp.descs = some descs → pdp.descsStatus = some status →
      pdp.Resumes beyond (Transfer.arrive d.id descs status).1 →
      pdp.err = none ∧ (pdp.Due → pdp.Ending descs → t.requested.eraseIdx index = [])
  | .xpFetchDataCb _ index _ => index < t.requested.length → pdp.xcb ≠ none → t.spOps = []
  | .getChunkCb _ index (.error _) => index < t.reads.length → t.spOps = []
  | .getChunkCb _ index (.ok data) => ∀ read descs status, t.reads[index]? = some read →
      pdp.descs = some descs → pdp.descsStatus = some status →
      ¬ (pdp.landed status read data).Chains beyond (status.set read.descNo .done) descs read →
      Fits t (pdp.landed status read data) descs t.requested
  | _ => True

/-- An event of a transfer in the table keeps its references in balance. -/
def KeepsBalance (xferId : XferId) (g : Gtcd) (beyond : ℕ → DescStatus) (event : Event) : Prop :=
  event.target = some xferId → ∀ pdp, (g.transfers xferId).pdp = some pdp →
    Balances (g.transfers xferId) pdp beyond event

end

/-- A chunk that arrives for a transfer in the table is taken. -/
def Takes (xferId : XferId) (g : Gtcd) (event : Event) : Prop :=
  event.target = some xferId → ∀ pdp, (g.transfers xferId).pdp = some pdp → Taken (g.transfers xferId) pdp event

/-! ## The books -/

/-- A transfer has given nothing back, and has taken a reference for each descriptor whose
chunk is not still to come. -/
structure Booked (t : Transfer) (pdp : XferData) (descs coming : List Descriptor) : Prop where
  ungiven : t.given = []
  owed : pdp.err = none → (t.taken ++ coming.map (·.id)).Perm (descs.map (·.id))

/-- The books of a transfer whose fetch has run. -/
def Books (t : Transfer) : Prop :=
  ∀ pdp descs status, Fetching t pdp descs status → Booked t pdp descs t.requested

/-- What a handler leaves: what was taken is given back, or it is on the books. -/
structure InBalance (descs coming : List Descriptor) (t : Transfer) : Prop where
  returned : t.pdp = none → t.taken.Perm t.given
  booked : ∀ pdp, t.pdp = some pdp → pdp.descs = some descs ∧ Booked t pdp descs coming

/-- A transfer has left the table with references. -/
structure OutOfBalance (t : Transfer) : Prop where
  absent : t.pdp = none
  unreturned : ¬ t.taken.Perm t.given

theorem Returned.of_perm (returned : after.pdp = none → after.taken.Perm after.given) : Returned t after :=
  fun _ absent id => (returned absent).count_eq id

theorem OutOfBalance.not_returned (out : OutOfBalance after) (held : t.pdp = some pdp) : ¬ Returned t after := by
  intro returned
  refine out.unreturned (List.perm_iff_count.mpr (returned ?_ out.absent))
  rw [held]
  nofun

theorem InBalance.books {coming : List Descriptor} (balance : InBalance descs coming after)
    (same : after.requested = coming) : Returned t after ∧ Books after := by
  refine ⟨.of_perm balance.returned, fun pdp descs' status fetching => ?_⟩
  obtain ⟨listed, booked⟩ := balance.booked pdp fetching.held
  cases listed.symm.trans fetching.listed
  rwa [same]

theorem InBalance.request {coming : List Descriptor} (balance : InBalance descs coming t) (requested : List Descriptor) :
    InBalance descs coming { t with requested := requested } where
  returned := balance.returned
  booked := fun pdp held => by
    obtain ⟨listed, booked⟩ := balance.booked pdp held
    exact ⟨listed, booked.ungiven, booked.owed⟩

theorem Untouched.given_back (untouched : Untouched t) : t.taken = [] ∧ t.given = [] := by
  simp [Transfer.taken, Transfer.given, untouched.untaken]

/-- Before its fetch all chunks of a transfer are still to come. -/
theorem Waiting.booked (waiting : Waiting t pdp descs) : Booked t pdp descs descs := by
  obtain ⟨untaken, ungiven⟩ := waiting.given_back
  refine ⟨ungiven, fun _ => ?_⟩
  rw [untaken, List.nil_append]

/-- Where nothing was given back, a call has taken something. -/
theorem unbalanced_of_called (called : t.spOps ≠ []) (ungiven : t.given = []) : ¬ t.taken.Perm t.given := by
  intro balanced
  rw [ungiven] at balanced
  have untaken := balanced.eq_nil
  obtain ⟨op, member⟩ := List.exists_mem_of_ne_nil _ called
  simp only [Transfer.taken, Transfer.given, List.filterMap_eq_nil_iff] at untaken ungiven
  cases op with
  | incChunkRefcount d => cases untaken _ member
  | putIchunk d data => cases untaken _ member
  | releaseIchunk d => cases ungiven _ member

theorem released_descs (descs : List Descriptor) :
    (descs.map SpOp.releaseIchunk).filterMap SpOp.takes = [] ∧
      (descs.map SpOp.releaseIchunk).filterMap SpOp.gives = descs.map (·.id) := by
  constructor
  · simp [List.filterMap_map, Function.comp_def, SpOp.takes]
  · simp [List.filterMap_map, Function.comp_def, SpOp.gives]

/-- A chunk that was asked for is taken where it is stored. -/
theorem Booked.arrived (booked : Booked t pdp descs t.requested) {index : ℕ} {d : Descriptor}
    (inFlight : t.requested[index]? = some d) (data : List UInt8) (entry : Option XferData) (status : List DescStatus) :
    Booked { t with
      requested := t.requested.eraseIdx index
      pdp := entry
      spOps := t.spOps ++ [.putIchunk d data] } { pdp with descsStatus := some status } descs
      (t.requested.eraseIdx index) := by
  refine ⟨?_, fun fine => ?_⟩
  · have ungiven : t.spOps.filterMap SpOp.gives = [] := booked.ungiven
    simp [Transfer.given, ungiven, SpOp.gives]
  · have split : (d.id :: (t.requested.eraseIdx index).map (·.id)).Perm (t.requested.map (·.id)) := by
      obtain ⟨inside, rfl⟩ := List.getElem?_eq_some_iff.mp inFlight
      exact (List.getElem_cons_eraseIdx_perm inside).map (·.id)
    refine .trans ?_ (booked.owed fine)
    simp only [Transfer.taken, List.filterMap_append, List.filterMap_cons, List.filterMap_nil, SpOp.takes,
      List.append_assoc, List.singleton_append]
    exact split.append_left _

/-- An answer to GET_INIT comes before anything is taken. -/
theorem Underway.answered_balance (underway : Underway t) {call : InitCall} (awaited : t.opening = some call)
    (answers : InitAnswered t after) : Returned t after ∧ Books after := by
  cases answers with
  | failed =>
    refine ⟨fun present _ id => ?_, fun _ _ _ fetching => by cases fetching.held⟩
    obtain ⟨pdp, held⟩ := Option.ne_none_iff_exists'.mp present
    obtain ⟨untaken, ungiven⟩ := (underway.of_awaited held awaited).given_back
    simp only [Transfer.taken, Transfer.given] at untaken ungiven ⊢
    rw [untaken, ungiven]
  | again call => exact ⟨fun present absent => absurd absent present, fun _ _ _ fetching => by cases fetching.opened⟩
  | listed pdp all held =>
    exact ⟨fun _ => nofun, fun _ _ _ fetching => by cases awaited.symm.trans fetching.opened⟩
  | ended pdp all held =>
    refine ⟨fun _ => nofun, fun pdp' _ _ fetching => ?_⟩
    cases fetching.held
    cases (underway.of_awaited held awaited).idle.1.symm.trans fetching.fetching

section
variable [SendSize] {coming : List Descriptor}

/-! ## Replies and reads -/

theorem Replied.in_balance (replied : Replied t pdp sbp after) (listed : pdp.descs = some descs)
    (booked : Booked t pdp descs coming) (fits : Fits t pdp descs coming) : InBalance descs coming after := by
  cases replied with
  | failed err failed =>
    refine ⟨fun _ => ?_, fun _ held => by cases held⟩
    have untaken := fits.failing (by rw [failed]; exact Option.some_ne_none _)
    simp only [Transfer.taken, Transfer.given, Transfer.reply, untaken]
    exact .refl _
  | ended descs' fine listed' ending =>
    cases listed.symm.trans listed'
    refine ⟨fun _ => ?_, fun _ held => by cases held⟩
    have owed := booked.owed fine
    have ungiven : t.spOps.filterMap SpOp.gives = [] := booked.ungiven
    rw [fits.ending fine ending, List.map_nil, List.append_nil] at owed
    simp only [Transfer.taken, Transfer.given, List.filterMap_append, released_descs, ungiven, List.append_nil,
      List.nil_append]
    exact owed
  | sent data rest fine cut unending =>
    refine ⟨fun absent => (by cases absent), fun pdp' held => ?_⟩
    cases held
    exact ⟨listed, booked.ungiven, booked.owed⟩

theorem Replied.out_of_balance (replied : Replied t pdp sbp after) (listed : pdp.descs = some descs)
    (booked : Booked t pdp descs coming) (unfit : ¬ Fits t pdp descs coming) : OutOfBalance after := by
  cases replied with
  | failed err failed =>
    refine ⟨rfl, unbalanced_of_called (fun untaken => unfit ⟨fun _ => untaken, fun fine => ?_⟩) booked.ungiven⟩
    cases failed.symm.trans fine
  | ended descs' fine listed' ending =>
    cases listed.symm.trans listed'
    refine ⟨rfl, fun balanced => unfit ⟨fun failed => absurd fine failed, fun _ _ => ?_⟩⟩
    have ungiven : t.spOps.filterMap SpOp.gives = [] := booked.ungiven
    have owed := (booked.owed fine).length_eq
    have returned := balanced.length_eq
    simp only [Transfer.taken, Transfer.given, List.filterMap_append, released_descs, ungiven, List.append_nil,
      List.nil_append, List.length_map] at returned
    simp only [Transfer.taken, List.length_append, List.length_map] at owed
    exact List.eq_nil_of_length_eq_zero (by omega)
  | sent data rest fine cut unending =>
    exact absurd ⟨fun failed => absurd fine failed, fun _ ending => absurd ending (unending descs listed)⟩ unfit

theorem Turned.in_balance (turned : Turned t pdp sbp after) (held : t.pdp = some pdp) (listed : pdp.descs = some descs)
    (booked : Booked t pdp descs coming) (fits : pdp.Due → Fits t pdp descs coming) : InBalance descs coming after := by
  cases turned with
  | replied overreads after replied due =>
    exact replied.in_balance listed { booked with } { fits due with }
  | reads overreads descs' status i count offset d fine listed' known aimed place =>
    refine ⟨nofun, fun pdp' held' => ?_⟩
    cases held'
    exact ⟨listed, booked.ungiven, booked.owed⟩
  | drops mode fine drained idle =>
    refine ⟨fun absent => (by cases held.symm.trans absent), fun pdp' held' => ?_⟩
    cases held.symm.trans held'
    exact ⟨listed, booked⟩

theorem Turned.out_of_balance (turned : Turned t pdp sbp after) (listed : pdp.descs = some descs)
    (booked : Booked t pdp descs coming) (due : pdp.Due) (unfit : ¬ Fits t pdp descs coming) : OutOfBalance after := by
  cases turned with
  | replied overreads after replied _ =>
    exact replied.out_of_balance listed { booked with } fun fits => unfit { fits with }
  | reads overreads descs' status i count offset d fine listed' known aimed place =>
    refine absurd ⟨fun failed => absurd fine failed, fun _ ending => ?_⟩ unfit
    cases listed.symm.trans listed'
    cases aimed with
    | next mode left => exact absurd ending.1 left
    | first _ mode drained found => exact absurd drained (due mode fine)
  | drops mode fine drained idle => exact absurd drained (due mode fine)

theorem Resumed.in_balance {turn : Prop} (resumed : Resumed t pdp turn after) (held : t.pdp = some pdp)
    (listed : pdp.descs = some descs) (booked : Booked t pdp descs coming)
    (fits : turn → pdp.Due → Fits t pdp descs coming) : InBalance descs coming after := by
  cases resumed with
  | waits overreads idle =>
    refine ⟨fun absent => (by cases held.symm.trans absent), fun pdp' held' => ?_⟩
    cases held.symm.trans held'
    exact ⟨listed, { booked with }⟩
  | turned sbp overreads after parked turned turn =>
    exact turned.in_balance rfl listed { booked with } fun due => { fits turn due with }

/-! ## Handlers -/

/-- A transfer that waits for its fetch is not fetched by a reply. -/
theorem Turned.unfetched (turned : Turned t pdp sbp after) (waiting : Waiting t pdp descs) : Books after := by
  have apart : ¬ (pdp.fetching = true ∧ t.scheduled = 0) := by
    rintro ⟨fetching, ran⟩
    rw [waiting.due, if_pos fetching] at ran
    cases ran
  intro pdp' descs' status fetching
  refine absurd ?_ apart
  cases turned with
  | replied overreads after replied due =>
    cases replied with
    | failed | ended => cases fetching.held
    | sent data rest fine cut unending =>
      cases fetching.held
      exact ⟨fetching.fetching, fetching.ran⟩
  | reads overreads descs'' status'' i count offset d fine listed known aimed place =>
    cases fetching.held
    exact ⟨fetching.fetching, fetching.ran⟩
  | drops mode fine drained idle =>
    cases waiting.held.symm.trans fetching.held
    exact ⟨fetching.fetching, fetching.ran⟩

theorem Waiting.fits (waiting : Waiting t pdp descs) : Fits t pdp descs descs := by
  refine ⟨fun failed => absurd waiting.fine failed, fun _ ending => ?_⟩
  exact List.eq_nil_of_length_eq_zero (ending.1.symm.trans waiting.uncounted)

theorem get_data_balance (underway : Underway t) (books : Books t)
    (balances : ∀ pdp, t.pdp = some pdp → Balances t pdp beyond (.getData sbp xferId)) :
    Ends (fun after => Returned t after ∧ Books after) (fun _ => True)
      ({ t with gets := t.gets ++ [sbp] }.getData beyond xferId sbp) := by
  rcases Option.eq_none_or_eq_some t.pdp with absent | ⟨pdp, held⟩
  · simp only [Transfer.getData, absent]
    exact ⟨fun present => absurd absent present, fun _ _ _ fetching => by cases fetching.held⟩
  have balances := balances pdp held
  refine (get_data_got (t := { t with gets := t.gets ++ [sbp] }) held xferId).imp fun after got => ?_
  cases got with
  | turned overreads after ready turned =>
    cases underway with
    | absent absent => cases held.symm.trans absent
    | opening pdp' opening =>
      cases held.symm.trans opening.held
      exact absurd ready opening.unready
    | waiting pdp' descs waiting =>
      cases held.symm.trans waiting.held
      have balance : InBalance descs descs after :=
        turned.in_balance held waiting.listed { waiting.booked with } fun _ => { waiting.fits with }
      exact ⟨.of_perm balance.returned, turned.unfetched { waiting with }⟩
    | fetching pdp' descs status fetching =>
      cases held.symm.trans fetching.held
      have fits := (balances descs fetching.listed).1 ready
      have balance : InBalance descs t.requested after :=
        turned.in_balance held fetching.listed { books pdp descs status fetching with } fun due => { fits due with }
      exact balance.books turned.requested
  | ended overreads descs unready drained listed full =>
    have untaken := (balances descs listed).2 unready full
    refine ⟨.of_perm fun _ => ?_, fun _ _ _ fetching => by cases fetching.held⟩
    simp only [Transfer.taken, Transfer.given, Transfer.reply, untaken]
    exact .refl _
  | parked overreads descs scheduled unready drained listed left known due =>
    refine ⟨fun _ absent => (by cases absent), fun pdp' descs' status fetching => ?_⟩
    cases fetching.held
    have ran : scheduled = 0 := fetching.ran
    obtain ⟨fetches, rfl⟩ | ⟨_, rfl⟩ := due
    · have booked := books pdp descs' status { fetching with held := held, fetching := fetches }
      exact ⟨booked.ungiven, booked.owed⟩
    · cases ran

/-- Only a transfer whose fetch has run can be out of balance. -/
theorem get_data_balances (underway : Underway t) (held : t.pdp = some pdp)
    (unfetched : ∀ descs status, ¬ Fetching t pdp descs status) : Balances t pdp beyond (.getData sbp xferId) := by
  have balances : Untouched t → Balances t pdp beyond (.getData sbp xferId) := fun untouched descs listed =>
    ⟨fun _ _ => ⟨fun _ => untouched.untaken, fun _ _ => untouched.unrequested⟩, fun _ _ => untouched.untaken⟩
  cases underway with
  | absent absent => cases held.symm.trans absent
  | opening pdp' opening => exact balances { opening with }
  | waiting pdp' descs waiting => exact balances { waiting with }
  | fetching pdp' descs status fetching =>
    cases held.symm.trans fetching.held
    exact absurd fetching (unfetched descs status)

theorem get_data_unbalanced (underway : Underway t) (books : Books t) (held : t.pdp = some pdp)
    (unbalanced : ¬ Balances t pdp beyond (.getData sbp xferId)) :
    Ends (fun after => ¬ Returned t after) (fun _ => True)
      ({ t with gets := t.gets ++ [sbp] }.getData beyond xferId sbp) := by
  obtain ⟨descs, status, fetching⟩ : ∃ descs status, Fetching t pdp descs status := by
    by_contra unfetched
    exact unbalanced (get_data_balances underway held fun descs status fetching => unfetched ⟨descs, status, fetching⟩)
  have booked := books pdp descs status fetching
  have broken : ¬ ((pdp.Ready beyond → pdp.Due → Fits t pdp descs t.requested) ∧
      (¬ pdp.Ready beyond → pdp.descsXfered = descs.length → t.spOps = [])) := by
    refine fun kept => unbalanced fun descs' listed => ?_
    cases fetching.listed.symm.trans listed
    exact kept
  refine (get_data_got (t := { t with gets := t.gets ++ [sbp] }) held xferId).imp fun after got => ?_
  cases got with
  | turned overreads after ready turned =>
    obtain ⟨due, unfit⟩ : pdp.Due ∧ ¬ Fits t pdp descs t.requested := by
      by_contra fits
      exact broken ⟨fun _ due => by_contra fun unfit => fits ⟨due, unfit⟩, fun unready => absurd ready unready⟩
    exact (turned.out_of_balance fetching.listed { booked with } due fun fits => unfit { fits with }).not_returned held
  | ended overreads descs' unready drained listed full =>
    cases fetching.listed.symm.trans listed
    have called : t.spOps ≠ [] := fun untaken => broken ⟨fun ready => absurd ready unready, fun _ _ => untaken⟩
    exact OutOfBalance.not_returned ⟨rfl, unbalanced_of_called (by exact called) (by exact booked.ungiven)⟩ held
  | parked overreads descs' scheduled unready drained listed left known due =>
    cases fetching.listed.symm.trans listed
    exact absurd ⟨fun ready => absurd ready unready, fun _ full => absurd full left⟩ broken

theorem fetch_data_balance (underway : Underway t) (due : t.scheduled ≠ 0) (held : Descriptor → Bool) :
    Ends (fun after => Returned t after ∧ Books after) (fun _ => True)
      ({ t with scheduled := t.scheduled - 1 }.fetchData beyond held) := by
  rcases Option.eq_none_or_eq_some t.pdp with absent | ⟨pdp, present⟩
  · simp only [Transfer.fetchData, Transfer.deref, absent]
    trivial
  obtain ⟨descs, waiting⟩ := underway.of_scheduled present due
  refine (fetch_data_fetched (t := { t with scheduled := t.scheduled - 1 }) present held).imp fun after fetched => ?_
  cases fetched with
  | fetched descs' after listed known resumed =>
    cases waiting.listed.symm.trans listed
    have balance : InBalance descs (descs.filter fun d => !held d) after := by
      refine resumed.in_balance rfl listed ⟨?_, fun _ => ?_⟩ fun _ _ => ⟨fun failed => absurd waiting.fine failed, ?_⟩
      · simp [Transfer.given, waiting.untaken, List.filterMap_map, Function.comp_def, SpOp.gives]
      · simp only [Transfer.taken, waiting.untaken, List.nil_append, List.filterMap_map, Function.comp_def, SpOp.takes,
          List.filterMap_eq_map', ← List.map_append]
        exact (List.filter_append_perm held descs).map _
      · intro _ ending
        rw [waiting.fits.ending waiting.fine ending, List.filter_nil]
    have unrequested : after.requested = [] := resumed.requested.trans waiting.unrequested
    exact (balance.request _).books (by rw [unrequested, List.nil_append])

/-- A failure of the transfer plugin is answered where nothing was taken. -/
theorem failing_balance (books : Books t) (fetching : Fetching t pdp descs status)
    (untaken : pdp.xcb ≠ none → t.spOps = []) {index : ℕ} {res : Except String (Descriptor × List UInt8)}
    (failed : (fetchError res).isSome) :
    Ends (fun after => Returned t after ∧ Books after) (fun _ => True)
      ({ t with requested := t.requested.eraseIdx index }.xpFetchDataCb beyond res) := by
  have booked := books pdp descs status fetching
  have held := fetching.held
  refine (xp_fetch_data_cb_arrived (t := { t with requested := t.requested.eraseIdx index }) held res).imp
    fun after arrived => ?_
  cases arrived with
  | noted res err failed' unparked =>
    refine ⟨fun _ absent => (by cases absent), fun pdp' descs' status' fetching' => ?_⟩
    cases fetching'.held
    exact ⟨booked.ungiven, fun fine => by cases fine⟩
  | told res err sbp failed' parked =>
    refine ⟨.of_perm fun _ => ?_, fun _ _ _ fetching' => by cases fetching'.held⟩
    simp only [Transfer.taken, Transfer.given, Transfer.reply, untaken (by rw [parked]; exact Option.some_ne_none _)]
    exact .refl _
  | stored d data status' descs' after filled known listed resumed =>
    cases data with
    | nil => exact absurd rfl filled
    | cons byte rest => cases failed

theorem failing_unbalanced (books : Books t) (fetching : Fetching t pdp descs status) (parked : pdp.xcb ≠ none)
    (called : t.spOps ≠ []) {index : ℕ} {res : Except String (Descriptor × List UInt8)}
    (failed : (fetchError res).isSome) :
    Ends (fun after => ¬ Returned t after) (fun _ => True)
      ({ t with requested := t.requested.eraseIdx index }.xpFetchDataCb beyond res) := by
  have booked := books pdp descs status fetching
  have held := fetching.held
  refine (xp_fetch_data_cb_arrived (t := { t with requested := t.requested.eraseIdx index }) held res).imp
    fun after arrived => ?_
  cases arrived with
  | noted res err failed' unparked => exact absurd unparked parked
  | told res err sbp failed' parked =>
    exact OutOfBalance.not_returned ⟨rfl, unbalanced_of_called (by exact called) (by exact booked.ungiven)⟩ held
  | stored d data status' descs' after filled known listed resumed =>
    cases data with
    | nil => exact absurd rfl filled
    | cons byte rest => cases failed

theorem xp_fetch_data_cb_balance (underway : Underway t) (books : Books t) {index : ℕ} {d : Descriptor}
    (inFlight : t.requested[index]? = some d) (res : Except String (List UInt8))
    (takes : ∀ pdp, t.pdp = some pdp → Taken t pdp (.xpFetchDataCb xferId index res))
    (balances : ∀ pdp, t.pdp = some pdp → Balances t pdp beyond (.xpFetchDataCb xferId index res)) :
    Ends (fun after => Returned t after ∧ Books after) (fun _ => True)
      ({ t with requested := t.requested.eraseIdx index }.xpFetchDataCb beyond (res.map fun data => (d, data))) := by
  rcases Option.eq_none_or_eq_some t.pdp with absent | ⟨pdp, held⟩
  · simp only [Transfer.xpFetchDataCb, absent]
    exact ⟨fun present => absurd absent present, fun _ _ _ fetching => by cases fetching.held⟩
  have inside := (List.getElem?_eq_some_iff.mp inFlight).1
  have asked := List.ne_nil_of_mem (List.mem_of_getElem? inFlight)
  obtain ⟨descs, status, fetching⟩ := underway.of_requested held asked
  have balances := balances pdp held
  cases res with
  | error s => exact failing_balance books fetching (balances inside) rfl
  | ok data =>
    cases data with
    | nil => exact failing_balance books fetching (balances inside) rfl
    | cons byte rest =>
      have takes := takes pdp held d descs status inFlight fetching.listed fetching.known
      have arrives : Ends (Arrived { t with requested := t.requested.eraseIdx index } beyond pdp (.ok (d, byte :: rest)))
          (fun _ => True) ({ t with requested := t.requested.eraseIdx index }.xpFetchDataCb beyond
            (.ok (d, byte :: rest))) := xp_fetch_data_cb_arrived (by exact held) _
      refine arrives.imp fun after arrived => ?_
      cases arrived with
      | noted _ _ failed | told _ _ _ failed => cases failed
      | stored _ _ status' descs' after filled known listed resumed =>
        cases fetching.listed.symm.trans listed
        cases fetching.known.symm.trans known
        simp only [takes, if_true] at resumed
        have balance : InBalance descs (t.requested.eraseIdx index) after := by
          refine resumed.in_balance rfl listed ((books pdp descs status fetching).arrived inFlight _ _ _)
            fun turn due => ?_
          obtain ⟨fine, last⟩ := balances d descs status inFlight listed known turn
          exact ⟨fun failed => absurd fine failed, fun _ => last due⟩
        exact balance.books resumed.requested

theorem xp_fetch_data_cb_unbalanced (underway : Underway t) (books : Books t) (held : t.pdp = some pdp) {index : ℕ}
    {d : Descriptor} (inFlight : t.requested[index]? = some d) (res : Except String (List UInt8))
    (takes : Taken t pdp (.xpFetchDataCb xferId index res))
    (unbalanced : ¬ Balances t pdp beyond (.xpFetchDataCb xferId index res)) :
    Ends (fun after => ¬ Returned t after) (fun _ => True)
      ({ t with requested := t.requested.eraseIdx index }.xpFetchDataCb beyond (res.map fun data => (d, data))) := by
  have asked := List.ne_nil_of_mem (List.mem_of_getElem? inFlight)
  obtain ⟨descs, status, fetching⟩ := underway.of_requested held asked
  match res with
  | .error s =>
    obtain ⟨_, unbalanced⟩ := Classical.not_imp.mp unbalanced
    obtain ⟨parked, called⟩ := Classical.not_imp.mp unbalanced
    exact failing_unbalanced books fetching parked called rfl
  | .ok [] =>
    obtain ⟨_, unbalanced⟩ := Classical.not_imp.mp unbalanced
    obtain ⟨parked, called⟩ := Classical.not_imp.mp unbalanced
    exact failing_unbalanced books fetching parked called rfl
  | .ok (byte :: rest) =>
    have takes := takes d descs status inFlight fetching.listed fetching.known
    have broken : ¬ (pdp.Resumes beyond (Transfer.arrive d.id descs status).1 →
        pdp.err = none ∧ (pdp.Due → pdp.Ending descs → t.requested.eraseIdx index = [])) := by
      refine fun kept => unbalanced fun d' descs' status' inFlight' listed known => ?_
      cases inFlight.symm.trans inFlight'
      cases fetching.listed.symm.trans listed
      cases fetching.known.symm.trans known
      exact kept
    obtain ⟨turn, broken⟩ := Classical.not_imp.mp broken
    have arrives : Ends (Arrived { t with requested := t.requested.eraseIdx index } beyond pdp (.ok (d, byte :: rest)))
        (fun _ => True) ({ t with requested := t.requested.eraseIdx index }.xpFetchDataCb beyond
          (.ok (d, byte :: rest))) := xp_fetch_data_cb_arrived (by exact held) _
    refine arrives.imp fun after arrived => ?_
    cases arrived with
    | noted _ _ failed | told _ _ _ failed => cases failed
    | stored _ _ status' descs' after filled known listed resumed =>
      cases fetching.listed.symm.trans listed
      cases fetching.known.symm.trans known
      simp only [takes, if_true] at resumed
      have booked := (books pdp descs status fetching).arrived inFlight (byte :: rest) none status
      cases resumed with
      | waits overreads idle => exact absurd turn idle
      | turned sbp overreads after parked turned _ =>
        obtain ⟨due, unfit⟩ : pdp.Due ∧ (pdp.err = none → ¬ (pdp.Ending descs → t.requested.eraseIdx index = [])) := by
          by_cases fine : pdp.err = none
          · obtain ⟨due, last⟩ := Classical.not_imp.mp (not_and.mp broken fine)
            exact ⟨due, fun _ => last⟩
          · exact ⟨fun _ fine' => absurd fine' fine, fun fine' => absurd fine' fine⟩
        have out : OutOfBalance after := @Turned.out_of_balance _ _ _ _ _ _ (t.requested.eraseIdx index) turned listed
          ⟨booked.ungiven, booked.owed⟩ due fun fits => by
            by_cases fine : pdp.err = none
            · exact unfit fine (fits.ending fine)
            · exact List.append_ne_nil_of_right_ne_nil _ (List.cons_ne_nil _ _) (fits.failing fine)
        exact out.not_returned held

theorem get_chunk_cb_balance (underway : Underway t) (books : Books t) {index : ℕ} {read : SpRead}
    (inFlight : t.reads[index]? = some read) (res : Except String (List UInt8))
    (balances : ∀ pdp, t.pdp = some pdp → Balances t pdp beyond (.getChunkCb xferId index res)) :
    Ends (fun after => Returned t after ∧ Books after) (fun _ => True)
      ({ t with reads := t.reads.eraseIdx index }.getChunkCb beyond read res) := by
  rcases Option.eq_none_or_eq_some t.pdp with absent | ⟨pdp, held⟩
  · simp only [Transfer.getChunkCb, Transfer.deref, absent]
    trivial
  obtain ⟨descs, status, fetching⟩ := underway.of_reads held (List.ne_nil_of_mem (List.mem_of_getElem? inFlight))
  have booked := books pdp descs status fetching
  have balances := balances pdp held
  refine (get_chunk_cb_landed (t := { t with reads := t.reads.eraseIdx index }) held res).imp fun after landed => ?_
  cases landed with
  | failed s after replied =>
    have untaken := balances (List.getElem?_eq_some_iff.mp inFlight).1
    have balance : InBalance descs t.requested after :=
      replied.in_balance fetching.listed ⟨booked.ungiven, fun fine => by cases fine⟩
        ⟨fun _ => untaken, fun fine => by cases fine⟩
    exact balance.books replied.requested
  | replied status' descs' data overreads after known listed unchained replied =>
    cases fetching.listed.symm.trans listed
    have fits := balances read descs status' inFlight listed known unchained
    have balance : InBalance descs t.requested after :=
      replied.in_balance listed ⟨booked.ungiven, booked.owed⟩ { fits with }
    exact balance.books replied.requested
  | chained status' descs' data overreads count d known listed chains place counted =>
    cases fetching.listed.symm.trans listed
    have balance : InBalance descs t.requested { t with
        pdp := some { pdp.landed status' read data with descsCount := count }
        copied := t.copied ++ [(read.descNo, data)]
        reads := t.reads.eraseIdx index ++ [⟨read.sbp, read.descNo + 1, -1, d⟩]
        overreads := overreads } := by
      refine ⟨fun absent => (by cases absent), fun pdp' held' => ?_⟩
      cases held'
      exact ⟨listed, booked.ungiven, booked.owed⟩
    exact balance.books rfl

theorem get_chunk_cb_unbalanced (underway : Underway t) (books : Books t) (held : t.pdp = some pdp) {index : ℕ}
    {read : SpRead} (inFlight : t.reads[index]? = some read) (res : Except String (List UInt8))
    (unbalanced : ¬ Balances t pdp beyond (.getChunkCb xferId index res)) :
    Ends (fun after => ¬ Returned t after) (fun _ => True)
      ({ t with reads := t.reads.eraseIdx index }.getChunkCb beyond read res) := by
  obtain ⟨descs, status, fetching⟩ := underway.of_reads held (List.ne_nil_of_mem (List.mem_of_getElem? inFlight))
  have booked := books pdp descs status fetching
  have broken : ∀ data, res = .ok data →
      ¬ (¬ (pdp.landed status read data).Chains beyond (status.set read.descNo .done) descs read →
        Fits t (pdp.landed status read data) descs t.requested) := by
    rintro data rfl fits
    refine unbalanced fun read' descs' status' inFlight' listed known => ?_
    cases inFlight.symm.trans inFlight'
    cases fetching.listed.symm.trans listed
    cases fetching.known.symm.trans known
    exact fits
  refine (get_chunk_cb_landed (t := { t with reads := t.reads.eraseIdx index }) held res).imp fun after landed => ?_
  cases landed with
  | failed s after replied =>
    have called : t.spOps ≠ [] := fun untaken => unbalanced fun _ => untaken
    have out : OutOfBalance after := @Replied.out_of_balance _ _ _ _ _ _ t.requested replied fetching.listed
      ⟨booked.ungiven, nofun⟩ fun fits => called (fits.failing nofun)
    exact out.not_returned held
  | replied status' descs' data overreads after known listed unchained replied =>
    cases fetching.listed.symm.trans listed
    cases fetching.known.symm.trans known
    have unfit := fun fits => broken data rfl fun _ => fits
    have out : OutOfBalance after := @Replied.out_of_balance _ _ _ _ _ _ t.requested replied listed
      ⟨booked.ungiven, booked.owed⟩ fun fits => unfit { fits with }
    exact out.not_returned held
  | chained status' descs' data overreads count d known listed chains place counted =>
    cases fetching.listed.symm.trans listed
    cases fetching.known.symm.trans known
    exact absurd (fun unchained => absurd chains unchained) (broken data rfl)

/-! ## Steps -/

/-- Every event of a transfer that keeps its balance. -/
theorem handle_balance (underway : Underway t) (books : Books t) {event : Event}
    (takes : ∀ pdp, t.pdp = some pdp → Taken t pdp event)
    (balances : ∀ pdp, t.pdp = some pdp → Balances t pdp beyond event) :
    Ends (fun after => Returned t after ∧ Books after) (fun _ => True) (t.handle beyond stored event) := by
  have idle : Returned t t ∧ Books t := ⟨fun present absent => absurd absent present, books⟩
  cases event with
  | getData sbp xferId => exact get_data_balance underway books balances
  | fetchData xferId =>
    simp only [Transfer.handle]
    split
    next => exact idle
    next due => exact fetch_data_balance underway due _
  | xpFetchDataCb xferId index res =>
    simp only [Transfer.handle]
    split
    next => exact idle
    next d inFlight => exact xp_fetch_data_cb_balance underway books inFlight res takes balances
  | getChunkCb xferId index res =>
    simp only [Transfer.handle]
    split
    next => exact idle
    next read inFlight => exact get_chunk_cb_balance underway books inFlight res balances
  | getInit | getInitCb | putIchunk => exact idle

/-- Every other event leaves references behind. -/
theorem handle_unbalanced (underway : Underway t) (books : Books t) (held : t.pdp = some pdp) {event : Event}
    (takes : Taken t pdp event) (unbalanced : ¬ Balances t pdp beyond event) :
    Ends (fun after => ¬ Returned t after) (fun _ => True) (t.handle beyond stored event) := by
  cases event with
  | getData sbp xferId => exact get_data_unbalanced underway books held unbalanced
  | xpFetchDataCb xferId index res =>
    simp only [Transfer.handle]
    split
    next none_here =>
      refine absurd ?_ unbalanced
      have outside := List.getElem?_eq_none_iff.mp none_here
      cases res with
      | error s => exact fun inside => absurd inside (Nat.not_lt.mpr outside)
      | ok data =>
        cases data with
        | nil => exact fun inside => absurd inside (Nat.not_lt.mpr outside)
        | cons byte rest => exact fun d _ _ inFlight => by cases none_here.symm.trans inFlight
    next d inFlight => exact xp_fetch_data_cb_unbalanced underway books held inFlight res takes unbalanced
  | getChunkCb xferId index res =>
    simp only [Transfer.handle]
    split
    next none_here =>
      refine absurd ?_ unbalanced
      have outside := List.getElem?_eq_none_iff.mp none_here
      cases res with
      | error s => exact fun inside => absurd inside (Nat.not_lt.mpr outside)
      | ok data => exact fun read _ _ inFlight => by cases none_here.symm.trans inFlight
    next read inFlight => exact get_chunk_cb_unbalanced underway books held inFlight res unbalanced
  | fetchData | getInit | getInitCb | putIchunk => exact absurd trivial unbalanced

theorem step_balance (stages : Stages xferId g) (books : Books (g.transfers xferId)) {event : Event}
    (takes : Takes xferId g event) (balances : KeepsBalance xferId g beyond event) :
    Ends (fun g' => Returned (g.transfers xferId) (g'.transfers xferId) ∧ Books (g'.transfers xferId))
      (fun _ => True) (g.step beyond event) := by
  apply @step_rule _ _ _ fun after => Returned (g.transfers xferId) after ∧ Books after
  case spared => exact fun _ => ⟨fun present absent => absurd absent present, books⟩
  case opened =>
    rintro _ sbp mode hints rfl
    refine ⟨fun _ => nofun, fun pdp descs status fetching => ?_⟩
    cases fetching.held
    cases fetching.fetching
  case answered => exact fun _ call after awaited answers _ _ _ => stages.underway.answered_balance awaited answers
  case handled => exact fun own => handle_balance stages.underway books (takes own) (balances own)

theorem step_unbalanced (stages : Stages xferId g) (books : Books (g.transfers xferId)) {event : Event}
    (takes : Takes xferId g event) (unbalanced : ¬ KeepsBalance xferId g beyond event) :
    Ends (fun g' => ¬ Returned (g.transfers xferId) (g'.transfers xferId)) (fun _ => True) (g.step beyond event) := by
  simp only [KeepsBalance, Classical.not_imp, not_forall] at unbalanced
  obtain ⟨own, pdp, held, unbalanced⟩ := unbalanced
  rw [step_target own]
  refine (handle_unbalanced stages.underway books held (takes own pdp held) unbalanced).bind fun after left => ?_
  rw [ends_ok, update_transfers]
  exact left

/-! ## Runs -/

/-- **A transfer gives back what it took when it leaves the table**, in the runs that take
every chunk that arrives exactly if no reply leaves references behind. -/
theorem references_returned_iff (stored : List UInt8 → Option (List UInt8)) (xferId : XferId)
    (events : List ((ℕ → DescStatus) × Event)) :
    Runs.Always Gtcd.next (fun g event g' => Takes xferId g event.2 ∧
        Returned (g.transfers xferId) (g'.transfers xferId)) (Gtcd.init stored) events ↔
      Runs.Always Gtcd.next (fun g event _ => Takes xferId g event.2 ∧ KeepsBalance xferId g event.1 event.2)
        (Gtcd.init stored) events := by
  apply @Runs.always_iff _ _ _ _ (fun g => Stages xferId g ∧ Books (g.transfers xferId)) _ (fun _ _ => True)
  case initial => exact ⟨init_stages stored xferId, fun _ _ _ fetching => by cases fetching.held⟩
  case exact =>
    intro before event after inv _ ran
    refine and_congr_right fun takes => ⟨fun returned => ?_, fun balances => ?_⟩
    · by_contra unbalanced
      exact (step_unbalanced inv.1 inv.2 takes unbalanced).of_ok (next_ok ran) returned
    · exact ((step_balance inv.1 inv.2 takes balances).of_ok (next_ok ran)).1
  case kept =>
    intro before event after inv _ keeps ran
    exact ⟨(step_stages inv.1 event.2).of_ok (next_ok ran),
      ((step_balance inv.1 inv.2 keeps.1 keeps.2).of_ok (next_ok ran)).2⟩
  case within => exact Runs.Always.trivial

end

/-- A download whose second chunk fails after the first was found. -/
def failsHalfway : List Event :=
  opening [⟨[1], 1⟩, ⟨[2], 1⟩] ++ [.putIchunk [1] [7], .getData 1 1, .fetchData 1, .getChunkCb 1 0 (.ok [7]),
    .getData 2 1, .xpFetchDataCb 1 0 (.error "unreachable")]

/-- The state after some of its events. -/
def halfwayAfter (n : ℕ) : Gtcd := ranOn (failsHalfway.take n)

/-- The error ends the transfer, and the first chunk keeps its reference. -/
theorem not_references_returned : ¬ ∀ (stored : List UInt8 → Option (List UInt8)) (xferId : XferId)
    (events : List ((ℕ → DescStatus) × Event)),
    Runs.Always Gtcd.next (fun g _ g' => Returned (g.transfers xferId) (g'.transfers xferId)) (Gtcd.init stored)
      events := by
  intro claimed
  have ran : ∀ n event, (failsHalfway.map fun event => ((fun _ => .unknown : ℕ → DescStatus), event))[n]? = some event →
      Gtcd.next (halfwayAfter n) event = some (halfwayAfter (n + 1)) := ran_on_next rfl
  have last := (Runs.always_chain ran).mp (claimed (fun _ => none) 1 _) 7 _ rfl
  have parked : ((halfwayAfter 7).transfers 1).pdp.bind (·.xcb) = some 2 := rfl
  have present : ((halfwayAfter 7).transfers 1).pdp ≠ none := by
    intro absent
    rw [absent] at parked
    cases parked
  have balance := last present rfl [1]
  cases balance

end Ditto.Downloads
