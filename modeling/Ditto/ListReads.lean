import Ditto.EntryLookups

/-! Where a download reads its lists. A turn in sequential mode reads the descriptor that it
has counted to, if the status there says that the chunk is on storage, and past the last one
the status is what memory holds. A chunk that comes back is followed by the next, which in
sequential mode has to be the one that is counted to. These are the only reads and the only
assertion that can stop the daemon in a download whose entry is found. -/
namespace Ditto.Downloads
open XferGtc (Descriptor)
open SendSize (sendSize)
open Outcomes

variable [SendSize] {t : Transfer} {pdp : XferData} {descs : List Descriptor} {status : List DescStatus}
  {beyond : ℕ → DescStatus} {sbp : Sbp} {stored : List UInt8 → Option (List UInt8)} {xferId : XferId} {read : SpRead}

/-- A turn in sequential mode has a descriptor where it finds a chunk on storage. -/
def XferData.Inside (pdp : XferData) (beyond : ℕ → DescStatus) : Prop :=
  pdp.err = none → pdp.xmode = .sequential → pdp.buf.length < sendSize → beyond pdp.descsCount = .onStorage →
    ∀ descs, pdp.descs = some descs → pdp.descsXfered ≠ descs.length → pdp.descsCount < descs.length

/-- What an event reads of an entry's lists is in them, and what comes back in sequential mode is
the chunk before the one that is counted to. -/
def Places (t : Transfer) (pdp : XferData) (beyond : ℕ → DescStatus) : Event → Prop
  | .getData _ _ => pdp.Inside beyond
  | .fetchData _ => t.scheduled ≠ 0 → pdp.xcb ≠ none → pdp.Inside beyond
  | .xpFetchDataCb _ index (.ok (_ :: _)) => index < t.requested.length → pdp.xcb ≠ none → pdp.Inside beyond
  | .getChunkCb _ index (.ok data) => ∀ read descs status, t.reads[index]? = some read →
      pdp.descs = some descs → pdp.descsStatus = some status → read.descNo < status.length ∧
        ((pdp.landed status read data).Chains beyond (status.set read.descNo .done) descs read →
          read.descNo + 1 < descs.length ∧ (pdp.xmode = .sequential → pdp.descsCount = read.descNo + 1))
  | _ => True

/-! ## One read -/

omit [SendSize] in
theorem deref_of_held (held : t.pdp = some pdp) : t.deref = .ok pdp := by
  rw [Transfer.deref, held]

omit [SendSize] in
theorem deref_member_set {α : Type} {member : Option α} {value : α} (set : member = some value) :
    Transfer.derefMember member = .ok value := by
  rw [set]
  rfl

omit [SendSize] in
theorem get_chunk_inside (t : Transfer) (sbp : Sbp) (descs : List Descriptor) (i : ℕ) (offset : ℤ) :
    EndsIff (i < descs.length) (t.getChunk sbp descs i offset) := by
  unfold Transfer.getChunk
  split
  next d place => exact (List.getElem?_eq_some_iff.mp place).1
  next none_there => exact Nat.not_lt.mpr (List.getElem?_eq_none_iff.mp none_there)

omit [SendSize] in
theorem status_past (past : status.length ≤ i) : statusAt beyond status i = beyond i := by
  rw [statusAt, List.getElem?_eq_none_iff.mpr past, Option.getD_none]

omit [SendSize] in
theorem first_on_storage_inside {i : ℕ} (found : Transfer.firstOnStorage status = some i) : i < status.length :=
  (List.findIdx?_eq_some_iff_getElem.mp found).1

/-- A reply reads no list. -/
theorem actual_transfer_data_ends (held : t.pdp = some pdp) (listed : pdp.descs = some descs) :
    Ends (fun _ => True) Never (t.actualTransferData sbp) := by
  simp only [Transfer.actualTransferData, deref_of_held held, deref_member_set listed, bind, Except.bind]
  split
  · trivial
  split
  · split
    · trivial
    · trivial
  · trivial

/-! ## Turns -/

theorem transfer_data_inside (held : t.pdp = some pdp) (listed : pdp.descs = some descs)
    (known : pdp.descsStatus = some status) (sized : status.length = descs.length) :
    EndsIff (pdp.Inside beyond) (t.transferData beyond sbp) := by
  have replies : ∀ overreads, Ends (fun _ => True) Never
      ({ t with overreads := overreads }.actualTransferData sbp) := fun overreads =>
    actual_transfer_data_ends (t := { t with overreads := overreads }) held listed
  have here := replies t.overreads
  simp only [Transfer.transferData, deref_of_held held, deref_member_set listed, deref_member_set known,
    bind, Except.bind]
  split
  next failed => exact ends_iff_of here fun fine => by rw [fine] at failed; cases failed
  split
  next mode =>
    split
    next short =>
      split
      next left =>
        obtain ⟨overreads, read⟩ := read_status_eq t beyond status pdp.descsCount
        simp only [read]
        split
        next found =>
          refine (get_chunk_inside _ sbp descs pdp.descsCount (-1)).congr ⟨fun inside => ?_, fun inside => ?_⟩
          · intro _ _ _ _ descs' listed' _
            cases listed.symm.trans listed'
            exact inside
          · by_contra past
            have status_there := found
            rw [status_past (by omega)] at status_there
            refine past (inside ?_ mode short status_there descs listed left)
            exact Option.not_isSome_iff_eq_none.mp ‹_›
        next elsewhere =>
          refine ends_iff_of (replies overreads) fun _ _ _ onStorage descs' listed' _ => ?_
          cases listed.symm.trans listed'
          by_contra past
          exact elsewhere ((status_past (by omega)).trans onStorage)
      next full =>
        refine ends_iff_of here fun _ _ _ _ descs' listed' left => ?_
        cases listed.symm.trans listed'
        exact absurd left full
    next long => exact ends_iff_of here fun _ _ short => absurd short long
  next mode =>
    have inside : pdp.Inside beyond := fun _ sequential => by cases mode.symm.trans sequential
    split
    · exact ends_iff_of here inside
    split
    · exact inside
    split
    next i found =>
      have place := first_on_storage_inside found
      exact (get_chunk_inside _ sbp descs i _).congr (iff_of_true (sized ▸ place) inside)
    · exact inside

/-- A parked request has its turn when there is something for it. -/
theorem resume_fetched_inside (listed : pdp.descs = some descs) (known : pdp.descsStatus = some status)
    (sized : status.length = descs.length) :
    EndsIff (pdp.xcb ≠ none → pdp.Inside beyond) (t.resumeFetched beyond pdp status) := by
  have turns : ∀ sbp overreads, pdp.xcb = some sbp → EndsIff (pdp.xcb ≠ none → pdp.Inside beyond)
      ({ t with overreads := overreads }.resumeXcb beyond pdp sbp) := by
    intro sbp overreads parked
    have turn : EndsIff (XferData.Inside { pdp with xcb := none } beyond)
        ({ t with overreads := overreads }.resumeXcb beyond pdp sbp) :=
      transfer_data_inside rfl listed known sized
    exact turn.congr ⟨fun inside _ => inside, fun inside => inside (by simp [parked])⟩
  unfold Transfer.resumeFetched
  split
  next _ unparked => exact fun parked => absurd unparked parked
  next sbp parked mode =>
    obtain ⟨overreads, read⟩ := read_status_eq t beyond status pdp.descsCount
    simp only [read]
    split
    next => exact turns sbp overreads parked
    next elsewhere =>
      intro _ _ _ _ onStorage descs' listed' _
      cases listed.symm.trans listed'
      by_contra past
      exact elsewhere ((status_past (by omega)).trans onStorage)
  next sbp parked mode =>
    split
    next => exact turns sbp t.overreads parked
    next => exact fun _ _ sequential => by cases mode.symm.trans sequential

theorem resume_arrived_inside (listed : pdp.descs = some descs) (known : pdp.descsStatus = some status)
    (sized : status.length = descs.length) :
    EndsIff (pdp.xcb ≠ none → pdp.Inside beyond) (t.resumeArrived beyond pdp status) := by
  cases parked : pdp.xcb with
  | none =>
    simp only [Transfer.resumeArrived, parked]
    exact fun held => absurd rfl held
  | some sbp =>
    cases mode : pdp.xmode with
    | sequential =>
      have same : t.resumeArrived beyond pdp status = t.resumeFetched beyond pdp status := by
        simp only [Transfer.resumeArrived, Transfer.resumeFetched, parked, mode]
      rw [same, ← parked]
      exact resume_fetched_inside listed known sized
    | outOfOrder =>
      simp only [Transfer.resumeArrived, parked, mode]
      have turn : EndsIff (XferData.Inside { pdp with xcb := none } beyond) (t.resumeXcb beyond pdp sbp) :=
        transfer_data_inside rfl listed known sized
      exact turn.congr ⟨fun inside _ => inside, fun inside => inside (Option.some_ne_none _)⟩

/-! ## Handlers -/

theorem get_data_inside (held : t.pdp = some pdp) (listed : pdp.descs = some descs)
    (known : pdp.descsStatus = some status) (sized : status.length = descs.length) :
    EndsIff (pdp.Inside beyond) (t.getData beyond xferId sbp) := by
  have turns : ∀ overreads, EndsIff (pdp.Inside beyond) ({ t with overreads := overreads }.transferData beyond sbp) :=
    fun overreads => transfer_data_inside (t := { t with overreads := overreads }) held listed known sized
  have sends : Ends (fun _ => True) Never (t.sendable beyond pdp) := by
    simp only [Transfer.sendable, deref_member_set known, bind, Except.bind]
    split
    · trivial
    split <;> trivial
  have looks : Ends (fun _ => True) Never (Transfer.available pdp descs) := by
    simp only [Transfer.available, deref_member_set known, bind, Except.bind]
    split
    · trivial
    split <;> trivial
  simp only [Transfer.getData, held]
  refine ends_iff_bind ((sendable_tests t beyond pdp).meet sends) fun found tests => ?_
  obtain ⟨ready, before⟩ := found
  obtain ⟨⟨overreads, rfl⟩, _, waits⟩ := tests
  dsimp only
  split
  next => exact turns overreads
  next later =>
    have inside : pdp.Inside beyond := by
      intro _ mode _ onStorage descs' listed' _
      cases listed.symm.trans listed'
      obtain ⟨_, unsent⟩ := waits (Bool.eq_false_iff.mpr later)
      obtain ⟨status', known', elsewhere⟩ := unsent mode
      cases known.symm.trans known'
      by_contra past
      exact elsewhere ((status_past (by omega)).trans onStorage)
    simp only [deref_member_set listed, bind, Except.bind]
    split
    · exact inside
    refine ends_iff_bind looks fun found _ => ?_
    split
    · exact turns overreads
    split
    · exact inside
    · exact inside

theorem fetch_data_inside (waiting : Waiting t pdp descs) (stored : Descriptor → Bool) :
    EndsIff (pdp.xcb ≠ none → pdp.Inside beyond) ({ t with scheduled := t.scheduled - 1 }.fetchData beyond stored) := by
  obtain ⟨hints, hinted⟩ := waiting.hinted
  have held : { t with scheduled := t.scheduled - 1 }.pdp = some pdp := waiting.held
  simp only [Transfer.fetchData, deref_of_held held, deref_member_set waiting.known, deref_member_set waiting.listed,
    deref_member_set hinted, bind, Except.bind]
  have resumes : ∀ before : Transfer, EndsIff (pdp.xcb ≠ none → pdp.Inside beyond)
      (before.resumeFetched beyond { pdp with descsStatus := some (fetchedStatus stored descs) }
        (fetchedStatus stored descs)) := fun before =>
    resume_fetched_inside (by exact waiting.listed) rfl (List.length_map ..)
  refine (resumes _).bind fun after => ?_
  split <;> trivial

theorem xp_fetch_data_cb_inside (fetching : Fetching t pdp descs status) {d : Descriptor} {data : List UInt8}
    (filled : data ≠ []) : EndsIff (pdp.xcb ≠ none → pdp.Inside beyond) (t.xpFetchDataCb beyond (.ok (d, data))) := by
  obtain ⟨byte, rest, rfl⟩ := List.exists_cons_of_ne_nil filled
  simp only [Transfer.xpFetchDataCb, fetching.held, deref_member_set fetching.known, deref_member_set fetching.listed,
    bind, Except.bind]
  exact resume_arrived_inside (by exact fetching.listed) rfl (by rw [arrive_length]; exact fetching.sized)

/-- An error is reported without reading a list. -/
theorem report_error_ends (err : String) :
    Ends (fun _ => True) Never ({ t with pdp := some { pdp with err := some err } }.transferData beyond sbp) := by
  simp [Transfer.transferData, Transfer.actualTransferData, Transfer.deref, bind, Except.bind]

theorem xp_fetch_data_cb_failed (held : t.pdp = some pdp) {res : Except String (Descriptor × List UInt8)}
    {err : String} (failed : fetchError res = some err) : Ends (fun _ => True) Never (t.xpFetchDataCb beyond res) := by
  simp only [Transfer.xpFetchDataCb, held]
  split
  · split
    · exact @report_error_ends _ t { pdp with xcb := none } beyond _ _
    · trivial
  · split
    · exact @report_error_ends _ t { pdp with xcb := none } beyond _ _
    · trivial
  next filled =>
    obtain ⟨byte, rest, rfl⟩ := List.exists_cons_of_ne_nil filled
    cases failed

theorem get_chunk_cb_inside (fetching : Fetching t pdp descs status) (data : List UInt8) :
    EndsIff (read.descNo < status.length ∧
        ((pdp.landed status read data).Chains beyond (status.set read.descNo .done) descs read →
          read.descNo + 1 < descs.length ∧ (pdp.xmode = .sequential → pdp.descsCount = read.descNo + 1)))
      (t.getChunkCb beyond read (.ok data)) := by
  simp only [Transfer.getChunkCb, deref_of_held fetching.held, deref_member_set fetching.known,
    deref_member_set fetching.listed, bind, Except.bind]
  split
  next outside => exact fun inside => absurd inside.1 (Nat.not_lt.mpr outside)
  next inside =>
    have inside := Nat.lt_of_not_le inside
    have replies : ∀ overreads, Ends (fun _ => True) Never (Transfer.actualTransferData { t with
        pdp := some (pdp.landed status read data)
        copied := t.copied ++ [(read.descNo, data)]
        overreads := overreads } read.sbp) := fun overreads =>
      actual_transfer_data_ends rfl fetching.listed
    obtain ⟨overreads, next⟩ := read_status_eq { t with
      pdp := some (pdp.landed status read data), copied := t.copied ++ [(read.descNo, data)] } beyond
      (status.set read.descNo .done) (read.descNo + 1)
    simp only [XferData.landed] at next replies
    split
    next short =>
      simp only [next]
      split
      next onStorage =>
        have chains : (pdp.landed status read data).Chains beyond (status.set read.descNo .done) descs read :=
          ⟨short.1, short.2, onStorage⟩
        split
        next mode =>
          split
          next apart => exact fun places => apart ((places.2 chains).2 mode)
          next counted =>
            refine (get_chunk_inside ..).congr ⟨fun place => ⟨inside, fun _ => ⟨place, fun _ => not_not.mp counted⟩⟩,
              fun places => (places.2 chains).1⟩
        next mode =>
          refine (get_chunk_inside ..).congr ⟨fun place => ⟨inside, fun _ => ⟨place, fun sequential => ?_⟩⟩,
            fun places => (places.2 chains).1⟩
          cases mode.symm.trans sequential
      next elsewhere => exact ends_iff_of (replies overreads) ⟨inside, fun chains => absurd chains.2.2 elsewhere⟩
    next whole => exact ends_iff_of (replies t.overreads) ⟨inside, fun chains => absurd ⟨chains.1, chains.2.1⟩ whole⟩

/-- **A handler that finds its entry ends just if what it reads is in the lists.** -/
theorem handle_inside (underway : Underway t) (settled : ¬ t.Stray) {event : Event}
    (minds : ∀ pdp, t.pdp = some pdp → Minds t pdp beyond event) :
    EndsIff (∀ pdp, t.pdp = some pdp → Places t pdp beyond event) (t.handle beyond stored event) := by
  have only : ∀ {pdp}, t.pdp = some pdp → ∀ {condition : Prop}, (condition ↔ Places t pdp beyond event) →
      (condition ↔ ∀ pdp, t.pdp = some pdp → Places t pdp beyond event) := by
    intro pdp held condition same
    refine same.trans ⟨fun places pdp' held' => ?_, fun places => places pdp held⟩
    cases held.symm.trans held'
    exact places
  cases event with
  | getData sbp xferId =>
    rcases Option.eq_none_or_eq_some t.pdp with absent | ⟨pdp, held⟩
    · simp only [Transfer.handle, Transfer.getData, absent]
      exact fun pdp held => absurd held (by simp)
    obtain ⟨status, known⟩ := Option.ne_none_iff_exists'.mp ((minds pdp held).finds sbp xferId rfl)
    cases underway with
    | absent absent => cases held.symm.trans absent
    | opening pdp' opening =>
      cases held.symm.trans opening.held
      cases known.symm.trans opening.unknown
    | waiting pdp' descs waiting =>
      cases held.symm.trans waiting.held
      exact (get_data_inside (t := { t with gets := t.gets ++ [sbp] }) held waiting.listed waiting.known
        (List.length_map ..)).congr (only held Iff.rfl)
    | fetching pdp' descs status fetching =>
      cases held.symm.trans fetching.held
      exact (get_data_inside (t := { t with gets := t.gets ++ [sbp] }) held fetching.listed fetching.known
        fetching.sized).congr (only held Iff.rfl)
  | fetchData xferId =>
    simp only [Transfer.handle]
    split
    next idle => exact fun pdp _ due => absurd idle due
    next due =>
      rcases Option.eq_none_or_eq_some t.pdp with absent | ⟨pdp, held⟩
      · exact absurd (Transfer.settled settled absent).2.1 due
      obtain ⟨descs, waiting⟩ := underway.of_scheduled held due
      exact (fetch_data_inside waiting _).congr (only held ⟨fun inside _ => inside, fun places => places due⟩)
  | xpFetchDataCb xferId index res =>
    simp only [Transfer.handle]
    split
    next none_here =>
      intro pdp _
      have outside := List.getElem?_eq_none_iff.mp none_here
      cases res with
      | error s => trivial
      | ok str =>
        cases str with
        | nil => trivial
        | cons byte rest => exact fun inside => absurd inside (Nat.not_lt.mpr outside)
    next d inFlight =>
      have place := (List.getElem?_eq_some_iff.mp inFlight).1
      rcases Option.eq_none_or_eq_some t.pdp with absent | ⟨pdp, held⟩
      · simp only [Transfer.xpFetchDataCb, absent]
        exact fun pdp held => absurd held (by simp)
      obtain ⟨descs, status, fetching⟩ := underway.of_requested held (List.ne_nil_of_mem (List.mem_of_getElem? inFlight))
      have fetching' : Fetching { t with requested := t.requested.eraseIdx index } pdp descs status :=
        { fetching with within := fun d member => fetching.within d (List.mem_of_mem_eraseIdx member) }
      cases res with
      | error s => exact ends_iff_of (xp_fetch_data_cb_failed fetching'.held rfl) fun _ _ => True.intro
      | ok str =>
        cases str with
        | nil => exact ends_iff_of (xp_fetch_data_cb_failed fetching'.held rfl) fun _ _ => True.intro
        | cons byte rest =>
          exact (xp_fetch_data_cb_inside fetching' (List.cons_ne_nil _ _)).congr
            (only held ⟨fun inside _ => inside, fun places => places place⟩)
  | getChunkCb xferId index res =>
    simp only [Transfer.handle]
    split
    next none_here =>
      intro pdp _
      cases res with
      | error s => trivial
      | ok data =>
        intro read descs status inFlight
        cases none_here.symm.trans inFlight
    next read inFlight =>
      have reading : t.reads ≠ [] := List.ne_nil_of_mem (List.mem_of_getElem? inFlight)
      rcases Option.eq_none_or_eq_some t.pdp with absent | ⟨pdp, held⟩
      · exact absurd (Transfer.settled settled absent).1 reading
      obtain ⟨descs, status, fetching⟩ := underway.of_reads held reading
      have fetching' : Fetching { t with reads := t.reads.eraseIdx index } pdp descs status := { fetching with }
      cases res with
      | error s =>
        refine ends_iff_of ?_ fun _ _ => True.intro
        simp only [Transfer.getChunkCb, deref_of_held fetching'.held, bind, Except.bind]
        exact actual_transfer_data_ends rfl fetching.listed
      | ok data =>
        refine (get_chunk_cb_inside fetching' data).congr (only held ⟨fun places => ?_, fun places => ?_⟩)
        · intro read' descs' status' inFlight' listed known
          cases inFlight.symm.trans inFlight'
          cases fetching.listed.symm.trans listed
          cases fetching.known.symm.trans known
          exact places
        · exact places read descs status inFlight fetching.listed fetching.known
  | getInit | getInitCb | putIchunk => exact fun _ _ => True.intro

end Ditto.Downloads
