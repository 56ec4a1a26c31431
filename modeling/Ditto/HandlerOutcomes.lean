import Ditto.TransferRuns

/-! What the handlers of a download can do, whatever the state they meet. A handler that
comes to an end has replied, has started a storage read, has parked the request or has
dropped it, and each outcome carries the tests that led there. -/
namespace Ditto.Downloads
open XferGtc (Descriptor)
open SendSize (sendSize)
open Outcomes

variable {t : Transfer} {pdp : XferData} {descs : List Descriptor} {status : List DescStatus}
  {beyond : ℕ → DescStatus} {sbp : Sbp} {xferId : XferId} {read : SpRead}

/-! ## Tests -/

/-- A status, or what memory holds past the last one. -/
def statusAt (beyond : ℕ → DescStatus) (status : List DescStatus) (i : ℕ) : DescStatus :=
  (status[i]?).getD (beyond i)

theorem read_status_eq (t : Transfer) (beyond : ℕ → DescStatus) (status : List DescStatus) (i : ℕ) :
    ∃ overreads, t.readStatus beyond status i = (statusAt beyond status i, { t with overreads := overreads }) := by
  unfold Transfer.readStatus statusAt
  cases status[i]? with
  | none => exact ⟨_, rfl⟩
  | some s => exact ⟨t.overreads, rfl⟩

/-- The entry with a chunk that came back from the storage. -/
def XferData.landed (pdp : XferData) (status : List DescStatus) (read : SpRead) (data : List UInt8) : XferData :=
  { pdp with
    buf := pdp.buf ++ data
    descsStatus := some (status.set read.descNo .done)
    descsXfered := pdp.descsXfered + 1
    bufOffset := if 0 ≤ read.offset then int32 read.offset else pdp.bufOffset }

/-- There is something that can be sent at once. -/
def XferData.Ready (pdp : XferData) (beyond : ℕ → DescStatus) : Prop :=
  pdp.buf ≠ [] ∨ ∃ status, pdp.descsStatus = some status ∧
    match pdp.xmode with
    | .sequential => statusAt beyond status pdp.descsCount = .onStorage
    | .outOfOrder => ∃ descs, pdp.descs = some descs ∧ descs ≠ [] ∧ pdp.descsXfered ≠ descs.length ∧
      (Transfer.firstOnStorage status).isSome

theorem deref_holds (held : t.pdp = some pdp) : Ends (fun found => pdp = found) (fun _ => True) t.deref := by
  rw [Transfer.deref, held]
  rfl

theorem deref_member_holds {α : Type} (member : Option α) :
    Ends (fun value => member = some value) (fun _ => True) (Transfer.derefMember member) := by
  cases member with
  | none => trivial
  | some value => rfl

/-- A storage read is of the descriptor it names. -/
theorem get_chunk_at (t : Transfer) (sbp : Sbp) (descs : List Descriptor) (i : ℕ) (offset : ℤ) :
    Ends (fun after => ∃ d, descs[i]? = some d ∧ after = { t with reads := t.reads ++ [⟨sbp, i, offset, d⟩] })
      (fun _ => True) (t.getChunk sbp descs i offset) := by
  unfold Transfer.getChunk
  split
  next d place => exact ⟨d, place, rfl⟩
  next => trivial

/-- What the first test of `get_data` finds out. -/
theorem sendable_tests (t : Transfer) (beyond : ℕ → DescStatus) (pdp : XferData) :
    Ends (fun found : Bool × Transfer => (∃ overreads, found.2 = { t with overreads := overreads }) ∧
        (found.1 = true → pdp.Ready beyond) ∧
        (found.1 = false → pdp.buf = [] ∧ (pdp.xmode = .sequential → ∃ status,
          pdp.descsStatus = some status ∧ statusAt beyond status pdp.descsCount ≠ .onStorage)))
      (fun _ => True) (t.sendable beyond pdp) := by
  unfold Transfer.sendable
  split
  next more => exact ⟨⟨t.overreads, rfl⟩, fun _ => .inl (List.ne_nil_of_length_pos more), nofun⟩
  next none_left =>
    have drained : pdp.buf = [] := List.length_eq_zero_iff.mp (Nat.eq_zero_of_not_pos none_left)
    split
    next mode =>
      refine ⟨⟨t.overreads, rfl⟩, nofun, fun _ => ⟨drained, fun sequential => ?_⟩⟩
      cases mode.symm.trans sequential
    next mode =>
      refine (deref_member_holds pdp.descsStatus).bind fun status known => ?_
      obtain ⟨overreads, read⟩ := read_status_eq t beyond status pdp.descsCount
      simp only [read]
      refine ⟨⟨overreads, rfl⟩, fun found => .inr ⟨status, known, ?_⟩, fun missed => ⟨drained, fun _ => ?_⟩⟩
      · rw [mode]
        exact of_decide_eq_true found
      · exact ⟨status, known, of_decide_eq_false missed⟩

/-- What its second test finds out. -/
theorem available_tests (pdp : XferData) (descs : List Descriptor) :
    Ends (fun found => (found = true → pdp.xmode = .outOfOrder ∧ descs ≠ [] ∧ ∃ status,
          pdp.descsStatus = some status ∧ (Transfer.firstOnStorage status).isSome) ∧
        (found = false → pdp.xmode = .sequential ∨ descs = [] ∨ ∃ status,
          pdp.descsStatus = some status ∧ ¬ (Transfer.firstOnStorage status).isSome))
      (fun _ => True) (Transfer.available pdp descs) := by
  unfold Transfer.available
  split
  next mode => exact ⟨nofun, fun _ => .inl mode⟩
  next mode =>
    split
    next unlisted => exact ⟨nofun, fun _ => .inr (.inl (List.length_eq_zero_iff.mp unlisted))⟩
    next listed =>
      refine (deref_member_holds pdp.descsStatus).bind fun status known => ?_
      refine ⟨fun found => ⟨mode, ?_, status, known, found⟩, fun missed => .inr (.inr ⟨status, known, ?_⟩)⟩
      · rintro rfl
        exact listed rfl
      · rw [missed]
        exact Bool.false_ne_true

theorem not_ready (drained : pdp.buf = [])
    (unsent : pdp.xmode = .sequential → ∃ status, pdp.descsStatus = some status ∧
      statusAt beyond status pdp.descsCount ≠ .onStorage)
    (unavailable : pdp.xmode = .outOfOrder → ∀ descs status, pdp.descs = some descs →
      pdp.descsStatus = some status → descs ≠ [] → pdp.descsXfered ≠ descs.length →
      ¬ (Transfer.firstOnStorage status).isSome) : ¬ pdp.Ready beyond := by
  rintro (more | ⟨status, known, onStorage⟩)
  · exact more drained
  cases mode : pdp.xmode with
  | sequential =>
    obtain ⟨status', known', elsewhere⟩ := unsent mode
    cases known.symm.trans known'
    rw [mode] at onStorage
    exact elsewhere onStorage
  | outOfOrder =>
    rw [mode] at onStorage
    obtain ⟨descs, listed, some_listed, left, onStorage⟩ := onStorage
    exact unavailable mode descs status listed known some_listed left onStorage

/-! ## GET_INIT -/

/-- The descriptors of an entry are those it had, with those of an answer to its GET_INIT. -/
def ListsMore (res : Except String (List Descriptor × Bool)) (t after : Transfer) : Prop :=
  ∀ pdp' all, after.pdp = some pdp' → pdp'.descs = some all → ∃ pdp, t.pdp = some pdp ∧
    (pdp.descs = some all ∨ ∃ more ended, res = .ok (more, ended) ∧ all = pdp.descs.getD [] ++ more)

theorem get_init_cb_lists (g : Gtcd) (opened : XferId) (call : InitCall)
    (res : Except String (List Descriptor × Bool)) :
    Ends (fun g' => ListsMore res (g.transfers opened) (g'.transfers opened)) (fun _ => True)
      (g.getInitCb opened call res) := by
  cases res with
  | error s =>
    simp only [Gtcd.getInitCb]
    split
    · simp only [ends_ok, Function.update_self, ListsMore]
      exact fun _ _ held => by cases held
    · cases live : (g.transfers opened).deref with
      | error fault => trivial
      | ok pdp =>
        simp only [bind, Except.bind, ends_ok, Function.update_self]
        exact fun pdp' all held listed => ⟨pdp', held, .inl listed⟩
  | ok answer =>
    obtain ⟨more, ended⟩ := answer
    simp only [Gtcd.getInitCb]
    cases live : (g.transfers opened).deref with
    | error fault => trivial
    | ok pdp =>
      have held := deref_held live
      have lists : ∀ all, all = pdp.descs.getD [] ++ more →
          ∃ pdp, (g.transfers opened).pdp = some pdp ∧ (pdp.descs = some all ∨ ∃ more' ended',
            (Except.ok (more, ended) : Except String _) = .ok (more', ended') ∧ all = pdp.descs.getD [] ++ more') := by
        rintro all rfl
        exact ⟨pdp, held, .inr ⟨more, ended, rfl, rfl⟩⟩
      simp only [bind, Except.bind]
      split
      · simp only [ends_ok, Function.update_self]
        rintro pdp' all held' listed
        cases held'
        refine lists all ?_
        rw [← Option.some.inj listed]
        cases pdp.descs <;> rfl
      · simp only [ends_ok, Function.update_self]
        rintro pdp' all held' listed
        cases held'
        refine lists all ?_
        rw [← Option.some.inj listed]
        cases pdp.descs <;> rfl

section
variable [SendSize]

/-- All descriptors are counted, and one reply takes what is in the buffer. -/
def XferData.Ending (pdp : XferData) (descs : List Descriptor) : Prop :=
  pdp.descsXfered = descs.length ∧ pdp.buf.length ≤ sendSize

/-- After a chunk of a storage read the next one is read. -/
def XferData.Chains (pdp : XferData) (beyond : ℕ → DescStatus) (status : List DescStatus)
    (descs : List Descriptor) (read : SpRead) : Prop :=
  pdp.buf.length < sendSize ∧ pdp.descsXfered ≠ descs.length ∧
    statusAt beyond status (read.descNo + 1) = .onStorage

/-! ## Replies and reads -/

/-- What `actual_transfer_data` leaves of a transfer with an entry. -/
inductive Replied (t : Transfer) (pdp : XferData) (sbp : Sbp) : Transfer → Prop where
  | failed (err : String) (failed : pdp.err = some err) :
      Replied t pdp sbp { t.reply sbp (.error err) with pdp := none }
  | ended (descs : List Descriptor) (fine : pdp.err = none) (listed : pdp.descs = some descs)
      (ending : pdp.Ending descs) :
      Replied t pdp sbp { t.reply sbp (.ok ⟨UInt64.ofInt pdp.bufOffset, pdp.buf.length, pdp.buf, true⟩) with
        spOps := t.spOps ++ descs.map .releaseIchunk
        pdp := none }
  | sent (data rest : List UInt8) (fine : pdp.err = none) (cut : data ++ rest = pdp.buf)
      (unending : ∀ descs, pdp.descs = some descs → ¬ pdp.Ending descs) :
      Replied t pdp sbp { t.reply sbp (.ok ⟨UInt64.ofInt pdp.bufOffset, data.length, data, false⟩) with
        pdp := some { pdp with bufOffset := int32 (pdp.bufOffset + data.length), buf := rest } }

/-- The descriptor read next, the count after it and the offset of its chunk if it is known. -/
inductive Aimed (pdp : XferData) (descs : List Descriptor) (status : List DescStatus) :
    ℕ → ℕ → ℤ → Prop where
  | next (mode : pdp.xmode = .sequential) (left : pdp.descsXfered ≠ descs.length) :
      Aimed pdp descs status pdp.descsCount (pdp.descsCount + 1) (-1)
  | first (i : ℕ) (mode : pdp.xmode = .outOfOrder) (drained : pdp.buf = [])
      (found : Transfer.firstOnStorage status = some i) :
      Aimed pdp descs status i pdp.descsCount ((descs.take i).map fun d => (d.length : ℤ)).sum

/-- What `transfer_data` leaves of a transfer with an entry. -/
inductive Turned (t : Transfer) (pdp : XferData) (sbp : Sbp) : Transfer → Prop where
  | replied (overreads : List ℕ) (after : Transfer)
      (replied : Replied { t with overreads := overreads } pdp sbp after)
      (due : pdp.xmode = .outOfOrder → pdp.err = none → pdp.buf ≠ []) : Turned t pdp sbp after
  | reads (overreads : List ℕ) (descs : List Descriptor) (status : List DescStatus) (i count : ℕ)
      (offset : ℤ) (d : Descriptor) (fine : pdp.err = none) (listed : pdp.descs = some descs)
      (known : pdp.descsStatus = some status) (aimed : Aimed pdp descs status i count offset)
      (place : descs[i]? = some d) :
      Turned t pdp sbp { t with
        pdp := some { pdp with descsCount := count }
        reads := t.reads ++ [⟨sbp, i, offset, d⟩]
        overreads := overreads }
  | drops (mode : pdp.xmode = .outOfOrder) (fine : pdp.err = none) (drained : pdp.buf = [])
      (idle : pdp.descs = some [] ∨
        ∃ status, pdp.descsStatus = some status ∧ Transfer.firstOnStorage status = none) : Turned t pdp sbp t

theorem actual_transfer_data_replied (held : t.pdp = some pdp) :
    Ends (Replied t pdp sbp) (fun _ => True) (t.actualTransferData sbp) := by
  unfold Transfer.actualTransferData
  refine (deref_holds held).bind fun pdp' same => ?_
  subst same
  split
  next err failed => exact .failed err failed
  next fine =>
    split
    next short =>
      refine (deref_member_holds pdp.descs).bind fun descs listed => ?_
      dsimp only
      split
      next full => exact .ended descs fine listed ⟨full, short⟩
      next left =>
        refine .sent pdp.buf [] fine (List.append_nil _) fun descs' listed' ending => ?_
        cases listed.symm.trans listed'
        exact left ending.1
    next long =>
      have size : (pdp.buf.take sendSize).length = sendSize := by
        rw [List.length_take]
        omega
      have sent : Replied t pdp sbp _ := .sent (pdp.buf.take sendSize) (pdp.buf.drop sendSize) fine
        (List.take_append_drop ..) fun _ _ ending => long ending.2
      rw [size] at sent
      exact sent

theorem transfer_data_turned (held : t.pdp = some pdp) :
    Ends (Turned t pdp sbp) (fun _ => True) (t.transferData beyond sbp) := by
  have replies : ∀ overreads, (pdp.xmode = .outOfOrder → pdp.err = none → pdp.buf ≠ []) →
      Ends (Turned t pdp sbp) (fun _ => True) ({ t with overreads := overreads }.actualTransferData sbp) :=
    fun overreads due => (actual_transfer_data_replied (t := { t with overreads := overreads }) held).imp
      fun after replied => .replied overreads after replied due
  have here : (pdp.xmode = .outOfOrder → pdp.err = none → pdp.buf ≠ []) →
      Ends (Turned t pdp sbp) (fun _ => True) (t.actualTransferData sbp) := replies t.overreads
  unfold Transfer.transferData
  refine (deref_holds held).bind fun pdp' same => ?_
  subst same
  split
  next failed => exact here fun _ fine => by simp [fine] at failed
  next unfailed =>
    have fine : pdp.err = none := Option.not_isSome_iff_eq_none.mp unfailed
    split
    next mode =>
      have due : pdp.xmode = .outOfOrder → pdp.err = none → pdp.buf ≠ [] := fun outOfOrder => by
        cases mode.symm.trans outOfOrder
      split
      next short =>
        refine (deref_member_holds pdp.descs).bind fun descs listed => ?_
        split
        next left =>
          refine (deref_member_holds pdp.descsStatus).bind fun status known => ?_
          obtain ⟨overreads, read⟩ := read_status_eq t beyond status pdp.descsCount
          simp only [read]
          split
          next =>
            refine (get_chunk_at _ sbp descs pdp.descsCount (-1)).imp fun after reads => ?_
            obtain ⟨d, place, rfl⟩ := reads
            exact .reads overreads descs status _ _ _ d fine listed known (.next mode left) place
          next => exact replies overreads due
        next => exact here due
      next => exact here due
    next mode =>
      split
      next more => exact here fun _ _ => List.ne_nil_of_length_pos more
      next none_left =>
        have drained : pdp.buf = [] := List.length_eq_zero_iff.mp (Nat.eq_zero_of_not_pos none_left)
        refine (deref_member_holds pdp.descs).bind fun descs listed => ?_
        split
        next unlisted =>
          refine .drops mode fine drained (.inl ?_)
          rw [listed, List.length_eq_zero_iff.mp unlisted]
        next =>
          refine (deref_member_holds pdp.descsStatus).bind fun status known => ?_
          split
          next i found =>
            refine (get_chunk_at t sbp descs i _).imp fun after reads => ?_
            obtain ⟨d, place, rfl⟩ := reads
            have reads : Turned t pdp sbp _ :=
              .reads t.overreads descs status i _ _ d fine listed known (.first i mode drained found) place
            have same : { pdp with descsCount := pdp.descsCount } = pdp := rfl
            rw [same, ← held] at reads
            exact reads
          next none_found => exact .drops mode fine drained (.inr ⟨status, known, none_found⟩)

/-- What `get_chunk_cb` leaves of a transfer with an entry. -/
inductive Landed (t : Transfer) (beyond : ℕ → DescStatus) (pdp : XferData) (read : SpRead) :
    Except String (List UInt8) → Transfer → Prop where
  | failed (s : String) (after : Transfer)
      (replied : Replied { t with pdp := some { pdp with err := some s } } { pdp with err := some s } read.sbp after) :
      Landed t beyond pdp read (.error s) after
  | replied (status : List DescStatus) (descs : List Descriptor) (data : List UInt8) (overreads : List ℕ)
      (after : Transfer) (known : pdp.descsStatus = some status) (listed : pdp.descs = some descs)
      (unchained : ¬ (pdp.landed status read data).Chains beyond (status.set read.descNo .done) descs read)
      (replied : Replied { t with
        pdp := some (pdp.landed status read data)
        copied := t.copied ++ [(read.descNo, data)]
        overreads := overreads } (pdp.landed status read data) read.sbp after) :
      Landed t beyond pdp read (.ok data) after
  | chained (status : List DescStatus) (descs : List Descriptor) (data : List UInt8) (overreads : List ℕ)
      (count : ℕ) (d : Descriptor) (known : pdp.descsStatus = some status) (listed : pdp.descs = some descs)
      (chains : (pdp.landed status read data).Chains beyond (status.set read.descNo .done) descs read)
      (place : descs[read.descNo + 1]? = some d)
      (counted : pdp.xmode = .sequential ∧ pdp.descsCount = read.descNo + 1 ∧ count = pdp.descsCount + 1 ∨
        pdp.xmode = .outOfOrder ∧ count = pdp.descsCount) :
      Landed t beyond pdp read (.ok data) { t with
        pdp := some { pdp.landed status read data with descsCount := count }
        copied := t.copied ++ [(read.descNo, data)]
        reads := t.reads ++ [⟨read.sbp, read.descNo + 1, -1, d⟩]
        overreads := overreads }

theorem get_chunk_cb_landed (held : t.pdp = some pdp) (res : Except String (List UInt8)) :
    Ends (Landed t beyond pdp read res) (fun _ => True) (t.getChunkCb beyond read res) := by
  unfold Transfer.getChunkCb
  refine (deref_holds held).bind fun pdp' same => ?_
  subst same
  split
  next s =>
    exact (actual_transfer_data_replied (t := { t with pdp := some { pdp with err := some s } }) rfl).imp
      fun after replied => .failed s after replied
  next data =>
    refine (deref_member_holds pdp.descsStatus).bind fun status known => ?_
    refine (deref_member_holds pdp.descs).bind fun descs listed => ?_
    split
    · trivial
    dsimp only
    have replies : ∀ overreads, ¬ (pdp.landed status read data).Chains beyond (status.set read.descNo .done) descs read →
        Ends (Landed t beyond pdp read (.ok data)) (fun _ => True) (Transfer.actualTransferData { t with
          pdp := some (pdp.landed status read data)
          copied := t.copied ++ [(read.descNo, data)]
          overreads := overreads } read.sbp) := fun overreads unchained =>
      (actual_transfer_data_replied rfl).imp fun after replied =>
        .replied status descs data overreads after known listed unchained replied
    split
    next short =>
      obtain ⟨overreads, next⟩ := read_status_eq { t with
        pdp := some (pdp.landed status read data), copied := t.copied ++ [(read.descNo, data)] } beyond
        (status.set read.descNo .done) (read.descNo + 1)
      have chained : ∀ count, statusAt beyond (status.set read.descNo .done) (read.descNo + 1) = .onStorage →
          (pdp.xmode = .sequential ∧ pdp.descsCount = read.descNo + 1 ∧ count = pdp.descsCount + 1 ∨
            pdp.xmode = .outOfOrder ∧ count = pdp.descsCount) →
          Ends (Landed t beyond pdp read (.ok data)) (fun _ => True) (Transfer.getChunk { t with
            pdp := some { pdp.landed status read data with descsCount := count }
            copied := t.copied ++ [(read.descNo, data)]
            overreads := overreads } read.sbp descs (read.descNo + 1) (-1)) := by
        intro count onStorage counted
        refine (get_chunk_at _ read.sbp descs (read.descNo + 1) (-1)).imp fun after reads => ?_
        obtain ⟨d, place, rfl⟩ := reads
        exact .chained status descs data overreads count d known listed ⟨short.1, short.2, onStorage⟩ place counted
      simp only [XferData.landed] at next chained replies
      simp only [next]
      split
      next onStorage =>
        split
        next mode =>
          split
          · trivial
          next count => exact chained _ onStorage (.inl ⟨mode, not_not.mp count, rfl⟩)
        next mode => exact chained _ onStorage (.inr ⟨mode, rfl⟩)
      next elsewhere => exact replies overreads fun chains => elsewhere chains.2.2
    next whole => exact replies t.overreads fun chains => whole ⟨chains.1, chains.2.1⟩

/-! ## Requests -/

/-- What `get_data` leaves of a transfer with an entry. -/
inductive Got (t : Transfer) (beyond : ℕ → DescStatus) (pdp : XferData) (sbp : Sbp) : Transfer → Prop where
  | turned (overreads : List ℕ) (after : Transfer) (ready : pdp.Ready beyond)
      (turned : Turned { t with overreads := overreads } pdp sbp after) : Got t beyond pdp sbp after
  | ended (overreads : List ℕ) (descs : List Descriptor) (unready : ¬ pdp.Ready beyond)
      (drained : pdp.buf = []) (listed : pdp.descs = some descs) (full : pdp.descsXfered = descs.length) :
      Got t beyond pdp sbp { { t with overreads := overreads }.reply sbp (.ok ⟨0, 0, [], true⟩) with pdp := none }
  | parked (overreads : List ℕ) (descs : List Descriptor) (scheduled : ℕ) (unready : ¬ pdp.Ready beyond)
      (drained : pdp.buf = []) (listed : pdp.descs = some descs) (left : pdp.descsXfered ≠ descs.length)
      (known : descs ≠ [] → ∃ status, pdp.descsStatus = some status)
      (due : pdp.fetching = true ∧ scheduled = t.scheduled ∨ pdp.fetching = false ∧ scheduled = t.scheduled + 1) :
      Got t beyond pdp sbp { t with
        pdp := some { pdp with fetching := true, xcb := some sbp }
        scheduled := scheduled
        overreads := overreads }

theorem get_data_got (held : t.pdp = some pdp) (xferId : XferId) :
    Ends (Got t beyond pdp sbp) (fun _ => True) (t.getData beyond xferId sbp) := by
  have turns : ∀ overreads, pdp.Ready beyond → Ends (Got t beyond pdp sbp) (fun _ => True)
      ({ t with overreads := overreads }.transferData beyond sbp) := fun overreads ready =>
    (transfer_data_turned (t := { t with overreads := overreads }) held).imp fun after turned =>
      .turned overreads after ready turned
  simp only [Transfer.getData, held]
  refine (sendable_tests t beyond pdp).bind fun found tests => ?_
  obtain ⟨ready, before⟩ := found
  obtain ⟨⟨overreads, rfl⟩, sends, waits⟩ := tests
  dsimp only
  split
  next now => exact turns overreads (sends now)
  next later =>
    obtain ⟨drained, unsent⟩ := waits (Bool.eq_false_iff.mpr later)
    refine (deref_member_holds pdp.descs).bind fun descs listed => ?_
    split
    next full =>
      refine .ended overreads descs (not_ready drained unsent ?_) drained listed full
      intro _ descs' _ listed' _ _ left
      cases listed.symm.trans listed'
      exact absurd full left
    next left =>
      refine (available_tests pdp descs).bind fun found tests => ?_
      obtain ⟨finds, misses⟩ := tests
      split
      next found =>
        obtain ⟨mode, some_listed, status, known, onStorage⟩ := finds found
        refine turns overreads (.inr ⟨status, known, ?_⟩)
        rw [mode]
        exact ⟨descs, listed, some_listed, left, onStorage⟩
      next missed =>
        have missed := misses (Bool.eq_false_iff.mpr missed)
        have unready : ¬ pdp.Ready beyond := by
          refine not_ready drained unsent fun mode descs' status listed' known some_listed _ => ?_
          cases listed.symm.trans listed'
          rw [mode] at missed
          obtain sequential | unlisted | ⟨status', known', elsewhere⟩ := missed
          · cases sequential
          · exact absurd unlisted some_listed
          · cases known.symm.trans known'
            exact elsewhere
        have known : descs ≠ [] → ∃ status, pdp.descsStatus = some status := by
          intro some_listed
          cases mode : pdp.xmode with
          | sequential =>
            obtain ⟨status, known, _⟩ := unsent mode
            exact ⟨status, known⟩
          | outOfOrder =>
            rw [mode] at missed
            obtain sequential | unlisted | ⟨status, known, _⟩ := missed
            · cases sequential
            · exact absurd unlisted some_listed
            · exact ⟨status, known⟩
        split
        next fetching =>
          have parked : Got t beyond pdp sbp _ :=
            .parked overreads descs t.scheduled unready drained listed left known (.inl ⟨fetching, rfl⟩)
          rw [← fetching] at parked
          exact parked
        next idle =>
          exact .parked overreads descs _ unready drained listed left known (.inr ⟨Bool.eq_false_iff.mpr idle, rfl⟩)

/-! ## The fetch and the arrivals -/

/-- What is left of a transfer when its parked request has had its turn, if it is its turn. -/
inductive Resumed (t : Transfer) (pdp : XferData) (turn : Prop) : Transfer → Prop where
  | waits (overreads : List ℕ) (idle : ¬ turn) : Resumed t pdp turn { t with overreads := overreads }
  | turned (sbp : Sbp) (overreads : List ℕ) (after : Transfer) (parked : pdp.xcb = some sbp)
      (turned : Turned { t with pdp := some { pdp with xcb := none }, overreads := overreads }
        { pdp with xcb := none } sbp after) (due : turn) : Resumed t pdp turn after

/-- A request is parked, and a sequential transfer has its next chunk. -/
def XferData.Resumes (pdp : XferData) (beyond : ℕ → DescStatus) (status : List DescStatus) : Prop :=
  pdp.xcb ≠ none ∧ (pdp.xmode = .sequential → statusAt beyond status pdp.descsCount = .onStorage)

/-- What `fetch_data` finds of each descriptor. -/
def fetchedStatus (stored : Descriptor → Bool) (descs : List Descriptor) : List DescStatus :=
  descs.map fun d => if stored d then .onStorage else .requested

/-- What `fetch_data` leaves of a transfer with an entry. -/
inductive Fetched (t : Transfer) (beyond : ℕ → DescStatus) (stored : Descriptor → Bool) (pdp : XferData) :
    Transfer → Prop where
  | fetched (descs : List Descriptor) (after : Transfer) (listed : pdp.descs = some descs)
      (known : ∃ status, pdp.descsStatus = some status)
      (resumed : Resumed { t with
        pdp := some { pdp with descsStatus := some (fetchedStatus stored descs) }
        spOps := t.spOps ++ (descs.filter stored).map .incChunkRefcount }
        { pdp with descsStatus := some (fetchedStatus stored descs) }
        (pdp.Resumes beyond (fetchedStatus stored descs) ∧
          (pdp.xmode = .outOfOrder → (Transfer.firstOnStorage (fetchedStatus stored descs)).isSome)) after) :
      Fetched t beyond stored pdp { after with requested := after.requested ++ descs.filter fun d => !stored d }

theorem resume_xcb_turned {turn : Prop} (overreads : List ℕ) (parked : pdp.xcb = some sbp) (due : turn) :
    Ends (Resumed t pdp turn) (fun _ => True) ({ t with overreads := overreads }.resumeXcb beyond pdp sbp) :=
  (transfer_data_turned rfl).imp fun after turned => .turned sbp overreads after parked turned due

theorem resume_fetched_resumed :
    Ends (Resumed t pdp (pdp.Resumes beyond status ∧
      (pdp.xmode = .outOfOrder → (Transfer.firstOnStorage status).isSome))) (fun _ => True)
      (t.resumeFetched beyond pdp status) := by
  unfold Transfer.resumeFetched
  split
  next _ unparked => exact .waits t.overreads fun turn => turn.1.1 unparked
  next sbp parked mode =>
    obtain ⟨overreads, read⟩ := read_status_eq t beyond status pdp.descsCount
    simp only [read]
    split
    next found =>
      refine resume_xcb_turned overreads parked ⟨⟨by rw [parked]; nofun, fun _ => found⟩, fun outOfOrder => ?_⟩
      cases mode.symm.trans outOfOrder
    next missed => exact .waits overreads fun turn => missed (turn.1.2 mode)
  next sbp parked mode =>
    split
    next found =>
      refine resume_xcb_turned t.overreads parked ⟨⟨by rw [parked]; nofun, fun sequential => ?_⟩, fun _ => found⟩
      cases mode.symm.trans sequential
    next missed => exact .waits t.overreads fun turn => missed (turn.2 mode)

theorem fetch_data_fetched (held : t.pdp = some pdp) (stored : Descriptor → Bool) :
    Ends (Fetched t beyond stored pdp) (fun _ => True) (t.fetchData beyond stored) := by
  unfold Transfer.fetchData
  refine (deref_holds held).bind fun pdp' same => ?_
  subst same
  refine (deref_member_holds pdp.descsStatus).bind fun status known => ?_
  refine (deref_member_holds pdp.descs).bind fun descs listed => ?_
  refine resume_fetched_resumed.bind fun after resumed => ?_
  have fetched : Fetched t beyond stored pdp _ := .fetched descs after listed ⟨status, known⟩ resumed
  split
  next none_missing =>
    rw [none_missing, List.append_nil] at fetched
    exact fetched
  next => exact (deref_member_holds pdp.hints).bind fun _ _ => fetched

/-- The error that a callback of the transfer plugin reports. -/
def fetchError : Except String (Descriptor × List UInt8) → Option String
  | .error s => some s
  | .ok (_, []) => some "Unable to fetch data from the xfer plugin"
  | .ok (_, _ :: _) => none

/-- What `xp_fetch_data_cb` leaves of a transfer with an entry. -/
inductive Arrived (t : Transfer) (beyond : ℕ → DescStatus) (pdp : XferData) :
    Except String (Descriptor × List UInt8) → Transfer → Prop where
  | noted (res : Except String (Descriptor × List UInt8)) (err : String) (failed : fetchError res = some err)
      (unparked : pdp.xcb = none) : Arrived t beyond pdp res { t with pdp := some { pdp with err := some err } }
  | told (res : Except String (Descriptor × List UInt8)) (err : String) (sbp : Sbp)
      (failed : fetchError res = some err) (parked : pdp.xcb = some sbp) :
      Arrived t beyond pdp res { t.reply sbp (.error err) with pdp := none }
  | stored (d : Descriptor) (data : List UInt8) (status : List DescStatus) (descs : List Descriptor)
      (after : Transfer) (filled : data ≠ []) (known : pdp.descsStatus = some status)
      (listed : pdp.descs = some descs)
      (resumed : Resumed { t with
        pdp := some { pdp with descsStatus := some (Transfer.arrive d.id descs status).1 }
        spOps := if (Transfer.arrive d.id descs status).2 then t.spOps ++ [.putIchunk d data] else t.spOps }
        { pdp with descsStatus := some (Transfer.arrive d.id descs status).1 }
        (pdp.Resumes beyond (Transfer.arrive d.id descs status).1) after) :
      Arrived t beyond pdp (.ok (d, data)) after

theorem resume_arrived_resumed :
    Ends (Resumed t pdp (pdp.Resumes beyond status)) (fun _ => True) (t.resumeArrived beyond pdp status) := by
  unfold Transfer.resumeArrived
  split
  next _ unparked => exact .waits t.overreads fun turn => turn.1 unparked
  next sbp parked mode =>
    refine resume_xcb_turned t.overreads parked ⟨by rw [parked]; nofun, fun sequential => ?_⟩
    cases mode.symm.trans sequential
  next sbp parked mode =>
    obtain ⟨overreads, read⟩ := read_status_eq t beyond status pdp.descsCount
    simp only [read]
    split
    next found => exact resume_xcb_turned overreads parked ⟨by rw [parked]; nofun, fun _ => found⟩
    next missed => exact .waits overreads fun turn => missed (turn.2 mode)

theorem xp_fetch_data_cb_arrived (held : t.pdp = some pdp) (res : Except String (Descriptor × List UInt8)) :
    Ends (Arrived t beyond pdp res) (fun _ => True) (t.xpFetchDataCb beyond res) := by
  unfold Transfer.xpFetchDataCb
  split
  next absent => cases absent.symm.trans held
  next pdp' held' =>
    cases held.symm.trans held'
    dsimp only
    split
    next s =>
      split
      next sbp parked => exact .told _ s sbp rfl parked
      next unparked => exact .noted _ s rfl unparked
    next =>
      split
      next sbp parked => exact .told _ _ sbp rfl parked
      next unparked => exact .noted _ _ rfl unparked
    next d data filled =>
      refine (deref_member_holds pdp.descsStatus).bind fun status known => ?_
      refine (deref_member_holds pdp.descs).bind fun descs listed => ?_
      refine resume_arrived_resumed.imp fun after resumed => ?_
      exact .stored d data status descs after filled known listed resumed

/-! ## Steps -/

/-- The rule for one step, seen from a transfer: it is spared, opened, answered by its GET_INIT
or handled. -/
theorem step_rule {post : Transfer → Prop} {event : Event} {g : Gtcd}
    (spared : event.target ≠ some xferId → post (g.transfers xferId))
    (opened : event.target ≠ some xferId → ∀ sbp mode hints, g.xferCounter = xferId →
      post { g.transfers xferId with pdp := some (.opened mode hints), opening := some ⟨sbp, false⟩ })
    (answered : event.target ≠ some xferId → ∀ call after, (g.transfers xferId).opening = some call →
      InitAnswered (g.transfers xferId) after → ∀ res, event = .getInitCb xferId res →
      ListsMore res (g.transfers xferId) after → post after)
    (handled : event.target = some xferId →
      Ends post (fun _ => True) ((g.transfers xferId).handle beyond g.stored event)) :
    Ends (fun g' => post (g'.transfers xferId)) (fun _ => True) (g.step beyond event) := by
  by_cases own : event.target = some xferId
  · rw [step_target own]
    refine (handled own).bind fun after kept => ?_
    show post ((g.update xferId after).transfers xferId)
    rw [update_transfers]
    exact kept
  by_cases opens : Opens xferId g event
  · cases event with
    | getInit sbp oid hints xmode =>
      simp only [Gtcd.step, ends_ok]
      obtain ⟨replies, refused⟩ | ⟨mode, _, begun⟩ := get_init_cases g sbp oid hints xmode
      · rw [refused]
        exact spared own
      · cases opens
        rw [begun]
        simp only [Function.update_self]
        exact opened own sbp mode hints rfl
    | getInitCb begun res =>
      cases opens
      simp only [Gtcd.step]
      split
      next call awaited =>
        refine ((get_init_cb_ends g xferId call res).and (get_init_cb_lists g xferId call res)).imp fun g' after => ?_
        obtain ⟨⟨_, _, t, written, answers⟩, lists⟩ := after
        rw [written, Function.update_self] at lists ⊢
        exact answered own call t awaited answers res rfl lists
      next => exact spared own
    | _ => exact opens.elim
  · exact (step_spares own opens).imp fun g' same => same.same ▸ spared own

end
end Ditto.Downloads
