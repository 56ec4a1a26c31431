import Ditto.DownloadArrivals
import Ditto.Runs

/-! Out-of-order downloads over whole runs. A transfer is opened, served until all
of it is delivered, and taken out of the table. As long as the client asks again
only after a reply and no error occurs, its books agree in every run in which no
arriving chunk meets a descriptor it has served already. -/
namespace Ditto.Downloads
open XferGtc (Descriptor)
open Outcomes Runs

variable {stored more : List UInt8 → Option (List UInt8)} {t : Transfer} {pdp : XferData}
  {descs : List Descriptor} {status : List DescStatus} {busy : ℕ} {fetched : Bool}
  {beyond : ℕ → DescStatus} {sbp : Sbp} {g g' : Gtcd} {xferId : XferId}

/-! ## What the environment does -/

/-- The client asks for data once GET_INIT is answered and again after each reply,
out of order; the transfer plugin finds its chunks, and the storage returns each
chunk it has in full. -/
def InTurn (xferId : XferId) (g : Gtcd) : Event → Prop
  | .getInit _ _ _ xmode => g.xferCounter = xferId → xmode ≠ some .sequential
  | .getInitCb _ _ => True
  | .getData _ asked => asked = xferId →
      (g.transfers xferId).opening = none ∧
        (g.transfers xferId).gets.length = (g.transfers xferId).replies.length
  | .fetchData _ => True
  | .xpFetchDataCb fetching _ res => fetching = xferId → ∃ data, res = .ok data ∧ data ≠ []
  | .getChunkCb reading index res => reading = xferId →
      ∀ read, (g.transfers xferId).reads[index]? = some read →
        ∃ data, res = .ok data ∧ g.stored read.desc.id = some data
  | .putIchunk _ _ => True

/-- An arriving chunk meets no descriptor it has served, up to the first that still
has it on storage. -/
def FreshArrival (xferId : XferId) (g : Gtcd) : Event → Prop
  | .xpFetchDataCb fetching index _ => fetching = xferId →
      ∀ d pdp descs status, (g.transfers xferId).requested[index]? = some d →
        (g.transfers xferId).pdp = some pdp → pdp.descs = some descs →
        pdp.descsStatus = some status → Unserved d.id descs status
  | _ => True

/-- A step in turn, with no arrival that meets a descriptor it has served. -/
def Orderly (xferId : XferId) (g : Gtcd) (event : (ℕ → DescStatus) × Event) : Prop :=
  InTurn xferId g event.2 ∧ FreshArrival xferId g event.2

/-- A step delivers each descriptor at most once, and ends the transfer only when
all of them are delivered. -/
structure DeliversOnce (stored : List UInt8 → Option (List UInt8)) (before after : Transfer) :
    Prop where
  done_kept : ∀ pdp status pdp' status', before.pdp = some pdp → pdp.descsStatus = some status →
    after.pdp = some pdp' → pdp'.descsStatus = some status' →
    ∀ i : ℕ, status[i]? = some .done → status'[i]? = some .done
  xfered : ∀ pdp status, after.pdp = some pdp → pdp.descsStatus = some status →
    pdp.descsXfered = status.count .done
  copied_once : (after.copied.map Prod.fst).Nodup
  end_last : ∀ reply ∈ after.replies.drop before.replies.length, EndsTransfer reply.2 →
    ∃ pdp descs, before.pdp = some pdp ∧ pdp.descs = some descs ∧ AllDelivered stored after descs

/-! ## The stages of a transfer -/

/-- Nothing has been asked for or sent. -/
structure Idle (t : Transfer) : Prop where
  unscheduled : t.scheduled = 0
  unread : t.reads = []
  unrequested : t.requested = []
  uncopied : t.copied = []
  undelivered : t.delivered = []
  answered : t.gets.length = t.replies.length

/-- The id of a transfer that has not been opened. -/
structure Fresh (t : Transfer) : Prop extends Idle t where
  absent : t.pdp = none
  unopened : t.opening = none

/-- The stages of an out-of-order transfer. -/
inductive Stage (stored : List UInt8 → Option (List UInt8)) (t : Transfer) : Prop
  | fresh (fresh : Fresh t)
  | opening (call : InitCall) (pdp : XferData) (awaited : t.opening = some call)
      (held : t.pdp = some pdp) (untouched : pdp = { XferData.opened .outOfOrder [] with
        descs := pdp.descs, hints := pdp.hints }) (idle : Idle t)
  | serving (pdp : XferData) (descs : List Descriptor) (status : List DescStatus) (fetched : Bool)
      (books : Serving stored t pdp descs status 0 fetched)
  | gone (absent : t.pdp = none) (unopened : t.opening = none)
      (nodup : (t.copied.map Prod.fst).Nodup)

/-- The stage of a transfer, which is the first while its id has not been given out. -/
structure Staged (xferId : XferId) (g : Gtcd) : Prop where
  stage : Stage g.stored (g.transfers xferId)
  unused : g.xferCounter ≤ xferId → Fresh (g.transfers xferId)

/-- As many descriptors are done as have been copied. -/
theorem Copies.count {copied : List (ℕ × List UInt8)} (copies : Copies stored copied descs status) :
    status.count .done = copied.length := by
  have indexed : (List.range status.length).map (fun i => status[i]?) = status.map some := by
    refine List.ext_getElem (by simp) fun i small _ => ?_
    rw [List.length_map, List.length_range] at small
    simp [List.getElem?_eq_getElem small]
  have same : ((List.range status.length).filter fun i => status[i]? == some .done).Perm
      (copied.map Prod.fst) := by
    rw [List.perm_ext_iff_of_nodup (List.nodup_range.filter _) copies.nodup]
    intro i
    rw [List.mem_filter, beq_iff_eq, copies.done, List.mem_range, and_iff_right_iff_imp]
    exact fun member => (List.getElem?_eq_some_iff.mp ((copies.done i).mpr member)).1
  calc status.count .done = (status.map some).count (some .done) :=
        (List.count_map_of_injective _ _ (Option.some_injective _) _).symm
    _ = ((List.range status.length).filter fun i => status[i]? == some .done).length := by
        rw [← indexed, List.count, List.countP_map, List.countP_eq_length_filter]
        rfl
    _ = (copied.map Prod.fst).length := same.length_eq
    _ = copied.length := List.length_map ..

/-- A storage that has every chunk another has. -/
def Extends (more stored : List UInt8 → Option (List UInt8)) : Prop :=
  ∀ id data, stored id = some data → more id = some data

theorem Serving.extend (serving : Serving stored t pdp descs status busy fetched)
    (extended : Extends more stored) : Serving more t pdp descs status busy fetched :=
  { serving with
    copies := { serving.copies with
      right := fun copy member => by
        obtain ⟨d, place, holds⟩ := serving.copies.right copy member
        exact ⟨d, place, extended _ _ holds⟩ } }

theorem Stage.extend (stage : Stage stored t) (extended : Extends more stored) : Stage more t := by
  cases stage with
  | fresh fresh => exact .fresh fresh
  | opening call pdp awaited held untouched idle =>
    exact .opening call pdp awaited held untouched idle
  | serving pdp descs status fetched books =>
    exact .serving pdp descs status fetched (books.extend extended)
  | gone absent unopened nodup => exact .gone absent unopened nodup

theorem Stage.nodup (stage : Stage stored t) : (t.copied.map Prod.fst).Nodup := by
  cases stage with
  | fresh fresh => simp [fresh.uncopied]
  | opening call pdp awaited held untouched idle => simp [idle.uncopied]
  | serving pdp descs status fetched books => exact books.copies.nodup
  | gone absent unopened nodup => exact nodup

theorem Stage.xfered (stage : Stage stored t) (held : t.pdp = some pdp)
    (known : pdp.descsStatus = some status) : pdp.descsXfered = status.count .done := by
  cases stage with
  | fresh fresh => cases held.symm.trans fresh.absent
  | opening call opened awaited held' untouched idle =>
    cases held.symm.trans held'
    rw [untouched] at known
    cases known
  | serving served descs status' fetched books =>
    cases held.symm.trans books.held
    cases known.symm.trans books.known
    rw [books.xfered, books.copies.count]
  | gone absent unopened nodup => cases held.symm.trans absent

/-! ## Steps -/

/-- What a step does to a transfer. -/
structure Settled (stored : List UInt8 → Option (List UInt8)) (before after : Transfer) : Prop where
  stage : Stage stored after
  once : DeliversOnce stored before after

theorem Settled.extend {before after : Transfer} (settled : Settled stored before after)
    (extended : Extends more stored) : Settled more before after where
  stage := settled.stage.extend extended
  once := { settled.once with
    end_last := fun reply member ended => by
      obtain ⟨pdp, descs, held, listed, bytes, every⟩ := settled.once.end_last reply member ended
      refine ⟨pdp, descs, held, listed, bytes, fun i d place => ?_⟩
      obtain ⟨data, copied, holds⟩ := every i d place
      exact ⟨data, copied, extended _ _ holds⟩ }

/-- A transfer whose statuses were unset, with no reply that ends it. -/
theorem Stage.settled {before after : Transfer} (stage : Stage stored after)
    (unset : ∀ pdp, before.pdp = some pdp → pdp.descsStatus = none)
    (unended : ∀ reply ∈ after.replies.drop before.replies.length, ¬ EndsTransfer reply.2) :
    Settled stored before after where
  stage := stage
  once := {
    done_kept := fun pdp status _ _ held known => by
      cases (unset pdp held).symm.trans known
    xfered := fun _ _ => stage.xfered
    copied_once := stage.nodup
    end_last := fun reply member ended => absurd ended (unended reply member) }

theorem Stage.unchanged (stage : Stage stored t) : Settled stored t t where
  stage := stage
  once := {
    done_kept := fun pdp status pdp' status' held known held' known' i done => by
      cases held.symm.trans held'
      cases known.symm.trans known'
      exact done
    xfered := fun _ _ => stage.xfered
    copied_once := stage.nodup
    end_last := by
      rw [List.drop_length]
      exact fun _ member => absurd member List.not_mem_nil }

theorem Went.settled {last : Bool} {after : Transfer}
    (books : Serving stored t pdp descs status 0 fetched)
    (went : Went stored t.replies.length descs status last after) : Settled stored t after := by
  cases went with
  | continues pdp' status' serving kept unended =>
    have stage : Stage stored after := .serving pdp' descs status' last serving
    refine ⟨stage, ?_, fun _ _ => stage.xfered, stage.nodup,
      fun reply member ended => absurd ended (unended reply member)⟩
    intro _ _ _ _ held known held' known' i done
    cases held.symm.trans books.held
    cases known.symm.trans books.known
    cases held'.symm.trans serving.held
    cases known'.symm.trans serving.known
    exact kept i done
  | ends removed opened nodup all =>
    have stage : Stage stored after := .gone removed opened nodup
    refine ⟨stage, ?_, fun _ _ => stage.xfered, stage.nodup,
      fun _ _ _ => ⟨pdp, descs, books.held, books.listed, all⟩⟩
    intro _ _ _ _ _ _ held'
    cases held'.symm.trans removed

theorem error_unended (text : String) :
    ∀ reply ∈ (t.replies ++ [(sbp, Except.error text)]).drop t.replies.length, ¬ EndsTransfer reply.2 := by
  intro reply member
  rw [List.drop_left, List.mem_singleton] at member
  rw [member]
  rintro ⟨ok, same, _⟩
  cases same

/-- A request for an id that is not in the table is refused. -/
theorem Fresh.refused (fresh : Fresh t) (sbp : Sbp) (text : String) :
    Fresh ({ t with gets := t.gets ++ [sbp] }.reply sbp (.error text)) where
  unscheduled := fresh.unscheduled
  unread := fresh.unread
  unrequested := fresh.unrequested
  uncopied := fresh.uncopied
  undelivered := by
    rw [Transfer.delivered_append (t := t) rfl, fresh.undelivered]
    rfl
  answered := by
    simp [Transfer.reply, fresh.answered]
  absent := fresh.absent
  unopened := fresh.unopened

theorem get_data_settled (stage : Stage stored t) (opened : t.opening = none)
    (answered : t.gets.length = t.replies.length) :
    Ends (fun after => Settled stored t after ∧ (Fresh t → Fresh after)) (fun _ => True)
      ({ t with gets := t.gets ++ [sbp] }.getData beyond xferId sbp) := by
  cases stage with
  | fresh fresh =>
    have refused := fresh.refused sbp ("unknown transfer id: " ++ toString xferId)
    simp only [Transfer.getData, fresh.absent] at refused ⊢
    exact ⟨Stage.settled (.fresh refused)
      (fun _ held => by cases fresh.absent.symm.trans held) (error_unended _), fun _ => refused⟩
  | opening call pdp awaited held untouched idle => cases opened.symm.trans awaited
  | serving pdp descs status fetched books =>
    exact (get_data_went books answered xferId).imp fun _ went =>
      ⟨went.settled books, fun fresh => by cases books.held.symm.trans fresh.absent⟩
  | gone absent unopened nodup =>
    simp only [Transfer.getData, absent]
    refine ⟨Stage.settled (.gone rfl unopened nodup)
      (fun _ held => by cases absent.symm.trans held) (error_unended _), fun fresh => ?_⟩
    have refused := fresh.refused sbp ("unknown transfer id: " ++ toString xferId)
    simpa only [absent] using refused

theorem fetch_data_settled (stage : Stage stored t) (due : t.scheduled ≠ 0)
    (held : Descriptor → Bool) :
    Ends (Settled stored t) (fun _ => True)
      ({ t with scheduled := t.scheduled - 1 }.fetchData beyond held) := by
  cases stage with
  | fresh fresh => exact absurd fresh.unscheduled due
  | opening call pdp awaited held untouched idle => exact absurd idle.unscheduled due
  | serving pdp descs status fetched books =>
    cases fetched with
    | false => exact (fetch_data_went books due held).imp fun _ went => went.settled books
    | true => exact absurd books.phase.2 due
  | gone absent unopened nodup =>
    simp only [Transfer.fetchData, Transfer.deref, absent, bind, Except.bind]
    exact trivial

theorem xp_fetch_data_cb_settled (stage : Stage stored t) {index : ℕ} {d : Descriptor}
    (inFlight : t.requested[index]? = some d) {data : List UInt8} (filled : data ≠ [])
    (fresh : ∀ pdp descs status, t.pdp = some pdp → pdp.descs = some descs →
      pdp.descsStatus = some status → Unserved d.id descs status) :
    Ends (Settled stored t) (fun _ => True)
      ({ t with requested := t.requested.eraseIdx index }.xpFetchDataCb beyond (.ok (d, data))) := by
  have asked : t.requested ≠ [] := by
    intro none_asked
    rw [none_asked] at inFlight
    cases inFlight
  cases stage with
  | fresh fresh => exact absurd fresh.unrequested asked
  | opening call pdp awaited held untouched idle => exact absurd idle.unrequested asked
  | serving pdp descs status fetched books =>
    cases fetched with
    | false => exact absurd books.phase.2.1 asked
    | true =>
      have unserved := fresh pdp descs status books.held books.listed books.known
      exact (xp_fetch_data_cb_went books filled unserved _).imp fun _ went => went.settled books
  | gone absent unopened nodup =>
    simp only [Transfer.xpFetchDataCb, absent]
    refine Stage.settled (.gone rfl unopened nodup) (fun _ held => by cases absent.symm.trans held) ?_
    rw [List.drop_length]
    exact fun _ member => absurd member List.not_mem_nil

theorem get_chunk_cb_settled (stage : Stage stored t) {index : ℕ} {read : SpRead}
    (inFlight : t.reads[index]? = some read) {data : List UInt8}
    (chunk : stored read.desc.id = some data) :
    Ends (Settled stored t) (fun _ => True)
      ({ t with reads := t.reads.eraseIdx index }.getChunkCb beyond read (.ok data)) := by
  have reading : t.reads ≠ [] := by
    intro none_read
    rw [none_read] at inFlight
    cases inFlight
  cases stage with
  | fresh fresh => exact absurd fresh.unread reading
  | opening call pdp awaited held untouched idle => exact absurd idle.unread reading
  | serving pdp descs status fetched books =>
    exact (get_chunk_cb_went books inFlight chunk).imp fun _ went => went.settled books
  | gone absent unopened nodup =>
    simp only [Transfer.getChunkCb, Transfer.deref, absent, bind, Except.bind]
    exact trivial

/-! ## A gtcd -/

theorem store_extends (stored : List UInt8 → Option (List UInt8)) (op : SpOp) :
    Extends (Gtcd.store stored op) stored := by
  intro id data holds
  cases op with
  | incChunkRefcount d => exact holds
  | releaseIchunk d => exact holds
  | putIchunk d chunk =>
    simp only [Gtcd.store]
    split_ifs with present
    · exact holds
    · by_cases same : id = d.id
      · rw [← same, holds] at present
        exact absurd rfl present
      · rw [Function.update_of_ne same, holds]

theorem update_extends (g : Gtcd) (xferId : XferId) (t : Transfer) :
    Extends (g.update xferId t).stored g.stored := by
  unfold Gtcd.update
  generalize t.spOps.drop _ = ops
  induction ops using List.reverseRecOn with
  | nil => exact fun _ _ holds => holds
  | append_singleton ops op ih =>
    intro id data holds
    rw [List.foldl_append]
    exact store_extends _ op id data (ih id data holds)

/-- A step in which the transfer settles. -/
theorem Staged.update (staged : Staged xferId g) {after : Transfer}
    (settled : Settled g.stored (g.transfers xferId) after)
    (unused : Fresh (g.transfers xferId) → Fresh after) :
    Staged xferId (g.update xferId after) ∧ DeliversOnce (g.update xferId after).stored
      (g.transfers xferId) ((g.update xferId after).transfers xferId) := by
  have extended := settled.extend (update_extends g xferId after)
  have written : (g.update xferId after).transfers xferId = after := Function.update_self ..
  rw [written]
  refine ⟨⟨?_, fun small => ?_⟩, extended.once⟩
  · rw [written]
    exact extended.stage
  · rw [written]
    exact unused (staged.unused small)

/-- A step that leaves the transfer alone. -/
theorem Staged.frame (staged : Staged xferId g) (same : g'.transfers xferId = g.transfers xferId)
    (extended : Extends g'.stored g.stored) (counter : g.xferCounter ≤ g'.xferCounter) :
    Staged xferId g' ∧ DeliversOnce g'.stored (g.transfers xferId) (g'.transfers xferId) := by
  have settled := staged.stage.unchanged.extend extended
  rw [same]
  refine ⟨⟨?_, fun small => ?_⟩, settled.once⟩
  · rw [same]
    exact settled.stage
  · rw [same]
    exact staged.unused (Nat.le_trans counter small)

/-- A step that writes a transfer whose statuses are unset, with no reply. -/
theorem Stage.written {after : Transfer} (stage : Stage g'.stored after)
    (written : g'.transfers xferId = after)
    (unset : ∀ pdp, (g.transfers xferId).pdp = some pdp → pdp.descsStatus = none)
    (silent : after.replies = (g.transfers xferId).replies) (taken : xferId < g'.xferCounter) :
    Staged xferId g' ∧ DeliversOnce g'.stored (g.transfers xferId) (g'.transfers xferId) := by
  have settled : Settled g'.stored (g.transfers xferId) after := by
    refine Stage.settled stage unset ?_
    rw [silent, List.drop_length]
    exact fun _ member => absurd member List.not_mem_nil
  rw [written]
  refine ⟨⟨?_, fun small => absurd taken (Nat.not_lt.mpr small)⟩, settled.once⟩
  rw [written]
  exact stage

theorem get_init_delivers (staged : Staged xferId g) (oid : List UInt8) (hints : List String)
    (xmode : Option XferMode) (mode : g.xferCounter = xferId → xmode ≠ some .sequential) :
    Staged xferId (g.getInit sbp oid hints xmode) ∧
      DeliversOnce (g.getInit sbp oid hints xmode).stored (g.transfers xferId)
        ((g.getInit sbp oid hints xmode).transfers xferId) := by
  have refused : ∀ replies, Staged xferId { g with initReplies := replies } ∧
      DeliversOnce g.stored (g.transfers xferId) (g.transfers xferId) :=
    fun _ => staged.frame rfl (fun _ _ holds => holds) (Nat.le_refl _)
  unfold Gtcd.getInit
  split_ifs with unnamed unhinted
  · exact refused _
  · exact refused _
  cases xmode with
  | none => exact refused _
  | some xmode =>
    by_cases same : g.xferCounter = xferId
    · subst same
      have fresh := staged.unused (Nat.le_refl _)
      cases xmode with
      | sequential => exact absurd rfl (mode rfl)
      | outOfOrder =>
        refine Stage.written ?_ (Function.update_self ..)
          (fun _ held => by cases fresh.absent.symm.trans held) rfl (Nat.lt_succ_self _)
        exact .opening _ _ rfl rfl rfl ⟨fresh.unscheduled, fresh.unread, fresh.unrequested,
          fresh.uncopied, fresh.undelivered, fresh.answered⟩
    · refine staged.frame ?_ (fun _ _ holds => holds) (Nat.le_succ _)
      exact Function.update_of_ne (Ne.symm same) ..

/-- What an answer to `get_descriptors` makes of the transfer it is for. -/
inductive InitAnswered (t : Transfer) : Transfer → Prop
  | failed : InitAnswered t { t with pdp := none, opening := none }
  | again (call : InitCall) : InitAnswered t { t with opening := some call }
  | listed (pdp : XferData) (all : List Descriptor) (held : t.pdp = some pdp) :
      InitAnswered t { t with pdp := some { pdp with descs := some all } }
  | ended (pdp : XferData) (all : List Descriptor) (held : t.pdp = some pdp) :
      InitAnswered t { t with
        pdp := some { pdp with descs := some all, descsStatus := some (all.map fun _ => .unknown) }
        opening := none }

theorem deref_held (live : t.deref = .ok pdp) : t.pdp = some pdp := by
  unfold Transfer.deref at live
  split at live
  next pdp' held =>
    cases live
    exact held
  next => cases live

theorem get_init_cb_ends (g : Gtcd) (opened : XferId) (call : InitCall)
    (res : Except String (List Descriptor × Bool)) :
    Ends (fun g' => g'.stored = g.stored ∧ g'.xferCounter = g.xferCounter ∧
      ∃ t, g'.transfers = Function.update g.transfers opened t ∧ InitAnswered (g.transfers opened) t)
      (fun _ => True) (g.getInitCb opened call res) := by
  cases res with
  | error s =>
    simp only [Gtcd.getInitCb]
    split_ifs with last
    · exact ⟨rfl, rfl, _, rfl, .failed⟩
    · cases live : (g.transfers opened).deref with
      | error fault => exact trivial
      | ok pdp => exact ⟨rfl, rfl, _, rfl, .again _⟩
  | ok answer =>
    obtain ⟨descs, ended⟩ := answer
    simp only [Gtcd.getInitCb]
    cases live : (g.transfers opened).deref with
    | error fault => exact trivial
    | ok pdp =>
      have held := deref_held live
      simp only [bind, Except.bind]
      split_ifs
      · exact ⟨rfl, rfl, _, rfl, .ended pdp _ held⟩
      · exact ⟨rfl, rfl, _, rfl, .listed pdp _ held⟩

/-- The last descriptors of a transfer arrive, and it can be served. -/
theorem serving_of_opened (idle : Idle t) (pdp : XferData) (all : List Descriptor) :
    let pdp' := { XferData.opened .outOfOrder [] with
      descs := some all
      descsStatus := some (all.map fun _ => .unknown)
      hints := pdp.hints }
    Serving stored { t with pdp := some pdp', opening := none } pdp' all
      (all.map fun _ => .unknown) 0 false := by
  constructor
  case held => rfl
  case opened => rfl
  case mode => rfl
  case fine => rfl
  case listed => rfl
  case known => rfl
  case copies =>
    refine ⟨List.length_map .., ?_, fun i => ?_, ?_⟩
    · simp [idle.uncopied]
    · simp only [idle.uncopied, List.map_nil, List.not_mem_nil, iff_false, List.getElem?_map]
      cases all[i]? with
      | none => simp
      | some d => simp
    · simp [idle.uncopied]
  case xfered => simp [idle.uncopied, XferData.opened]
  case bytes =>
    have undelivered := idle.undelivered
    simp only [Transfer.delivered] at undelivered
    simp [Transfer.delivered, Transfer.copiedBytes, idle.uncopied, undelivered, XferData.opened]
  case reads => simp [idle.unread]
  case owed => simp [idle.unread, idle.answered, XferData.opened]
  case turn => simp [idle.answered]
  case phase => simp [Phase, idle.unscheduled, idle.unrequested]

/-- An opening transfer stays so, is served or is gone after an answer. -/
theorem InitAnswered.stage {after : Transfer} (answered : InitAnswered t after)
    {call : InitCall} (awaited : t.opening = some call) (held : t.pdp = some pdp)
    (untouched : pdp = { XferData.opened .outOfOrder [] with descs := pdp.descs, hints := pdp.hints })
    (idle : Idle t) : Stage stored after := by
  cases answered with
  | failed => exact .gone rfl rfl (by simp [idle.uncopied])
  | again call => exact .opening call pdp rfl held untouched { idle with }
  | listed pdp' all held' =>
    cases held.symm.trans held'
    refine .opening call _ awaited rfl ?_ { idle with }
    rw [untouched]
  | ended pdp' all held' =>
    cases held.symm.trans held'
    have books : Serving stored _ _ all _ 0 false := serving_of_opened idle pdp all
    rw [untouched]
    exact .serving _ _ _ _ books

theorem get_init_cb_delivers (staged : Staged xferId g) (opened : XferId) {call : InitCall}
    (awaited : (g.transfers opened).opening = some call)
    (res : Except String (List Descriptor × Bool)) (ran : g.getInitCb opened call res = .ok g') :
    Staged xferId g' ∧ DeliversOnce g'.stored (g.transfers xferId) (g'.transfers xferId) := by
  obtain ⟨stored, counter, after, written, answered⟩ := (get_init_cb_ends g opened call res).of_ok ran
  by_cases same : opened = xferId
  · subst same
    have taken : opened < g.xferCounter := by
      by_contra unused
      cases awaited.symm.trans (staged.unused (Nat.not_lt.mp unused)).unopened
    have self : g'.transfers opened = after := by rw [written, Function.update_self]
    cases staged.stage with
    | fresh fresh => cases awaited.symm.trans fresh.unopened
    | serving pdp descs status fetched books => cases awaited.symm.trans books.opened
    | gone absent unopened nodup => cases awaited.symm.trans unopened
    | opening call' pdp awaited' held untouched idle =>
      refine (answered.stage awaited held untouched idle).written self ?_ ?_ (counter ▸ taken)
      · intro pdp' held'
        cases held.symm.trans held'
        rw [untouched]
        rfl
      · cases answered <;> rfl
  · refine staged.frame ?_ ?_ counter.ge
    · rw [written, Function.update_of_ne (Ne.symm same)]
    · rw [stored]
      exact fun _ _ holds => holds

/-- One event of a run in turn, with no arrival that meets a descriptor it has
served. -/
theorem step_delivers (staged : Staged xferId g) (event : Event) (inTurn : InTurn xferId g event)
    (fresh : FreshArrival xferId g event) (ran : g.step beyond event = .ok g') :
    Staged xferId g' ∧ DeliversOnce g'.stored (g.transfers xferId) (g'.transfers xferId) := by
  have idle : Staged xferId g ∧ DeliversOnce g.stored (g.transfers xferId) (g.transfers xferId) :=
    staged.frame rfl (fun _ _ holds => holds) (Nat.le_refl _)
  have other : ∀ (written : XferId) (t : Transfer), written ≠ xferId →
      Staged xferId (g.update written t) ∧ DeliversOnce (g.update written t).stored
        (g.transfers xferId) ((g.update written t).transfers xferId) := by
    intro written t apart
    exact staged.frame (Function.update_of_ne (Ne.symm apart) ..) (update_extends g written t)
      (Nat.le_refl _)
  cases event with
  | getInit sbp oid hints xmode =>
    cases ran
    exact get_init_delivers staged oid hints xmode inTurn
  | getInitCb opened res =>
    simp only [Gtcd.step] at ran
    split at ran
    next call awaited => exact get_init_cb_delivers staged opened awaited res ran
    next =>
      cases ran
      exact idle
  | getData sbp asked =>
    simp only [Gtcd.step, bind, Except.bind] at ran
    split at ran
    next => cases ran
    next after got =>
      cases ran
      by_cases same : asked = xferId
      · subst same
        obtain ⟨opened, answered⟩ := inTurn rfl
        have settled := (get_data_settled staged.stage opened answered).of_ok got
        exact staged.update settled.1 settled.2
      · exact other asked after same
  | fetchData fetching =>
    simp only [Gtcd.step, bind, Except.bind] at ran
    split_ifs at ran with due
    · cases ran
      exact idle
    split at ran
    next => cases ran
    next after got =>
      cases ran
      by_cases same : fetching = xferId
      · subst same
        have settled := (fetch_data_settled staged.stage due _).of_ok got
        exact staged.update settled fun fresh => absurd fresh.unscheduled due
      · exact other fetching after same
  | xpFetchDataCb fetching index res =>
    simp only [Gtcd.step, bind, Except.bind] at ran
    split at ran
    next =>
      cases ran
      exact idle
    next d inFlight =>
      split at ran
      next => cases ran
      next after got =>
        cases ran
        by_cases same : fetching = xferId
        · subst same
          obtain ⟨data, rfl, filled⟩ := inTurn rfl
          have settled := (xp_fetch_data_cb_settled staged.stage inFlight filled
            fun pdp descs status => fresh rfl d pdp descs status inFlight).of_ok got
          refine staged.update settled fun fresh => ?_
          rw [fresh.unrequested] at inFlight
          cases inFlight
        · exact other fetching after same
  | getChunkCb reading index res =>
    simp only [Gtcd.step, bind, Except.bind] at ran
    split at ran
    next =>
      cases ran
      exact idle
    next read inFlight =>
      split at ran
      next => cases ran
      next after got =>
        cases ran
        by_cases same : reading = xferId
        · subst same
          obtain ⟨data, rfl, chunk⟩ := inTurn rfl read inFlight
          have settled := (get_chunk_cb_settled staged.stage inFlight chunk).of_ok got
          refine staged.update settled fun fresh => ?_
          rw [fresh.unread] at inFlight
          cases inFlight
        · exact other reading after same
  | putIchunk id data =>
    cases ran
    have extended := store_extends g.stored (.putIchunk { id := id, length := data.length } data)
    exact staged.frame rfl extended (Nat.le_refl _)

/-- One event, with what memory holds past the statuses. -/
def Gtcd.next [SendSize] (g : Gtcd) (event : (ℕ → DescStatus) × Event) : Option Gtcd :=
  (g.step event.1 event.2).toOption

theorem next_ok [SendSize] {event : (ℕ → DescStatus) × Event} (ran : g.next event = some g') :
    g.step event.1 event.2 = .ok g' :=
  ok_of_to_option ran

/-- A transfer id that has not been used. -/
theorem init_staged (stored : List UInt8 → Option (List UInt8)) (xferId : XferId) :
    Staged xferId (Gtcd.init stored) := by
  have fresh : Fresh ((Gtcd.init stored).transfers xferId) := ⟨⟨rfl, rfl, rfl, rfl, rfl, rfl⟩, rfl, rfl⟩
  exact ⟨.fresh fresh, fun _ => fresh⟩

theorem reached_staged (run : Reaches Gtcd.next (Orderly xferId) (Gtcd.init stored) g) :
    Staged xferId g := by
  refine Runs.invariant (init_staged stored xferId) (fun before event after staged orderly ran => ?_) run
  exact (step_delivers staged event.2 orderly.1 orderly.2 (next_ok ran)).1

/-- **In every run in turn in which no arriving chunk meets a descriptor that is
done, up to the first that has it on storage, each step keeps what is done, counts
it, copies nothing twice, and ends the transfer only when all is delivered.** -/
theorem delivers_once_of_fresh_arrivals {event : (ℕ → DescStatus) × Event}
    (run : Reaches Gtcd.next (Orderly xferId) (Gtcd.init stored) g)
    (orderly : Orderly xferId g event) (ran : g.next event = some g') :
    DeliversOnce g'.stored (g.transfers xferId) (g'.transfers xferId) :=
  (step_delivers (reached_staged run) event.2 orderly.1 orderly.2 (next_ok ran)).2

/-! ## A chunk that occurs twice -/

/-- A download of an object that has one chunk twice, up to the second arrival. -/
def twice : List Event :=
  [.getInit 0 [0] ["gtc://peer:12000"] (some .outOfOrder),
    .getInitCb 1 (.ok ([⟨[1], 1⟩, ⟨[1], 1⟩], true)),
    .getData 1 1,
    .fetchData 1,
    .xpFetchDataCb 1 0 (.ok [7]),
    .getChunkCb 1 0 (.ok [7]),
    .xpFetchDataCb 1 0 (.ok [7])]

/-- The state after some of its events, on an empty storage. -/
def twiceAfter (n : ℕ) : Gtcd :=
  (twice.take n).foldl (fun g event => (g.next (fun _ => .unknown, event)).getD g)
    (Gtcd.init fun _ => none)

/-- The first arrival meets nothing that is done, and the run is in turn. -/
theorem twice_run : Reaches Gtcd.next (Orderly 1) (Gtcd.init fun _ => none) (twiceAfter 6) := by
  have unserved : Unserved [1] [⟨[1], 1⟩, ⟨[1], 1⟩] [.requested, .requested] := by
    intro i d _ _ done
    obtain requested | requested : DescStatus.done = .requested ∨ DescStatus.done = .requested := by
      simpa using List.mem_of_getElem? done
    · cases requested
    · cases requested
  have opened : Reaches Gtcd.next (Orderly 1) (twiceAfter 0) (twiceAfter 1) :=
    Reaches.refl.snoc (fun _ => .unknown, .getInit 0 [0] ["gtc://peer:12000"] (some .outOfOrder))
      ⟨fun _ => by simp, trivial⟩ rfl
  have listed : Reaches Gtcd.next (Orderly 1) (twiceAfter 0) (twiceAfter 2) :=
    opened.snoc (fun _ => .unknown, .getInitCb 1 (.ok ([⟨[1], 1⟩, ⟨[1], 1⟩], true)))
      ⟨trivial, trivial⟩ rfl
  have asked : Reaches Gtcd.next (Orderly 1) (twiceAfter 0) (twiceAfter 3) :=
    listed.snoc (fun _ => .unknown, .getData 1 1) ⟨fun _ => ⟨rfl, rfl⟩, trivial⟩ rfl
  have fetching : Reaches Gtcd.next (Orderly 1) (twiceAfter 0) (twiceAfter 4) :=
    asked.snoc (fun _ => .unknown, .fetchData 1) ⟨trivial, trivial⟩ rfl
  have arrived : Reaches Gtcd.next (Orderly 1) (twiceAfter 0) (twiceAfter 5) := by
    refine fetching.snoc (fun _ => .unknown, .xpFetchDataCb 1 0 (.ok [7])) ⟨?_, ?_⟩ rfl
    · exact fun _ => ⟨[7], rfl, by simp⟩
    · intro _ d pdp descs status inFlight held listed known
      have first : ((twiceAfter 4).transfers 1).requested[0]? = some ⟨[1], 1⟩ := rfl
      have descriptors : ((twiceAfter 4).transfers 1).pdp.bind (·.descs) =
          some [⟨[1], 1⟩, ⟨[1], 1⟩] := rfl
      have statuses : ((twiceAfter 4).transfers 1).pdp.bind (·.descsStatus) =
          some [.requested, .requested] := rfl
      rw [held, Option.bind_some] at descriptors statuses
      cases first.symm.trans inFlight
      cases listed.symm.trans descriptors
      cases known.symm.trans statuses
      exact unserved
  refine arrived.snoc (fun _ => .unknown, .getChunkCb 1 0 (.ok [7])) ⟨?_, trivial⟩ rfl
  intro _ read inFlight
  have first : ((twiceAfter 5).transfers 1).reads[0]? = some ⟨1, 0, 0, ⟨[1], 1⟩⟩ := rfl
  cases first.symm.trans inFlight
  exact ⟨[7], rfl, rfl⟩

/-- The second read in flight. -/
theorem twice_second_read :
    Orderly 1 (twiceAfter 6) (fun _ => .unknown, .getChunkCb 1 0 (.ok [7])) := by
  refine ⟨fun _ read inFlight => ?_, trivial⟩
  have second : ((twiceAfter 6).transfers 1).reads[0]? = some ⟨1, 1, -1, ⟨[1], 1⟩⟩ := rfl
  cases second.symm.trans inFlight
  exact ⟨[7], rfl, rfl⟩

/-- The second read ends the transfer when no other chunk arrives before it. -/
theorem delivers_once_of_fresh_arrivals_twice :
    ∃ g', (twiceAfter 6).next (fun _ => .unknown, .getChunkCb 1 0 (.ok [7])) = some g' ∧
      DeliversOnce g'.stored ((twiceAfter 6).transfers 1) (g'.transfers 1) :=
  ⟨_, rfl, delivers_once_of_fresh_arrivals twice_run twice_second_read rfl⟩

/-- **The second arrival of a chunk puts a descriptor that is done back on
storage.** -/
theorem not_delivers_once : ¬ ∀ (stored : List UInt8 → Option (List UInt8)) (xferId : XferId)
    (g g' : Gtcd) (event : (ℕ → DescStatus) × Event),
    Reaches Gtcd.next (fun g event => InTurn xferId g event.2) (Gtcd.init stored) g →
    InTurn xferId g event.2 → g.next event = some g' →
    DeliversOnce g'.stored (g.transfers xferId) (g'.transfers xferId) := by
  intro claimed
  have run := twice_run.weaken fun (g : Gtcd) (event : (ℕ → DescStatus) × Event)
    (orderly : Orderly 1 g event) => orderly.1
  have once := claimed _ 1 (twiceAfter 6) (twiceAfter 7)
    (fun _ => .unknown, .xpFetchDataCb 1 0 (.ok [7])) run (fun _ => ⟨[7], rfl, by simp⟩) rfl
  have kept := once.done_kept _ [.done, .onStorage] _ [.onStorage, .onStorage] rfl rfl rfl rfl 0 rfl
  simp at kept

end Ditto.Downloads
