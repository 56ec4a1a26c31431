import Ditto.ListReads
import Ditto.PutFd
import Ditto.Sequences

/-! A client's connection: its uploads and downloads are entries of one table under one
counter, and a request names any id. An entry of an upload has no descriptors, statuses or
hints, and PUT_COMMIT takes whatever entry it names out of the table. -/
namespace Ditto.SharedTable
open XferGtc (Descriptor)
open Downloads Outcomes Tallies
open PutFd (OidMd)

/-- A `put_object` of the chunker in flight, with the stream it writes to if one is set. -/
structure PutCall where
  sbp : Sbp
  sid : Option ℕ
  data : List UInt8

/-- `gtc_put_init_res`, `gtc_put_data_res` and `gtc_put_commit_res` without an error. -/
inductive PutRes where
  | opened (xferId : XferId)
  | taken
  | committed (oid : OidMd) (hints : List String)

/-- A `gtcd`, with the streams of its uploads and what the chunker works on for it. Next to it
are the replies to uploads and every PUT and GET_INIT request so far. -/
structure Connection where
  gtcd : Gtcd
  sids : XferId → Option ℕ
  puts : List PutCall
  commits : List (Sbp × Option ℕ)
  putReplies : List (Sbp × Except String PutRes)
  asked : List Sbp

/-- What a connection is called with: the events of its downloads, the requests of its uploads
and the callbacks of the chunker, which name a call by its place in the list. -/
inductive ConnectionEvent where
  | download (event : Event)
  | putInit (sbp : Sbp) (sid : ℕ)
  | putData (sbp : Sbp) (xferId : XferId) (data : List UInt8) (count : ℕ)
  | putDataCb (index : ℕ) (s : Option String)
  | putCommit (sbp : Sbp) (xferId : XferId)
  | putCommitCb (index : ℕ) (hint : String) (res : Except String OidMd)

/-- `xferData ()`, the entry that `put_init` makes. -/
def newXferData : XferData := { XferData.opened .sequential [] with hints := none }

/-- The GET_INIT request that an event is. -/
def inits : Event → List Sbp
  | .getInit sbp _ _ _ => [sbp]
  | _ => []

namespace Connection

/-- A connection with no entry yet, over a storage. -/
def init (stored : List UInt8 → Option (List UInt8)) : Connection where
  gtcd := .init stored
  sids := fun _ => none
  puts := []
  commits := []
  putReplies := []
  asked := []

/-- `sbp->replyref (res)` for an upload. -/
def reply (c : Connection) (sbp : Sbp) (res : Except String PutRes) : Connection :=
  { c with putReplies := c.putReplies ++ [(sbp, res)] }

/-- An id of the table with another entry. -/
def setEntry (c : Connection) (xferId : XferId) (pdp : Option XferData) : Connection :=
  { c with gtcd.transfers :=
      Function.update c.gtcd.transfers xferId { c.gtcd.transfers xferId with pdp := pdp } }

/-- `put_init`, for the stream that the chunker opens. -/
def putInit (c : Connection) (sbp : Sbp) (sid : ℕ) : Connection :=
  let xferId := c.gtcd.xferCounter
  let c := c.setEntry xferId (some newXferData)
  let c := { c with gtcd.xferCounter := xferId + 1, sids := Function.update c.sids xferId (some sid) }
  c.reply sbp (.ok (.opened xferId))

/-- `put_data`. -/
def putData (c : Connection) (sbp : Sbp) (xferId : XferId) (data : List UInt8) (count : ℕ) :
    Except Fault Connection :=
  match (c.gtcd.transfers xferId).pdp with
  | none => .ok (c.reply sbp (.error ("unknown xferID " ++ toString xferId)))
  | some _ =>
    if data.length = count then .ok { c with puts := c.puts ++ [⟨sbp, c.sids xferId, data⟩] }
    else .error .assertion

/-- `put_data_cb`. -/
def putDataCb (c : Connection) (sbp : Sbp) : Option String → Connection
  | some s => c.reply sbp (.error s)
  | none => c.reply sbp (.ok .taken)

/-- `put_commit`. -/
def putCommit (c : Connection) (sbp : Sbp) (xferId : XferId) : Connection :=
  match (c.gtcd.transfers xferId).pdp with
  | none => c.reply sbp (.error ("unknown xferID " ++ toString xferId))
  | some _ =>
    let c := c.setEntry xferId none
    { c with commits := c.commits ++ [(sbp, c.sids xferId)] }

/-- `put_commit_cb`, for the default hint of the transfer plugin. -/
def putCommitCb (c : Connection) (sbp : Sbp) (hint : String) : Except String OidMd → Connection
  | .error s => c.reply sbp (.error s)
  | .ok oid => c.reply sbp (.ok (.committed oid [hint]))

/-- A request is noted. -/
def ask (c : Connection) (requests : List Sbp) : Connection := { c with asked := c.asked ++ requests }

variable [SendSize]

/-- One event. A callback of something that is not in flight does nothing. -/
def step (c : Connection) (beyond : ℕ → DescStatus) : ConnectionEvent → Except Fault Connection
  | .download event => do
    let g ← c.gtcd.step beyond event
    .ok { c with gtcd := g, asked := c.asked ++ inits event }
  | .putInit sbp sid => .ok ((c.ask [sbp]).putInit sbp sid)
  | .putData sbp xferId data count => (c.ask [sbp]).putData sbp xferId data count
  | .putDataCb index s =>
    match c.puts[index]? with
    | none => .ok c
    | some call => .ok ({ c with puts := c.puts.eraseIdx index }.putDataCb call.sbp s)
  | .putCommit sbp xferId => .ok ((c.ask [sbp]).putCommit sbp xferId)
  | .putCommitCb index hint res =>
    match c.commits[index]? with
    | none => .ok c
    | some call => .ok ({ c with commits := c.commits.eraseIdx index }.putCommitCb call.1 hint res)

/-- A step that does not stop the daemon. -/
def next (c : Connection) (event : (ℕ → DescStatus) × ConnectionEvent) : Option Connection :=
  (c.step event.1 event.2).toOption

end Connection

/-! ## What is served -/

/-- The GET_INIT request of an id, in flight. -/
def openingOf (g : Gtcd) (xferId : XferId) : Multiset Sbp :=
  (((g.transfers xferId).opening.map (·.sbp)).toList : List Sbp)

/-- The GET_INIT requests in flight. -/
def openings (g : Gtcd) : Multiset Sbp := tally g.xferCounter (openingOf g)

/-- The GET_INIT requests that are answered or in flight. -/
def initHolders (g : Gtcd) : Multiset Sbp := (g.initReplies.map Prod.fst : List Sbp) + openings g

/-- The PUT requests that are answered or with the chunker. -/
def Connection.uploadHolders (c : Connection) : List Sbp :=
  c.putReplies.map Prod.fst ++ c.puts.map (·.sbp) ++ c.commits.map Prod.fst

/-- The PUT and GET_INIT requests that are answered or with a callback. -/
def Connection.holders (c : Connection) : Multiset Sbp := initHolders c.gtcd + c.uploadHolders

/-- No callback is pending for an entry that is gone, and every request is answered once or
held by one callback. -/
structure AllServed (c : Connection) : Prop where
  settled : ∀ xferId, ¬ (c.gtcd.transfers xferId).Stray
  gets : ∀ xferId, Accounted (c.gtcd.transfers xferId)
  others : c.holders = c.asked

variable {c : Connection} {g : Gtcd} {t after : Transfer} {beyond : ℕ → DescStatus} {xferId : XferId}
  {stored : List UInt8 → Option (List UInt8)}

section
variable [SendSize]

/-- A step does not stop the daemon, and leaves the requests served. -/
def Serves (c : Connection) (event : (ℕ → DescStatus) × ConnectionEvent) : Prop :=
  Ends AllServed Never (c.step event.1 event.2)

/-- An event of a download minds the entry it names and reads inside its lists, PUT_DATA has as
much data as it says for an id with an entry, and PUT_COMMIT names no entry with a callback
pending or a request parked for it. -/
def Careful (c : Connection) (event : (ℕ → DescStatus) × ConnectionEvent) : Prop :=
  match event.2 with
  | .download download => ∀ xferId pdp, download.target = some xferId → (c.gtcd.transfers xferId).pdp = some pdp →
      Minds (c.gtcd.transfers xferId) pdp event.1 download ∧ Places (c.gtcd.transfers xferId) pdp event.1 download
  | .putData _ xferId data count => (c.gtcd.transfers xferId).pdp ≠ none → data.length = count
  | .putCommit _ xferId => ∀ pdp, (c.gtcd.transfers xferId).pdp = some pdp →
      ¬ (c.gtcd.transfers xferId).Pending ∧ pdp.xcb = none
  | _ => True

/-- There is an id left for an upload or a download that begins. `dot_xferId` has 32 bits: after
that many the counter starts again, and the table replaces the entries it has. -/
def Numbered (c : Connection) (event : (ℕ → DescStatus) × ConnectionEvent) : Prop :=
  match event.2 with
  | .putInit .. | .download (.getInit ..) => c.gtcd.xferCounter < 2 ^ 32
  | _ => True

end

/-! ## Entries -/

/-- An entry of an upload, with nothing in flight for its id. -/
structure Upload (t : Transfer) : Prop where
  held : t.pdp = some newXferData
  unread : t.reads = []
  unrequested : t.requested = []
  unscheduled : t.scheduled = 0
  unopened : t.opening = none

/-- An id of the table: a download at some stage, or an upload. -/
inductive Entry (t : Transfer) : Prop where
  | download (underway : Underway t)
  | upload (upload : Upload t)

/-- What careful steps keep. -/
structure Kept (c : Connection) : Prop where
  served : AllServed c
  entries : ∀ xferId, Entry (c.gtcd.transfers xferId)
  unborn : ∀ xferId, c.gtcd.xferCounter ≤ xferId → Unborn (c.gtcd.transfers xferId)

/-- An entry that no callback is pending for can be taken out of the table. -/
theorem settled_without (idle : ¬ t.Pending) (pdp : Option XferData) : ¬ { t with pdp := pdp }.Stray :=
  fun stray => idle stray.2

/-! ## GET_INIT -/

/-- An answer to GET_INIT leaves nothing pending for an entry that is gone. -/
theorem init_answered_settled (answers : InitAnswered t after) (underway : Underway t) (settled : ¬ t.Stray)
    {call : InitCall} (awaited : t.opening = some call) : ¬ after.Stray := by
  have present : t.pdp ≠ none := by
    intro absent
    have unopened := (Transfer.settled settled absent).2.2
    cases awaited.symm.trans unopened
  cases answers with
  | failed =>
    obtain ⟨pdp, held⟩ := Option.ne_none_iff_exists'.mp present
    have opening := underway.of_awaited held awaited
    rintro ⟨_, pending⟩
    simp [Transfer.Pending, opening.unread, opening.idle.2] at pending
  | again call => exact fun stray => present stray.1
  | listed pdp all held => exact Transfer.held_not_stray rfl
  | ended pdp all held => exact Transfer.held_not_stray rfl

/-- The answer to a GET_INIT finds its entry. -/
theorem get_init_cb_found (settled : ¬ (g.transfers xferId).Stray) {call : InitCall}
    (awaited : (g.transfers xferId).opening = some call) (res : Except String (List Descriptor × Bool)) :
    Ends (fun _ => True) Never (g.getInitCb xferId call res) := by
  rcases Option.eq_none_or_eq_some (g.transfers xferId).pdp with absent | ⟨pdp, held⟩
  · cases awaited.symm.trans (Transfer.settled settled absent).2.2
  cases res with
  | error s =>
    simp only [Gtcd.getInitCb]
    split
    · trivial
    · rw [deref_of_held held]
      trivial
  | ok answer =>
    simp only [Gtcd.getInitCb, deref_of_held held, bind, Except.bind]
    split
    · trivial
    · trivial

/-- GET_INIT requests where one id changes. -/
theorem openings_moved {g g' : Gtcd} (counter : g'.xferCounter = g.xferCounter) (given : xferId < g.xferCounter)
    (others : ∀ other, other ≠ xferId → (g'.transfers other).opening = (g.transfers other).opening) :
    openings g' + openingOf g xferId = openings g + openingOf g' xferId := by
  unfold openings
  rw [counter]
  exact tally_moved given fun other away => by rw [openingOf, openingOf, others other away]

theorem openings_same {g g' : Gtcd} (counter : g'.xferCounter = g.xferCounter)
    (each : ∀ xferId, (g'.transfers xferId).opening = (g.transfers xferId).opening) : openings g' = openings g := by
  unfold openings
  rw [counter]
  exact tally_same fun xferId => by rw [openingOf, openingOf, each]

/-- An id is given out. -/
theorem openings_grown {g g' : Gtcd} (counter : g'.xferCounter = g.xferCounter + 1)
    (others : ∀ other, other ≠ g.xferCounter → (g'.transfers other).opening = (g.transfers other).opening) :
    openings g' = openings g + openingOf g' g.xferCounter := by
  unfold openings
  rw [counter]
  exact tally_grown fun other away => by rw [openingOf, openingOf, others other away]

theorem get_init_holders (g : Gtcd) (sbp : Sbp) (oid : List UInt8) (hints : List String) (xmode : Option XferMode) :
    initHolders (g.getInit sbp oid hints xmode) = initHolders g + {sbp} := by
  have refused : ∀ errmsg : String, initHolders { g with initReplies := g.initReplies ++ [(sbp, .error errmsg)] } =
      initHolders g + {sbp} := by
    intro errmsg
    simp only [initHolders, List.map_append, List.map_singleton, ← Multiset.coe_add, Multiset.coe_singleton]
    rw [show openings { g with initReplies := g.initReplies ++ [(sbp, .error errmsg)] } = openings g from rfl]
    abel
  unfold Gtcd.getInit
  split
  · exact refused _
  split
  · exact refused _
  split
  · exact refused _
  next mode =>
    simp only [initHolders]
    rw [openings_grown (g := g) rfl fun other away => by simp only [Function.update_of_ne away]]
    simp only [openingOf, Function.update_self, Option.map_some, Option.toList_some, Multiset.coe_singleton]
    abel

theorem get_init_cb_holders (given : xferId < g.xferCounter) {call : InitCall}
    (awaited : (g.transfers xferId).opening = some call) (res : Except String (List Descriptor × Bool)) :
    Ends (fun g' => initHolders g' = initHolders g) (fun _ => True) (g.getInitCb xferId call res) := by
  have moved : ∀ (after : Transfer) (replies : List (Sbp × Except String XferId)),
      (after.opening.map (·.sbp)).toList ++ replies.map Prod.fst = [call.sbp] →
      initHolders { g with
        transfers := Function.update g.transfers xferId after
        initReplies := g.initReplies ++ replies } = initHolders g := by
    intro after replies passed
    have counts : openings { g with
          transfers := Function.update g.transfers xferId after, initReplies := g.initReplies ++ replies } +
        {call.sbp} = openings g + ((after.opening.map (·.sbp)).toList : Multiset Sbp) := by
      have counts := @openings_moved xferId g { g with
        transfers := Function.update g.transfers xferId after
        initReplies := g.initReplies ++ replies } rfl given fun other away => by
          simp only [Function.update_of_ne away]
      simpa only [openingOf, awaited, Function.update_self, Option.map_some, Option.toList_some,
        Multiset.coe_singleton] using counts
    have passed : ((after.opening.map (·.sbp)).toList : Multiset Sbp) + (replies.map Prod.fst : List Sbp) =
        {call.sbp} := by
      rw [Multiset.coe_add, passed, Multiset.coe_singleton]
    simp only [initHolders, List.map_append, ← Multiset.coe_add]
    refine add_right_cancel (b := ({call.sbp} : Multiset Sbp)) ?_
    rw [add_assoc, counts, ← passed]
    abel
  have kept : ∀ after : Transfer, (after.opening.map (·.sbp)).toList = [call.sbp] →
      initHolders { g with transfers := Function.update g.transfers xferId after } = initHolders g := by
    intro after passed
    have same := moved after [] (by rw [passed]; rfl)
    rwa [List.append_nil] at same
  cases res with
  | error s =>
    simp only [Gtcd.getInitCb]
    split
    · exact moved _ _ rfl
    · cases (g.transfers xferId).deref with
      | error fault => trivial
      | ok pdp => exact kept _ rfl
  | ok answer =>
    obtain ⟨descs, ended⟩ := answer
    simp only [Gtcd.getInitCb]
    cases (g.transfers xferId).deref with
    | error fault => trivial
    | ok pdp =>
      simp only [bind, Except.bind]
      split
      · exact moved _ _ rfl
      · exact kept _ (by simp only [awaited]; rfl)

theorem AllServed.others_kept (served : AllServed c) {after : Connection} {asks : List Sbp}
    (asked : after.asked = c.asked ++ asks) (moved : after.holders = c.holders + asks) :
    after.holders = after.asked := by
  rw [moved, asked, served.others, Multiset.coe_add]

/-! ## Steps of an upload -/

theorem counted_reply (c : Connection) (sbp : Sbp) (res : Except String PutRes) :
    (c.reply sbp res).holders = c.holders + {sbp} := by
  simp only [Connection.holders, Connection.uploadHolders, Connection.reply, List.map_append, List.map_singleton,
    ← Multiset.coe_add, Multiset.coe_singleton]
  abel

/-- A reply to an upload, or the chunker's call for it, is all that changes. -/
theorem Kept.answered (kept : Kept c) {after : Connection} {asks : List Sbp} (same : after.gtcd = c.gtcd)
    (asked : after.asked = c.asked ++ asks) (moved : after.holders = c.holders + asks) : Kept after where
  served := by
    refine ⟨?_, ?_, kept.served.others_kept asked moved⟩
    · rw [same]
      exact kept.served.settled
    · rw [same]
      exact kept.served.gets
  entries := by
    rw [same]
    exact kept.entries
  unborn := by
    rw [same]
    exact kept.unborn

theorem put_init_kept (kept : Kept c) (sbp : Sbp) (sid : ℕ) : Kept ((c.ask [sbp]).putInit sbp sid) := by
  have new := kept.unborn c.gtcd.xferCounter (Nat.le_refl _)
  have entry : ∀ post : Transfer → Prop, (∀ xferId, post (c.gtcd.transfers xferId)) →
      post { c.gtcd.transfers c.gtcd.xferCounter with pdp := some newXferData } →
      ∀ xferId, post (((c.ask [sbp]).putInit sbp sid).gtcd.transfers xferId) := by
    intro post others here xferId
    show post (Function.update c.gtcd.transfers c.gtcd.xferCounter _ xferId)
    by_cases same : xferId = c.gtcd.xferCounter
    · rw [same, Function.update_self]
      exact here
    · rw [Function.update_of_ne same]
      exact others xferId
  constructor
  case entries =>
    refine entry Entry kept.entries (.upload ?_)
    exact { new with held := rfl }
  case unborn =>
    intro xferId beyond_last
    have given : xferId ≠ c.gtcd.xferCounter := fun same => absurd beyond_last (same ▸ Nat.not_succ_le_self _)
    show Unborn (Function.update c.gtcd.transfers c.gtcd.xferCounter _ xferId)
    rw [Function.update_of_ne given]
    exact kept.unborn xferId (Nat.le_of_succ_le beyond_last)
  case served =>
    refine ⟨entry (fun t => ¬ t.Stray) kept.served.settled (Transfer.held_not_stray rfl),
      entry _ kept.served.gets ?_, ?_⟩
    · have absent : (c.gtcd.transfers c.gtcd.xferCounter).pdp.bind (·.xcb) = none := by
        rw [new.absent, Option.bind_none]
      exact (kept.served.gets _).unparked absent rfl _
    · refine kept.served.others_kept rfl ?_
      have grown : openings ((c.ask [sbp]).putInit sbp sid).gtcd = openings c.gtcd + _ :=
        openings_grown rfl fun other away => congrArg Transfer.opening (Function.update_of_ne away ..)
      have unopened : (((c.ask [sbp]).putInit sbp sid).gtcd.transfers c.gtcd.xferCounter).opening = none := by
        refine Eq.trans (congrArg Transfer.opening (Function.update_self ..)) new.unopened
      rw [openingOf, unopened] at grown
      have inits : initHolders ((c.ask [sbp]).putInit sbp sid).gtcd = initHolders c.gtcd := by
        simp only [initHolders, grown]
        exact congrArg _ (add_zero _)
      simp only [Connection.holders, inits]
      simp only [Connection.uploadHolders, Connection.putInit, Connection.reply, Connection.setEntry, Connection.ask,
        List.map_append, List.map_singleton, ← Multiset.coe_add]
      abel

theorem put_data_kept (kept : Kept c) (sbp : Sbp) (xferId : XferId) (data : List UInt8) (count : ℕ)
    (sized : (c.gtcd.transfers xferId).pdp ≠ none → data.length = count) :
    Ends Kept Never ((c.ask [sbp]).putData sbp xferId data count) := by
  unfold Connection.putData
  split
  · exact kept.answered rfl rfl (counted_reply (c.ask [sbp]) sbp _)
  next pdp held =>
    have held : (c.gtcd.transfers xferId).pdp = some pdp := held
    rw [if_pos (sized (by simp [held]))]
    refine kept.answered rfl rfl ?_
    simp only [Connection.holders, Connection.uploadHolders, Connection.ask, List.map_append, List.map_singleton,
      ← Multiset.coe_add]
    abel

theorem put_data_cb_kept (kept : Kept c) {index : ℕ} {call : PutCall} (inFlight : c.puts[index]? = some call)
    (s : Option String) : Kept ({ c with puts := c.puts.eraseIdx index }.putDataCb call.sbp s) := by
  have returned := taken_out_map inFlight (·.sbp)
  have answered : ∀ res, Kept ({ c with puts := c.puts.eraseIdx index }.reply call.sbp res) := by
    intro res
    refine kept.answered rfl (List.append_nil _).symm ?_
    rw [counted_reply]
    simp only [Connection.holders, Connection.uploadHolders, ← Multiset.coe_add, Multiset.coe_nil, returned]
    abel
  cases s with
  | none => exact answered _
  | some s => exact answered _

theorem put_commit_cb_kept (kept : Kept c) {index : ℕ} {call : Sbp × Option ℕ}
    (inFlight : c.commits[index]? = some call) (hint : String) (res : Except String OidMd) :
    Kept ({ c with commits := c.commits.eraseIdx index }.putCommitCb call.1 hint res) := by
  have returned := taken_out_map inFlight Prod.fst
  have answered : ∀ res, Kept ({ c with commits := c.commits.eraseIdx index }.reply call.1 res) := by
    intro res
    refine kept.answered rfl (List.append_nil _).symm ?_
    rw [counted_reply]
    simp only [Connection.holders, Connection.uploadHolders, ← Multiset.coe_add, Multiset.coe_nil, returned]
    abel
  cases res with
  | error s => exact answered _
  | ok oid => exact answered _

theorem put_commit_kept (kept : Kept c) (sbp : Sbp) (xferId : XferId)
    (idle : ∀ pdp, (c.gtcd.transfers xferId).pdp = some pdp →
      ¬ (c.gtcd.transfers xferId).Pending ∧ pdp.xcb = none) :
    Kept ((c.ask [sbp]).putCommit sbp xferId) := by
  unfold Connection.putCommit
  split
  next => exact kept.answered rfl rfl (counted_reply (c.ask [sbp]) sbp _)
  next pdp held =>
    have held : (c.gtcd.transfers xferId).pdp = some pdp := held
    obtain ⟨idle, unparked⟩ := idle pdp held
    have entry : ∀ post : Transfer → Prop, (∀ xferId, post (c.gtcd.transfers xferId)) →
        post { c.gtcd.transfers xferId with pdp := none } →
        ∀ other, post (Function.update c.gtcd.transfers xferId { c.gtcd.transfers xferId with pdp := none } other) := by
      intro post others here other
      by_cases same : other = xferId
      · rw [same, Function.update_self]
        exact here
      · rw [Function.update_of_ne same]
        exact others other
    constructor
    case entries => exact entry Entry kept.entries (.download (.absent rfl))
    case unborn =>
      intro other beyond_last
      have given : other ≠ xferId := by
        rintro rfl
        cases held.symm.trans (kept.unborn other beyond_last).absent
      show Unborn (Function.update c.gtcd.transfers xferId _ other)
      rw [Function.update_of_ne given]
      exact kept.unborn other beyond_last
    case served =>
      refine ⟨entry (fun t => ¬ t.Stray) kept.served.settled (settled_without idle none),
        entry _ kept.served.gets ?_, ?_⟩
      · refine (kept.served.gets xferId).unparked ?_ rfl _
        rwa [held, Option.bind_some]
      · refine kept.served.others_kept rfl ?_
        have same : openings ((c.ask [sbp]).setEntry xferId none).gtcd = openings c.gtcd := by
          refine openings_same rfl fun other => ?_
          show (Function.update c.gtcd.transfers xferId { c.gtcd.transfers xferId with pdp := none } other).opening = _
          by_cases here : other = xferId
          · rw [here, Function.update_self]
          · rw [Function.update_of_ne here]
        have inits : initHolders ((c.ask [sbp]).setEntry xferId none).gtcd = initHolders c.gtcd :=
          congrArg (((c.gtcd.initReplies.map Prod.fst : List Sbp) : Multiset Sbp) + ·) same
        simp only [Connection.holders, inits]
        simp only [Connection.uploadHolders, Connection.setEntry, Connection.ask, List.map_append, List.map_singleton,
          ← Multiset.coe_add]
        abel

theorem init_kept (stored : List UInt8 → Option (List UInt8)) : Kept (Connection.init stored) where
  served := by
    refine ⟨fun xferId => ?_, fun xferId => .refl _, ?_⟩
    · rintro ⟨_, reading | due | opened⟩
      · exact reading rfl
      · exact due rfl
      · exact opened rfl
    · have unopened : openings (Connection.init stored).gtcd = 0 := tally_nothing fun _ => rfl
      rw [Connection.holders, initHolders, unopened]
      rfl
  entries := fun xferId => .download (init_stages stored xferId).underway
  unborn := fun xferId => (init_stages stored xferId).unborn

section
variable [SendSize]

/-- Nothing but a request touches an upload. -/
theorem Upload.handle (upload : Upload t) {event : Event} (unasked : ∀ sbp xferId, event ≠ .getData sbp xferId) :
    t.handle beyond stored event = .ok t := by
  cases event with
  | getData sbp xferId => exact absurd rfl (unasked sbp xferId)
  | fetchData xferId => simp only [Transfer.handle, upload.unscheduled, if_true]
  | xpFetchDataCb xferId index res => simp only [Transfer.handle, upload.unrequested, List.getElem?_nil]
  | getChunkCb xferId index res => simp only [Transfer.handle, upload.unread, List.getElem?_nil]
  | getInit | getInitCb | putIchunk => rfl

/-- It has no lists. -/
theorem Upload.places (upload : Upload t) {event : Event} (unasked : ∀ sbp xferId, event ≠ .getData sbp xferId) :
    Places t newXferData beyond event := by
  cases event with
  | getData sbp xferId => exact absurd rfl (unasked sbp xferId)
  | fetchData xferId => exact fun due => absurd upload.unscheduled due
  | xpFetchDataCb xferId index res =>
    cases res with
    | error s => trivial
    | ok str =>
      cases str with
      | nil => trivial
      | cons byte rest => exact fun inside => absurd inside (by simp [upload.unrequested])
  | getChunkCb xferId index res =>
    cases res with
    | error s => trivial
    | ok data => exact fun read descs status inFlight => by simp [upload.unread] at inFlight
  | getInit | getInitCb | putIchunk => trivial

/-- A request for an upload looks for statuses. -/
theorem unasked_of_minds {event : Event} (minds : Minds t newXferData beyond event) (sbp : Sbp) (xferId : XferId) :
    event ≠ .getData sbp xferId :=
  fun asks => minds.finds sbp xferId asks rfl

/-! ## Steps of a download -/

theorem step_upload (upload : Upload (g.transfers xferId))
    (unborn : ∀ xferId, g.xferCounter ≤ xferId → Unborn (g.transfers xferId)) {event : Event}
    (minds : event.target = some xferId → Minds (g.transfers xferId) newXferData beyond event) :
    Ends (fun g' => g'.transfers xferId = g.transfers xferId) (fun _ => True) (g.step beyond event) := by
  apply @step_rule _ _ _ fun after => after = g.transfers xferId
  case spared => exact fun _ => rfl
  case opened =>
    rintro _ sbp mode hints rfl
    cases upload.held.symm.trans (unborn _ (Nat.le_refl _)).absent
  case answered => exact fun _ call after awaited => by cases awaited.symm.trans upload.unopened
  case handled =>
    intro own
    rw [upload.handle (unasked_of_minds (minds own))]
    rfl

/-- What a step of a download keeps of each id. -/
theorem step_entry (settled : ¬ (g.transfers xferId).Stray) (accounted : Accounted (g.transfers xferId))
    (entry : Entry (g.transfers xferId)) (unborn : ∀ xferId, g.xferCounter ≤ xferId → Unborn (g.transfers xferId))
    {event : Event} (minds : ∀ pdp, event.target = some xferId → (g.transfers xferId).pdp = some pdp →
      Minds (g.transfers xferId) pdp beyond event) :
    Ends (fun g' => ¬ (g'.transfers xferId).Stray ∧ Accounted (g'.transfers xferId) ∧ Entry (g'.transfers xferId))
      (fun _ => True) (g.step beyond event) := by
  cases entry with
  | upload upload =>
    refine (step_upload upload unborn fun own => minds _ own upload.held).imp fun g' same => ?_
    rw [same]
    exact ⟨settled, accounted, .upload upload⟩
  | download underway =>
    have stages : Stages xferId g := ⟨underway, unborn xferId⟩
    have settles : Ends (fun g' => ¬ (g'.transfers xferId).Stray) (fun _ => True) (g.step beyond event) := by
      apply @step_rule _ _ _ fun after => ¬ after.Stray
      case spared => exact fun _ => settled
      case opened => exact fun _ sbp mode hints _ => Transfer.held_not_stray rfl
      case answered => exact fun _ call after awaited answers _ _ _ =>
        init_answered_settled answers underway settled awaited
      case handled =>
        intro own
        exact handle_settled underway settled fun pdp held => minds pdp own held
    have accounts := step_accounted stages accounted fun own pdp held parked => (minds pdp own held).spares parked
    refine (settles.and (accounts.and (step_stages stages event))).imp fun g' after => ?_
    exact ⟨after.1, after.2.1, .download after.2.2.underway⟩

/-- An event of a download that minds the entry it names stops the daemon just if it reads past
its lists. -/
theorem step_inside (settled : ∀ xferId, ¬ (g.transfers xferId).Stray) (entries : ∀ xferId, Entry (g.transfers xferId))
    {event : Event} (minds : ∀ xferId pdp, event.target = some xferId → (g.transfers xferId).pdp = some pdp →
      Minds (g.transfers xferId) pdp beyond event) :
    EndsIff (∀ xferId pdp, event.target = some xferId → (g.transfers xferId).pdp = some pdp →
      Places (g.transfers xferId) pdp beyond event) (g.step beyond event) := by
  by_cases own : ∃ xferId, event.target = some xferId
  · obtain ⟨xferId, own⟩ := own
    rw [step_target own]
    have handles : EndsIff (∀ pdp, (g.transfers xferId).pdp = some pdp → Places (g.transfers xferId) pdp beyond event)
        ((g.transfers xferId).handle beyond g.stored event) := by
      cases entries xferId with
      | upload upload =>
        have minds := minds xferId _ own upload.held
        rw [upload.handle (unasked_of_minds minds)]
        intro pdp held
        cases upload.held.symm.trans held
        exact upload.places (unasked_of_minds minds)
      | download underway => exact handle_inside underway (settled xferId) fun pdp held => minds xferId pdp own held
    refine (handles.bind fun after => ?_).congr ⟨fun places other pdp own' => ?_, fun places pdp =>
      places xferId pdp own⟩
    · trivial
    cases own.symm.trans own'
    exact places pdp
  have unaimed : ∀ xferId pdp, event.target = some xferId → (g.transfers xferId).pdp = some pdp →
      Places (g.transfers xferId) pdp beyond event := fun xferId _ aimed => absurd ⟨xferId, aimed⟩ own
  cases event with
  | getInit | putIchunk => exact unaimed
  | getInitCb xferId res =>
    simp only [Gtcd.step]
    split
    next call awaited => exact ends_iff_of (get_init_cb_found (settled xferId) awaited res) unaimed
    next => exact unaimed
  | getData | fetchData | xpFetchDataCb | getChunkCb => exact absurd ⟨_, rfl⟩ own

theorem step_init_holders (unborn : ∀ xferId, g.xferCounter ≤ xferId → Unborn (g.transfers xferId)) (event : Event) :
    Ends (fun g' => initHolders g' = initHolders g + inits event) (fun _ => True) (g.step beyond event) := by
  have same : initHolders g = initHolders g + ([] : List Sbp) := (add_zero _).symm
  by_cases own : ∃ xferId, event.target = some xferId
  · obtain ⟨xferId, own⟩ := own
    have asks : inits event = [] := by cases event <;> first | rfl | cases own
    rw [step_target own, asks]
    refine (handle_opening (g.transfers xferId) event).bind fun after opening => ?_
    refine Eq.trans ?_ same
    simp only [initHolders, Gtcd.update]
    congr 1
    refine openings_same rfl fun other => ?_
    by_cases here : other = xferId
    · subst here
      simp only [Function.update_self, opening]
    · simp only [Function.update_of_ne here]
  cases event with
  | getInit sbp oid hints xmode => exact get_init_holders g sbp oid hints xmode
  | putIchunk id data => exact same
  | getInitCb xferId res =>
    simp only [Gtcd.step]
    split
    next call awaited =>
      have given : xferId < g.xferCounter := by
        by_contra beyond_last
        cases awaited.symm.trans (unborn xferId (Nat.le_of_not_lt beyond_last)).unopened
      exact (get_init_cb_holders given awaited res).imp fun g' kept => kept.trans same
    next => exact same
  | getData | fetchData | xpFetchDataCb | getChunkCb => exact absurd ⟨_, rfl⟩ own

theorem download_kept (kept : Kept c) {event : Event} (careful : Careful c (beyond, .download event)) :
    Ends Kept Never (c.step beyond (.download event)) := by
  have served := kept.served
  have minds : ∀ xferId pdp, event.target = some xferId → (c.gtcd.transfers xferId).pdp = some pdp →
      Minds (c.gtcd.transfers xferId) pdp beyond event := fun xferId pdp own held => (careful xferId pdp own held).1
  have entries := ends_forall fun xferId => step_entry (served.settled xferId) (served.gets xferId)
    (kept.entries xferId) kept.unborn (minds xferId)
  have unborn : Ends (fun g' => ∀ xferId, g'.xferCounter ≤ xferId → Unborn (g'.transfers xferId)) (fun _ => True)
      (c.gtcd.step beyond event) := ends_forall fun xferId => step_unborn (kept.unborn xferId) event
  have inits : Ends (fun g' => initHolders g' = initHolders c.gtcd + inits event) (fun _ => True)
      (c.gtcd.step beyond event) := step_init_holders kept.unborn event
  have found : Ends (fun _ => True) Never (c.gtcd.step beyond event) :=
    (step_inside served.settled kept.entries minds).holds fun xferId pdp own held => (careful xferId pdp own held).2
  refine ((entries.and (unborn.and inits)).meet found).bind fun g' after => ?_
  obtain ⟨entries, unborn, inits⟩ := after
  refine ⟨⟨fun xferId => (entries xferId).1, fun xferId => (entries xferId).2.1, ?_⟩,
    fun xferId => (entries xferId).2.2, unborn⟩
  refine served.others_kept rfl ?_
  simp only [Connection.holders, Connection.uploadHolders, inits]
  abel

/-! ## Steps -/

theorem step_kept (kept : Kept c) {event : (ℕ → DescStatus) × ConnectionEvent} (careful : Careful c event) :
    Ends Kept Never (c.step event.1 event.2) := by
  obtain ⟨beyond, event⟩ := event
  cases event with
  | download event => exact download_kept kept careful
  | putInit sbp sid => exact put_init_kept kept sbp sid
  | putData sbp xferId data count => exact put_data_kept kept sbp xferId data count careful
  | putDataCb index s =>
    simp only [Connection.step]
    split
    next => exact kept
    next call inFlight => exact put_data_cb_kept kept inFlight s
  | putCommit sbp xferId => exact put_commit_kept kept sbp xferId careful
  | putCommitCb index hint res =>
    simp only [Connection.step]
    split
    next => exact kept
    next call inFlight => exact put_commit_cb_kept kept inFlight hint res

/-- An event that does not mind its entry leaves a callback without one, or loses a request. -/
theorem handle_careless (accounted : Accounted t) (entry : Entry t) {pdp : XferData} (held : t.pdp = some pdp)
    {event : Event} (careless : ¬ Minds t pdp beyond event) :
    Ends (fun after => after.Stray ∨ ¬ Accounted after) (fun _ => True) (t.handle beyond stored event) := by
  by_cases leaves : Leaves t pdp beyond event ∧ (t.without event).Pending
  · exact (handle_stray held leaves.1 leaves.2).imp fun after stray => .inl stray
  by_cases spares : pdp.xcb ≠ none → SparesParked t pdp beyond event
  · by_cases finds : ∀ sbp xferId, event = .getData sbp xferId → pdp.descsStatus ≠ none
    · exact absurd ⟨finds, fun leaving pending => leaves ⟨leaving, pending⟩, spares⟩ careless
    simp only [not_forall, not_not] at finds
    obtain ⟨sbp, xferId, rfl, unknown⟩ := finds
    have strays : Ends Transfer.Stray (fun _ => True)
        ({ t with gets := t.gets ++ [sbp] }.getData beyond xferId sbp) := by
      cases entry with
      | upload upload =>
        cases held.symm.trans upload.held
        exact get_data_unset held rfl rfl rfl (fun listed => absurd rfl listed) xferId
      | download underway =>
        cases underway with
        | absent absent => cases held.symm.trans absent
        | opening pdp' opening =>
          cases held.symm.trans opening.held
          exact get_data_unset held unknown opening.drained opening.uncounted (fun _ => opening.awaited) xferId
        | waiting pdp' descs waiting =>
          cases held.symm.trans waiting.held
          cases unknown.symm.trans waiting.known
        | fetching pdp' descs status fetching =>
          cases held.symm.trans fetching.held
          cases unknown.symm.trans fetching.known
    exact strays.imp fun after stray => .inl stray
  · obtain ⟨parked, unspared⟩ := Classical.not_imp.mp spares
    exact (handle_loses accounted held parked unspared).imp fun after lost => .inr lost

theorem step_careless (kept : Kept c) {event : (ℕ → DescStatus) × ConnectionEvent} (careless : ¬ Careful c event) :
    Ends (fun after => ¬ AllServed after) (fun _ => True) (c.step event.1 event.2) := by
  obtain ⟨beyond, event⟩ := event
  cases event with
  | download event =>
    by_cases minds : ∀ xferId pdp, event.target = some xferId → (c.gtcd.transfers xferId).pdp = some pdp →
        Minds (c.gtcd.transfers xferId) pdp beyond event
    · have stops : Ends (fun _ => False) (fun _ => True) (c.gtcd.step beyond event) :=
        ((step_inside kept.served.settled kept.entries minds).congr (iff_of_false (fun places =>
          careless fun xferId pdp own held => ⟨minds xferId pdp own held, places xferId pdp own held⟩) id)).imp_fault
            fun _ _ => True.intro
      exact stops.bind fun g' never => never.elim
    simp only [not_forall] at minds
    obtain ⟨xferId, pdp, own, held, careless⟩ := minds
    have misses : Ends (fun g' => (g'.transfers xferId).Stray ∨ ¬ Accounted (g'.transfers xferId)) (fun _ => True)
        (c.gtcd.step beyond event) := by
      rw [step_target own]
      refine (handle_careless (kept.served.gets xferId) (kept.entries xferId) held careless).bind fun after missed => ?_
      rw [ends_ok, update_transfers]
      exact missed
    refine misses.bind fun g' missed served => ?_
    exact missed.elim (served.settled xferId) fun lost => lost (served.gets xferId)
  | putData sbp xferId data count =>
    obtain ⟨held, apart⟩ := Classical.not_imp.mp careless
    obtain ⟨pdp, held⟩ := Option.ne_none_iff_exists'.mp held
    simp only [Connection.step, Connection.putData, Connection.ask, held, if_neg apart]
    trivial
  | putCommit sbp xferId =>
    simp only [Careful, not_forall] at careless
    obtain ⟨pdp, held, careless⟩ := careless
    have committed : (c.ask [sbp]).putCommit sbp xferId = { (c.ask [sbp]).setEntry xferId none with
        commits := c.commits ++ [(sbp, c.sids xferId)] } := by
      simp only [Connection.putCommit, Connection.ask, held]
      rfl
    simp only [Connection.step, committed, ends_ok]
    intro served
    have settled := served.settled xferId
    have accounted := served.gets xferId
    simp only [Connection.setEntry, Connection.ask, Function.update_self] at settled accounted
    by_cases pending : (c.gtcd.transfers xferId).Pending
    · exact settled ⟨rfl, pending⟩
    have parked : pdp.xcb ≠ none := fun unparked => careless ⟨pending, unparked⟩
    obtain ⟨lost, some_parked⟩ := Option.ne_none_iff_exists'.mp parked
    have before := (kept.served.gets xferId).length_eq
    have after := accounted.length_eq
    simp [Transfer.holders, held, some_parked] at before after
    omega
  | putInit | putDataCb | putCommitCb => exact absurd trivial careless

/-! ## Runs -/

/-- **In every run of careful steps every request is served**, and of the steps that can follow
just the careful ones stop nothing and leave every request served, as long as there are ids. -/
theorem serves_iff_careful (run : Runs.Reaches Connection.next (fun c event => Numbered c event ∧ Careful c event)
      (Connection.init stored) c) :
    AllServed c ∧ ∀ event : (ℕ → DescStatus) × ConnectionEvent, Numbered c event →
      (Serves c event ↔ Careful c event) := by
  have kept : Kept c := by
    refine Runs.invariant (init_kept stored) (fun before event after kept guards ran => ?_) run
    exact (step_kept kept guards.2).of_ok (ok_of_to_option ran)
  refine ⟨kept.served, fun event _ => ⟨fun serves => ?_, fun careful => ?_⟩⟩
  · by_contra careless
    have misses := step_careless kept careless
    obtain ⟨after, result, served⟩ := serves.of_never
    rw [result] at misses
    exact misses served
  · exact (step_kept kept careful).imp fun after kept => kept.served

end

/-- An upload and a download that is ready for its first request. -/
def putAndGet : List ConnectionEvent :=
  [.putInit 0 7, .download (.getInit 1 [0] ["gtc://peer:12000"] (some .sequential)),
    .download (.getInitCb 2 (.ok ([⟨[1], 1⟩], true)))]

/-- The state after some of its events. -/
def putAndGetAfter (n : ℕ) : Connection :=
  (putAndGet.take n).foldl (fun c event => (c.next (fun _ => .unknown, event)).getD c) (.init fun _ => none)

theorem put_and_get_run (n : ℕ) (few : n ≤ 3) :
    Runs.Reaches Connection.next (fun c event => Numbered c event ∧ Careful c event) (Connection.init fun _ => none)
      (putAndGetAfter n) := by
  induction n with
  | zero => exact .refl
  | succ n ih =>
    have run := ih (Nat.le_of_succ_le few)
    match n with
    | 0 =>
      have left : (putAndGetAfter 0).gtcd.xferCounter < 2 ^ 32 := by decide
      exact run.snoc (fun _ => .unknown, .putInit 0 7) ⟨left, trivial⟩ rfl
    | 1 =>
      have left : (putAndGetAfter 1).gtcd.xferCounter < 2 ^ 32 := by decide
      exact run.snoc (fun _ => .unknown, .download (.getInit 1 [0] ["gtc://peer:12000"] (some .sequential)))
        ⟨left, nofun⟩ rfl
    | 2 =>
      exact run.snoc (fun _ => .unknown, .download (.getInitCb 2 (.ok ([⟨[1], 1⟩], true)))) ⟨trivial, nofun⟩ rfl

/-- The first request of the download is served. -/
theorem serves_iff_careful_first :
    Serves (putAndGetAfter 3) (fun _ => .unknown, .download (.getData 2 2)) := by
  refine ((serves_iff_careful (put_and_get_run 3 (Nat.le_refl _))).2
    (fun _ => .unknown, .download (.getData 2 2)) True.intro).mpr ?_
  rintro xferId pdp own held
  cases own
  cases held
  refine ⟨⟨fun _ _ _ => nofun, fun _ pending => ?_, fun parked => absurd rfl parked⟩, ?_⟩
  · obtain reading | due | opened := pending
    · exact reading rfl
    · exact due rfl
    · exact opened rfl
  · exact fun _ _ _ onStorage => nomatch onStorage

/-- **A request that names an upload looks for statuses that are not set.** -/
theorem not_served : ¬ ∀ (stored : List UInt8 → Option (List UInt8)) (c : Connection)
    (event : (ℕ → DescStatus) × ConnectionEvent),
    Runs.Reaches Connection.next (fun _ _ => True) (Connection.init stored) c →
    c.step event.1 event.2 ≠ .error .nullDeref := by
  intro claimed
  have run : Runs.Reaches Connection.next (fun _ _ => True) (Connection.init fun _ => none) (putAndGetAfter 1) :=
    (put_and_get_run 1 (by decide)).weaken fun _ _ _ => True.intro
  exact claimed _ _ (fun _ => .unknown, .download (.getData 1 1)) run rfl

end Ditto.SharedTable
