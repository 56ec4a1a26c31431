import Ditto.ConnectionAnswers
import Ditto.ConnectionShape
import Ditto.Sequences

/-! Where the requests for chunks are. Each one waits for a connection, is parked on one, is
in flight or has had its callback called, and every event passes it on from one of these
places to the next. -/
namespace Ditto.XferGtc
open Outcomes Tallies

variable {κ : Type} {p q : Plugin κ} {env : Env} {req : ChunkReq κ} {conn : ConnId} {entry : ConnEntry κ}
  {key : String} {total : Multiset κ} {hash : List UInt8 → List UInt8}

/-- The callback that a transfer of a chunk will call. -/
def Transfer.chunkCb : Transfer κ → Option κ
  | .chunk req _ _ => some req.cb
  | _ => none

/-- The callback that was called with a chunk or without. -/
def Answer.chunkCb : Answer κ → Option κ
  | .chunk cb _ => some cb
  | _ => none

/-- The callback of a request for a chunk. -/
def Event.chunkCb : Event κ → Option κ
  | .getChunk req => some req.cb
  | _ => none

/-- The key under which an attempt is in the table of pending connections. -/
def Attempt.tabled : Attempt κ → Option String
  | .establishConnection key => some key
  | _ => none

/-- The callbacks of the requests parked on a connection. -/
def ConnEntry.waiting (entry : ConnEntry κ) : List κ := entry.waitCb.filterMap fun waiter => waiter.map (·.cb)

namespace Plugin

/-- The callbacks that wait for the connection to a key. -/
def pendingFor (p : Plugin κ) (key : String) : List κ := ((p.pendingConnCache key).getD []).map (·.cb)

/-- The callbacks that are parked on a connection. -/
def waitingOn (p : Plugin κ) (conn : ConnId) : Multiset κ :=
  (((p.conns conn).map ConnEntry.waiting).getD [] : List κ)

/-- The keys in the table of pending connections. -/
def tabledKeys (p : Plugin κ) : List String := p.attempts.filterMap Attempt.tabled

/-- The callbacks of the requests that the plugin has in hand. -/
def inHand (p : Plugin κ) : Multiset κ :=
  (p.calls.filterMap (·.transfer.chunkCb) : List κ) + (p.tabledKeys.flatMap p.pendingFor : List κ) +
    tally p.nextConn p.waitingOn

/-- The callbacks that were called for chunks. -/
def told (p : Plugin κ) : List κ := p.answers.filterMap Answer.chunkCb

/-- A plugin whose requests in hand and callbacks called come to a total. The table of pending
connections has the keys of the attempts that were made for it, each once. -/
structure Accounts (total : Multiset κ) (p : Plugin κ) : Prop where
  shaped : Shaped p
  distinct : p.tabledKeys.Nodup
  tabled : ∀ key, (p.pendingConnCache key).isSome ↔ key ∈ p.tabledKeys
  whole : p.inHand + p.told = total

/-! ## One place changes -/

theorem in_hand_write (shaped : Shaped p) (held : p.conns conn = some entry) (new : ConnEntry κ) :
    (p.writeConn conn new).inHand + (entry.waiting : Multiset κ) = p.inHand + (new.waiting : Multiset κ) := by
  have moved : tally p.nextConn (p.writeConn conn new).waitingOn + p.waitingOn conn =
      tally p.nextConn p.waitingOn + (p.writeConn conn new).waitingOn conn :=
    tally_moved (shaped.live_lt held) fun other away => by
      simp only [waitingOn, conns_write_conn, Function.update_of_ne away]
  have before : p.waitingOn conn = entry.waiting := by simp only [waitingOn, held, Option.map_some, Option.getD_some]
  have after : (p.writeConn conn new).waitingOn conn = new.waiting := by
    simp only [waitingOn, conns_write_conn, Function.update_self, Option.map_some, Option.getD_some]
  rw [before, after] at moved
  have same : (p.writeConn conn new).inHand = (p.calls.filterMap (·.transfer.chunkCb) : List κ) +
      (p.tabledKeys.flatMap p.pendingFor : List κ) + tally p.nextConn (p.writeConn conn new).waitingOn := rfl
  rw [same, inHand, add_assoc, moved]
  abel

theorem in_hand_call (transfer : Transfer κ) :
    ({ p with calls := p.calls ++ [⟨conn, transfer⟩] } : Plugin κ).inHand =
      p.inHand + (transfer.chunkCb.toList : Multiset κ) := by
  have one : List.filterMap (fun c : Call κ => c.transfer.chunkCb) [⟨conn, transfer⟩] = transfer.chunkCb.toList := by
    cases transfer <;> rfl
  have same : ({ p with calls := p.calls ++ [⟨conn, transfer⟩] } : Plugin κ).inHand =
      ((p.calls ++ [Call.mk conn transfer]).filterMap (·.transfer.chunkCb) : List κ) +
      (p.tabledKeys.flatMap p.pendingFor : List κ) + tally p.nextConn p.waitingOn := rfl
  rw [same, inHand, List.filterMap_append, one, ← Multiset.coe_add]
  abel

theorem in_hand_without_call {index : ℕ} {c : Call κ} (called : p.calls[index]? = some c) :
    p.inHand = ({ p with calls := p.calls.eraseIdx index } : Plugin κ).inHand +
      (c.transfer.chunkCb.toList : Multiset κ) := by
  have same : ({ p with calls := p.calls.eraseIdx index } : Plugin κ).inHand =
      ((p.calls.eraseIdx index).filterMap (·.transfer.chunkCb) : List κ) +
      (p.tabledKeys.flatMap p.pendingFor : List κ) + tally p.nextConn p.waitingOn := rfl
  rw [same, inHand, taken_out called]
  abel

theorem in_hand_drop (shaped : Shaped p) (held : p.conns conn = some entry) :
    (p.dropConn conn).inHand + (entry.waiting : Multiset κ) = p.inHand := by
  have moved : tally p.nextConn (p.dropConn conn).waitingOn + p.waitingOn conn =
      tally p.nextConn p.waitingOn + (p.dropConn conn).waitingOn conn :=
    tally_moved (shaped.live_lt held) fun other away => by
      simp only [waitingOn, dropConn, Function.update_of_ne away]
  have before : p.waitingOn conn = entry.waiting := by simp only [waitingOn, held, Option.map_some, Option.getD_some]
  have after : (p.dropConn conn).waitingOn conn = 0 := by
    simp only [waitingOn, dropConn, Function.update_self, Option.map_none, Option.getD_none]
    rfl
  rw [before, after, add_zero] at moved
  have same : (p.dropConn conn).inHand = (p.calls.filterMap (·.transfer.chunkCb) : List κ) +
      (p.tabledKeys.flatMap p.pendingFor : List κ) + tally p.nextConn (p.dropConn conn).waitingOn := rfl
  rw [same, inHand, add_assoc, moved]

/-- A connection just opened has nothing parked on it. -/
theorem in_hand_opened (env : Env) (key : String) (sent : List (Transfer κ)) :
    (p.opened env key sent).inHand = p.inHand + (sent.filterMap Transfer.chunkCb : List κ) := by
  have grown : tally (p.nextConn + 1) (p.opened env key sent).waitingOn =
      tally p.nextConn p.waitingOn + (p.opened env key sent).waitingOn p.nextConn :=
    tally_grown fun other away => by
      show ((((Function.update p.conns p.nextConn _) other).map ConnEntry.waiting).getD [] : Multiset κ) = _
      rw [Function.update_of_ne away, waitingOn]
  have empty : (p.opened env key sent).waitingOn p.nextConn = 0 := by
    show ((((Function.update p.conns p.nextConn _) p.nextConn).map ConnEntry.waiting).getD [] : Multiset κ) = 0
    rw [Function.update_self]
    rfl
  have going : (sent.map (Call.mk p.nextConn)).filterMap (·.transfer.chunkCb) = sent.filterMap Transfer.chunkCb := by
    rw [List.filterMap_map]
    rfl
  have same : (p.opened env key sent).inHand =
      ((p.calls ++ sent.map (Call.mk p.nextConn)).filterMap (·.transfer.chunkCb) : List κ) +
      (p.tabledKeys.flatMap p.pendingFor : List κ) + tally (p.nextConn + 1) (p.opened env key sent).waitingOn := rfl
  rw [same, inHand, grown, empty, List.filterMap_append, going, ← Multiset.coe_add]
  abel

theorem told_answer (p : Plugin κ) (a : Answer κ) : (p.answer a).told = p.told ++ a.chunkCb.toList := by
  have one : [a].filterMap Answer.chunkCb = a.chunkCb.toList := by cases a <;> rfl
  rw [told, answer, List.filterMap_append, one]
  rfl

/-! ## Requests -/

/-- A connection is written, with one request parked more on it or one in flight. -/
theorem Accounts.same (accounts : Accounts total p) (shaped : Shaped q) (attempts : q.attempts = p.attempts)
    (pending : q.pendingConnCache = p.pendingConnCache) {more : Multiset κ}
    (whole : q.inHand + q.told = p.inHand + p.told + more) : Accounts (total + more) q where
  shaped := shaped
  distinct := by
    rw [tabledKeys, attempts]
    exact accounts.distinct
  tabled := by
    rw [tabledKeys, attempts, pending]
    exact accounts.tabled
  whole := by rw [whole, accounts.whole]

theorem Accounts.kept (accounts : Accounts total p) (shaped : Shaped q) (attempts : q.attempts = p.attempts)
    (pending : q.pendingConnCache = p.pendingConnCache) (whole : q.inHand + q.told = p.inHand + p.told) :
    Accounts total q := by
  have same : Accounts (total + 0) q := accounts.same shaped attempts pending (by rw [whole, add_zero])
  rwa [add_zero] at same

/-- A request waits for a connection that another waits for. -/
theorem Accounts.join (accounts : Accounts total p) {pendingCbs : List (ChunkReq κ)}
    (pending : p.pendingConnCache key = some pendingCbs) (req : ChunkReq κ) :
    Accounts (total + {req.cb}) { p with
      pendingConnCache := Function.update p.pendingConnCache key (some (pendingCbs ++ [req])) } where
  shaped := accounts.shaped.congr rfl rfl rfl fun _ member => member
  distinct := accounts.distinct
  tabled := fun other => by
    show (Function.update p.pendingConnCache key _ other).isSome ↔ other ∈ p.tabledKeys
    by_cases here : other = key
    · subst here
      rw [Function.update_self, ← accounts.tabled, pending]
      simp
    · rw [Function.update_of_ne here]
      exact accounts.tabled other
  whole := by
    have listed : key ∈ p.tabledKeys := (accounts.tabled key).mp (by rw [pending]; rfl)
    let q : Plugin κ := { p with
      pendingConnCache := Function.update p.pendingConnCache key (some (pendingCbs ++ [req])) }
    have moved : (p.tabledKeys.flatMap q.pendingFor : Multiset κ) + p.pendingFor key =
        (p.tabledKeys.flatMap p.pendingFor : Multiset κ) + q.pendingFor key :=
      gather_moved accounts.distinct listed fun other away => by
        simp only [q, pendingFor, Function.update_of_ne away]
    have before : p.pendingFor key = pendingCbs.map (·.cb) := by rw [pendingFor, pending, Option.getD_some]
    have after : q.pendingFor key = pendingCbs.map (·.cb) ++ [req.cb] := by
      simp only [q, pendingFor, Function.update_self, Option.getD_some, List.map_append, List.map_singleton]
    rw [before, after, ← Multiset.coe_add, ← add_assoc, add_right_comm] at moved
    have gathered := add_right_cancel moved
    have same : q.inHand = (p.calls.filterMap (·.transfer.chunkCb) : List κ) +
        (p.tabledKeys.flatMap q.pendingFor : List κ) + tally p.nextConn p.waitingOn := rfl
    show q.inHand + (p.told : Multiset κ) = total + {req.cb}
    rw [same, gathered, ← accounts.whole, inHand, Multiset.coe_singleton]
    abel

/-- A request starts an attempt. -/
theorem Accounts.attempt (accounts : Accounts total p) (absent : p.pendingConnCache key = none) (req : ChunkReq κ) :
    Accounts (total + {req.cb}) { p with
      pendingConnCache := Function.update p.pendingConnCache key (some [req])
      attempts := p.attempts ++ [.establishConnection key] } := by
  have unlisted : key ∉ p.tabledKeys := fun listed => by
    have present := (accounts.tabled key).mpr listed
    rw [absent] at present
    cases present
  let q : Plugin κ := { p with
    pendingConnCache := Function.update p.pendingConnCache key (some [req])
    attempts := p.attempts ++ [.establishConnection key] }
  have keys : q.tabledKeys = p.tabledKeys ++ [key] := List.filterMap_append ..
  constructor
  case shaped => exact accounts.shaped.congr rfl rfl rfl fun _ member => member
  case distinct =>
    show q.tabledKeys.Nodup
    rw [keys]
    refine List.nodup_append.mpr ⟨accounts.distinct, List.nodup_singleton key, fun other listed _ here same => ?_⟩
    obtain rfl := List.mem_singleton.mp here
    exact unlisted (same ▸ listed)
  case tabled =>
    intro other
    show (Function.update p.pendingConnCache key _ other).isSome ↔ other ∈ q.tabledKeys
    rw [keys, List.mem_append, List.mem_singleton, ← accounts.tabled]
    by_cases here : other = key
    · subst here
      simp
    · simp [here]
  case whole =>
    have before : (p.tabledKeys.flatMap q.pendingFor : Multiset κ) = p.tabledKeys.flatMap p.pendingFor :=
      gather_same fun other listed => by
        have away : other ≠ key := fun same => unlisted (same ▸ listed)
        simp only [q, pendingFor, Function.update_of_ne away]
    have here : q.pendingFor key = [req.cb] := by
      simp only [q, pendingFor, Function.update_self, Option.getD_some, List.map_singleton]
    have same : q.inHand = (p.calls.filterMap (·.transfer.chunkCb) : List κ) +
        (q.tabledKeys.flatMap q.pendingFor : List κ) + tally p.nextConn p.waitingOn := rfl
    show q.inHand + (p.told : Multiset κ) = total + {req.cb}
    rw [same, keys, List.flatMap_append, ← Multiset.coe_add, before, List.flatMap_singleton, here, ← accounts.whole,
      inHand, Multiset.coe_singleton]
    abel

theorem call_accounts (accounts : Accounts total p) (conn : ConnId) (transfer : Transfer κ) :
    Ends (Accounts (total + (transfer.chunkCb.toList : Multiset κ))) (fun _ => True) (p.call conn transfer) := by
  refine (call_ends fun _ => trivial).imp fun q called => ?_
  obtain ⟨⟨entry, held⟩, rfl⟩ := called
  refine accounts.same (accounts.shaped.call held) rfl rfl ?_
  rw [in_hand_call]
  exact add_right_comm ..

theorem get_chunk_accounts (accounts : Accounts total p) (env : Env) (req : ChunkReq κ) :
    Ends (Accounts (total + {req.cb})) (fun _ => True) (p.getChunk env req) := by
  unfold getChunk
  split
  · trivial
  split
  · trivial
  next name rest hinted res hop =>
    split
    next absent =>
      simp only [getConnection]
      split
      next conn found => exact call_accounts accounts conn (.chunk req 0 [])
      next unknown =>
        split
        next pendingCbs pending => exact accounts.join pending req
        next none_pending => exact accounts.attempt none_pending req
    next conn found =>
      refine (read_conn_ends fun _ => trivial).bind fun entry held => ?_
      split
      next full =>
        refine accounts.same (accounts.shaped.write held _) rfl rfl ?_
        have written := in_hand_write accounts.shaped held { entry with waitCb := entry.waitCb ++ [some req] }
        have more : ({ entry with waitCb := entry.waitCb ++ [some req] } : ConnEntry κ).waiting =
            entry.waiting ++ [req.cb] := List.filterMap_append ..
        rw [more, ← Multiset.coe_add, ← add_assoc, add_right_comm] at written
        have same : (p.writeConn conn { entry with waitCb := entry.waitCb ++ [some req] }).told = p.told := rfl
        rw [add_right_cancel written, same, Multiset.coe_singleton]
        abel
      next room =>
        have live := accounts.shaped.write held { entry with refcount := entry.refcount + 1, tv := env.now }
        refine (call_ends fun _ => trivial).imp fun q called => ?_
        obtain ⟨⟨entry', held'⟩, rfl⟩ := called
        refine accounts.same (live.call held') rfl rfl ?_
        have written := in_hand_write accounts.shaped held { entry with refcount := entry.refcount + 1, tv := env.now }
        rw [in_hand_call, add_right_cancel written]
        show p.inHand + ([req.cb] : Multiset κ) + (p.told : Multiset κ) = _
        rw [Multiset.coe_singleton]
        abel

/-! ## Waiters -/

theorem note_resumed_accounts (accounts : Accounts total p) (conn : ConnId) (index : ℕ) :
    Accounts total (p.noteResumed conn index) :=
  accounts.kept (accounts.shaped.note_resumed conn index) rfl rfl rfl

/-- The waiters of a connection that is gone are resumed one after the other. -/
theorem resume_all_accounts (env : Env) (conn : ConnId) (waiters : List (Option (ChunkReq κ) × ℕ))
    (accounts : Accounts total p) :
    Ends (Accounts (total + (waiters.filterMap (fun waiter => waiter.1.map (·.cb)) : Multiset κ))) (fun _ => True)
      (waiters.foldlM (fun p waiter => p.resume env conn waiter) p) := by
  induction waiters generalizing p total with
  | nil =>
    rw [List.filterMap_nil, Multiset.coe_nil, add_zero]
    exact accounts
  | cons waiter rest ih =>
    rw [List.foldlM_cons]
    obtain ⟨waiter, index⟩ := waiter
    cases waiter with
    | none => exact ih accounts
    | some req =>
      refine (get_chunk_accounts (note_resumed_accounts accounts conn index) env req).bind fun q accounts => ?_
      have resumed := ih accounts
      rwa [add_assoc] at resumed

theorem delete_conn_accounts (accounts : Accounts total p) (env : Env) (conn : ConnId) :
    Ends (Accounts total) (fun _ => True) (p.deleteConn env conn) := by
  refine (read_conn_ends fun _ => trivial).bind fun entry held => ?_
  have dropped : Accounts ((p.dropConn conn).inHand + (p.told : Multiset κ)) (p.dropConn conn) :=
    ⟨accounts.shaped.drop conn, accounts.distinct, accounts.tabled, rfl⟩
  have resumed := resume_all_accounts env conn entry.waitCb.zipIdx dropped
  have waiting : entry.waitCb.zipIdx.filterMap (fun waiter => waiter.1.map (·.cb)) = entry.waiting := by
    rw [ConnEntry.waiting, ← List.zipIdx_map_fst 0 entry.waitCb, List.filterMap_map]
    simp only [List.zipIdx_map_fst]
    rfl
  have total_eq : (p.dropConn conn).inHand + (p.told : Multiset κ) + (entry.waiting : Multiset κ) = total := by
    rw [add_right_comm, in_hand_drop accounts.shaped held, accounts.whole]
  rwa [waiting, total_eq] at resumed

theorem check_outstanding_accounts (accounts : Accounts total p) (env : Env) (conn : ConnId) :
    Ends (Accounts total) (fun _ => True) (p.checkOutstanding env conn) := by
  refine check_outstanding_rule (fun _ => trivial) (fun _ _ _ => accounts) fun entry req index held first => ?_
  obtain ⟨_, waits, slot⟩ := first_waiter_some first
  cases waits
  have out : (entry.waiting : Multiset κ) =
      ({ entry with waitCb := entry.waitCb.set index none } : ConnEntry κ).waiting + {req.cb} := by
    obtain ⟨inside, here⟩ := List.getElem?_eq_some_iff.mp slot
    have split : entry.waitCb = entry.waitCb.take index ++ some req :: entry.waitCb.drop (index + 1) := by
      rw [← here, List.getElem_cons_drop, List.take_append_drop]
    have set : entry.waitCb.set index none = entry.waitCb.take index ++ none :: entry.waitCb.drop (index + 1) :=
      List.set_eq_take_append_cons_drop.trans (if_pos inside)
    have before : entry.waiting = (entry.waitCb.take index).filterMap (fun waiter => waiter.map (·.cb)) ++
        req.cb :: (entry.waitCb.drop (index + 1)).filterMap fun waiter => waiter.map (·.cb) := by
      rw [ConnEntry.waiting]
      conv => lhs; rw [split]
      rw [List.filterMap_append]
      rfl
    have after : ({ entry with waitCb := entry.waitCb.set index none } : ConnEntry κ).waiting =
        (entry.waitCb.take index).filterMap (fun waiter => waiter.map (·.cb)) ++
        (entry.waitCb.drop (index + 1)).filterMap fun waiter => waiter.map (·.cb) := by
      rw [ConnEntry.waiting]
      dsimp only
      rw [set, List.filterMap_append]
      rfl
    rw [before, after, ← Multiset.coe_singleton, Multiset.coe_add, Multiset.coe_eq_coe]
    exact List.perm_middle.trans (List.perm_append_singleton _ _).symm
  have written := in_hand_write accounts.shaped held { entry with waitCb := entry.waitCb.set index none }
  rw [out, add_comm _ ({req.cb} : Multiset κ), ← add_assoc] at written
  have woken : Accounts
      ((p.writeConn conn { entry with waitCb := entry.waitCb.set index none }).inHand + (p.told : Multiset κ))
      (p.writeConn conn { entry with waitCb := entry.waitCb.set index none }) :=
    ⟨accounts.shaped.write held _, accounts.distinct, accounts.tabled, rfl⟩
  have asked := get_chunk_accounts (note_resumed_accounts woken conn index) env req
  rwa [add_right_comm, add_right_cancel written, accounts.whole] at asked

theorem release_conn_accounts (accounts : Accounts total p) (conn : ConnId) :
    Ends (Accounts total) (fun _ => True) (p.releaseConn conn) := by
  refine (release_conn_ends fun _ => trivial).imp fun q released => ?_
  obtain ⟨entry, held, rfl⟩ := released
  refine accounts.kept (accounts.shaped.write held _) rfl rfl ?_
  have written := in_hand_write accounts.shaped held { entry with refcount := entry.refcount - 1 }
  rw [add_right_cancel written]
  rfl

theorem Accounts.answer (accounts : Accounts total p) (a : Answer κ) :
    Accounts (total + (a.chunkCb.toList : Multiset κ)) (p.answer a) := by
  refine accounts.same (accounts.shaped.answer a) rfl rfl ?_
  rw [told_answer, ← Multiset.coe_add, ← add_assoc]
  rfl

/-- A call that is taken out of the list. -/
theorem Accounts.without_call (accounts : Accounts total p) {index : ℕ} {c : Call κ}
    (called : p.calls[index]? = some c) :
    ∃ rest, Accounts rest ({ p with calls := p.calls.eraseIdx index } : Plugin κ) ∧
      rest + (c.transfer.chunkCb.toList : Multiset κ) = total := by
  refine ⟨_, ⟨accounts.shaped.without_call index, accounts.distinct, accounts.tabled, rfl⟩, ?_⟩
  rw [← accounts.whole, in_hand_without_call called]
  exact add_right_comm ..

/-! ## Replies -/

/-- A callback that was not for a chunk. -/
theorem Accounts.answer_other (accounts : Accounts total p) {a : Answer κ} (other : a.chunkCb = none) :
    Accounts total (p.answer a) := by
  have answered := accounts.answer a
  rwa [other, Option.toList_none, Multiset.coe_nil, add_zero] at answered

theorem call_accounts_other (accounts : Accounts total p) (conn : ConnId) {transfer : Transfer κ}
    (other : transfer.chunkCb = none) : Ends (Accounts total) (fun _ => True) (p.call conn transfer) := by
  have called := call_accounts accounts conn transfer
  rwa [other, Option.toList_none, Multiset.coe_nil, add_zero] at called

theorem chunk_reply_accounts (accounts : Accounts total p) {index offset : ℕ} {data : List UInt8}
    (called : p.calls[index]? = some ⟨conn, .chunk req offset data⟩) (res : Reply ChunkResOk) :
    Ends (Accounts total) (fun _ => True)
      ({ p with calls := p.calls.eraseIdx index }.getChunkInternalCb hash env req data conn res) := by
  obtain ⟨rest, out, rfl⟩ := accounts.without_call called
  cases res with
  | err clntStat =>
    exact (delete_conn_accounts out env conn).bind fun q accounts => accounts.answer (.chunk req.cb (.error _))
  | notOk errmsg => exact out.answer (.chunk req.cb (.error _))
  | ok resok =>
    simp only [getChunkInternalCb]
    split
    · split
      · exact out.answer (.chunk req.cb (.error _))
      · refine (release_conn_accounts out conn).bind fun q accounts => ?_
        exact check_outstanding_accounts (accounts.answer (.chunk req.cb (.ok _))) env conn
    · exact call_accounts out conn (.chunk req _ _)

theorem descriptors_reply_accounts (accounts : Accounts total p) {index : ℕ} {oid : List UInt8} {hints : List String}
    {cb : κ} {offset : ℤ} (called : p.calls[index]? = some ⟨conn, .descriptors oid hints cb offset⟩)
    (res : Reply DescriptorsResOk) :
    Ends (Accounts total) (fun _ => True)
      ({ p with calls := p.calls.eraseIdx index }.getDescInternalCb env oid hints cb conn res) := by
  obtain ⟨rest, out, rfl⟩ := accounts.without_call called
  have out : Accounts (rest + (([] : List κ) : Multiset κ)) { p with calls := p.calls.eraseIdx index } := by
    rwa [Multiset.coe_nil, add_zero]
  cases res with
  | err clntStat => exact (delete_conn_accounts out env conn).bind fun q accounts => accounts.answer_other rfl
  | notOk errmsg => exact out.answer_other rfl
  | ok resok =>
    simp only [getDescInternalCb]
    split
    · trivial
    split
    · exact (release_conn_accounts out conn).bind fun q accounts => accounts.answer_other rfl
    · exact (call_accounts_other out conn rfl).bind fun q accounts => accounts.answer_other rfl

theorem bitmap_reply_accounts (accounts : Accounts total p) {index : ℕ} {oid : List UInt8} {cb : κ} {offset : ℤ}
    {bmp : List Bool} (called : p.calls[index]? = some ⟨conn, .bitmap oid cb offset bmp⟩)
    (res : Reply BitmapResOk) :
    Ends (Accounts total) (fun _ => True)
      (Plugin.getBitmapInternalCb { p with calls := p.calls.eraseIdx index } env oid cb bmp conn res) := by
  obtain ⟨rest, out, rfl⟩ := accounts.without_call called
  have out : Accounts (rest + (([] : List κ) : Multiset κ)) { p with calls := p.calls.eraseIdx index } := by
    rwa [Multiset.coe_nil, add_zero]
  cases res with
  | err clntStat => exact (delete_conn_accounts out env conn).bind fun q accounts => accounts.answer_other rfl
  | notOk errmsg => exact out.answer_other rfl
  | ok resok =>
    simp only [Plugin.getBitmapInternalCb]
    split
    · trivial
    · exact out.answer_other rfl
    · exact call_accounts_other out conn rfl
    · exact (release_conn_accounts out conn).bind fun q accounts => accounts.answer_other rfl

/-! ## Connects -/

/-- An attempt that comes back is taken off the list. -/
theorem tabled_out {index : ℕ} {attempt : Attempt κ} (place : p.attempts[index]? = some attempt) :
    p.tabledKeys.Perm (attempt.tabled.toList ++
      ({ p with attempts := p.attempts.eraseIdx index } : Plugin κ).tabledKeys) := by
  obtain ⟨inside, rfl⟩ := List.getElem?_eq_some_iff.mp place
  refine (((List.getElem_cons_eraseIdx_perm inside).filterMap Attempt.tabled).symm).trans ?_
  rw [List.filterMap_cons]
  cases p.attempts[index].tabled <;> exact .refl _

/-- An attempt that is not in the table of pending connections. -/
theorem Accounts.without_attempt (accounts : Accounts total p) {index : ℕ} {attempt : Attempt κ}
    (place : p.attempts[index]? = some attempt) (untabled : attempt.tabled = none) :
    Accounts total { p with attempts := p.attempts.eraseIdx index } := by
  have keys := tabled_out place
  rw [untabled, Option.toList_none, List.nil_append] at keys
  constructor
  case shaped => exact accounts.shaped.congr rfl rfl rfl fun _ member => member
  case distinct => exact keys.nodup_iff.mp accounts.distinct
  case tabled => exact fun key => (accounts.tabled key).trans keys.mem_iff
  case whole =>
    rw [← accounts.whole]
    let q : Plugin κ := { p with attempts := p.attempts.eraseIdx index }
    have gathered : (q.tabledKeys.flatMap p.pendingFor : Multiset κ) = p.tabledKeys.flatMap p.pendingFor :=
      Multiset.coe_eq_coe.mpr (keys.symm.flatMap_right _)
    have same : q.inHand = (p.calls.filterMap (·.transfer.chunkCb) : List κ) +
        (q.tabledKeys.flatMap p.pendingFor : List κ) + tally p.nextConn p.waitingOn := rfl
    show q.inHand + (p.told : Multiset κ) = p.inHand + p.told
    rw [same, gathered, inHand]

theorem opened_accounts (accounts : Accounts total p) (env : Env) (key : String) (sent : List (Transfer κ)) :
    Accounts (total + (sent.filterMap Transfer.chunkCb : Multiset κ)) (p.opened env key sent) := by
  refine accounts.same (accounts.shaped.opened env key sent) rfl rfl ?_
  rw [in_hand_opened]
  exact add_right_comm ..

/-- The requests that wait for a key are taken out of the table with their attempt. -/
theorem Accounts.without_pending (accounts : Accounts total p) {index : ℕ} {pendingCbs : List (ChunkReq κ)}
    (place : p.attempts[index]? = some (.establishConnection key)) (pending : p.pendingConnCache key = some pendingCbs) :
    ∃ rest, Accounts rest ({ p with
        attempts := p.attempts.eraseIdx index
        pendingConnCache := Function.update p.pendingConnCache key none } : Plugin κ) ∧
      rest + (pendingCbs.map (·.cb) : Multiset κ) = total := by
  let q : Plugin κ := { p with
    attempts := p.attempts.eraseIdx index
    pendingConnCache := Function.update p.pendingConnCache key none }
  have keys : p.tabledKeys.Perm (key :: q.tabledKeys) := tabled_out place
  obtain ⟨apart, distinct⟩ := List.nodup_cons.mp (keys.nodup_iff.mp accounts.distinct)
  refine ⟨_, ⟨accounts.shaped.congr rfl rfl rfl fun _ member => member, distinct, fun other => ?_, rfl⟩, ?_⟩
  · show (Function.update p.pendingConnCache key none other).isSome ↔ other ∈ q.tabledKeys
    by_cases here : other = key
    · subst here
      rw [Function.update_self]
      exact iff_of_false Bool.false_ne_true apart
    · rw [Function.update_of_ne here, accounts.tabled, keys.mem_iff, List.mem_cons, or_iff_right here]
  · have left : (q.tabledKeys.flatMap q.pendingFor : Multiset κ) = q.tabledKeys.flatMap p.pendingFor :=
      gather_same fun other listed => by
        have away : other ≠ key := fun same => apart (same ▸ listed)
        simp only [q, pendingFor, Function.update_of_ne away]
    have whole : (p.tabledKeys.flatMap p.pendingFor : Multiset κ) =
        (pendingCbs.map (·.cb) : List κ) + (q.tabledKeys.flatMap p.pendingFor : Multiset κ) := by
      rw [Multiset.coe_eq_coe.mpr (keys.flatMap_right p.pendingFor), List.flatMap_cons, ← Multiset.coe_add]
      simp only [pendingFor, pending, Option.getD_some]
    have same : q.inHand = (p.calls.filterMap (·.transfer.chunkCb) : List κ) +
        (q.tabledKeys.flatMap q.pendingFor : List κ) + tally p.nextConn p.waitingOn := rfl
    show q.inHand + (p.told : Multiset κ) + _ = total
    rw [same, left, ← accounts.whole, inHand, whole]
    abel

theorem opened_alone (p : Plugin κ) (env : Env) (key : String) : p.opened env key [] = p.newConn env key := by
  simp only [opened, newConn, List.map_nil, List.append_nil]
  rfl

/-- The requests that waited for a connection are in flight on it. -/
theorem establish_connection_accounts (accounts : Accounts total p) {index : ℕ} (connected : Bool)
    (place : p.attempts[index]? = some (.establishConnection key)) :
    Ends (Accounts total) (fun _ => True)
      ({ p with attempts := p.attempts.eraseIdx index }.establishConnection env key connected) := by
  unfold establishConnection
  split
  · trivial
  next pendingCbs pending =>
    obtain ⟨rest, out, rfl⟩ := accounts.without_pending place pending
    cases connected with
    | true =>
      have launched := launch_eq (p := { p with attempts := p.attempts.eraseIdx index }) env key pendingCbs []
      rw [opened_alone, List.nil_append] at launched
      rw [if_pos rfl, launched]
      have opened := opened_accounts out env key (pendingCbs.map (.chunk · 0 []))
      have going : (pendingCbs.map (Transfer.chunk · 0 [])).filterMap Transfer.chunkCb = pendingCbs.map (·.cb) := by
        rw [List.filterMap_map]
        show List.filterMap (some ∘ ChunkReq.cb) pendingCbs = List.map ChunkReq.cb pendingCbs
        rw [List.filterMap_eq_map]
      rwa [going] at opened
    | false =>
      cases pendingCbs with
      | nil =>
        rw [List.map_nil, Multiset.coe_nil, add_zero]
        exact out
      | cons req reqs => trivial

/-- A connection for descriptors or a bitmap. -/
theorem clnt_accounts (accounts : Accounts total p) (env : Env) (key : String) {transfer : Transfer κ}
    (other : transfer.chunkCb = none) :
    Ends (Accounts total) (fun _ => True) ((p.newConn env key).call p.nextConn transfer) := by
  have opened := opened_accounts accounts env key []
  rw [List.filterMap_nil, Multiset.coe_nil, add_zero, opened_alone] at opened
  exact call_accounts_other opened p.nextConn other

theorem connect_accounts (accounts : Accounts total p) {index : ℕ} {attempt : Attempt κ} (connected : Bool)
    (place : p.attempts[index]? = some attempt) :
    Ends (Accounts total) (fun _ => True)
      ({ p with attempts := p.attempts.eraseIdx index }.connect env connected attempt) := by
  cases attempt with
  | establishConnection key => exact establish_connection_accounts accounts connected place
  | getDescriptorsClnt oid hints cb key =>
    have out := accounts.without_attempt place rfl
    cases connected with
    | true => exact clnt_accounts out env key rfl
    | false => exact out.answer_other rfl
  | getBitmapClnt oid cb key =>
    have out := accounts.without_attempt place rfl
    cases connected with
    | true => exact clnt_accounts out env key rfl
    | false => exact out.answer_other rfl

/-! ## Steps -/

/-- An attempt that is not in the table of pending connections is made. -/
theorem Accounts.attempt_other (accounts : Accounts total p) {attempt : Attempt κ} (untabled : attempt.tabled = none) :
    Accounts total { p with attempts := p.attempts ++ [attempt] } := by
  let q : Plugin κ := { p with attempts := p.attempts ++ [attempt] }
  have keys : q.tabledKeys = p.tabledKeys := by
    show (p.attempts ++ [attempt]).filterMap Attempt.tabled = p.tabledKeys
    rw [List.filterMap_append, List.filterMap_cons_none untabled, List.filterMap_nil, List.append_nil]
    rfl
  have same : q.inHand = (p.calls.filterMap (·.transfer.chunkCb) : List κ) +
      (q.tabledKeys.flatMap p.pendingFor : List κ) + tally p.nextConn p.waitingOn := rfl
  constructor
  case shaped => exact accounts.shaped.congr rfl rfl rfl fun _ member => member
  case distinct => exact keys ▸ accounts.distinct
  case tabled => exact fun key => keys ▸ accounts.tabled key
  case whole =>
    show q.inHand + (p.told : Multiset κ) = total
    rw [same, keys]
    exact accounts.whole

/-- A transfer of descriptors or of a bitmap starts on a connection. -/
theorem join_accounts (accounts : Accounts total p) (held : p.conns conn = some entry) (env : Env)
    {transfer : Transfer κ} (other : transfer.chunkCb = none) :
    Ends (Accounts total) (fun _ => True)
      ((p.writeConn conn { entry with refcount := entry.refcount + 1, tv := env.now }).call conn transfer) := by
  refine call_accounts_other (accounts.kept (accounts.shaped.write held _) rfl rfl ?_) conn other
  have written := in_hand_write accounts.shaped held { entry with refcount := entry.refcount + 1, tv := env.now }
  rw [add_right_cancel written]
  rfl

theorem get_descriptors_accounts (accounts : Accounts total p) (env : Env) (oid : List UInt8) (hints : List String)
    (cb : κ) : Ends (Accounts total) (fun _ => True) (p.getDescriptors env oid hints cb) := by
  unfold getDescriptors
  split
  · trivial
  split
  · trivial
  split
  · exact accounts.attempt_other rfl
  · exact (read_conn_ends fun _ => trivial).bind fun entry held => join_accounts accounts held env rfl

theorem get_bitmap_accounts (accounts : Accounts total p) (env : Env) (oid : List UInt8) (hints : List String)
    (cb : κ) : Ends (Accounts total) (fun _ => True) (p.getBitmap env oid hints cb) := by
  unfold getBitmap
  split
  · trivial
  split
  · trivial
  split
  · exact accounts.attempt_other rfl
  · refine (read_conn_ends fun _ => trivial).bind fun entry held => ?_
    split
    · trivial
    · exact join_accounts accounts held env rfl

theorem reap_accounts (accounts : Accounts total p) (env : Env) (order : List ConnId) :
    Ends (Accounts total) (fun _ => True) (p.reapConnEntries env order) := by
  refine ends_foldlM (fun q conn _ accounts => ?_) accounts
  refine (read_conn_ends fun _ => trivial).bind fun entry _ => ?_
  split
  · exact delete_conn_accounts accounts env conn
  · exact accounts

/-- **No request for a chunk is lost or doubled.** After every event the callbacks of the
requests in hand and those called are the ones before it, with that of a new request. -/
theorem step_accounts (accounts : Accounts total p) (hash : List UInt8 → List UInt8) (env : Env) (event : Event κ) :
    Ends (Accounts (total + (event.chunkCb.toList : Multiset κ))) (fun _ => True) (p.step hash env event) := by
  have none_more : total + (([] : List κ) : Multiset κ) = total := by rw [Multiset.coe_nil, add_zero]
  cases event with
  | getChunk req => exact get_chunk_accounts accounts env req
  | getDescriptors oid hints cb => exact none_more.symm ▸ get_descriptors_accounts accounts env oid hints cb
  | getBitmap oid hints cb => exact none_more.symm ▸ get_bitmap_accounts accounts env oid hints cb
  | connect index connected =>
    refine none_more.symm ▸ ?_
    simp only [Plugin.step]
    split
    next attempt place => exact connect_accounts accounts connected place
    next => exact accounts
  | chunkReply index res =>
    refine none_more.symm ▸ ?_
    simp only [Plugin.step]
    split
    next called => exact chunk_reply_accounts accounts called res
    next => exact accounts
  | descriptorsReply index res =>
    refine none_more.symm ▸ ?_
    simp only [Plugin.step]
    split
    next called => exact descriptors_reply_accounts accounts called res
    next => exact accounts
  | bitmapReply index res =>
    refine none_more.symm ▸ ?_
    simp only [Plugin.step]
    split
    next called => exact bitmap_reply_accounts accounts called res
    next => exact accounts
  | reap order => exact none_more.symm ▸ reap_accounts accounts env order

theorem Accounts.init (κ : Type) : Accounts 0 (init κ) where
  shaped := .init
  distinct := List.nodup_nil
  tabled := fun key => by simp [Plugin.init, tabledKeys]
  whole := by
    have empty : tally 0 (Plugin.init κ).waitingOn = 0 := rfl
    exact empty

end Plugin
end Ditto.XferGtc
