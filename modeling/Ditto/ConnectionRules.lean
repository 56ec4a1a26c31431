import Ditto.Outcomes
import Ditto.Runs
import Ditto.XferPlugin

/-! What the plugin's operations can do to it. A `get_chunk`, fresh or resumed,
queues for a connection, parks on one or starts on one; deleting a connection is
a removal followed by one such request for each waiter. The invariants of the
connections are derived from these rules, with the faults a claim tolerates as a
parameter. -/
namespace Ditto.XferGtc
open Outcomes Runs Words

/-- The `host:port` that an attempt connects to. -/
def Attempt.key {κ : Type} : Attempt κ → String
  | .establishConnection key => key
  | .getDescriptorsClnt _ _ _ key => key
  | .getBitmapClnt _ _ key => key

variable {κ : Type} {p q : Plugin κ} {env : Env} {req : ChunkReq κ} {conn : ConnId}
  {entry : ConnEntry κ} {key : String} {transfer : Transfer κ}

namespace Plugin

@[simp] theorem conns_write_conn (p : Plugin κ) (conn : ConnId) (entry : ConnEntry κ) :
    (p.writeConn conn entry).conns = Function.update p.conns conn (some entry) := rfl

@[simp] theorem cache_write_conn (p : Plugin κ) (conn : ConnId) (entry : ConnEntry κ) :
    (p.writeConn conn entry).connCache = p.connCache := rfl

@[simp] theorem calls_write_conn (p : Plugin κ) (conn : ConnId) (entry : ConnEntry κ) :
    (p.writeConn conn entry).calls = p.calls := rfl

@[simp] theorem next_write_conn (p : Plugin κ) (conn : ConnId) (entry : ConnEntry κ) :
    (p.writeConn conn entry).nextConn = p.nextConn := rfl

@[simp] theorem resumed_write_conn (p : Plugin κ) (conn : ConnId) (entry : ConnEntry κ) :
    (p.writeConn conn entry).resumed = p.resumed := rfl

/-- Reading a connection after another, or the same, was written. -/
theorem update_held {conns : ConnId → Option (ConnEntry κ)} {other : ConnId} {new : ConnEntry κ}
    (held : Function.update conns conn (some entry) other = some new) :
    other = conn ∧ new = entry ∨ other ≠ conn ∧ conns other = some new := by
  by_cases same : other = conn
  · subst same
    rw [Function.update_self] at held
    exact .inl ⟨rfl, (Option.some_inj.mp held).symm⟩
  · rw [Function.update_of_ne same] at held
    exact .inr ⟨same, held⟩

/-- Reading a connection after one was removed. -/
theorem update_none_held {conns : ConnId → Option (ConnEntry κ)} {other : ConnId}
    {new : ConnEntry κ} (held : Function.update conns conn none other = some new) :
    other ≠ conn ∧ conns other = some new := by
  by_cases same : other = conn
  · subst same
    rw [Function.update_self] at held
    cases held
  · rw [Function.update_of_ne same] at held
    exact ⟨same, held⟩

/-- The connection a request is sent to, if there is one. -/
def target (p : Plugin κ) (env : Env) (req : ChunkReq κ) : Option ConnId :=
  match req.hints with
  | [] => none
  | name :: _ =>
    match env.nextHop name with
    | .error _ => none
    | .ok res => p.lookup res.key

/-- The key that a connection opened for a request gets. -/
def route (env : Env) (req : ChunkReq κ) : Option String :=
  req.hints.head?.bind fun name =>
    (env.nextHop name).toOption.map fun res => connectionKey res.hostname (toInt res.port)

/-- The port of the node a request is sent to is below 2^31. -/
def PortFits (env : Env) (req : ChunkReq κ) : Prop :=
  ∀ name rest res, req.hints = name :: rest → env.nextHop name = .ok res → res.port.toNat < 2 ^ 31

/-- What a `get_chunk` that does not stop the daemon leaves. -/
inductive Asked (env : Env) (req : ChunkReq κ) (p : Plugin κ) : Plugin κ → Prop where
  | queued (pending : String → Option (List (ChunkReq κ))) (attempts : List (Attempt κ))
      (absent : p.target env req = none) :
      Asked env req p { p with pendingConnCache := pending, attempts := attempts }
  | joined (key : String) (conn : ConnId) (entry : ConnEntry κ) (absent : p.target env req = none)
      (routed : route env req = some key) (found : p.lookup key = some conn)
      (held : p.conns conn = some entry) :
      Asked env req p { p with calls := p.calls ++ [⟨conn, .chunk req 0 []⟩] }
  | parked (conn : ConnId) (entry : ConnEntry κ) (found : p.target env req = some conn)
      (held : p.conns conn = some entry) (full : maxRpcsInFlight ≤ entry.refcount) :
      Asked env req p (p.writeConn conn { entry with waitCb := entry.waitCb ++ [some req] })
  | started (conn : ConnId) (entry : ConnEntry κ) (found : p.target env req = some conn)
      (held : p.conns conn = some entry) (room : entry.refcount < maxRpcsInFlight) :
      Asked env req p
        { p.writeConn conn { entry with refcount := entry.refcount + 1, tv := env.now } with
          calls := p.calls ++ [⟨conn, .chunk req 0 []⟩] }

theorem lookup_live (found : p.lookup key = some conn) :
    conn ∈ p.connCache ∧ ∃ entry, p.conns conn = some entry ∧ entry.key = key := by
  refine ⟨List.mem_of_find?_eq_some found, ?_⟩
  have named := List.find?_some found
  cases held : p.conns conn with
  | none => simp [held] at named
  | some entry => exact ⟨entry, rfl, by simpa [held] using named⟩

theorem target_live (found : p.target env req = some conn) :
    conn ∈ p.connCache ∧ ∃ entry, p.conns conn = some entry := by
  unfold target at found
  split at found
  · cases found
  · split at found
    · cases found
    · obtain ⟨cached, entry, held, _⟩ := lookup_live found
      exact ⟨cached, entry, held⟩

/-- With a port that fits, `get_connection` looks where `get_chunk` did. -/
theorem target_routed (fits : PortFits env req) (routed : route env req = some key) :
    p.target env req = p.lookup key := by
  unfold route at routed
  obtain ⟨name, first, routed⟩ := Option.bind_eq_some_iff.mp routed
  obtain ⟨rest, hinted⟩ := List.head?_eq_some_iff.mp first
  obtain ⟨res, hop, rfl⟩ := Option.map_eq_some_iff.mp routed
  have ended := ok_of_to_option hop
  rw [connection_key_eq (fits name rest res hinted ended)]
  simp only [target, hinted, ended]

/-- Reading a connection faults only where the connection is gone. -/
theorem read_conn_ends {fault : Fault → Prop} (gone : p.conns conn = none → fault .useAfterDelete) :
    Ends (fun entry => p.conns conn = some entry) fault (p.readConn conn) := by
  unfold readConn
  cases held : p.conns conn with
  | none => exact gone held
  | some entry => rfl

theorem call_ends {fault : Fault → Prop} (gone : p.conns conn = none → fault .useAfterDelete) :
    Ends (fun after => (∃ entry, p.conns conn = some entry) ∧
      after = { p with calls := p.calls ++ [⟨conn, transfer⟩] }) fault (p.call conn transfer) :=
  (read_conn_ends gone).bind fun entry held => ⟨⟨entry, held⟩, rfl⟩

theorem release_conn_ends {fault : Fault → Prop}
    (gone : p.conns conn = none → fault .useAfterDelete) :
    Ends (fun after => ∃ entry, p.conns conn = some entry ∧
      after = p.writeConn conn { entry with refcount := entry.refcount - 1 }) fault
      (p.releaseConn conn) :=
  (read_conn_ends gone).bind fun entry held => ⟨entry, held, rfl⟩

/-- A request for a chunk never touches a deleted connection. -/
theorem get_chunk_ends {fault : Fault → Prop} (tolerated : ∀ f, f ≠ .useAfterDelete → fault f)
    (p : Plugin κ) : Ends (Asked env req p) fault (p.getChunk env req) := by
  unfold getChunk
  cases hinted : req.hints with
  | nil => exact tolerated _ (by simp)
  | cons name rest =>
    cases hop : env.nextHop name with
    | error msg =>
      simp only [hop]
      exact tolerated _ (by simp)
    | ok res =>
      have aimed : p.target env req = p.lookup res.key := by simp [target, hinted, hop]
      have routed : route env req = some (connectionKey res.hostname (toInt res.port)) := by
        simp [route, hinted, hop, Except.toOption]
      simp only [hop]
      cases found : p.lookup res.key with
      | none =>
        -- `get_connection` looks again, under the key it prints itself
        simp only [getConnection]
        cases again : p.lookup (connectionKey res.hostname (toInt res.port)) with
        | none =>
          cases p.pendingConnCache (connectionKey res.hostname (toInt res.port)) with
          | none => exact .queued _ _ (aimed.trans found)
          | some pendingCbs => exact .queued _ p.attempts (aimed.trans found)
        | some conn =>
          obtain ⟨_, entry, held, _⟩ := lookup_live again
          simp only [getChunkInt, call, readConn, held, bind, Except.bind]
          exact .joined _ conn entry (aimed.trans found) routed again held
      | some conn =>
        obtain ⟨_, entry, held, _⟩ := lookup_live found
        simp only [readConn, held]
        by_cases full : maxRpcsInFlight ≤ entry.refcount
        · simp only [bind, Except.bind, if_pos full]
          exact .parked conn entry (aimed.trans found) held full
        · simp only [bind, Except.bind, if_neg full, getChunkInt, call, readConn, conns_write_conn,
            Function.update_self]
          exact .started conn entry (aimed.trans found) held (Int.not_le.mp full)

/-- The plugin with a waiter marked as resumed. -/
def noteResumed (p : Plugin κ) (conn : ConnId) (index : ℕ) : Plugin κ :=
  { p with resumed := p.resumed ++ [(conn, index)] }

theorem resume_rule {fault : Fault → Prop} {post : Plugin κ → Prop} (p : Plugin κ) (conn : ConnId)
    (waiter : Option (ChunkReq κ) × ℕ) (idle : waiter.1 = none → post p)
    (asks : ∀ req, waiter.1 = some req → Ends post fault ((p.noteResumed conn waiter.2).getChunk env req)) :
    Ends post fault (p.resume env conn waiter) := by
  obtain ⟨_ | req, index⟩ := waiter
  · exact idle rfl
  · exact asks req rfl

theorem resume_ends {fault : Fault → Prop} (tolerated : ∀ f, f ≠ .useAfterDelete → fault f)
    (p : Plugin κ) (conn : ConnId) (waiter : Option (ChunkReq κ) × ℕ) :
    Ends (fun after => (waiter.1 = none ∧ after = p) ∨
      ∃ req, waiter.1 = some req ∧ Asked env req (p.noteResumed conn waiter.2) after) fault
      (p.resume env conn waiter) := by
  refine resume_rule p conn waiter (fun idle => .inl ⟨idle, rfl⟩) fun req waits => ?_
  exact (get_chunk_ends tolerated _).imp fun after asked => .inr ⟨req, waits, asked⟩

/-- Deleting a connection: what holds without it and survives the `get_chunk` of each
waiter holds afterwards. -/
theorem delete_conn_rule {fault : Fault → Prop} {post : Plugin κ → Prop}
    (gone : p.conns conn = none → fault .useAfterDelete)
    (initial : ∀ entry, p.conns conn = some entry → post (p.dropConn conn))
    (each : ∀ entry req index before, p.conns conn = some entry →
      entry.waitCb[index]? = some (some req) → post before →
      Ends post fault ((before.noteResumed conn index).getChunk env req)) :
    Ends post fault (p.deleteConn env conn) := by
  refine (read_conn_ends gone).bind fun entry held => ?_
  refine ends_foldlM (fun before waiter member kept => ?_) (initial entry held)
  have slot := List.mem_zipIdx_iff_getElem?.mp member
  refine resume_rule before conn waiter (fun _ => kept) fun req waits => ?_
  exact each entry req waiter.2 before held (waits ▸ slot) kept

/-- The same with what a request leaves. -/
theorem delete_conn_ends {fault : Fault → Prop} {post : Plugin κ → Prop}
    (tolerated : ∀ f, f ≠ .useAfterDelete → fault f)
    (gone : p.conns conn = none → fault .useAfterDelete)
    (initial : ∀ entry, p.conns conn = some entry → post (p.dropConn conn))
    (each : ∀ entry req index before after, p.conns conn = some entry →
      entry.waitCb[index]? = some (some req) → post before →
      Asked env req (before.noteResumed conn index) after → post after) :
    Ends post fault (p.deleteConn env conn) := by
  refine delete_conn_rule gone initial fun entry req index before held slot kept => ?_
  exact (get_chunk_ends tolerated _).imp fun after asked => each entry req index before after held slot kept asked

theorem first_waiter_some {waiter : Option (ChunkReq κ) × ℕ}
    (first : entry.firstWaiter = some waiter) :
    ∃ req, waiter.1 = some req ∧ entry.waitCb[waiter.2]? = some (some req) := by
  unfold ConnEntry.firstWaiter at first
  have waiting : waiter.1.isSome = true := by simpa using List.find?_some first
  obtain ⟨req, waits⟩ := Option.isSome_iff_exists.mp waiting
  have slot := List.mem_zipIdx_iff_getElem?.mp (List.mem_of_find?_eq_some first)
  exact ⟨req, waits, waits ▸ slot⟩

/-- Waking a waiter: the plugin stays as it is, or the first waiter is taken out
and makes its request. -/
theorem check_outstanding_rule {fault : Fault → Prop} {post : Plugin κ → Prop}
    (gone : p.conns conn = none → fault .useAfterDelete)
    (idle : ∀ entry, p.conns conn = some entry → entry.firstWaiter = none → post p)
    (woken : ∀ entry req index, p.conns conn = some entry → entry.firstWaiter = some (some req, index) →
      Ends post fault (((p.writeConn conn { entry with
        waitCb := entry.waitCb.set index none }).noteResumed conn index).getChunk env req)) :
    Ends post fault (p.checkOutstanding env conn) := by
  refine (read_conn_ends gone).bind fun entry held => ?_
  cases first : entry.firstWaiter with
  | none => exact idle entry held first
  | some waiter =>
    obtain ⟨req, waits, _⟩ := first_waiter_some first
    obtain ⟨w, index⟩ := waiter
    obtain rfl : w = some req := waits
    exact woken entry req index held first

/-- The same with what the request leaves. -/
theorem check_outstanding_ends {fault : Fault → Prop} {post : Plugin κ → Prop}
    (tolerated : ∀ f, f ≠ .useAfterDelete → fault f)
    (gone : p.conns conn = none → fault .useAfterDelete)
    (idle : ∀ entry, p.conns conn = some entry → entry.firstWaiter = none → post p)
    (woken : ∀ entry req index after, p.conns conn = some entry →
      entry.firstWaiter = some (some req, index) →
      Asked env req ((p.writeConn conn { entry with
        waitCb := entry.waitCb.set index none }).noteResumed conn index) after → post after) :
    Ends post fault (p.checkOutstanding env conn) := by
  refine check_outstanding_rule gone idle fun entry req index held first => ?_
  exact (get_chunk_ends tolerated _).imp fun after asked => woken entry req index after held first asked

/-! ## Connects -/

/-- The transfers that go out on the connection a connect opens. -/
def transfers (p : Plugin κ) : Attempt κ → List (Transfer κ)
  | .establishConnection key => ((p.pendingConnCache key).getD []).map (.chunk · 0 [])
  | .getDescriptorsClnt oid hints cb _ => [.descriptors oid hints cb 0]
  | .getBitmapClnt oid cb _ => [.bitmap oid cb 0 []]

/-- The plugin with a connection just opened and `sent` in flight on it. -/
def opened (p : Plugin κ) (env : Env) (key : String) (sent : List (Transfer κ)) : Plugin κ :=
  { p.newConn env key with calls := p.calls ++ sent.map (⟨p.nextConn, ·⟩) }

/-- Two plugins with the same connections and calls. -/
structure Alike (p q : Plugin κ) : Prop where
  conns : q.conns = p.conns
  cache : q.connCache = p.connCache
  calls : q.calls = p.calls
  next : q.nextConn = p.nextConn
  resumed : q.resumed = p.resumed

theorem launch_eq (env : Env) (key : String) (pendingCbs : List (ChunkReq κ))
    (sent : List (Transfer κ)) :
    pendingCbs.foldlM (fun q req => q.getChunkInt req 0 [] none (some p.nextConn))
        (p.opened env key sent) =
      (.ok (p.opened env key (sent ++ pendingCbs.map (.chunk · 0 []))) : Except Fault _) := by
  induction pendingCbs generalizing sent with
  | nil => simp [pure, Except.pure]
  | cons req rest ih =>
    have live : (p.opened env key sent).conns p.nextConn =
        some { key := key, refcount := 1, tv := env.now, waitCb := [] } :=
      Function.update_self ..
    have more := ih (sent ++ [.chunk req 0 []])
    rw [List.append_assoc] at more
    rw [List.foldlM_cons, List.map_cons, ← List.singleton_append, ← more]
    simp only [getChunkInt, call, readConn, live, bind, Except.bind]
    simp [opened]

/-- A connect that comes back opens a connection with its transfers in flight, or
changes nothing but what waits for it. -/
theorem connect_ends {fault : Fault → Prop} {post : Plugin κ → Prop}
    (tolerated : ∀ f, f ≠ .useAfterDelete → fault f) (connected : Bool) (attempt : Attempt κ)
    (alike : ∀ q, Alike p q → post q)
    (opens : connected = true → ∀ q, Alike (p.opened env attempt.key (p.transfers attempt)) q → post q) :
    Ends post fault (p.connect env connected attempt) := by
  have alone (key : String) : p.opened env key [] = p.newConn env key := by simp [opened, newConn]
  cases attempt with
  | establishConnection key =>
    simp only [connect, establishConnection]
    cases pending : p.pendingConnCache key with
    | none => exact tolerated _ (by simp)
    | some pendingCbs =>
      cases connected with
      | true =>
        have launched := launch_eq (p := p) env key pendingCbs []
        rw [alone] at launched
        simp only [if_true, launched, bind, Except.bind]
        refine opens rfl _ ⟨rfl, rfl, ?_, rfl, rfl⟩
        simp [opened, transfers, pending, Attempt.key]
      | false =>
        cases pendingCbs with
        | nil => exact alike _ ⟨rfl, rfl, rfl, rfl, rfl⟩
        | cons req rest => exact tolerated _ (by simp)
  | getDescriptorsClnt oid hints cb key =>
    cases connected with
    | true =>
      simp only [connect, getDescriptorsClnt, if_true, getDescriptorsInt, call, readConn, newConn,
        conns_write_conn, Function.update_self, bind, Except.bind]
      exact opens rfl _ ⟨rfl, rfl, rfl, rfl, rfl⟩
    | false => exact alike _ ⟨rfl, rfl, rfl, rfl, rfl⟩
  | getBitmapClnt oid cb key =>
    cases connected with
    | true =>
      simp only [connect, getBitmapClnt, if_true, Plugin.getBitmapInt, call, readConn, newConn,
        conns_write_conn, Function.update_self, bind, Except.bind]
      exact opens rfl _ ⟨rfl, rfl, rfl, rfl, rfl⟩
    | false => exact alike _ ⟨rfl, rfl, rfl, rfl, rfl⟩

end Plugin
end Ditto.XferGtc
