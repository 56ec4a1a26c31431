import Ditto.ConnectionSteps

/-! The connection cache over every run, whatever the events. The cache lists the
live connections, each once, and a connection that was deleted does not come
back. No assumption on the events is needed; what the calls in flight point at
is another matter. -/
namespace Ditto.XferGtc
open Outcomes Runs
open PeerHints (HintRes)

variable {κ : Type} {p q : Plugin κ} {env : Env} {req : ChunkReq κ} {conn : ConnId}
  {entry : ConnEntry κ} {transfer : Transfer κ} {event : Event κ}

namespace Plugin

/-- The cache and the live connections agree, and numbers from `nextConn` on are
unused. -/
structure Shaped (p : Plugin κ) : Prop where
  cached : ∀ conn, conn ∈ p.connCache ↔ (p.conns conn).isSome
  nodup : p.connCache.Nodup
  fresh : ∀ conn, p.nextConn ≤ conn → p.conns conn = none
  called : ∀ c ∈ p.calls, c.conn < p.nextConn

theorem Shaped.init : Shaped (init κ) where
  cached := by simp [Plugin.init]
  nodup := List.nodup_nil
  fresh := fun _ _ => rfl
  called := by simp [Plugin.init]

theorem Shaped.live_lt (shaped : Shaped p) (held : p.conns conn = some entry) :
    conn < p.nextConn := by
  refine Nat.lt_of_not_le fun beyond => ?_
  rw [shaped.fresh conn beyond] at held
  cases held

theorem Shaped.congr (shaped : Shaped p) (conns : q.conns = p.conns) (cache : q.connCache = p.connCache)
    (next : q.nextConn = p.nextConn) (calls : ∀ c ∈ q.calls, c ∈ p.calls) : Shaped q where
  cached := by rw [conns, cache]; exact shaped.cached
  nodup := cache ▸ shaped.nodup
  fresh := by rw [conns, next]; exact shaped.fresh
  called := fun c member => next ▸ shaped.called c (calls c member)

theorem Shaped.without_call (shaped : Shaped p) (index : ℕ) :
    Shaped (p.withoutCall index) :=
  shaped.congr rfl rfl rfl fun _ member => (List.eraseIdx_sublist _ _).subset member

theorem Shaped.write (shaped : Shaped p) (held : p.conns conn = some entry) (new : ConnEntry κ) :
    Shaped (p.writeConn conn new) where
  cached := fun other => by
    rw [cache_write_conn, conns_write_conn, shaped.cached]
    by_cases same : other = conn
    · subst same
      simp [held]
    · rw [Function.update_of_ne same]
  nodup := shaped.nodup
  fresh := fun other beyond => by
    have other_conn : other ≠ conn := Nat.ne_of_gt ((shaped.live_lt held).trans_le beyond)
    rw [conns_write_conn, Function.update_of_ne other_conn]
    exact shaped.fresh other beyond
  called := shaped.called

theorem Shaped.call (shaped : Shaped p) (held : p.conns conn = some entry) :
    Shaped { p with calls := p.calls ++ [⟨conn, transfer⟩] } where
  cached := shaped.cached
  nodup := shaped.nodup
  fresh := shaped.fresh
  called := fun c member => by
    rcases List.mem_append.mp member with old | new
    · exact shaped.called c old
    · obtain rfl := List.mem_singleton.mp new
      exact shaped.live_lt held

theorem Shaped.opened (shaped : Shaped p) (env : Env) (key : String) (sent : List (Transfer κ)) :
    Shaped (p.opened env key sent) where
  cached := fun other => by
    show other ∈ p.nextConn :: p.connCache ↔ (Function.update p.conns p.nextConn _ other).isSome
    by_cases same : other = p.nextConn
    · subst same
      simp
    · simp [same, shaped.cached]
  nodup := by
    refine List.nodup_cons.mpr ⟨fun member => ?_, shaped.nodup⟩
    have live := (shaped.cached _).mp member
    rw [shaped.fresh _ (Nat.le_refl _)] at live
    cases live
  fresh := fun other beyond => by
    have beyond : p.nextConn + 1 ≤ other := beyond
    show Function.update p.conns p.nextConn _ other = none
    rw [Function.update_of_ne (Nat.ne_of_gt beyond)]
    exact shaped.fresh other (Nat.le_of_succ_le beyond)
  called := fun c member => by
    rcases List.mem_append.mp member with old | new
    · exact Nat.lt_succ_of_lt (shaped.called c old)
    · obtain ⟨_, _, rfl⟩ := List.mem_map.mp new
      exact Nat.lt_succ_self _

theorem Shaped.drop (shaped : Shaped p) (conn : ConnId) : Shaped (p.dropConn conn) where
  cached := fun other => by
    show other ∈ p.connCache.erase conn ↔ (Function.update p.conns conn none other).isSome
    rw [shaped.nodup.mem_erase_iff, shaped.cached]
    by_cases same : other = conn
    · subst same
      simp
    · simp [same]
  nodup := shaped.nodup.erase _
  fresh := fun other beyond => by
    show Function.update p.conns conn none other = none
    by_cases same : other = conn
    · subst same
      simp
    · rw [Function.update_of_ne same]
      exact shaped.fresh other beyond
  called := shaped.called

theorem Shaped.asked (shaped : Shaped p) (asked : Asked env req p q) : Shaped q := by
  cases asked with
  | queued pending attempts absent => exact shaped.congr rfl rfl rfl fun _ member => member
  | joined key conn entry absent routed found held => exact shaped.call held
  | parked conn entry found held full => exact shaped.write held _
  | started conn entry found held room =>
    exact (shaped.write held _).call (Function.update_self conn _ p.conns)

theorem Shaped.note_resumed (shaped : Shaped p) (conn : ConnId) (index : ℕ) :
    Shaped (p.noteResumed conn index) :=
  shaped.congr rfl rfl rfl fun _ member => member

theorem Shaped.answer (shaped : Shaped p) (a : Answer κ) : Shaped (p.answer a) :=
  shaped.congr rfl rfl rfl fun _ member => member

theorem Shaped.delete (shaped : Shaped p) (env : Env) (conn : ConnId) :
    Ends Shaped (fun _ => True) (p.deleteConn env conn) :=
  delete_conn_ends (fun _ _ => trivial) (fun _ => trivial) (fun _ _ => shaped.drop conn)
    fun _ _ index _ _ _ _ before asked => (before.note_resumed conn index).asked asked

theorem Shaped.call_ends (shaped : Shaped p) (conn : ConnId) (transfer : Transfer κ) :
    Ends Shaped (fun _ => True) (p.call conn transfer) :=
  (Plugin.call_ends fun _ => trivial).imp fun _ ⟨⟨_, held⟩, same⟩ => same ▸ shaped.call held

theorem Shaped.alike (shaped : Shaped p) (alike : Alike p q) : Shaped q :=
  shaped.congr alike.conns alike.cache alike.next fun _ member => alike.calls ▸ member

theorem Shaped.release_ends (shaped : Shaped p) (conn : ConnId) :
    Ends Shaped (fun _ => True) (p.releaseConn conn) :=
  (release_conn_ends fun _ => trivial).imp fun _ ⟨_, held, same⟩ => same ▸ shaped.write held _

theorem Shaped.check_outstanding (shaped : Shaped p) (env : Env) (conn : ConnId) :
    Ends Shaped (fun _ => True) (p.checkOutstanding env conn) :=
  check_outstanding_ends (fun _ _ => trivial) (fun _ => trivial) (fun _ _ _ => shaped)
    fun _ _ index _ held _ asked => ((shaped.write held _).note_resumed conn index).asked asked

theorem Shaped.course {c : Call κ} {how : Completion} {result : Except Fault (Plugin κ)}
    (shaped : Shaped p) (course : Course env p c how result) :
    Ends Shaped (fun _ => True) result := by
  cases course with
  | failed a => exact (shaped.delete env c.conn).bind fun _ shaped => shaped.answer a
  | refused a => exact shaped.answer a
  | continued transfer same => exact shaped.call_ends c.conn transfer
  | reported transfer same a =>
    exact (shaped.call_ends c.conn transfer).bind fun _ shaped => shaped.answer a
  | chunk isChunk a =>
    exact (shaped.release_ends c.conn).bind fun _ shaped =>
      (shaped.answer a).check_outstanding env c.conn
  | other isOther a => exact (shaped.release_ends c.conn).bind fun _ shaped => shaped.answer a
  | overread how => exact trivial

theorem Shaped.step (shaped : Shaped p) (hash : List UInt8 → List UInt8) (env : Env)
    (event : Event κ) : Ends Shaped (fun _ => True) (p.step hash env event) := by
  refine step_ends (fun _ _ => trivial) (fun q => shaped.alike) ?_ ?_ ?_ ?_ ?_
  · exact fun req q _ asked => shaped.asked asked
  · exact fun conn entry transfer held _ =>
      (shaped.write held _).call (Function.update_self conn _ p.conns)
  · exact fun index attempt key q _ _ alike => (shaped.opened env key _).alike alike
  · exact fun index c how result _ course => (shaped.without_call index).course course
  · intro order _
    refine ends_foldlM (fun q conn _ shaped => ?_) shaped
    refine (read_conn_ends fun _ => trivial).bind fun entry _ => ?_
    split
    · exact shaped.delete env conn
    · exact shaped

/-! ## Reaper ticks -/

/-- The reaper deletes this connection. -/
def Stale (env : Env) (entry : ConnEntry κ) : Prop :=
  entry.refcount = 0 ∧ connEntryIdleSec < env.now - entry.tv

/-- What a tick in progress leaves of the connections: each is as it was, or was
used in the tick, or is full. Only the first can be stale. -/
def Since (env : Env) (p q : Plugin κ) : Prop :=
  ∀ conn entry, q.conns conn = some entry →
    p.conns conn = some entry ∨ entry.tv = env.now ∨ maxRpcsInFlight ≤ entry.refcount

theorem Since.refl (env : Env) (p : Plugin κ) : Since env p p := fun _ _ held => .inl held

/-- A connection used just now, or full, is not stale. -/
theorem not_stale {entry : ConnEntry κ} (used : entry.tv = env.now ∨ maxRpcsInFlight ≤ entry.refcount) :
    ¬ Stale env entry := by
  rintro ⟨unused, idle⟩
  unfold connEntryIdleSec at idle
  unfold maxRpcsInFlight at used
  omega

theorem Since.stale (since : Since env p q) (held : q.conns conn = some entry)
    (stale : Stale env entry) : p.conns conn = some entry :=
  (since conn entry held).resolve_right fun used => not_stale used stale

theorem Since.drop (since : Since env p q) (conn : ConnId) : Since env p (q.dropConn conn) :=
  fun other entry held => since other entry (update_none_held held).2

theorem Since.asked {r : Plugin κ} (since : Since env p q) (asked : Asked env req q r) :
    Since env p r := by
  cases asked with
  | queued pending attempts absent => exact since
  | joined key conn entry absent routed found held => exact since
  | parked conn entry found held full =>
    intro other new held'
    obtain ⟨rfl, rfl⟩ | ⟨_, before⟩ := update_held held'
    · exact .inr (.inr full)
    · exact since other new before
  | started conn entry found held room =>
    intro other new held'
    obtain ⟨rfl, rfl⟩ | ⟨_, before⟩ := update_held held'
    · exact .inr (.inl rfl)
    · exact since other new before

/-- A request leaves live connections live. -/
theorem Asked.live (asked : Asked env req p q) (live : (p.conns conn).isSome) :
    (q.conns conn).isSome := by
  cases asked with
  | queued pending attempts absent => exact live
  | joined key other entry absent routed found held => exact live
  | parked other entry found held full | started other entry found held room =>
    simp only [conns_write_conn]
    by_cases same : conn = other
    · subst same
      simp
    · rw [Function.update_of_ne same]
      exact live

/-- The rule for a reaper tick: what holds before it, survives the removal of a
stale connection and the `get_chunk` of each of its waiters, holds after. -/
theorem reap_rule {fault : Fault → Prop} {post : Plugin κ → Prop} {order : List ConnId} (shaped : Shaped p)
    (whole : order.Perm p.connCache) (initial : post p)
    (removed : ∀ conn entry q, Since env p q → q.conns conn = some entry → Stale env entry →
      post q → post (q.dropConn conn))
    (woken : ∀ conn entry req index before, p.conns conn = some entry → Stale env entry →
      entry.waitCb[index]? = some (some req) → Since env p before → post before →
      Ends post fault ((before.noteResumed conn index).getChunk env req)) :
    Ends post fault (p.reapConnEntries env order) := by
  have visited (order : List ConnId) : ∀ q, order.Nodup → (∀ conn ∈ order, (q.conns conn).isSome) →
      Since env p q → post q → Ends post fault (order.foldlM (intReapConnEntries env) q) := by
    induction order with
    | nil => exact fun q _ _ _ kept => kept
    | cons conn rest ih =>
      intro q nodup live since kept
      obtain ⟨apart, nodup⟩ := List.nodup_cons.mp nodup
      have here := live conn (List.mem_cons_self ..)
      have live := fun conn member => live conn (List.mem_cons_of_mem _ member)
      have visit : Ends (fun q => ((∀ conn ∈ rest, (q.conns conn).isSome) ∧ Since env p q) ∧ post q)
          fault (intReapConnEntries env q conn) := by
        refine (read_conn_ends fun gone => by simp [gone] at here).bind fun entry held => ?_
        split
        · rename_i stale
          have origin := since.stale held stale
          refine delete_conn_rule (fun gone => by simp [gone] at here) ?_ ?_
          · intro _ _
            refine ⟨⟨fun other member => ?_, since.drop conn⟩, removed conn entry q since held stale kept⟩
            have different : other ≠ conn := fun same => apart (same ▸ member)
            simpa [dropConn, different] using live other member
          · rintro entry' req index before held' waits ⟨⟨live, since⟩, kept⟩
            obtain rfl := Option.some_inj.mp (held.symm.trans held')
            have since' : Since env p (before.noteResumed conn index) := since
            have asks : Ends (Asked env req (before.noteResumed conn index)) (fun _ => True)
                ((before.noteResumed conn index).getChunk env req) := get_chunk_ends (fun _ _ => trivial) _
            refine (asks.imp fun after asked => ?_).also
              (woken conn entry req index before origin stale waits since kept)
            exact ⟨fun other member => asked.live (live other member), since'.asked asked⟩
        · exact ⟨⟨live, since⟩, kept⟩
      rw [List.foldlM_cons]
      exact visit.bind fun q kept => ih q nodup kept.1.1 kept.1.2 kept.2
  refine visited order p (whole.nodup_iff.mpr shaped.nodup) (fun conn member => ?_) (.refl env p)
    initial
  exact (shaped.cached conn).mp (whole.mem_iff.mp member)

/-- The same with what a request leaves. -/
theorem reap_ends {fault : Fault → Prop} {post : Plugin κ → Prop} {order : List ConnId}
    (tolerated : ∀ f, f ≠ .useAfterDelete → fault f) (shaped : Shaped p)
    (whole : order.Perm p.connCache) (initial : post p)
    (removed : ∀ conn entry q, Since env p q → q.conns conn = some entry → Stale env entry →
      post q → post (q.dropConn conn))
    (woken : ∀ conn entry req index before after, p.conns conn = some entry → Stale env entry →
      entry.waitCb[index]? = some (some req) → Since env p before → post before →
      Asked env req (before.noteResumed conn index) after → post after) :
    Ends post fault (p.reapConnEntries env order) := by
  refine reap_rule shaped whole initial removed ?_
  intro conn entry req index before held stale waits since kept
  exact (get_chunk_ends tolerated _).imp fun after asked =>
    woken conn entry req index before after held stale waits since kept asked

/-- The requests for chunks that an event makes or resumes. -/
inductive Asks (hash : List UInt8 → List UInt8) (p : Plugin κ) (env : Env) (event : Event κ) :
    ChunkReq κ → Prop where
  | fresh (req : ChunkReq κ) (asked : event = .getChunk req) : Asks hash p env event req
  | failed (index slot : ℕ) (c : Call κ) (entry : ConnEntry κ) (req : ChunkReq κ)
      (completes : Completes hash p event index c .failed) (held : p.conns c.conn = some entry)
      (waits : entry.waitCb[slot]? = some (some req)) : Asks hash p env event req
  | woken (index slot : ℕ) (c : Call κ) (entry : ConnEntry κ) (req : ChunkReq κ)
      (completes : Completes hash p event index c .finished) (held : p.conns c.conn = some entry)
      (first : entry.firstWaiter = some (some req, slot)) : Asks hash p env event req
  | reaped (order : List ConnId) (conn slot : ℕ) (entry : ConnEntry κ) (req : ChunkReq κ)
      (ticked : event = .reap order) (held : p.conns conn = some entry) (stale : Stale env entry)
      (waits : entry.waitCb[slot]? = some (some req)) : Asks hash p env event req

/-! ## Runs -/

/-- A step that does not stop the daemon. -/
def next (hash : List UInt8 → List UInt8) (p : Plugin κ) (e : Env × Event κ) : Option (Plugin κ) :=
  (p.step hash e.1 e.2).toOption

/-- A reaper tick goes through the cache. -/
def Possible (p : Plugin κ) (e : Env × Event κ) : Prop :=
  ∀ order, e.2 = .reap order → order.Perm p.connCache

theorem next_eq_some {hash : List UInt8 → List UInt8} {e : Env × Event κ}
    (ran : p.next hash e = some q) : p.step hash e.1 e.2 = .ok q :=
  ok_of_to_option ran

theorem run_shaped {hash : List UInt8 → List UInt8} {guard : Plugin κ → Env × Event κ → Prop}
    (run : Reaches (next hash) guard (init κ) p) : Shaped p :=
  invariant Shaped.init
    (fun _ e _ shaped _ ran => (shaped.step hash e.1 e.2).of_ok (next_eq_some ran)) run

/-! A small world for concrete runs: every hint is the host that it names, all listen
on one port, time stands still, and all requests are for one chunk. -/

def smallEnv : Env where
  now := 0
  parseHint := fun host => some (connectionKey host 1)
  nextHop := fun host => .ok { hostname := host, port := 1 }

@[simp] theorem small_key : HintRes.key { hostname := "a", port := 1 } = "a:1" := rfl

def smallReq (host : String) : ChunkReq Unit where
  d := { id := [7], length := 1 }
  hints := [host]
  cb := ()

/-- The plugin with one connection, to the node `a`, after a first request for a
chunk. -/
def oneConn (refcount : ℤ) (waitCb : List (Option (ChunkReq Unit))) (calls : List (Call Unit)) :
    Plugin Unit where
  conns := Function.update (fun _ => none) 0
    (some { key := "a:1", refcount := refcount, tv := 0, waitCb := waitCb })
  connCache := [0]
  pendingConnCache := Function.update (Function.update (fun _ => none) "a:1" (some [smallReq "a"]))
    "a:1" none
  attempts := []
  calls := calls
  nextConn := 1
  resumed := []
  answers := []

def smallChunk : Call Unit := ⟨0, .chunk (smallReq "a") 0 []⟩

theorem one_conn_opens :
    next id { init Unit with
        pendingConnCache := Function.update (fun _ => none) "a:1" (some [smallReq "a"])
        attempts := [.establishConnection "a:1"] } (smallEnv, .connect 0 true) =
      some (oneConn 1 [] [smallChunk]) :=
  rfl

theorem one_conn_start {refcount : ℤ} (calls : List (Call Unit)) (room : refcount < maxRpcsInFlight) :
    next id (oneConn refcount [] calls) (smallEnv, .getChunk (smallReq "a")) =
      some (oneConn (refcount + 1) [] (calls ++ [smallChunk])) := by
  have open_slot : ¬ maxRpcsInFlight ≤ refcount := Int.not_le.mpr room
  simp [next, step, getChunk, smallReq, smallEnv, lookup, oneConn, readConn, bind, Except.bind,
    open_slot, getChunkInt, call, writeConn, Except.toOption, smallChunk]

theorem small_ports (req : ChunkReq Unit) : PortFits smallEnv req := by
  rintro name rest res - hop
  cases hop
  exact (by decide : (1 : UInt32).toNat < 2 ^ 31)

theorem small_possible {p : Plugin Unit} {event : Event Unit} (untimed : ∀ order, event ≠ .reap order) :
    Possible p (smallEnv, event) :=
  fun order ticked => absurd ticked (untimed order)

end Plugin
end Ditto.XferGtc
