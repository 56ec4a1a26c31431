import Ditto.ConnectionShape

/-! Deleted connections. Every call in flight holds a pointer to its connection,
and the callbacks delete the connection on the first transport error they see:
no pointer dangles as long as the deleted connection has no other call in
flight. -/
namespace Ditto.XferGtc
open Outcomes Runs

variable {κ : Type} {p q : Plugin κ} {env : Env} {req : ChunkReq κ} {conn : ConnId}
  {hash : List UInt8 → List UInt8} {e : Env × Event κ}

namespace Plugin

/-- A fault other than the use of a deleted connection. -/
def Harmless (f : Fault) : Prop := f ≠ .useAfterDelete

theorem harmless_of_ne (f : Fault) (other : f ≠ .useAfterDelete) : Harmless f := other

/-- The calls in flight point at live connections. -/
def CallsLive (p : Plugin κ) : Prop := ∀ c ∈ p.calls, (p.conns c.conn).isSome

/-- The step deletes no connection that another call in flight points at, also not one on
which `get_connection` starts a transfer in the same tick. -/
structure Unshared (hash : List UInt8 → List UInt8) (p : Plugin κ) (e : Env × Event κ) : Prop where
  failing : ∀ index c, Completes hash p e.2 index c .failed →
    ∀ other ∈ p.calls.eraseIdx index, other.conn ≠ c.conn
  reaping : ∀ order conn entry, e.2 = .reap order → p.conns conn = some entry →
    Stale e.1 entry → ∀ c ∈ p.calls, c.conn ≠ conn
  joining : ∀ order conn entry req other entry', e.2 = .reap order → p.conns conn = some entry →
    Stale e.1 entry → some req ∈ entry.waitCb → p.conns other = some entry' →
    route e.1 req = some entry'.key → ¬ PortFits e.1 req → ¬ Stale e.1 entry'

theorem CallsLive.asked (live : CallsLive p) (asked : Asked env req p q) : CallsLive q := by
  intro c member
  refine asked.live ?_
  cases asked with
  | queued pending attempts absent => exact live c member
  | joined key conn entry absent routed found held =>
    rcases List.mem_append.mp member with old | new
    · exact live c old
    · obtain rfl := List.mem_singleton.mp new
      simp [held]
  | parked conn entry found held full => exact live c member
  | started conn entry found held room =>
    rcases List.mem_append.mp member with old | new
    · exact live c old
    · obtain rfl := List.mem_singleton.mp new
      simp [held]

theorem CallsLive.write (live : CallsLive p) (conn : ConnId) (entry : ConnEntry κ) :
    CallsLive (p.writeConn conn entry) := by
  intro c member
  simp only [conns_write_conn]
  by_cases same : c.conn = conn
  · simp [same]
  · rw [Function.update_of_ne same]
    exact live c member

theorem CallsLive.call {transfer : Transfer κ} (live : CallsLive p) (here : (p.conns conn).isSome) :
    CallsLive { p with calls := p.calls ++ [⟨conn, transfer⟩] } := by
  intro c member
  rcases List.mem_append.mp member with old | new
  · exact live c old
  · obtain rfl := List.mem_singleton.mp new
    exact here

theorem CallsLive.drop (live : CallsLive p) (unused : ∀ c ∈ p.calls, c.conn ≠ conn) :
    CallsLive (p.dropConn conn) := by
  intro c member
  simpa [dropConn, unused c member] using live c member

/-- Completing one call: its own connection is live, and so are those of the
others, unless the connection is deleted under another call. -/
theorem CallsLive.course {c : Call κ} {how : Completion} {result : Except Fault (Plugin κ)}
    (live : CallsLive p) (here : (p.conns c.conn).isSome)
    (alone : how = .failed → ∀ other ∈ p.calls, other.conn ≠ c.conn)
    (course : Course env p c how result) : Ends CallsLive Harmless result := by
  have present (q : Plugin κ) (here : (q.conns c.conn).isSome) (gone : q.conns c.conn = none) :
      Harmless .useAfterDelete := by simp [gone] at here
  have issued (transfer : Transfer κ) : Ends CallsLive Harmless (p.call c.conn transfer) :=
    (call_ends (present p here)).imp fun q ⟨_, sent⟩ => sent ▸ live.call here
  have released : Ends (fun q => CallsLive q ∧ (q.conns c.conn).isSome) Harmless
      (p.releaseConn c.conn) :=
    (release_conn_ends (present p here)).imp fun q ⟨_, _, written⟩ =>
      written ▸ ⟨live.write c.conn _, by simp⟩
  cases course with
  | failed a =>
    have deleted : Ends CallsLive Harmless (p.deleteConn env c.conn) := by
      refine delete_conn_ends harmless_of_ne (present p here) (fun _ _ => live.drop (alone rfl)) ?_
      intro _ req index before after _ _ live asked
      exact (show CallsLive (before.noteResumed c.conn index) from live).asked asked
    exact deleted.bind fun q live => live
  | refused a => exact live
  | continued transfer same => exact issued transfer
  | reported transfer same a => exact (issued transfer).bind fun q live => live
  | chunk isChunk a =>
    refine released.bind fun q ⟨live, here⟩ => ?_
    refine check_outstanding_ends harmless_of_ne (present (q.answer a) here) (fun _ _ _ => live) ?_
    intro entry req index after _ _ asked
    have woken : CallsLive (((q.answer a).writeConn c.conn { entry with
        waitCb := entry.waitCb.set index none }).noteResumed c.conn index) :=
      CallsLive.write (p := q.answer a) live c.conn _
    exact woken.asked asked
  | other isOther a => exact released.bind fun q ⟨live, _⟩ => live
  | overread how => exact harmless_of_ne _ (by simp)

/-- A stale connection has no call in flight. -/
def StaleUnused (env : Env) (p : Plugin κ) : Prop :=
  ∀ conn entry, p.conns conn = some entry → Stale env entry → ∀ c ∈ p.calls, c.conn ≠ conn

/-- A request that `get_connection` sends to no stale connection leaves those without calls. -/
theorem StaleUnused.asked (unused : StaleUnused env p) (asked : Asked env req p q)
    (joining : ∀ conn entry, p.conns conn = some entry → route env req = some entry.key → ¬ PortFits env req →
      ¬ Stale env entry) : StaleUnused env q := by
  intro other new held' stale c member
  cases asked with
  | queued pending attempts absent => exact unused other new held' stale c member
  | joined key conn entry absent routed found held =>
    rcases List.mem_append.mp member with old | added
    · exact unused other new held' stale c old
    obtain rfl := List.mem_singleton.mp added
    rintro rfl
    obtain rfl := Option.some_inj.mp (held.symm.trans held')
    obtain ⟨_, _, named, rfl⟩ := lookup_live found
    obtain rfl := Option.some_inj.mp (named.symm.trans held)
    refine joining conn _ held routed (fun fits => ?_) stale
    rw [target_routed fits routed, found] at absent
    cases absent
  | parked conn entry found held full =>
    obtain ⟨rfl, rfl⟩ | ⟨_, before⟩ := update_held held'
    · exact absurd stale (not_stale (.inr full))
    · exact unused other new before stale c member
  | started conn entry found held room =>
    obtain ⟨rfl, rfl⟩ | ⟨different, before⟩ := update_held held'
    · exact absurd stale (not_stale (.inl rfl))
    rcases List.mem_append.mp member with old | added
    · exact unused other new before stale c old
    · obtain rfl := List.mem_singleton.mp added
      exact Ne.symm different

theorem StaleUnused.drop (unused : StaleUnused env p) (conn : ConnId) : StaleUnused env (p.dropConn conn) :=
  fun other entry held => unused other entry (update_none_held held).2

/-- One event that deletes no shared connection touches no deleted one. -/
theorem CallsLive.step (live : CallsLive p) (shaped : Shaped p) (possible : Possible p e)
    (unshared : Unshared hash p e) :
    Ends CallsLive Harmless (p.step hash e.1 e.2) := by
  refine step_ends harmless_of_ne ?_ ?_ ?_ ?_ ?_ ?_
  · intro q alike c member
    rw [alike.conns]
    exact live c (alike.calls ▸ member)
  · exact fun req q _ asked => live.asked asked
  · exact fun conn entry transfer _ _ =>
      (live.write conn _).call (by simp)
  · intro index attempt key q _ _ alike c member
    rw [alike.calls] at member
    rw [alike.conns]
    show (Function.update p.conns p.nextConn _ c.conn).isSome
    by_cases fresh : c.conn = p.nextConn
    · simp [fresh]
    · rw [Function.update_of_ne fresh]
      rcases List.mem_append.mp member with old | new
      · exact live c old
      · obtain ⟨_, _, rfl⟩ := List.mem_map.mp new
        exact absurd rfl fresh
  · intro index c how result completes course
    have rest : CallsLive (p.withoutCall index) := fun other member =>
      live other ((List.eraseIdx_sublist _ _).subset member)
    refine rest.course (live c (List.mem_of_getElem? completes.called)) ?_ course
    rintro rfl other member
    exact unshared.failing index c completes other member
  · intro order ticked
    have reaped : Ends (fun q => CallsLive q ∧ StaleUnused e.1 q) Harmless (p.reapConnEntries e.1 order) := by
      apply reap_ends harmless_of_ne shaped (possible order ticked)
      case initial => exact ⟨live, fun conn entry held => unshared.reaping order conn entry ticked held⟩
      case removed =>
        rintro conn entry q - held stale ⟨live, unused⟩
        exact ⟨live.drop (unused conn entry held stale), unused.drop conn⟩
      case woken =>
        rintro conn entry req index before after held stale waits since ⟨live, unused⟩ asked
        have noted : StaleUnused e.1 (before.noteResumed conn index) := unused
        refine ⟨(show CallsLive (before.noteResumed conn index) from live).asked asked, noted.asked asked ?_⟩
        intro other entry' held' routed large stale'
        exact unshared.joining order conn entry req other entry' ticked held stale (List.mem_of_getElem? waits)
          (since.stale held' stale') routed large stale'
    exact reaped.imp fun q kept => kept.1

/-- What a run that deletes no shared connection keeps. -/
structure Attached (p : Plugin κ) : Prop where
  shaped : Shaped p
  live : CallsLive p

theorem run_attached (run : Reaches (next hash) (fun p e => Possible p e ∧ Unshared hash p e)
    (init κ) p) : Attached p := by
  have initial : Attached (init κ) := ⟨Shaped.init, fun c member => by cases member⟩
  refine invariant initial (fun before e after attached admitted ran => ?_) run
  exact ⟨(attached.shaped.step hash e.1 e.2).of_ok (next_eq_some ran),
    (attached.live.step attached.shaped admitted.1 admitted.2).of_ok (next_eq_some ran)⟩

/-- **No use after delete.** In a run whose steps delete no connection under
another call, no step touches a deleted connection. -/
theorem no_use_after_delete
    (run : Reaches (next hash) (fun p e => Possible p e ∧ Unshared hash p e) (init κ) p)
    (possible : Possible p e) (unshared : Unshared hash p e) :
    p.step hash e.1 e.2 ≠ .error .useAfterDelete := by
  have attached := run_attached run
  intro failed
  exact (attached.live.step attached.shaped possible unshared).of_error failed rfl

/-- A request does not bring a deleted connection back, and drops no call. -/
theorem Asked.gone {c : Call κ} (asked : Asked env req p q) (member : c ∈ p.calls)
    (gone : p.conns conn = none) : c ∈ q.calls ∧ q.conns conn = none := by
  have other (held : ConnId) {entry : ConnEntry κ} (live : p.conns held = some entry) :
      conn ≠ held := by
    rintro rfl
    rw [gone] at live
    cases live
  cases asked with
  | queued pending attempts absent => exact ⟨member, gone⟩
  | joined key held entry absent routed found live => exact ⟨List.mem_append_left _ member, gone⟩
  | parked held entry found live full =>
    exact ⟨member, by rw [conns_write_conn, Function.update_of_ne (other held live), gone]⟩
  | started held entry found live room =>
    refine ⟨List.mem_append_left _ member, ?_⟩
    show Function.update p.conns held _ conn = none
    rw [Function.update_of_ne (other held live), gone]

/-- A call in flight and a connection that is gone. -/
def Dangling (c : Call κ) (conn : ConnId) (p : Plugin κ) : Prop := c ∈ p.calls ∧ p.conns conn = none

theorem course_dangles {c other : Call κ} {result : Except Fault (Plugin κ)}
    (member : other ∈ p.calls) (course : Course env p c .failed result) :
    Ends (Dangling other c.conn) (fun _ => True) result := by
  cases course with
  | failed a =>
    have deleted : Ends (Dangling other c.conn) (fun _ => True) (p.deleteConn env c.conn) := by
      refine delete_conn_ends (fun _ _ => trivial) (fun _ => trivial) ?_ ?_
      · exact fun _ _ => ⟨member, by simp [dropConn]⟩
      · exact fun _ req i before after _ _ kept asked => asked.gone kept.1 kept.2
    exact deleted.bind fun q kept => kept
  | overread => exact trivial

/-- The assumption on failures is needed: a failure that deletes a shared
connection leaves a call in flight that points at nothing. -/
theorem shared_failure_dangles {event : Event κ} {index : ℕ} {c other : Call κ}
    (completes : Completes hash p event index c .failed) (member : other ∈ p.calls.eraseIdx index)
    (shared : other.conn = c.conn) (ran : p.step hash env event = .ok q) :
    Dangling other other.conn q :=
  shared ▸ (course_dangles member (step_course completes)).of_ok ran

/-- A single call fails: its connection is deleted and nobody minds. -/
theorem lone_call_fails_safely :
    (oneConn 1 [] [smallChunk]).step id smallEnv (.chunkReply 0 (.err "RPC_CANTRECV")) ≠
      .error .useAfterDelete :=
  have quiet {p : Plugin Unit} {event : Event Unit} (fresh : event.replyTo = none)
      (untimed : ∀ order, event ≠ .reap order) : Unshared id p (smallEnv, event) :=
    { failing := fun _ _ completes => nomatch fresh.symm.trans completes.replies
      reaping := fun order _ _ ticked => absurd ticked (untimed order)
      joining := fun order _ _ _ _ _ ticked => absurd ticked (untimed order) }
  have run : Reaches (next id) (fun p e => Possible p e ∧ Unshared id p e) (init Unit)
      (oneConn 1 [] [smallChunk]) :=
    (Reaches.refl.snoc (smallEnv, .getChunk (smallReq "a"))
      ⟨small_possible (by simp), quiet rfl (by simp)⟩ rfl).snoc (smallEnv, .connect 0 true)
      ⟨small_possible (by simp), quiet rfl (by simp)⟩ one_conn_opens
  have alone : Unshared id (oneConn 1 [] [smallChunk])
      (smallEnv, .chunkReply 0 (.err "RPC_CANTRECV")) :=
    { failing := fun index c completes other member => by
        obtain rfl := Option.some_inj.mp completes.replies
        cases member
      reaping := fun order _ _ ticked => nomatch ticked
      joining := fun order _ _ _ _ _ ticked => nomatch ticked }
  no_use_after_delete run (small_possible (by simp)) alone

/-- Two chunks are asked for on one connection and its transport fails: the first
callback deletes the connection, the second uses it. -/
theorem two_calls_fail_on_one_connection :
    ¬ ∀ (p : Plugin Unit) (e : Env × Event Unit),
      Reaches (next id) Possible (init Unit) p → Possible p e →
      p.step id e.1 e.2 ≠ .error .useAfterDelete := by
  intro safe
  have run : Reaches (next id) Possible (init Unit) (oneConn 2 [] [smallChunk, smallChunk]) :=
    ((Reaches.refl.snoc (smallEnv, .getChunk (smallReq "a")) (small_possible (by simp)) rfl).snoc
      (smallEnv, .connect 0 true) (small_possible (by simp)) one_conn_opens).snoc
      (smallEnv, .getChunk (smallReq "a")) (small_possible (by simp)) (one_conn_start _ (by decide))
  have first := run.snoc (smallEnv, .chunkReply 0 (.err "RPC_CANTRECV")) (small_possible (by simp)) rfl
  exact safe _ (smallEnv, .chunkReply 0 (.err "RPC_CANTRECV")) first (small_possible (by simp)) rfl

end Plugin
end Ditto.XferGtc
