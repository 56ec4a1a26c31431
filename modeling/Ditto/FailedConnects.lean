import Ditto.ChunkRequests

/-! A `tcpconnect` that fails. Every request queued for the connection is called
back with the error, and the continuation that reports it goes on to the call all
the same, on the connection that is not there. A queue holds at least the request
that made it, so in a run no connect of a queue can fail and leave the daemon
alive. -/
namespace Ditto.XferGtc
open Outcomes Runs

variable {κ : Type} {p q : Plugin κ} {env : Env} {req : ChunkReq κ} {conn : ConnId}
  {entry : ConnEntry κ} {key : String} {pendingCbs : List (ChunkReq κ)}
  {hash : List UInt8 → List UInt8} {guard : Plugin κ → Env × Event κ → Prop}

namespace Plugin

/-- The connect fails and every queued request is told so, once and with an error,
and nothing else happens but that the queue is gone. -/
def FailsCleanly (p : Plugin κ) (env : Env) (key : String) (pendingCbs : List (ChunkReq κ)) : Prop :=
  ∃ (q : Plugin κ) (errmsg : ChunkReq κ → String),
    p.establishConnection env key false = .ok q ∧
    q.answers = p.answers ++ pendingCbs.map (fun req => .chunk req.cb (.error (errmsg req))) ∧
    q.calls = p.calls ∧ q.pendingConnCache key = none

/-- The first request of the queue is told, and then its call is made. -/
theorem failed_connect_faults (queued : p.pendingConnCache key = some pendingCbs)
    (waiting : pendingCbs ≠ []) : p.establishConnection env key false = .error .nullConn := by
  simp only [establishConnection, queued]
  cases pendingCbs with
  | nil => exact absurd rfl waiting
  | cons req rest => rfl

/-- A failed connect is clean only where nobody waits for it. -/
theorem failed_connect_clean_iff (queued : p.pendingConnCache key = some pendingCbs) :
    FailsCleanly p env key pendingCbs ↔ pendingCbs = [] := by
  constructor
  · rintro ⟨q, errmsg, ran, _⟩
    by_contra waiting
    rw [failed_connect_faults queued waiting] at ran
    cases ran
  · rintro rfl
    refine ⟨{ p with pendingConnCache := Function.update p.pendingConnCache key none },
      fun _ => "", ?_, ?_, rfl, ?_⟩
    · simp only [establishConnection, queued]
      rfl
    · rw [List.map_nil, List.append_nil]
    · exact Function.update_self ..

/-- The plugin after a first request for a chunk, on its way to the node `a`. -/
def oneQueued : Plugin Unit :=
  { init Unit with
    pendingConnCache := Function.update (fun _ => none) "a:1" (some [smallReq "a"])
    attempts := [.establishConnection "a:1"] }

theorem one_request_not_clean : ¬ FailsCleanly oneQueued smallEnv "a:1" [smallReq "a"] :=
  fun clean => List.cons_ne_nil _ _ ((failed_connect_clean_iff rfl).mp clean)

/-! ## Queues in a run -/

/-- No queue is empty. -/
def Awaits (p : Plugin κ) : Prop :=
  ∀ key pendingCbs, p.pendingConnCache key = some pendingCbs → pendingCbs ≠ []

theorem Awaits.init : Awaits (init κ) :=
  fun _ _ queued => by cases queued

theorem Awaits.congr (awaits : Awaits p) (pending : q.pendingConnCache = p.pendingConnCache) :
    Awaits q := by
  rw [Awaits, pending]
  exact awaits

/-- A queue that holds a request is put under a key. -/
theorem Awaits.queue (awaits : Awaits p) (nonempty : pendingCbs ≠ [])
    (pending : q.pendingConnCache = Function.update p.pendingConnCache key (some pendingCbs)) :
    Awaits q := by
  intro other cbs queued
  rw [pending] at queued
  by_cases same : other = key
  · subst same
    rw [Function.update_self] at queued
    cases queued
    exact nonempty
  · rw [Function.update_of_ne same] at queued
    exact awaits other cbs queued

theorem Awaits.unqueue (awaits : Awaits p)
    (pending : q.pendingConnCache = Function.update p.pendingConnCache key none) : Awaits q := by
  intro other cbs queued
  rw [pending] at queued
  by_cases same : other = key
  · subst same
    rw [Function.update_self] at queued
    cases queued
  · rw [Function.update_of_ne same] at queued
    exact awaits other cbs queued

theorem Awaits.answer (awaits : Awaits p) (a : Answer κ) : Awaits (p.answer a) :=
  awaits.congr rfl

theorem Awaits.call (awaits : Awaits p) (transfer : Transfer κ) :
    Ends Awaits (fun _ => True) (p.call conn transfer) := by
  apply (call_ends fun _ => trivial).imp
  rintro after ⟨_, rfl⟩
  exact awaits.congr rfl

/-- A transfer that joins a connection. -/
theorem Awaits.join (awaits : Awaits p) (env : Env) (conn : ConnId) (entry : ConnEntry κ)
    (transfer : Transfer κ) :
    Ends Awaits (fun _ => True)
      ((p.writeConn conn { entry with refcount := entry.refcount + 1, tv := env.now }).call conn
        transfer) := by
  have stamped : Awaits (p.writeConn conn { entry with refcount := entry.refcount + 1, tv := env.now }) :=
    awaits.congr rfl
  exact stamped.call transfer

theorem Awaits.get_chunk (awaits : Awaits p) (env : Env) (req : ChunkReq κ) :
    Ends Awaits (fun _ => True) (p.getChunk env req) := by
  unfold getChunk
  split
  next => trivial
  next =>
    split
    next => trivial
    next res hop =>
      split
      next absent =>
        simp only [getConnection]
        split
        next conn found => exact awaits.call _
        next unknown =>
          split
          next pendingCbs queued => exact awaits.queue (by simp) rfl
          next unqueued => exact awaits.queue (List.cons_ne_nil _ _) rfl
      next conn found =>
        apply (read_conn_ends fun _ => trivial).bind
        intro entry held
        split
        next => exact awaits.congr rfl
        next => exact awaits.join env conn entry _

theorem Awaits.delete (awaits : Awaits p) (env : Env) (conn : ConnId) :
    Ends Awaits (fun _ => True) (p.deleteConn env conn) := by
  apply delete_conn_rule (fun _ => trivial)
  · exact fun _ _ => awaits.congr rfl
  · intro _ req index before _ _ kept
    have noted : Awaits (before.noteResumed conn index) := kept.congr rfl
    exact noted.get_chunk env req

theorem Awaits.release (awaits : Awaits p) (conn : ConnId) :
    Ends Awaits (fun _ => True) (p.releaseConn conn) := by
  apply (release_conn_ends fun _ => trivial).imp
  rintro after ⟨entry, _, rfl⟩
  exact awaits.congr rfl

theorem Awaits.check_outstanding (awaits : Awaits p) (env : Env) (conn : ConnId) :
    Ends Awaits (fun _ => True) (p.checkOutstanding env conn) := by
  apply check_outstanding_rule (fun _ => trivial)
  · exact fun _ _ _ => awaits
  · intro entry req index _ _
    have taken : Awaits ((p.writeConn conn { entry with
        waitCb := entry.waitCb.set index none }).noteResumed conn index) := awaits.congr rfl
    exact taken.get_chunk env req

theorem Awaits.course {c : Call κ} {how : Completion} {result : Except Fault (Plugin κ)}
    (awaits : Awaits p) (course : Course env p c how result) :
    Ends Awaits (fun _ => True) result := by
  cases course with
  | failed a => exact (awaits.delete env c.conn).bind fun _ kept => kept.answer a
  | refused a => exact awaits.answer a
  | continued transfer same => exact awaits.call transfer
  | reported transfer same a => exact (awaits.call transfer).bind fun _ kept => kept.answer a
  | chunk isChunk a =>
    exact (awaits.release c.conn).bind fun _ kept => (kept.answer a).check_outstanding env c.conn
  | other isOther a => exact (awaits.release c.conn).bind fun _ kept => kept.answer a
  | overread how => trivial

/-- A connect that comes back takes its queue along. -/
theorem Awaits.connect (awaits : Awaits p) (connected : Bool) (attempt : Attempt κ) :
    Ends Awaits (fun _ => True) (p.connect env connected attempt) := by
  have opened (key : String) (transfer : Transfer κ) :
      Ends Awaits (fun _ => True) ((p.newConn env key).call p.nextConn transfer) := by
    have fresh : Awaits (p.newConn env key) := awaits.congr rfl
    exact fresh.call transfer
  cases attempt with
  | establishConnection key =>
    simp only [Plugin.connect, establishConnection]
    cases queued : p.pendingConnCache key with
    | none => trivial
    | some pendingCbs =>
      cases connected with
      | true =>
        have launched := launch_eq (p := p) env key pendingCbs []
        rw [opened_alone] at launched
        simp only [if_true, launched, bind, Except.bind]
        exact awaits.unqueue rfl
      | false =>
        cases pendingCbs with
        | nil => exact awaits.unqueue rfl
        | cons req rest => trivial
  | getDescriptorsClnt oid hints cb key =>
    cases connected with
    | true => exact opened key _
    | false => exact awaits.answer _
  | getBitmapClnt oid cb key =>
    cases connected with
    | true => exact opened key _
    | false => exact awaits.answer _

theorem Awaits.get_descriptors (awaits : Awaits p) (env : Env) (oid : List UInt8)
    (hints : List String) (cb : κ) :
    Ends Awaits (fun _ => True) (p.getDescriptors env oid hints cb) := by
  unfold getDescriptors
  split
  next => trivial
  split
  next => trivial
  split
  next => exact awaits.congr rfl
  next conn _ =>
    apply (read_conn_ends fun _ => trivial).bind
    intro entry _
    exact awaits.join env conn entry _

theorem Awaits.get_bitmap (awaits : Awaits p) (env : Env) (oid : List UInt8)
    (hints : List String) (cb : κ) :
    Ends Awaits (fun _ => True) (p.getBitmap env oid hints cb) := by
  unfold getBitmap
  split
  next => trivial
  split
  next => trivial
  split
  next => exact awaits.congr rfl
  next conn _ =>
    apply (read_conn_ends fun _ => trivial).bind
    intro entry _
    split
    next => trivial
    next => exact awaits.join env conn entry _

theorem Awaits.step (awaits : Awaits p) (hash : List UInt8 → List UInt8) (env : Env)
    (event : Event κ) : Ends Awaits (fun _ => True) (p.step hash env event) := by
  have reply (index : ℕ) (replies : event.replyTo = some index) :
      Ends Awaits (fun _ => True) (p.step hash env event) := by
    by_cases completed : ∃ c how, Completes hash p event index c how
    · obtain ⟨c, how, completes⟩ := completed
      have taken : Awaits (p.withoutCall index) := awaits.congr rfl
      exact taken.course (step_course completes)
    · rw [step_idle replies fun c how completes => completed ⟨c, how, completes⟩]
      exact awaits
  cases event with
  | getChunk req => exact awaits.get_chunk env req
  | getDescriptors oid hints cb => exact awaits.get_descriptors env oid hints cb
  | getBitmap oid hints cb => exact awaits.get_bitmap env oid hints cb
  | connect index connected =>
    simp only [Plugin.step]
    split
    next attempt found =>
      have taken : Awaits ({ p with attempts := p.attempts.eraseIdx index } : Plugin κ) :=
        awaits.congr rfl
      exact taken.connect connected attempt
    next => exact awaits
  | chunkReply index res => exact reply index rfl
  | descriptorsReply index res => exact reply index rfl
  | bitmapReply index res => exact reply index rfl
  | reap order =>
    apply ends_foldlM
    · intro q conn _ kept
      apply (read_conn_ends fun _ => trivial).bind
      intro entry _
      split
      next => exact kept.delete env conn
      next => exact kept
    · exact awaits

theorem run_awaits (run : Reaches (next hash) guard (init κ) p) : Awaits p :=
  invariant Awaits.init
    (fun _ e _ awaits _ ran => (awaits.step hash e.1 e.2).of_ok (next_eq_some ran)) run

/-- The requests for chunks come to some total. -/
def Accounted (p : Plugin κ) : Prop := ∃ total, Accounts total p

theorem run_accounted (run : Reaches (next hash) guard (init κ) p) : Accounted p := by
  have initial : Accounted (init κ) := ⟨0, .init κ⟩
  refine invariant initial ?_ run
  rintro before e after ⟨total, accounts⟩ _ ran
  exact ⟨_, (step_accounts accounts hash e.1 e.2).of_ok (next_eq_some ran)⟩

/-- In a run, a connect for queued requests that fails stops the daemon. -/
theorem run_failed_connect_faults {index : ℕ} (run : Reaches (next hash) guard (init κ) p)
    (underway : p.attempts[index]? = some (.establishConnection key)) :
    p.step hash env (.connect index false) = .error .nullConn := by
  obtain ⟨total, accounts⟩ := run_accounted run
  have named : key ∈ p.tabledKeys :=
    List.mem_filterMap.mpr ⟨_, List.mem_of_getElem? underway, rfl⟩
  obtain ⟨pendingCbs, queued⟩ := Option.isSome_iff_exists.mp ((accounts.tabled key).mpr named)
  simp only [Plugin.step, underway]
  exact failed_connect_faults queued (run_awaits run key pendingCbs queued)

/-- One request for a chunk, and the connect made for it fails. -/
theorem queued_request_kills :
    ¬ ∀ p : Plugin Unit, Reaches (next id) Possible (init Unit) p → ∀ key pendingCbs,
      p.pendingConnCache key = some pendingCbs → FailsCleanly p smallEnv key pendingCbs := by
  intro always
  have run : Reaches (next id) Possible (init Unit) oneQueued :=
    Reaches.refl.snoc (smallEnv, .getChunk (smallReq "a")) (small_possible (by simp)) rfl
  obtain ⟨q, _, ran, _⟩ := always oneQueued run "a:1" [smallReq "a"] rfl
  cases ran

end Plugin
end Ditto.XferGtc
