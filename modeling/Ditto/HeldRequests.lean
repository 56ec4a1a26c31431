import Ditto.ConnectionSteps

/-! The requests for chunks that the plugin holds: those of the calls in flight, those
parked on a connection and those that wait for one. A property of the requests that the
node makes is one of every request held, and a property of the calls that a request
starts with, and that goes on from reply to reply, is one of every call. -/
namespace Ditto.XferGtc.Plugin
open Outcomes

variable {κ : Type} {p q : Plugin κ} {env : Env} {req : ChunkReq κ} {conn : ConnId} {entry : ConnEntry κ}
  {hash : List UInt8 → List UInt8} {event : Event κ} {Q : ChunkReq κ → Prop} {P : Call κ → Prop}

/-- Every request that waits has the one property, and every call the other. -/
structure Holding (Q : ChunkReq κ → Prop) (P : Call κ → Prop) (p : Plugin κ) : Prop where
  calls : ∀ c ∈ p.calls, P c
  waiting : ∀ conn entry, p.conns conn = some entry → ∀ req, some req ∈ entry.waitCb → Q req
  pending : ∀ key reqs, p.pendingConnCache key = some reqs → ∀ req ∈ reqs, Q req

/-- A request starts with a call of the one property, and the calls for descriptors and
bitmaps have it. -/
structure Starts (Q : ChunkReq κ → Prop) (P : Call κ → Prop) : Prop where
  fresh : ∀ conn req, Q req → P ⟨conn, .chunk req 0 []⟩
  other : ∀ c : Call κ, c.transfer.isChunk = false → P c

/-- The call that follows a part of a chunk, on the same connection. -/
def Goes (P : Call κ → Prop) (p : Plugin κ) (event : Event κ) : Prop :=
  ∀ index resok conn req offset before, event = .chunkReply index (.ok resok) → resok.ended = false →
    p.calls[index]? = some ⟨conn, .chunk req offset before⟩ →
    P ⟨conn, .chunk req (before ++ resok.data).length (before ++ resok.data)⟩

theorem Holding.init : Holding Q P (init κ) where
  calls := List.forall_mem_nil _
  waiting := fun _ _ held => by cases held
  pending := fun _ _ held => by cases held

theorem Holding.imp {Q' : ChunkReq κ → Prop} {P' : Call κ → Prop} (holding : Holding Q P p)
    (requests : ∀ req, Q req → Q' req) (calls : ∀ c, P c → P' c) : Holding Q' P' p where
  calls := fun c member => calls c (holding.calls c member)
  waiting := fun conn entry held req member => requests req (holding.waiting conn entry held req member)
  pending := fun key reqs held req member => requests req (holding.pending key reqs held req member)

theorem Holding.congr (holding : Holding Q P p) (calls : q.calls = p.calls) (conns : q.conns = p.conns)
    (pending : q.pendingConnCache = p.pendingConnCache) : Holding Q P q where
  calls := by rw [calls]; exact holding.calls
  waiting := by rw [conns]; exact holding.waiting
  pending := by rw [pending]; exact holding.pending

theorem Holding.answer (holding : Holding Q P p) (a : Answer κ) : Holding Q P (p.answer a) :=
  holding.congr rfl rfl rfl

theorem Holding.note_resumed (holding : Holding Q P p) (conn : ConnId) (index : ℕ) :
    Holding Q P (p.noteResumed conn index) :=
  holding.congr rfl rfl rfl

theorem Holding.without_call (holding : Holding Q P p) (index : ℕ) : Holding Q P (p.withoutCall index) where
  calls := fun c member => holding.calls c ((List.eraseIdx_sublist _ _).subset member)
  waiting := holding.waiting
  pending := holding.pending

/-- A connection is written with waiters that have the property. -/
theorem Holding.write (holding : Holding Q P p) (conn : ConnId) {new : ConnEntry κ}
    (waiters : ∀ req, some req ∈ new.waitCb → Q req) : Holding Q P (p.writeConn conn new) where
  calls := holding.calls
  waiting := by
    intro other entry held req member
    rw [conns_write_conn] at held
    rcases update_held held with ⟨_, rfl⟩ | ⟨_, before⟩
    · exact waiters req member
    · exact holding.waiting other entry before req member
  pending := holding.pending

theorem Holding.drop (holding : Holding Q P p) (conn : ConnId) : Holding Q P (p.dropConn conn) where
  calls := holding.calls
  waiting := fun other entry held => holding.waiting other entry (update_none_held held).2
  pending := holding.pending

theorem Holding.pend (holding : Holding Q P p) (key : String) {reqs : Option (List (ChunkReq κ))}
    (attempts : List (Attempt κ)) (each : ∀ req ∈ reqs.getD [], Q req) : Holding Q P { p with
      pendingConnCache := Function.update p.pendingConnCache key reqs, attempts := attempts } where
  calls := holding.calls
  waiting := holding.waiting
  pending := by
    intro other list held req member
    by_cases same : other = key
    · subst same
      simp only [Function.update_self] at held
      exact each req (by rw [held]; exact member)
    · simp only [Function.update_of_ne same] at held
      exact holding.pending other list held req member

theorem Holding.called (holding : Holding Q P p) {transfer : Transfer κ} (here : P ⟨conn, transfer⟩) :
    Ends (Holding Q P) (fun _ => True) (p.call conn transfer) := by
  apply (call_ends fun _ => trivial).imp
  rintro after ⟨_, rfl⟩
  exact ⟨List.forall_mem_append.mpr ⟨holding.calls, List.forall_mem_singleton.mpr here⟩, holding.waiting,
    holding.pending⟩

theorem Holding.release (holding : Holding Q P p) (conn : ConnId) :
    Ends (Holding Q P) (fun _ => True) (p.releaseConn conn) := by
  apply (release_conn_ends fun _ => trivial).imp
  rintro after ⟨entry, held, rfl⟩
  exact holding.write conn (holding.waiting conn entry held)

/-! ## Requests -/

theorem Holding.get_chunk (starts : Starts Q P) (holding : Holding Q P p) (asked : Q req) :
    Ends (Holding Q P) (fun _ => True) (p.getChunk env req) := by
  unfold getChunk
  split
  · trivial
  split
  · trivial
  next res _ =>
    split
    next absent =>
      simp only [getConnection]
      split
      next conn found => exact holding.called (starts.fresh conn req asked)
      next unknown =>
        split
        next reqs waits =>
          refine holding.pend _ p.attempts fun other member => ?_
          rcases List.mem_append.mp member with old | new
          · exact holding.pending _ reqs waits other old
          · rw [List.mem_singleton.mp new]
            exact asked
        next =>
          refine holding.pend _ _ fun other member => ?_
          rw [List.mem_singleton.mp member]
          exact asked
    next conn found =>
      refine (read_conn_ends fun _ => trivial).bind fun entry held => ?_
      have waiters := holding.waiting conn entry held
      split
      · refine holding.write conn fun other member => ?_
        rcases List.mem_append.mp member with old | new
        · exact waiters other old
        · rw [Option.some_inj.mp (List.mem_singleton.mp new)]
          exact asked
      · have stamped : Holding Q P (p.writeConn conn { entry with refcount := entry.refcount + 1, tv := env.now }) :=
          holding.write conn waiters
        exact stamped.called (starts.fresh conn req asked)

theorem Holding.get_chunks (starts : Starts Q P) (holding : Holding Q P p) {reqs : List (ChunkReq κ)}
    (asked : ∀ req ∈ reqs, Q req) : Ends (Holding Q P) (fun _ => True) (p.getChunks env reqs) :=
  ends_foldlM (fun _ req member kept => kept.get_chunk starts (asked req member)) holding

theorem Holding.delete (starts : Starts Q P) (holding : Holding Q P p) (env : Env) (conn : ConnId) :
    Ends (Holding Q P) (fun _ => True) (p.deleteConn env conn) := by
  apply delete_conn_rule (fun _ => trivial)
  · exact fun _ _ => holding.drop conn
  · intro entry req index before held slot kept
    have waits := holding.waiting conn entry held req (List.mem_of_getElem? slot)
    exact (kept.note_resumed conn index).get_chunk starts waits

theorem Holding.check_outstanding (starts : Starts Q P) (holding : Holding Q P p) (env : Env) (conn : ConnId) :
    Ends (Holding Q P) (fun _ => True) (p.checkOutstanding env conn) := by
  apply check_outstanding_rule (fun _ => trivial)
  · exact fun _ _ _ => holding
  · intro entry req index held first
    have waiters := holding.waiting conn entry held
    obtain ⟨other, same, slot⟩ := first_waiter_some first
    cases same
    have taken : Holding Q P (p.writeConn conn { entry with waitCb := entry.waitCb.set index none }) := by
      refine holding.write conn fun other member => ?_
      rcases List.mem_or_eq_of_mem_set member with old | new
      · exact waiters other old
      · cases new
    exact (taken.note_resumed conn index).get_chunk starts (waiters req (List.mem_of_getElem? slot))

/-! ## Replies -/

theorem Holding.chunk_reply (starts : Starts Q P) (holding : Holding Q P p) {data : List UInt8} {res : Reply ChunkResOk}
    (goes : ∀ resok, res = .ok resok → resok.ended = false →
      P ⟨conn, .chunk req (data ++ resok.data).length (data ++ resok.data)⟩) :
    Ends (Holding Q P) (fun _ => True) (p.getChunkInternalCb hash env req data conn res) := by
  cases res with
  | err clntStat => exact (holding.delete starts env conn).bind fun _ kept => kept.answer _
  | notOk errmsg => exact holding.answer _
  | ok resok =>
    simp only [getChunkInternalCb]
    split
    · split
      · exact holding.answer _
      · exact (holding.release conn).bind fun _ kept => (kept.answer _).check_outstanding starts env conn
    next more =>
      rw [getChunkInt]
      exact holding.called (goes resok rfl (Bool.eq_false_of_not_eq_true more))

/-- What is done with a reply to another call. -/
theorem Holding.course (starts : Starts Q P) (holding : Holding Q P p) {c : Call κ} {how : Completion}
    {result : Except Fault (Plugin κ)} (isOther : c.transfer.isChunk = false) (course : Course env p c how result) :
    Ends (Holding Q P) (fun _ => True) result := by
  cases course with
  | failed a => exact (holding.delete starts env c.conn).bind fun _ kept => kept.answer a
  | refused a => exact holding.answer a
  | continued transfer same => exact holding.called (starts.other _ (same.trans isOther))
  | reported transfer same a =>
    exact (holding.called (starts.other _ (same.trans isOther))).bind fun _ kept => kept.answer a
  | chunk isChunk a => cases isOther.symm.trans isChunk
  | other _ a => exact (holding.release c.conn).bind fun _ kept => kept.answer a
  | overread how => trivial

/-! ## Connects -/

theorem Holding.new_conn (holding : Holding Q P p) (env : Env) (key : String) : Holding Q P (p.newConn env key) where
  calls := holding.calls
  waiting := (holding.write p.nextConn fun _ member => absurd member List.not_mem_nil).waiting
  pending := holding.pending

theorem Holding.connect (starts : Starts Q P) (holding : Holding Q P p) (connected : Bool) (attempt : Attempt κ) :
    Ends (Holding Q P) (fun _ => True) (p.connect env connected attempt) := by
  cases attempt with
  | establishConnection key =>
    simp only [Plugin.connect, establishConnection]
    cases waits : p.pendingConnCache key with
    | none => trivial
    | some reqs =>
      have launched : ∀ (s : Option String) (target : Option ConnId) (start : Plugin κ), Holding Q P start →
          Ends (Holding Q P) (fun _ => True) (reqs.foldlM (fun q req => q.getChunkInt req 0 [] s target) start) := by
        intro s target start begun
        refine ends_foldlM (fun before req member kept => ?_) begun
        unfold getChunkInt
        cases target with
        | none => trivial
        | some conn =>
          have here := starts.fresh conn req (holding.pending key reqs waits req member)
          cases s with
          | none => exact kept.called here
          | some msg => exact (kept.answer _).called here
      have done : ∀ after : Plugin κ, Holding Q P after → Holding Q P
          { after with pendingConnCache := Function.update after.pendingConnCache key none } :=
        fun after kept => kept.pend key after.attempts (List.forall_mem_nil _)
      cases connected with
      | true => exact (launched _ _ _ (holding.new_conn env key)).bind done
      | false => exact (launched _ _ _ holding).bind done
  | getDescriptorsClnt oid hints cb key =>
    cases connected with
    | true => exact (holding.new_conn env key).called (starts.other _ rfl)
    | false => exact holding.answer _
  | getBitmapClnt oid cb key =>
    cases connected with
    | true => exact (holding.new_conn env key).called (starts.other _ rfl)
    | false => exact holding.answer _

/-! ## Events -/

/-- A transfer that joins a connection. -/
theorem Holding.join (starts : Starts Q P) (holding : Holding Q P p) (held : p.conns conn = some entry)
    {transfer : Transfer κ} (isOther : transfer.isChunk = false) : Ends (Holding Q P) (fun _ => True)
      ((p.writeConn conn { entry with refcount := entry.refcount + 1, tv := env.now }).call conn transfer) := by
  have stamped : Holding Q P (p.writeConn conn { entry with refcount := entry.refcount + 1, tv := env.now }) :=
    holding.write conn (holding.waiting conn entry held)
  exact stamped.called (starts.other _ isOther)

/-- What ends no transfer of a chunk completes a call for something else. -/
theorem Completes.other {index : ℕ} {c : Call κ} {how : Completion} (completes : Completes hash p event index c how)
    (ends : ∀ req offset data, event.completion hash (.chunk req offset data) = none) : c.transfer.isChunk = false := by
  cases kind : c.transfer with
  | chunk req offset data =>
    have ended := completes.ends
    rw [kind, ends] at ended
    cases ended
  | descriptors oid hints cb offset => rfl
  | bitmap oid cb offset bmp => rfl

theorem Holding.step (starts : Starts Q P) (holding : Holding Q P p) (asked : ∀ req, event = .getChunk req → Q req)
    (goes : Goes P p event) : Ends (Holding Q P) (fun _ => True) (p.step hash env event) := by
  have replied {index : ℕ} (replies : event.replyTo = some index)
      (ends : ∀ req offset data, event.completion hash (.chunk req offset data) = none) :
      Ends (Holding Q P) (fun _ => True) (p.step hash env event) := by
    by_cases completed : ∃ c how, Completes hash p event index c how
    · obtain ⟨c, how, completes⟩ := completed
      exact (holding.without_call index).course starts (completes.other ends) (step_course completes)
    · rw [step_idle replies fun c how completes => completed ⟨c, how, completes⟩]
      exact holding
  cases event with
  | getChunk req => exact holding.get_chunk starts (asked req rfl)
  | getDescriptors oid hints cb =>
    simp only [Plugin.step, getDescriptors]
    split
    next => trivial
    split
    next => trivial
    split
    next => exact holding.congr rfl rfl rfl
    next => exact (read_conn_ends fun _ => trivial).bind fun entry held => holding.join starts held rfl
  | getBitmap oid hints cb =>
    simp only [Plugin.step, getBitmap]
    split
    next => trivial
    split
    next => trivial
    split
    next => exact holding.congr rfl rfl rfl
    next =>
      refine (read_conn_ends fun _ => trivial).bind fun entry held => ?_
      split
      next => trivial
      next => exact holding.join starts held rfl
  | connect index connected =>
    simp only [Plugin.step]
    split
    next attempt found =>
      have taken : Holding Q P ({ p with attempts := p.attempts.eraseIdx index } : Plugin κ) := holding.congr rfl rfl rfl
      exact taken.connect starts connected attempt
    next => exact holding
  | chunkReply index res =>
    simp only [Plugin.step]
    split
    next conn req offset data called =>
      refine (holding.without_call index).chunk_reply starts fun resok same more => ?_
      exact goes index resok conn req offset data (by rw [same]) more called
    next => exact holding
  | descriptorsReply index res => exact replied rfl fun req offset data => rfl
  | bitmapReply index res => exact replied rfl fun req offset data => rfl
  | reap order =>
    apply ends_foldlM
    · intro q conn _ kept
      apply (read_conn_ends fun _ => trivial).bind
      intro entry _
      split
      next => exact kept.delete starts env conn
      next => exact kept
    · exact holding

end Ditto.XferGtc.Plugin
