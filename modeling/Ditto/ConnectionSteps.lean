import Ditto.ConnectionRules

/-! One event of the plugin, seen from the connections. The replies to the three
kinds of call are handled by three callbacks that do one of four things with the
connection, and every event is a request, a connect, a reply or a reaper tick:
an invariant is preserved by a step as soon as it is by each of these. -/
namespace Ditto.XferGtc
open Outcomes

variable {κ : Type} {p q : Plugin κ} {env : Env} {conn : ConnId} {event : Event κ}
  {hash : List UInt8 → List UInt8}

/-- A transfer of a chunk. -/
def Transfer.isChunk : Transfer κ → Bool
  | .chunk .. => true
  | _ => false

/-- How a reply leaves its transfer: the transport failed, the peer refused or
sent a chunk that has not the hash asked for, there is more to ask for, or the
transfer is complete. -/
inductive Completion where
  | failed
  | refused
  | continued
  | finished
  deriving DecidableEq, Repr

/-- The call an event is the reply to. -/
def Event.replyTo : Event κ → Option ℕ
  | .chunkReply index _ | .descriptorsReply index _ | .bitmapReply index _ => some index
  | _ => none

/-- How an event leaves a transfer of its kind. -/
def Event.completion (hash : List UInt8 → List UInt8) : Event κ → Transfer κ → Option Completion
  | .chunkReply _ res, .chunk req _ data =>
    match res with
    | .err _ => some .failed
    | .notOk _ => some .refused
    | .ok resok =>
      if resok.ended then if req.d.id ≠ hash (data ++ resok.data) then some .refused
        else some .finished
      else some .continued
  | .descriptorsReply _ res, .descriptors .. =>
    match res with
    | .err _ => some .failed
    | .notOk _ => some .refused
    | .ok resok => some (if resok.ended then .finished else .continued)
  | .bitmapReply _ res, .bitmap .. =>
    match res with
    | .err _ => some .failed
    | .notOk _ => some .refused
    | .ok resok => some (if resok.ended then .finished else .continued)
  | _, _ => none

namespace Plugin

/-- The event completes this call of the plugin, in this way. -/
structure Completes (hash : List UInt8 → List UInt8) (p : Plugin κ) (event : Event κ) (index : ℕ)
    (c : Call κ) (how : Completion) : Prop where
  replies : event.replyTo = some index
  called : p.calls[index]? = some c
  ends : event.completion hash c.transfer = some how

/-- The plugin with a call taken out. -/
def withoutCall (p : Plugin κ) (index : ℕ) : Plugin κ := { p with calls := p.calls.eraseIdx index }

/-- What a callback makes of a plugin whose call `c` is out of the list. -/
inductive Course (env : Env) (p : Plugin κ) (c : Call κ) :
    Completion → Except Fault (Plugin κ) → Prop where
  | failed (a : Answer κ) : Course env p c .failed (do
      let q ← p.deleteConn env c.conn
      .ok (q.answer a))
  | refused (a : Answer κ) : Course env p c .refused (.ok (p.answer a))
  | continued (transfer : Transfer κ) (same : transfer.isChunk = c.transfer.isChunk) :
      Course env p c .continued (p.call c.conn transfer)
  | reported (transfer : Transfer κ) (same : transfer.isChunk = c.transfer.isChunk)
      (a : Answer κ) : Course env p c .continued (do
      let q ← p.call c.conn transfer
      .ok (q.answer a))
  | chunk (isChunk : c.transfer.isChunk = true) (a : Answer κ) : Course env p c .finished (do
      let q ← p.releaseConn c.conn
      (q.answer a).checkOutstanding env c.conn)
  | other (isOther : c.transfer.isChunk = false) (a : Answer κ) : Course env p c .finished (do
      let q ← p.releaseConn c.conn
      .ok (q.answer a))
  | overread (how : Completion) : Course env p c how (.error .outOfRange)

theorem step_course {index : ℕ} {c : Call κ} {how : Completion}
    (completes : Completes hash p event index c how) :
    Course env (p.withoutCall index) c how (p.step hash env event) := by
  obtain ⟨replies, called, ends⟩ := completes
  obtain ⟨conn, transfer⟩ := c
  cases event with
  | chunkReply i res =>
    obtain rfl := Option.some_inj.mp replies
    cases transfer with
    | descriptors | bitmap => cases ends
    | chunk req offset data =>
      simp only [Plugin.step, called]
      cases res with
      | err clntStat =>
        cases ends
        exact .failed _
      | notOk errmsg =>
        cases ends
        exact .refused _
      | ok resok =>
        simp only [Event.completion] at ends
        simp only [getChunkInternalCb]
        split at ends
        · rename_i ended
          rw [if_pos ended]
          split at ends
          · rename_i differs
            cases ends
            rw [if_pos differs]
            exact .refused _
          · rename_i same
            cases ends
            rw [if_neg same]
            exact .chunk rfl _
        · rename_i more
          cases ends
          rw [if_neg more]
          exact .continued (.chunk req _ _) rfl
  | descriptorsReply i res =>
    obtain rfl := Option.some_inj.mp replies
    cases transfer with
    | chunk | bitmap => cases ends
    | descriptors oid hints cb offset =>
      simp only [Plugin.step, called]
      cases res with
      | err clntStat =>
        cases ends
        exact .failed _
      | notOk errmsg =>
        cases ends
        exact .refused _
      | ok resok =>
        obtain rfl := Option.some_inj.mp ends
        simp only [getDescInternalCb]
        by_cases short : resok.descriptors.length < resok.count.toNat
        · rw [if_pos short]
          exact .overread _
        · rw [if_neg short]
          cases resok.ended with
          | true => exact .other rfl _
          | false => exact .reported (.descriptors oid hints cb _) rfl _
  | bitmapReply i res =>
    obtain rfl := Option.some_inj.mp replies
    cases transfer with
    | chunk | descriptors => cases ends
    | bitmap oid cb offset bmp =>
      simp only [Plugin.step, called]
      cases res with
      | err clntStat =>
        cases ends
        exact .failed _
      | notOk errmsg =>
        cases ends
        exact .refused _
      | ok resok =>
        obtain rfl := Option.some_inj.mp ends
        simp only [Plugin.getBitmapInternalCb, XferGtc.getBitmapInternalCb]
        cases convertToBitvec resok.bmp resok.count with
        | none => exact .overread _
        | some bmpTmp =>
          simp only [Option.bind_eq_bind, Option.bind_some]
          by_cases wraps : resok.count.toUInt64 + resok.offset < resok.offset
          · rw [if_pos wraps]
            exact .overread _
          · rw [if_neg wraps]
            cases resok.ended with
            | true => exact .other rfl _
            | false => exact .continued (.bitmap oid cb _ _) rfl
  | getChunk | getDescriptors | getBitmap | connect | reap => cases replies

/-- A reply to no call of its kind does nothing. -/
theorem step_idle {index : ℕ} (replies : event.replyTo = some index)
    (idle : ∀ c how, ¬ Completes hash p event index c how) : p.step hash env event = .ok p := by
  cases called : p.calls[index]? with
  | none =>
    cases event with
    | chunkReply i res | descriptorsReply i res | bitmapReply i res =>
      obtain rfl := Option.some_inj.mp replies
      simp only [Plugin.step, called]
    | getChunk | getDescriptors | getBitmap | connect | reap => cases replies
  | some c =>
    have silent : event.completion hash c.transfer = none := by
      cases ends : event.completion hash c.transfer with
      | none => rfl
      | some how => exact absurd ⟨replies, called, ends⟩ (idle c how)
    obtain ⟨conn, transfer⟩ := c
    cases event with
    | chunkReply i res =>
      obtain rfl := Option.some_inj.mp replies
      cases transfer with
      | chunk req offset data =>
        simp only [Event.completion] at silent
        split at silent
        · cases silent
        · cases silent
        · split at silent
          · split at silent
            · cases silent
            · cases silent
          · cases silent
      | descriptors | bitmap => simp only [Plugin.step, called]
    | descriptorsReply i res =>
      obtain rfl := Option.some_inj.mp replies
      cases transfer with
      | descriptors => cases res <;> cases silent
      | chunk | bitmap => simp only [Plugin.step, called]
    | bitmapReply i res =>
      obtain rfl := Option.some_inj.mp replies
      cases transfer with
      | bitmap => cases res <;> cases silent
      | chunk | descriptors => simp only [Plugin.step, called]
    | getChunk | getDescriptors | getBitmap | connect | reap => cases replies

/-- The rule for one step: what each kind of event leads to is enough. -/
theorem step_ends {fault : Fault → Prop} {post : Plugin κ → Prop}
    (tolerated : ∀ f, f ≠ .useAfterDelete → fault f)
    (alike : ∀ q, Alike p q → post q)
    (asked : ∀ req q, event = .getChunk req → Asked env req p q → post q)
    (joined : ∀ conn entry transfer, p.conns conn = some entry → transfer.isChunk = false →
      post { p.writeConn conn { entry with refcount := entry.refcount + 1, tv := env.now } with
        calls := p.calls ++ [⟨conn, transfer⟩] })
    (opens : ∀ index attempt key q, event = .connect index true →
      p.attempts[index]? = some attempt → Alike (p.opened env key (p.transfers attempt)) q → post q)
    (replied : ∀ index c how result, Completes hash p event index c how →
      Course env (p.withoutCall index) c how result → Ends post fault result)
    (reaped : ∀ order, event = .reap order → Ends post fault (p.reapConnEntries env order)) :
    Ends post fault (p.step hash env event) := by
  -- a transfer of descriptors or of a bitmap, on the connection the key leads to
  have join (key : String) (conn : ConnId) (found : p.lookup key = some conn)
      (transfer : Transfer κ) (isOther : transfer.isChunk = false) :
      ∃ entry, p.conns conn = some entry ∧ Ends post fault
        ((p.writeConn conn { entry with refcount := entry.refcount + 1, tv := env.now }).call conn
          transfer) := by
    obtain ⟨_, entry, held, _⟩ := lookup_live found
    refine ⟨entry, held, ?_⟩
    simp only [call, readConn, conns_write_conn, Function.update_self, bind, Except.bind]
    exact joined conn entry transfer held isOther
  have reply (index : ℕ) (replies : event.replyTo = some index) :
      Ends post fault (p.step hash env event) := by
    by_cases completed : ∃ c how, Completes hash p event index c how
    · obtain ⟨c, how, completes⟩ := completed
      exact replied index c how _ completes (step_course completes)
    · rw [step_idle replies fun c how completes => completed ⟨c, how, completes⟩]
      exact alike p ⟨rfl, rfl, rfl, rfl, rfl⟩
  cases event with
  | getChunk req => exact (get_chunk_ends tolerated p).imp fun q => asked req q rfl
  | getDescriptors oid hints cb =>
    simp only [Plugin.step, getDescriptors]
    split
    · exact tolerated _ (by simp)
    · split
      · exact tolerated _ (by simp)
      · split
        · exact alike _ ⟨rfl, rfl, rfl, rfl, rfl⟩
        · rename_i found
          obtain ⟨entry, held, ends⟩ := join _ _ found (.descriptors oid _ cb 0) rfl
          simp only [readConn, held, bind, Except.bind]
          exact ends
  | getBitmap oid hints cb =>
    simp only [Plugin.step, getBitmap]
    split
    · exact tolerated _ (by simp)
    · split
      · exact tolerated _ (by simp)
      · split
        · exact alike _ ⟨rfl, rfl, rfl, rfl, rfl⟩
        · rename_i found
          obtain ⟨entry, held, ends⟩ := join _ _ found (.bitmap oid cb 0 []) rfl
          simp only [readConn, held, bind, Except.bind]
          split
          · exact tolerated _ (by simp)
          · exact ends
  | connect index connected =>
    simp only [Plugin.step]
    split
    · rename_i attempt found
      refine connect_ends tolerated connected attempt ?_ ?_
      · rintro q ⟨conns, cache, calls, next, resumed⟩
        exact alike q ⟨conns, cache, calls, next, resumed⟩
      · rintro rfl q ⟨conns, cache, calls, next, resumed⟩
        have same : ({ p with attempts := p.attempts.eraseIdx index } : Plugin κ).transfers attempt =
            p.transfers attempt := by cases attempt <;> rfl
        rw [same] at conns cache calls next resumed
        exact opens index attempt attempt.key q rfl found ⟨conns, cache, calls, next, resumed⟩
    · exact alike p ⟨rfl, rfl, rfl, rfl, rfl⟩
  | chunkReply index res => exact reply index rfl
  | descriptorsReply index res => exact reply index rfl
  | bitmapReply index res => exact reply index rfl
  | reap order => exact reaped order rfl

end Plugin
end Ditto.XferGtc
