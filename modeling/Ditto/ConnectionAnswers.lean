import Ditto.ConnectionRules
import Ditto.Sequences

/-! The callbacks of the plugin. Most operations call none or report an error; a
chunk is given to a callback by one branch only, when a reply completes it and it
has the hash asked for. -/
namespace Ditto.XferGtc.Plugin
open Outcomes Logs

variable {κ : Type} {p q : Plugin κ} {env : Env} {req : ChunkReq κ} {conn : ConnId}
  {hash : List UInt8 → List UInt8}

/-- A callback that is given no chunk. -/
def Silent (a : Answer κ) : Prop :=
  ∀ cb d data, a ≠ .chunk cb (.ok (d, data))

/-- The plugin calls no callback with a chunk. -/
def Quiet (p q : Plugin κ) : Prop := Grows Silent p.answers q.answers

theorem Quiet.refl : Quiet p p := Grows.same rfl

theorem Quiet.answer (quiet : Quiet p q) {a : Answer κ} (silent : Silent a) :
    Quiet p (q.answer a) :=
  Grows.trans quiet (Grows.snoc silent)

theorem silent_error (cb : κ) (s : String) : Silent (.chunk cb (.error s)) := by
  rintro _ _ _ ⟨⟩

theorem silent_descriptors (cb : κ) (res : Except String (List Descriptor × Bool)) :
    Silent (.descriptors cb res) := by
  rintro _ _ _ ⟨⟩

theorem silent_bitmap (cb : κ) (res : Except String (List Bool)) : Silent (.bitmap cb res) := by
  rintro _ _ _ ⟨⟩

theorem Asked.answers (asked : Asked env req p q) : q.answers = p.answers := by
  cases asked <;> rfl

theorem get_chunk_answers (p : Plugin κ) :
    Ends (fun q => q.answers = p.answers) (fun _ => True) (p.getChunk env req) :=
  (get_chunk_ends (fun _ _ => trivial) p).imp fun _ asked => asked.answers

theorem call_answers {transfer : Transfer κ} :
    Ends (fun q => q.answers = p.answers) (fun _ => True) (p.call conn transfer) :=
  (call_ends fun _ => trivial).imp fun _ called => by rw [called.2]

theorem release_conn_answers :
    Ends (fun q => q.answers = p.answers) (fun _ => True) (p.releaseConn conn) :=
  (release_conn_ends fun _ => trivial).imp fun _ released => by
    obtain ⟨_, _, rfl⟩ := released
    rfl

theorem delete_conn_answers :
    Ends (fun q => q.answers = p.answers) (fun _ => True) (p.deleteConn env conn) := by
  refine delete_conn_ends (fun _ _ => trivial) (fun _ => trivial) (fun _ _ => rfl) ?_
  intro _ _ _ before after _ _ same asked
  exact asked.answers.trans same

theorem check_outstanding_answers :
    Ends (fun q => q.answers = p.answers) (fun _ => True) (p.checkOutstanding env conn) := by
  refine check_outstanding_ends (fun _ _ => trivial) (fun _ => trivial) (fun _ _ _ => rfl) ?_
  intro _ _ _ after _ _ asked
  exact asked.answers

theorem get_chunk_int_quiet (offset : ℕ) (data : List UInt8) (s : Option String)
    (conn : Option ConnId) :
    Ends (Quiet p) (fun _ => True) (p.getChunkInt req offset data s conn) := by
  unfold getChunkInt
  cases conn with
  | none => exact trivial
  | some conn =>
    cases s with
    | none => exact call_answers.imp fun _ same => Grows.same same
    | some s =>
      refine call_answers.imp fun q same => ?_
      rw [Quiet, same]
      exact Quiet.refl.answer (silent_error _ s)

/-- Calls one after the other, with what they report. -/
theorem launch_quiet (reqs : List (ChunkReq κ)) (s : Option String) (conn : Option ConnId)
    {start : Plugin κ} (begun : Quiet p start) :
    Ends (Quiet p) (fun _ => True)
      (reqs.foldlM (fun q req => q.getChunkInt req 0 [] s conn) start) :=
  ends_foldlM (fun _ _ _ kept => (get_chunk_int_quiet 0 [] s conn).imp fun _ more => kept.trans more)
    begun

theorem connect_quiet (connected : Bool) (attempt : Attempt κ) :
    Ends (Quiet p) (fun _ => True) (p.connect env connected attempt) := by
  cases attempt with
  | establishConnection key =>
    simp only [connect, establishConnection]
    cases p.pendingConnCache key with
    | none => exact trivial
    | some pendingCbs =>
      cases connected with
      | true =>
        have begun : Quiet p (p.newConn env key) := .refl
        exact (launch_quiet pendingCbs none _ begun).bind fun q (quiet : Quiet p q) => quiet
      | false =>
        have begun : Quiet p p := .refl
        exact (launch_quiet pendingCbs _ none begun).bind fun q (quiet : Quiet p q) => quiet
  | getDescriptorsClnt oid hints cb key =>
    cases connected with
    | true => exact call_answers.imp fun _ same => Grows.same same
    | false => exact Quiet.refl.answer (silent_descriptors _ _)
  | getBitmapClnt oid cb key =>
    cases connected with
    | true => exact call_answers.imp fun _ same => Grows.same same
    | false => exact Quiet.refl.answer (silent_bitmap _ _)

theorem get_descriptors_quiet (oid : List UInt8) (hints : List String) (cb : κ) :
    Ends (Quiet p) (fun _ => True) (p.getDescriptors env oid hints cb) := by
  unfold getDescriptors
  split
  next => exact trivial
  split
  next => exact trivial
  split
  next => exact Quiet.refl
  next => exact (read_conn_ends fun _ => trivial).bind fun _ _ =>
    call_answers.imp fun _ same => Grows.same same

theorem get_bitmap_quiet (oid : List UInt8) (hints : List String) (cb : κ) :
    Ends (Quiet p) (fun _ => True) (p.getBitmap env oid hints cb) := by
  unfold getBitmap
  split
  next => exact trivial
  split
  next => exact trivial
  split
  next => exact Quiet.refl
  next =>
    refine (read_conn_ends fun _ => trivial).bind fun _ _ => ?_
    split
    next => exact trivial
    next => exact call_answers.imp fun _ same => Grows.same same

/-- An operation that calls no callback, and then the callback. -/
theorem answer_quiet {result : Except Fault (Plugin κ)}
    (same : Ends (fun q => q.answers = p.answers) (fun _ => True) result) {a : Answer κ}
    (silent : Silent a) :
    Ends (Quiet p) (fun _ => True) (do
      let q ← result
      .ok (q.answer a)) :=
  same.bind fun q (same : q.answers = p.answers) => Quiet.answer (Grows.same same) silent

theorem get_desc_internal_cb_quiet (oid : List UInt8) (hints : List String) (cb : κ)
    (res : Reply DescriptorsResOk) :
    Ends (Quiet p) (fun _ => True) (p.getDescInternalCb env oid hints cb conn res) := by
  cases res with
  | err clntStat => exact answer_quiet delete_conn_answers (silent_descriptors _ _)
  | notOk errmsg => exact Quiet.refl.answer (silent_descriptors _ _)
  | ok resok =>
    simp only [getDescInternalCb]
    split
    next => exact trivial
    split
    next => exact answer_quiet release_conn_answers (silent_descriptors _ _)
    next => exact answer_quiet call_answers (silent_descriptors _ _)

theorem get_bitmap_internal_cb_quiet (oid : List UInt8) (cb : κ) (bmp : List Bool)
    (res : Reply BitmapResOk) :
    Ends (Quiet p) (fun _ => True) (p.getBitmapInternalCb env oid cb bmp conn res) := by
  cases res with
  | err clntStat => exact answer_quiet delete_conn_answers (silent_bitmap _ _)
  | notOk errmsg => exact Quiet.refl.answer (silent_bitmap _ _)
  | ok resok =>
    simp only [Plugin.getBitmapInternalCb]
    split
    next => exact trivial
    next => exact Quiet.refl.answer (silent_bitmap _ _)
    next => exact call_answers.imp fun _ same => Grows.same same
    next => exact answer_quiet release_conn_answers (silent_bitmap _ _)

theorem reap_conn_entries_quiet (order : List ConnId) :
    Ends (Quiet p) (fun _ => True) (p.reapConnEntries env order) := by
  refine ends_foldlM (fun before conn _ kept => ?_) .refl
  refine (read_conn_ends fun _ => trivial).bind fun _ _ => ?_
  split
  next => exact delete_conn_answers.imp fun _ same => kept.trans (Grows.same same)
  next => exact kept

/-- The chunk that a reply completes, with the request it answers. -/
structure Delivers (hash : List UInt8 → List UInt8) (p : Plugin κ) (event : Event κ)
    (req : ChunkReq κ) (data : List UInt8) : Prop where
  reply : ∃ index resok conn offset before, event = .chunkReply index (.ok resok) ∧
    p.calls[index]? = some ⟨conn, .chunk req offset before⟩ ∧ resok.ended = true ∧
    data = before ++ resok.data
  hashed : hash data = req.d.id

/-- A callback that is given a chunk only if the event completes it. -/
def Justified (hash : List UInt8 → List UInt8) (p : Plugin κ) (event : Event κ) (a : Answer κ) :
    Prop :=
  ∀ cb d data, a = .chunk cb (.ok (d, data)) →
    ∃ req, cb = req.cb ∧ d = req.d ∧ Delivers hash p event req data

theorem chunk_reply_justified (index : ℕ) (res : Reply ChunkResOk) {offset : ℕ}
    {before : List UInt8} (called : p.calls[index]? = some ⟨conn, .chunk req offset before⟩) :
    Ends (fun q => Grows (Justified hash p (.chunkReply index res)) p.answers q.answers)
      (fun _ => True)
      ({ p with calls := p.calls.eraseIdx index }.getChunkInternalCb hash env req before conn res) := by
  have quiet : ∀ q : Plugin κ, Quiet p q →
      Grows (Justified hash p (.chunkReply index res)) p.answers q.answers :=
    fun q grows => grows.imp fun _ silent cb d data delivered => absurd delivered (silent cb d data)
  cases res with
  | err clntStat => exact (answer_quiet delete_conn_answers (silent_error _ _)).imp quiet
  | notOk errmsg =>
    refine quiet _ (Quiet.answer ?_ (silent_error _ _))
    exact Quiet.refl
  | ok resok =>
    simp only [getChunkInternalCb]
    split
    next ended =>
      split
      next differs =>
        refine quiet _ (Quiet.answer ?_ (silent_error _ _))
        exact Quiet.refl
      next same =>
        refine release_conn_answers.bind fun q (released : q.answers = p.answers) => ?_
        refine check_outstanding_answers.imp fun r woken => ?_
        rw [woken, answer, released]
        refine Grows.snoc fun cb d data delivered => ?_
        cases delivered
        exact ⟨req, rfl, rfl, ⟨index, resok, conn, offset, before, rfl, called, ended, rfl⟩,
          (of_not_not same).symm⟩
    next => exact (get_chunk_int_quiet _ _ none (some conn)).imp quiet

/-- A chunk is given to a callback only when a reply completes it and it has the
hash asked for. -/
theorem step_justified (hash : List UInt8 → List UInt8) (p : Plugin κ) (env : Env)
    (event : Event κ) :
    Ends (fun q => Grows (Justified hash p event) p.answers q.answers) (fun _ => True)
      (p.step hash env event) := by
  have quiet : ∀ q : Plugin κ, Quiet p q → Grows (Justified hash p event) p.answers q.answers :=
    fun q grows => grows.imp fun _ silent cb d data delivered => absurd delivered (silent cb d data)
  cases event with
  | getChunk req => exact (get_chunk_answers p).imp fun q same => quiet q (Grows.same same)
  | getDescriptors oid hints cb => exact (get_descriptors_quiet oid hints cb).imp quiet
  | getBitmap oid hints cb => exact (get_bitmap_quiet oid hints cb).imp quiet
  | connect index connected =>
    simp only [Plugin.step]
    split
    next attempt found => exact (connect_quiet connected attempt).imp quiet
    next => exact quiet p .refl
  | chunkReply index res =>
    simp only [Plugin.step]
    split
    next called => exact chunk_reply_justified index res called
    next => exact quiet p .refl
  | descriptorsReply index res =>
    simp only [Plugin.step]
    split
    next => exact (get_desc_internal_cb_quiet _ _ _ res).imp quiet
    next => exact quiet p .refl
  | bitmapReply index res =>
    simp only [Plugin.step]
    split
    next => exact (get_bitmap_internal_cb_quiet _ _ _ res).imp quiet
    next => exact quiet p .refl
  | reap order => exact (reap_conn_entries_quiet order).imp quiet

end Ditto.XferGtc.Plugin
