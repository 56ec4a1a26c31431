import Ditto.ConnectionShape

/-! Where the client asks next. After a reply that is not the last a transfer calls
again, from an offset made of the bytes collected so far or of the reply's own
numbers. The offsets of the calls in flight are tracked through every run, and the
next one lies further on exactly where the reply brings bytes, or ends, cut to 32
bits, behind the position asked for. -/
namespace Ditto.XferGtc
open Words Outcomes Runs

variable {κ : Type} {p q : Plugin κ} {env : Env} {req : ChunkReq κ} {conn : ConnId}
  {event : Event κ} {hash : List UInt8 → List UInt8}

/-- The offset in a call. A chunk is asked for by the bytes that are there, the
others by an `int` that is widened to a `dot_offset`. -/
def Transfer.wireOffset : Transfer κ → ℕ
  | .chunk _ offset _ => offset
  | .descriptors _ _ _ offset => (UInt64.ofInt offset).toNat
  | .bitmap _ _ offset _ => (UInt64.ofInt offset).toNat

/-- A chunk is asked for from where its bytes end, the others from an `int`. -/
def Transfer.Tracked : Transfer κ → Prop
  | .chunk _ offset data => offset = data.length
  | .descriptors _ _ _ offset => ∃ word, offset = toInt word
  | .bitmap _ _ offset _ => ∃ word, offset = toInt word

/-- Widening an `int` to 64 bits keeps the order of the words. -/
theorem wire_lt_iff (word other : UInt32) :
    (UInt64.ofInt (toInt word)).toNat < (UInt64.ofInt (toInt other)).toNat ↔
      word.toNat < other.toNat := by
  have bound := word.toNat_lt
  have bound' := other.toNat_lt
  rw [UInt64.ofInt, UInt64.ofInt, UInt64.toNat_ofNat', UInt64.toNat_ofNat', toInt, toInt]
  split <;> split <;> omega

namespace Plugin

def Tracked (p : Plugin κ) : Prop := ∀ c ∈ p.calls, c.transfer.Tracked

theorem Tracked.init : Tracked (init κ) :=
  List.forall_mem_nil _

theorem Tracked.congr (tracked : Tracked p) (calls : q.calls = p.calls) : Tracked q := by
  rw [Tracked, calls]
  exact tracked

theorem Tracked.snoc (tracked : Tracked p) {c : Call κ} (here : c.transfer.Tracked)
    (calls : q.calls = p.calls ++ [c]) : Tracked q := by
  rw [Tracked, calls]
  exact List.forall_mem_append.mpr ⟨tracked, List.forall_mem_singleton.mpr here⟩

theorem Tracked.without_call (tracked : Tracked p) (index : ℕ) : Tracked (p.withoutCall index) :=
  fun c member => tracked c ((List.eraseIdx_sublist _ _).subset member)

theorem Tracked.call {transfer : Transfer κ} (tracked : Tracked p) (here : transfer.Tracked) :
    Ends Tracked (fun _ => True) (p.call conn transfer) := by
  apply (call_ends fun _ => trivial).imp
  rintro after ⟨_, rfl⟩
  exact tracked.snoc (c := ⟨conn, transfer⟩) here rfl

/-- A transfer that joins a connection. -/
theorem Tracked.join (tracked : Tracked p) (env : Env) (conn : ConnId) (entry : ConnEntry κ)
    {transfer : Transfer κ} (here : transfer.Tracked) :
    Ends Tracked (fun _ => True)
      ((p.writeConn conn { entry with refcount := entry.refcount + 1, tv := env.now }).call conn
        transfer) := by
  have stamped : Tracked (p.writeConn conn { entry with refcount := entry.refcount + 1, tv := env.now }) :=
    tracked.congr rfl
  exact stamped.call here

theorem Tracked.asked (tracked : Tracked p) (asked : Asked env req p q) : Tracked q := by
  cases asked with
  | queued pending attempts absent => exact tracked.congr rfl
  | joined key conn entry absent routed found held => exact tracked.snoc (c := ⟨conn, .chunk req 0 []⟩) rfl rfl
  | parked conn entry found held full => exact tracked.congr rfl
  | started conn entry found held room => exact tracked.snoc (c := ⟨conn, .chunk req 0 []⟩) rfl rfl

theorem Tracked.delete (tracked : Tracked p) (env : Env) (conn : ConnId) :
    Ends Tracked (fun _ => True) (p.deleteConn env conn) := by
  apply delete_conn_ends (fun _ _ => trivial) (fun _ => trivial)
  · exact fun _ _ => tracked.congr rfl
  · intro _ req index before after _ _ kept asked
    have noted : Tracked (before.noteResumed conn index) := kept.congr rfl
    exact noted.asked asked

theorem Tracked.release (tracked : Tracked p) (conn : ConnId) :
    Ends Tracked (fun _ => True) (p.releaseConn conn) := by
  apply (release_conn_ends fun _ => trivial).imp
  rintro after ⟨entry, _, rfl⟩
  exact tracked.congr rfl

theorem Tracked.check_outstanding (tracked : Tracked p) (env : Env) (conn : ConnId) :
    Ends Tracked (fun _ => True) (p.checkOutstanding env conn) := by
  apply check_outstanding_ends (fun _ _ => trivial) (fun _ => trivial)
  · exact fun _ _ _ => tracked
  · intro entry req index after _ _ asked
    have taken : Tracked ((p.writeConn conn { entry with
        waitCb := entry.waitCb.set index none }).noteResumed conn index) := tracked.congr rfl
    exact taken.asked asked

/-! ## The callbacks -/

/-- What a reply that is not the last makes of the calls. -/
def Resumes (p : Plugin κ) (conn : ConnId) (transfer : Transfer κ) (q : Plugin κ) : Prop :=
  q.calls = p.calls ++ [⟨conn, transfer⟩]

theorem call_resumes (p : Plugin κ) (conn : ConnId) (transfer : Transfer κ) :
    Ends (p.Resumes conn transfer) (fun _ => True) (p.call conn transfer) := by
  apply (call_ends fun _ => trivial).imp
  rintro after ⟨_, rfl⟩
  exact rfl

theorem chunk_resumes {resok : ChunkResOk} (more : resok.ended = false) (data : List UInt8) :
    Ends (p.Resumes conn (.chunk req (data ++ resok.data).length (data ++ resok.data)))
      (fun _ => True) (p.getChunkInternalCb hash env req data conn (.ok resok)) := by
  simp only [getChunkInternalCb, more, Bool.false_eq_true, if_false]
  exact call_resumes p conn _

theorem desc_resumes {resok : DescriptorsResOk} (more : resok.ended = false) (oid : List UInt8)
    (hints : List String) (cb : κ) :
    Ends (p.Resumes conn (.descriptors oid hints cb
        (toInt (resok.count.toUInt64 + resok.offset).toUInt32))) (fun _ => True)
      (p.getDescInternalCb env oid hints cb conn (.ok resok)) := by
  simp only [getDescInternalCb, more, Bool.false_eq_true, if_false]
  split
  · trivial
  · exact (call_resumes p conn _).bind fun _ resumes => resumes

/-- What is done with a bitmap reply that was unpacked: the last one is handed on, and
after another the client calls again from the end of its bits. -/
theorem unpacked_next {resok : BitmapResOk} {bmp : List Bool} {next : BitmapNext}
    (unpacked : XferGtc.getBitmapInternalCb (.ok resok) bmp = some next) :
    ∃ bmp', next = if resok.ended then .finished bmp'
      else .again (toInt (resok.count.toUInt64 + resok.offset).toUInt32) bmp' := by
  simp only [XferGtc.getBitmapInternalCb, Option.bind_eq_bind] at unpacked
  obtain ⟨bmpTmp, _, unpacked⟩ := Option.bind_eq_some_iff.mp unpacked
  by_cases wraps : resok.count.toUInt64 + resok.offset < resok.offset
  · rw [if_pos wraps] at unpacked
    cases unpacked
  · rw [if_neg wraps] at unpacked
    exact ⟨_, (Option.some_inj.mp unpacked).symm⟩

theorem bitmap_resumes {resok : BitmapResOk} (more : resok.ended = false) (oid : List UInt8) (cb : κ)
    (bmp : List Bool) :
    Ends (fun q => ∃ bmp', p.Resumes conn (.bitmap oid cb
        (toInt (resok.count.toUInt64 + resok.offset).toUInt32) bmp') q) (fun _ => True)
      (p.getBitmapInternalCb env oid cb bmp conn (.ok resok)) := by
  simp only [Plugin.getBitmapInternalCb]
  cases unpacked : XferGtc.getBitmapInternalCb (.ok resok) bmp with
  | none => trivial
  | some next =>
    obtain ⟨bmp', rfl⟩ := unpacked_next unpacked
    simp only [more, Bool.false_eq_true, if_false]
    exact (call_resumes p conn _).imp fun _ resumes => ⟨bmp', resumes⟩

theorem Tracked.answer (tracked : Tracked p) (a : Answer κ) : Tracked (p.answer a) :=
  tracked.congr rfl

theorem Tracked.resumes {transfer : Transfer κ} (tracked : Tracked p)
    (resumes : p.Resumes conn transfer q) (here : transfer.Tracked) : Tracked q :=
  tracked.snoc (c := ⟨conn, transfer⟩) here resumes

theorem Tracked.chunk_reply (tracked : Tracked p) (data : List UInt8) (conn : ConnId)
    (res : Reply ChunkResOk) :
    Ends Tracked (fun _ => True) (p.getChunkInternalCb hash env req data conn res) := by
  cases res with
  | err clntStat => exact (tracked.delete env conn).bind fun _ kept => kept.answer _
  | notOk errmsg => exact tracked.answer _
  | ok resok =>
    cases ended : resok.ended with
    | false => exact (chunk_resumes ended data).imp fun _ resumes => tracked.resumes resumes rfl
    | true =>
      simp only [getChunkInternalCb, ended, if_true]
      split
      · exact tracked.answer _
      · exact (tracked.release conn).bind fun _ kept => (kept.answer _).check_outstanding env conn

theorem Tracked.desc_reply (tracked : Tracked p) (oid : List UInt8) (hints : List String) (cb : κ)
    (conn : ConnId) (res : Reply DescriptorsResOk) :
    Ends Tracked (fun _ => True) (p.getDescInternalCb env oid hints cb conn res) := by
  cases res with
  | err clntStat => exact (tracked.delete env conn).bind fun _ kept => kept.answer _
  | notOk errmsg => exact tracked.answer _
  | ok resok =>
    cases ended : resok.ended with
    | false =>
      exact (desc_resumes ended oid hints cb).imp fun _ resumes => tracked.resumes resumes ⟨_, rfl⟩
    | true =>
      simp only [getDescInternalCb, ended, if_true]
      split
      · trivial
      · exact (tracked.release conn).bind fun _ kept => kept.answer _

theorem Tracked.bitmap_reply (tracked : Tracked p) (oid : List UInt8) (cb : κ) (bmp : List Bool)
    (conn : ConnId) (res : Reply BitmapResOk) :
    Ends Tracked (fun _ => True) (p.getBitmapInternalCb env oid cb bmp conn res) := by
  cases res with
  | err clntStat => exact (tracked.delete env conn).bind fun _ kept => kept.answer _
  | notOk errmsg => exact tracked.answer _
  | ok resok =>
    cases ended : resok.ended with
    | false =>
      apply (bitmap_resumes ended oid cb bmp).imp
      rintro q ⟨bmp', resumes⟩
      exact tracked.resumes resumes ⟨_, rfl⟩
    | true =>
      simp only [Plugin.getBitmapInternalCb]
      cases unpacked : XferGtc.getBitmapInternalCb (.ok resok) bmp with
      | none => trivial
      | some next =>
        obtain ⟨bmp', rfl⟩ := unpacked_next unpacked
        simp only [ended, if_true]
        exact (tracked.release conn).bind fun _ kept => kept.answer _

/-! ## Runs -/

theorem Tracked.connect (tracked : Tracked p) (connected : Bool) (attempt : Attempt κ) :
    Ends Tracked (fun _ => True) (p.connect env connected attempt) := by
  apply connect_ends (fun _ _ => trivial)
  · exact fun q alike => tracked.congr alike.calls
  · intro _ q alike
    rw [Tracked, alike.calls]
    refine List.forall_mem_append.mpr ⟨tracked, fun c member => ?_⟩
    obtain ⟨transfer, sent, rfl⟩ := List.mem_map.mp member
    cases attempt with
    | establishConnection key =>
      obtain ⟨req, _, rfl⟩ := List.mem_map.mp sent
      exact rfl
    | getDescriptorsClnt oid hints cb key =>
      obtain rfl := List.mem_singleton.mp sent
      exact ⟨0, rfl⟩
    | getBitmapClnt oid cb key =>
      obtain rfl := List.mem_singleton.mp sent
      exact ⟨0, rfl⟩

theorem Tracked.step (tracked : Tracked p) (hash : List UInt8 → List UInt8) (env : Env)
    (event : Event κ) : Ends Tracked (fun _ => True) (p.step hash env event) := by
  cases event with
  | getChunk req =>
    exact (get_chunk_ends (fun _ _ => trivial) p).imp fun _ asked => tracked.asked asked
  | getDescriptors oid hints cb =>
    simp only [Plugin.step, getDescriptors]
    split
    next => trivial
    split
    next => trivial
    split
    next => exact tracked.congr rfl
    next conn _ =>
      apply (read_conn_ends fun _ => trivial).bind
      intro entry _
      exact tracked.join env conn entry ⟨0, rfl⟩
  | getBitmap oid hints cb =>
    simp only [Plugin.step, getBitmap]
    split
    next => trivial
    split
    next => trivial
    split
    next => exact tracked.congr rfl
    next conn _ =>
      apply (read_conn_ends fun _ => trivial).bind
      intro entry _
      split
      next => trivial
      next => exact tracked.join env conn entry ⟨0, rfl⟩
  | connect index connected =>
    simp only [Plugin.step]
    split
    next attempt found =>
      have taken : Tracked ({ p with attempts := p.attempts.eraseIdx index } : Plugin κ) :=
        tracked.congr rfl
      exact taken.connect connected attempt
    next => exact tracked
  | chunkReply index res =>
    simp only [Plugin.step]
    split
    next => exact (tracked.without_call index).chunk_reply _ _ res
    next => exact tracked
  | descriptorsReply index res =>
    simp only [Plugin.step]
    split
    next => exact (tracked.without_call index).desc_reply _ _ _ _ res
    next => exact tracked
  | bitmapReply index res =>
    simp only [Plugin.step]
    split
    next => exact (tracked.without_call index).bitmap_reply _ _ _ _ res
    next => exact tracked
  | reap order =>
    apply ends_foldlM
    · intro q conn _ kept
      apply (read_conn_ends fun _ => trivial).bind
      intro entry _
      split
      next => exact kept.delete env conn
      next => exact kept
    · exact tracked

/-- An accepted reply that is not the last is answered by a request for a later position, on
the same connection. -/
def Progresses (hash : List UInt8 → List UInt8) (p : Plugin κ) (e : Env × Event κ) (q : Plugin κ) :
    Prop :=
  ∀ index c, Completes hash p e.2 index c .continued →
    ∃ transfer, (p.withoutCall index).Resumes c.conn transfer q ∧
      c.transfer.wireOffset < transfer.wireOffset

/-- The reply brings bytes of a chunk, or ends behind the position it was asked for, in the
32 bits that the client keeps of it. -/
def Advances (p : Plugin κ) : Event κ → Prop
  | .chunkReply index (.ok resok) =>
    match p.calls[index]? with
    | some ⟨_, .chunk ..⟩ => resok.ended = true ∨ resok.data ≠ []
    | _ => True
  | .descriptorsReply index (.ok resok) =>
    match p.calls[index]? with
    | some ⟨_, .descriptors _ _ _ offset⟩ => resok.ended = true ∨
        (UInt32.ofInt offset).toNat < (resok.count.toNat + resok.offset.toNat) % 2 ^ 32
    | _ => True
  | .bitmapReply index (.ok resok) =>
    match p.calls[index]? with
    | some ⟨_, .bitmap _ _ offset _⟩ => resok.ended = true ∨
        (UInt32.ofInt offset).toNat < (resok.count.toNat + resok.offset.toNat) % 2 ^ 32
    | _ => True
  | _ => True

/-- Nothing is claimed of an event that is no reply. -/
theorem progresses_unreplied {e : Env × Event κ} (unreplied : e.2.replyTo = none) :
    Progresses hash p e q := by
  intro index c completes
  cases unreplied.symm.trans completes.replies

theorem progresses_absent {e : Env × Event κ} {index : ℕ} (replies : e.2.replyTo = some index)
    (absent : p.calls[index]? = none) : Progresses hash p e q := by
  intro index' c completes
  obtain rfl := Option.some_inj.mp (replies.symm.trans completes.replies)
  cases absent.symm.trans completes.called

/-- Nor of a reply that does not continue its call. -/
theorem progresses_otherwise {e : Env × Event κ} {index : ℕ} {c : Call κ}
    (replies : e.2.replyTo = some index) (called : p.calls[index]? = some c)
    (otherwise : e.2.completion hash c.transfer ≠ some .continued) : Progresses hash p e q := by
  intro index' c' completes
  obtain rfl := Option.some_inj.mp (replies.symm.trans completes.replies)
  obtain rfl := Option.some_inj.mp (called.symm.trans completes.called)
  exact absurd completes.ends otherwise

/-- With the call and the transfer that follows it known, progress is a comparison. -/
theorem progresses_iff {e : Env × Event κ} {index : ℕ} {c : Call κ} {transfer : Transfer κ}
    (completes : Completes hash p e.2 index c .continued)
    (resumes : (p.withoutCall index).Resumes c.conn transfer q) :
    Progresses hash p e q ↔ c.transfer.wireOffset < transfer.wireOffset := by
  constructor
  · intro progresses
    obtain ⟨transfer', resumes', later⟩ := progresses index c completes
    have same := List.append_cancel_left (resumes.symm.trans resumes')
    cases same
    exact later
  · intro later index' c' completes'
    obtain rfl := Option.some_inj.mp (completes.replies.symm.trans completes'.replies)
    obtain rfl := Option.some_inj.mp (completes.called.symm.trans completes'.called)
    exact ⟨transfer, resumes, later⟩

/-- The next `int` offset, as the reply's numbers make it. -/
theorem next_wire_lt_iff (word : UInt32) (count : UInt32) (offset : UInt64) :
    (UInt64.ofInt (toInt word)).toNat <
        (UInt64.ofInt (toInt (count.toUInt64 + offset).toUInt32)).toNat ↔
      (UInt32.ofInt (toInt word)).toNat < (count.toNat + offset.toNat) % 2 ^ 32 := by
  rw [wire_lt_iff, ofInt_toInt, UInt64.toNat_toUInt32, UInt64.toNat_add, UInt32.toNat_toUInt64,
    Nat.mod_mod_of_dvd _ (by decide : 2 ^ 32 ∣ 2 ^ 64)]

theorem chunk_progresses_iff {index : ℕ} {resok : ChunkResOk} (tracked : Tracked p)
    (ran : p.next hash (env, .chunkReply index (.ok resok)) = some q) :
    Progresses hash p (env, .chunkReply index (.ok resok)) q ↔
      p.Advances (.chunkReply index (.ok resok)) := by
  have ran := next_eq_some ran
  cases called : p.calls[index]? with
  | none =>
    simp only [Advances, called]
    exact iff_of_true (progresses_absent rfl called) trivial
  | some c =>
    obtain ⟨conn, transfer⟩ := c
    simp only [Advances, called]
    cases transfer with
    | descriptors | bitmap =>
      exact iff_of_true (progresses_otherwise rfl called fun continued => by cases continued) trivial
    | chunk req offset data =>
      cases ended : resok.ended with
      | true =>
        refine iff_of_true (progresses_otherwise rfl called ?_) (.inl rfl)
        simp only [Event.completion, ended, if_true]
        split <;> exact fun continued => by cases continued
      | false =>
        have placed : offset = data.length := tracked _ (List.mem_of_getElem? called)
        simp only [Plugin.step, called] at ran
        have resumes := (chunk_resumes (p := p.withoutCall index) ended data).of_ok ran
        have completes : Completes hash p (.chunkReply index (.ok resok)) index
            ⟨conn, .chunk req offset data⟩ .continued :=
          ⟨rfl, called, by simp [Event.completion, ended]⟩
        rw [progresses_iff completes resumes]
        simp only [Transfer.wireOffset, Bool.false_eq_true, false_or, placed, List.length_append]
        rw [Nat.lt_add_right_iff_pos, List.length_pos_iff]

theorem desc_progresses_iff {index : ℕ} {resok : DescriptorsResOk} (tracked : Tracked p)
    (ran : p.next hash (env, .descriptorsReply index (.ok resok)) = some q) :
    Progresses hash p (env, .descriptorsReply index (.ok resok)) q ↔
      p.Advances (.descriptorsReply index (.ok resok)) := by
  have ran := next_eq_some ran
  cases called : p.calls[index]? with
  | none =>
    simp only [Advances, called]
    exact iff_of_true (progresses_absent rfl called) trivial
  | some c =>
    obtain ⟨conn, transfer⟩ := c
    simp only [Advances, called]
    cases transfer with
    | chunk | bitmap => exact iff_of_true (progresses_otherwise rfl called fun continued => by cases continued) trivial
    | descriptors oid hints cb offset =>
      cases ended : resok.ended with
      | true =>
        refine iff_of_true (progresses_otherwise rfl called ?_) (.inl rfl)
        simp [Event.completion, ended]
      | false =>
        obtain ⟨word, rfl⟩ : ∃ word, offset = toInt word := tracked _ (List.mem_of_getElem? called)
        simp only [Plugin.step, called] at ran
        have resumes := (desc_resumes (p := p.withoutCall index) ended oid hints cb).of_ok ran
        have completes : Completes hash p (.descriptorsReply index (.ok resok)) index
            ⟨conn, .descriptors oid hints cb (toInt word)⟩ .continued :=
          ⟨rfl, called, by simp [Event.completion, ended]⟩
        rw [progresses_iff completes resumes]
        simp only [Transfer.wireOffset, Bool.false_eq_true, false_or, next_wire_lt_iff]

theorem bitmap_progresses_iff {index : ℕ} {resok : BitmapResOk} (tracked : Tracked p)
    (ran : p.next hash (env, .bitmapReply index (.ok resok)) = some q) :
    Progresses hash p (env, .bitmapReply index (.ok resok)) q ↔
      p.Advances (.bitmapReply index (.ok resok)) := by
  have ran := next_eq_some ran
  cases called : p.calls[index]? with
  | none =>
    simp only [Advances, called]
    exact iff_of_true (progresses_absent rfl called) trivial
  | some c =>
    obtain ⟨conn, transfer⟩ := c
    simp only [Advances, called]
    cases transfer with
    | chunk | descriptors =>
      exact iff_of_true (progresses_otherwise rfl called fun continued => by cases continued) trivial
    | bitmap oid cb offset bmp =>
      cases ended : resok.ended with
      | true =>
        refine iff_of_true (progresses_otherwise rfl called ?_) (.inl rfl)
        simp [Event.completion, ended]
      | false =>
        obtain ⟨word, rfl⟩ : ∃ word, offset = toInt word := tracked _ (List.mem_of_getElem? called)
        simp only [Plugin.step, called] at ran
        obtain ⟨bmp', resumes⟩ := (bitmap_resumes (p := p.withoutCall index) ended oid cb bmp).of_ok ran
        have completes : Completes hash p (.bitmapReply index (.ok resok)) index
            ⟨conn, .bitmap oid cb (toInt word) bmp⟩ .continued :=
          ⟨rfl, called, by simp [Event.completion, ended]⟩
        rw [progresses_iff completes resumes]
        simp only [Transfer.wireOffset, Bool.false_eq_true, false_or, next_wire_lt_iff]

/-- A reply without a result continues nothing. -/
theorem progresses_unanswered {e : Env × Event κ} {index : ℕ} (replies : e.2.replyTo = some index)
    (ends : ∀ transfer, e.2.completion hash transfer ≠ some .continued) : Progresses hash p e q := by
  cases called : p.calls[index]? with
  | none => exact progresses_absent replies called
  | some c => exact progresses_otherwise replies called (ends c.transfer)

/-- One step makes progress exactly if its reply advances. -/
theorem step_progresses_iff {e : Env × Event κ} (tracked : Tracked p)
    (ran : p.next hash e = some q) : Progresses hash p e q ↔ p.Advances e.2 := by
  obtain ⟨env, event⟩ := e
  cases event with
  | chunkReply index res =>
    cases res with
    | ok resok => exact chunk_progresses_iff tracked ran
    | err | notOk =>
      refine iff_of_true (progresses_unanswered rfl fun transfer => ?_) trivial
      cases transfer <;> nofun
  | descriptorsReply index res =>
    cases res with
    | ok resok => exact desc_progresses_iff tracked ran
    | err | notOk =>
      refine iff_of_true (progresses_unanswered rfl fun transfer => ?_) trivial
      cases transfer <;> nofun
  | bitmapReply index res =>
    cases res with
    | ok resok => exact bitmap_progresses_iff tracked ran
    | err | notOk =>
      refine iff_of_true (progresses_unanswered rfl fun transfer => ?_) trivial
      cases transfer <;> nofun
  | getChunk | getDescriptors | getBitmap | connect | reap =>
    exact iff_of_true (progresses_unreplied rfl) trivial

/-- Over any run, every transfer moves on exactly if every reply advances. -/
theorem run_progresses_iff (hash : List UInt8 → List UInt8) (events : List (Env × Event κ)) :
    Always (next hash) (Progresses hash) (init κ) events ↔
      Always (next hash) (fun p e _ => p.Advances e.2) (init κ) events := by
  apply @always_iff _ _ _ _ Tracked _ fun _ _ => True
  case initial => exact Tracked.init
  case exact => exact fun _ _ _ tracked _ ran => step_progresses_iff tracked ran
  case kept => exact fun p e q tracked _ _ ran => (tracked.step hash e.1 e.2).of_ok (next_eq_some ran)
  case within => exact .trivial

/-- A peer that answers the only call, for a chunk, with no bytes and no end leaves the plugin
as it is, with the same call in flight. -/
theorem empty_reply_stays {data : List UInt8} {entry : ConnEntry κ}
    (called : p.calls = [⟨conn, .chunk req data.length data⟩]) (held : p.conns conn = some entry) :
    p.next hash (env, .chunkReply 0 (.ok { data := [], ended := false })) = some p := by
  have continued : p.step hash env (.chunkReply 0 (.ok { data := [], ended := false })) =
      .ok { p with calls := [⟨conn, .chunk req data.length data⟩] } := by
    simp only [Plugin.step, called, List.getElem?_cons_zero, getChunkInternalCb, getChunkInt, call,
      readConn, held, bind, Except.bind]
    simp
  rw [next, continued, ← called]
  rfl

/-- However often it does so, the transfer is where it was. -/
theorem empty_replies_stay {data : List UInt8} {entry : ConnEntry κ}
    (called : p.calls = [⟨conn, .chunk req data.length data⟩]) (held : p.conns conn = some entry)
    (n : ℕ) :
    (List.replicate n (env, Event.chunkReply 0 (.ok { data := [], ended := false }))).foldlM
      (next hash) p = some p := by
  induction n with
  | zero => rfl
  | succ n ih =>
    rw [List.replicate_succ, List.foldlM_cons, empty_reply_stays called held]
    exact ih

/-- A peer answers a request for a chunk with no bytes and no end, and is asked for the same
position again. -/
theorem empty_reply_asks_again :
    ¬ Always (next id) (Progresses id) (init Unit)
      [(smallEnv, .getChunk (smallReq "a")), (smallEnv, .connect 0 true),
        (smallEnv, .chunkReply 0 (.ok { data := [], ended := false }))] := by
  intro always
  obtain ⟨_, always⟩ := always _ rfl
  obtain ⟨_, always⟩ := always _ one_conn_opens
  obtain ⟨progresses, _⟩ := always _ rfl
  obtain ⟨transfer, resumes, later⟩ := progresses 0 smallChunk ⟨rfl, rfl, rfl⟩
  cases resumes
  exact Nat.lt_irrefl 0 later

end Plugin
end Ditto.XferGtc
