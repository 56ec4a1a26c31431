import Mathlib.Data.List.Perm.Basic
import Ditto.ConnectionShape

/-! The reference counts. A connection is born with a count of one, requests and
completions move it, and refused replies do not; it is the number of transfers
in flight as long as each connection opens with one transfer and no reply is
refused. -/
namespace Ditto.XferGtc
open Outcomes Runs

variable {κ : Type} {p q : Plugin κ} {env : Env} {req : ChunkReq κ} {conn other : ConnId}
  {entry : ConnEntry κ} {hash : List UInt8 → List UInt8} {e : Env × Event κ} {c : Call κ}

/-- The transfers among `calls` on a connection. -/
def transfersOn (calls : List (Call κ)) (conn : ConnId) : ℕ :=
  calls.countP fun c => c.conn == conn

/-- The chunk transfers among them. -/
def chunksOn (calls : List (Call κ)) (conn : ConnId) : ℕ :=
  calls.countP fun c => c.conn == conn && c.transfer.isChunk

theorem chunks_on_le (calls : List (Call κ)) (conn : ConnId) :
    chunksOn calls conn ≤ transfersOn calls conn :=
  List.countP_mono_left fun _ _ counted => (Bool.and_eq_true_iff.mp counted).1

theorem transfers_on_append (calls sent : List (Call κ)) (conn : ConnId) :
    transfersOn (calls ++ sent) conn = transfersOn calls conn + transfersOn sent conn :=
  List.countP_append

theorem chunks_on_append (calls sent : List (Call κ)) (conn : ConnId) :
    chunksOn (calls ++ sent) conn = chunksOn calls conn + chunksOn sent conn :=
  List.countP_append

theorem transfers_on_one (c : Call κ) (conn : ConnId) :
    transfersOn [c] conn = if c.conn = conn then 1 else 0 := by
  simp [transfersOn, List.countP_cons]

theorem transfers_on_elsewhere {calls : List (Call κ)} (elsewhere : ∀ c ∈ calls, c.conn ≠ conn) :
    transfersOn calls conn = 0 :=
  List.countP_eq_zero.mpr fun c member => by simpa using elsewhere c member

/-- Taking out one call. -/
theorem erase_call_perm {calls : List (Call κ)} {index : ℕ} (called : calls[index]? = some c) :
    (c :: calls.eraseIdx index).Perm calls := by
  obtain ⟨inside, rfl⟩ := List.getElem?_eq_some_iff.mp called
  exact List.getElem_cons_eraseIdx_perm inside

theorem transfers_on_erase {calls : List (Call κ)} {index : ℕ} (called : calls[index]? = some c)
    (conn : ConnId) :
    transfersOn (calls.eraseIdx index) conn + (if c.conn = conn then 1 else 0) =
      transfersOn calls conn := by
  have counted := (erase_call_perm called).countP_eq fun c => c.conn == conn
  simpa [transfersOn, List.countP_cons] using counted

/-- Replacing a call by one of its kind on its connection. -/
theorem replace_call {calls : List (Call κ)} {index : ℕ} {transfer : Transfer κ}
    (called : calls[index]? = some c) (same : transfer.isChunk = c.transfer.isChunk) (conn : ConnId) :
    transfersOn (calls.eraseIdx index ++ [⟨c.conn, transfer⟩]) conn = transfersOn calls conn ∧
      chunksOn (calls.eraseIdx index ++ [⟨c.conn, transfer⟩]) conn = chunksOn calls conn := by
  have perm := erase_call_perm called
  have transfers := perm.countP_eq fun c => c.conn == conn
  have chunks := perm.countP_eq fun c => c.conn == conn && c.transfer.isChunk
  rw [List.countP_cons] at transfers chunks
  simp [transfersOn, chunksOn, ← transfers, ← chunks, List.countP_append, List.countP_cons, same]

theorem chunks_on_erase_le (calls : List (Call κ)) (index : ℕ) (conn : ConnId) :
    chunksOn (calls.eraseIdx index) conn ≤ chunksOn calls conn :=
  (List.eraseIdx_sublist _ _).countP_le

namespace Plugin

/-- Every count is the number of transfers in flight, and no connection has too
many chunks in flight. -/
structure Counted (p : Plugin κ) : Prop where
  refcount : ∀ conn entry, p.conns conn = some entry → entry.refcount = transfersOn p.calls conn
  limit : ∀ conn entry, p.conns conn = some entry → chunksOn p.calls conn ≤ maxRpcsInFlight

/-- The step opens no connection with another number of transfers than one, brings no
refusal on a live connection, and sends requests only to ports that fit an `int`. -/
structure Balanced (hash : List UInt8 → List UInt8) (p : Plugin κ) (e : Env × Event κ) : Prop where
  opening : ∀ index attempt, e.2 = .connect index true → p.attempts[index]? = some attempt →
    (p.transfers attempt).length = 1
  replying : ∀ index c, Completes hash p e.2 index c .refused → p.conns c.conn = none
  asking : ∀ req, Asks hash p e.1 e.2 req → PortFits e.1 req

/-- A connection's count may move with its calls. -/
theorem Counted.moved (counted : Counted p)
    (moved : ∀ conn entry, q.conns conn = some entry → ∃ old, p.conns conn = some old ∧
      entry.refcount - transfersOn q.calls conn = old.refcount - transfersOn p.calls conn ∧
      (chunksOn q.calls conn ≤ chunksOn p.calls conn ∨ entry.refcount ≤ maxRpcsInFlight)) :
    Counted q := by
  have exactly (conn : ConnId) (entry : ConnEntry κ) (held : q.conns conn = some entry) :
      entry.refcount = transfersOn q.calls conn := by
    obtain ⟨old, before, same, _⟩ := moved conn entry held
    have := counted.refcount conn old before
    omega
  refine ⟨exactly, fun conn entry held => ?_⟩
  obtain ⟨old, before, _, fewer | room⟩ := moved conn entry held
  · have := counted.limit conn old before
    omega
  · have := exactly conn entry held
    have := chunks_on_le q.calls conn
    omega

theorem Counted.alike (counted : Counted p) (conns : q.conns = p.conns) (calls : q.calls = p.calls) :
    Counted q := by
  refine counted.moved fun conn entry held => ⟨entry, conns ▸ held, ?_⟩
  rw [calls]
  exact ⟨rfl, .inl (Nat.le_refl _)⟩

/-- One more transfer on a connection, and one more in its count. -/
theorem Counted.start {transfer : Transfer κ} (counted : Counted p) (held : p.conns conn = some entry)
    (room : transfer.isChunk = true → entry.refcount < maxRpcsInFlight) (tv : ℤ) :
    Counted { p.writeConn conn { entry with refcount := entry.refcount + 1, tv := tv } with
      calls := p.calls ++ [⟨conn, transfer⟩] } := by
  refine counted.moved fun other updated held' => ?_
  simp only [transfers_on_append, chunks_on_append, transfers_on_one]
  obtain ⟨rfl, rfl⟩ | ⟨different, before⟩ := update_held held'
  · refine ⟨entry, held, by simp, ?_⟩
    cases isChunk : transfer.isChunk with
    | true => exact .inr (room isChunk)
    | false => exact .inl (by simp [chunksOn, isChunk])
  · refine ⟨updated, before, by simp [Ne.symm different], .inl ?_⟩
    simp [chunksOn, Ne.symm different]

theorem Counted.asked (counted : Counted p) (fits : PortFits env req) (asked : Asked env req p q) : Counted q := by
  cases asked with
  | queued pending attempts absent => exact counted.alike rfl rfl
  | joined key conn entry absent routed found held =>
    rw [target_routed fits routed, found] at absent
    cases absent
  | parked conn entry found held full =>
    refine counted.moved fun other updated held' => ?_
    obtain ⟨rfl, rfl⟩ | ⟨_, before⟩ := update_held held'
    · exact ⟨entry, held, rfl, .inl (Nat.le_refl _)⟩
    · exact ⟨updated, before, rfl, .inl (Nat.le_refl _)⟩
  | started conn entry found held room => exact counted.start held (fun _ => room) env.now

theorem Counted.drop (counted : Counted p) (conn : ConnId) : Counted (p.dropConn conn) :=
  counted.moved fun _ entry held =>
    ⟨entry, (update_none_held held).2, rfl, .inl (Nat.le_refl _)⟩

theorem Counted.delete (counted : Counted (p.dropConn conn))
    (fits : ∀ (entry : ConnEntry κ) (req : ChunkReq κ) (index : ℕ), p.conns conn = some entry →
      entry.waitCb[index]? = some (some req) → PortFits env req) :
    Ends Counted (fun _ => True) (p.deleteConn env conn) := by
  refine delete_conn_ends (fun _ _ => trivial) (fun _ => trivial) (fun _ _ => counted) ?_
  intro entry req index before after held waits counted asked
  exact (counted.alike (q := before.noteResumed conn index) rfl rfl).asked (fits entry req index held waits) asked

/-- A call is over, and the connections are as before except that its own, if it
is still there, was released. -/
theorem Counted.complete {index : ℕ} (counted : Counted p) (called : p.calls[index]? = some c)
    (calls : q.calls = p.calls.eraseIdx index)
    (conns : ∀ conn entry, q.conns conn = some entry → ∃ old, p.conns conn = some old ∧
      entry.refcount = old.refcount - if c.conn = conn then 1 else 0) : Counted q := by
  refine counted.moved fun conn entry held => ?_
  obtain ⟨old, before, released⟩ := conns conn entry held
  have erased := transfers_on_erase called conn
  refine ⟨old, before, ?_, .inl (calls ▸ chunks_on_erase_le p.calls index conn)⟩
  rw [calls, released, ← erased]
  split
  · push_cast
    omega
  · simp

/-- A reply, from a plugin whose counts are exact, that is no refusal on a live
connection. -/
theorem Counted.course {index : ℕ} {how : Completion} {event : Event κ} {result : Except Fault (Plugin κ)}
    (counted : Counted p) (completes : Completes hash p event index c how)
    (accepted : how = .refused → p.conns c.conn = none)
    (fits : ∀ req, Asks hash p env event req → PortFits env req)
    (course : Course env (p.withoutCall index) c how result) :
    Ends Counted (fun _ => True) result := by
  have called := completes.called
  have issued (transfer : Transfer κ) (same : transfer.isChunk = c.transfer.isChunk) :
      Ends Counted (fun _ => True) ((p.withoutCall index).call c.conn transfer) := by
    refine (call_ends fun _ => trivial).imp fun q ⟨_, sent⟩ => ?_
    subst sent
    refine counted.moved fun conn entry held => ⟨entry, held, ?_⟩
    obtain ⟨transfers, chunks⟩ := replace_call called same conn
    exact ⟨by rw [← transfers]; rfl, .inl (Nat.le_of_eq chunks)⟩
  have released : Ends (fun q => Counted q ∧ ∃ entry, p.conns c.conn = some entry ∧
      q.conns c.conn = some { entry with refcount := entry.refcount - 1 }) (fun _ => True)
      ((p.withoutCall index).releaseConn c.conn) := by
    refine (release_conn_ends fun _ => trivial).imp fun q ⟨entry, held, written⟩ => ?_
    subst written
    refine ⟨?_, entry, held, Function.update_self ..⟩
    refine counted.complete called rfl fun conn updated held' => ?_
    obtain ⟨rfl, rfl⟩ | ⟨different, before⟩ := update_held held'
    · exact ⟨entry, held, by simp⟩
    · exact ⟨updated, before, by simp [Ne.symm different]⟩
  cases course with
  | failed a =>
    have dropped : Counted ((p.withoutCall index).dropConn c.conn) := by
      refine counted.complete called rfl fun conn entry held => ?_
      obtain ⟨different, before⟩ := update_none_held held
      exact ⟨entry, before, by simp [Ne.symm different]⟩
    refine (dropped.delete (p := p.withoutCall index) fun entry req slot held waits => ?_).bind fun q counted =>
      counted.alike rfl rfl
    exact fits req (.failed index slot c entry req completes held waits)
  | refused a =>
    refine counted.complete called rfl fun conn entry held => ⟨entry, held, ?_⟩
    have different : c.conn ≠ conn := by
      rintro rfl
      cases (accepted rfl).symm.trans held
    simp [different]
  | continued transfer same => exact issued transfer same
  | reported transfer same a =>
    exact (issued transfer same).bind fun q counted => counted.alike rfl rfl
  | chunk isChunk a =>
    refine released.bind fun q ⟨counted, entry, held, now⟩ => ?_
    have answered : Counted (q.answer a) := counted.alike rfl rfl
    refine check_outstanding_ends (fun _ _ => trivial) (fun _ => trivial)
      (fun _ _ _ => answered) ?_
    intro entry' req slot after held' first asked
    obtain rfl := Option.some_inj.mp (now.symm.trans held')
    have woken := fits req (.woken index slot c entry req completes held first)
    refine Counted.asked (answered.moved fun other updated updated_held => ?_) woken asked
    obtain ⟨rfl, rfl⟩ | ⟨_, before⟩ := update_held updated_held
    · exact ⟨_, held', rfl, .inl (Nat.le_refl _)⟩
    · exact ⟨updated, before, rfl, .inl (Nat.le_refl _)⟩
  | other isOther a => exact released.bind fun q released => released.1.alike rfl rfl
  | overread how => exact trivial

theorem Counted.opened (counted : Counted p) (shaped : Shaped p) (env : Env) (key : String)
    {sent : List (Transfer κ)} (single : sent.length = 1) : Counted (p.opened env key sent) := by
  obtain ⟨transfer, rfl⟩ := List.length_eq_one_iff.mp single
  have unused : transfersOn p.calls p.nextConn = 0 :=
    transfers_on_elsewhere fun c member => Nat.ne_of_lt (shaped.called c member)
  have unused_chunks : chunksOn p.calls p.nextConn = 0 :=
    Nat.eq_zero_of_le_zero ((chunks_on_le _ _).trans (Nat.le_of_eq unused))
  constructor
  · intro conn entry held
    show entry.refcount = transfersOn (p.calls ++ [⟨p.nextConn, transfer⟩]) conn
    rw [transfers_on_append, transfers_on_one]
    obtain ⟨rfl, rfl⟩ | ⟨different, before⟩ := update_held held
    · simp [unused]
    · simpa [Ne.symm different] using counted.refcount conn entry before
  · intro conn entry held
    show (chunksOn (p.calls ++ [⟨p.nextConn, transfer⟩]) conn : ℤ) ≤ _
    rw [chunks_on_append]
    obtain ⟨rfl, rfl⟩ | ⟨different, before⟩ := update_held held
    · have one := chunks_on_le [⟨p.nextConn, transfer⟩] p.nextConn
      rw [transfers_on_one, if_pos rfl] at one
      unfold maxRpcsInFlight
      omega
    · have none := chunks_on_le [⟨p.nextConn, transfer⟩] conn
      rw [transfers_on_one, if_neg (Ne.symm different)] at none
      have := counted.limit conn entry before
      omega

theorem Counted.step (counted : Counted p) (shaped : Shaped p) (possible : Possible p e)
    (balanced : Balanced hash p e) : Ends Counted (fun _ => True) (p.step hash e.1 e.2) := by
  refine step_ends (fun _ _ => trivial) (fun q alike => counted.alike alike.conns alike.calls)
    ?_ ?_ ?_ ?_ ?_
  · exact fun req q fresh asked => counted.asked (balanced.asking req (.fresh req fresh)) asked
  · exact fun conn entry transfer held isOther =>
      counted.start held (fun isChunk => absurd (isOther.symm.trans isChunk) (by simp)) e.1.now
  · exact fun index attempt key q connected tried alike =>
      (counted.opened shaped e.1 key (balanced.opening index attempt connected tried)).alike
        alike.conns alike.calls
  · intro index c how result completes course
    refine counted.course completes ?_ balanced.asking course
    rintro rfl
    exact balanced.replying index c completes
  · intro order ticked
    refine reap_ends (fun _ _ => trivial) shaped (possible order ticked) counted ?_ ?_
    · exact fun conn _ q _ _ _ counted => counted.drop conn
    · intro conn entry req index before after held stale waits _ counted asked
      have fits := balanced.asking req (.reaped order conn index entry req ticked held stale waits)
      exact (counted.alike (q := before.noteResumed conn index) rfl rfl).asked fits asked

/-- What a balanced run keeps. -/
structure Tallied (p : Plugin κ) : Prop where
  shaped : Shaped p
  counted : Counted p

theorem run_tallied (run : Reaches (next hash) (fun p e => Possible p e ∧ Balanced hash p e)
    (init κ) p) : Tallied p := by
  have initial : Tallied (init κ) := ⟨Shaped.init, by
    constructor <;> exact fun _ _ held => nomatch held⟩
  refine invariant initial (fun before e after tallied admitted ran => ?_) run
  exact ⟨(tallied.shaped.step hash e.1 e.2).of_ok (next_eq_some ran),
    (tallied.counted.step tallied.shaped admitted.1 admitted.2).of_ok (next_eq_some ran)⟩

/-- **Reference counts are exact.** In a balanced run the count of a cached
connection is the number of transfers in flight on it; so it is not negative, the
chunks in flight stay within the limit, and a stale connection has none. -/
theorem refcount_exact (run : Reaches (next hash) (fun p e => Possible p e ∧ Balanced hash p e)
    (init κ) p) (cached : conn ∈ p.connCache) :
    ∃ entry, p.conns conn = some entry ∧ entry.refcount = transfersOn p.calls conn ∧
      0 ≤ entry.refcount ∧ chunksOn p.calls conn ≤ maxRpcsInFlight ∧
      ∀ env, Stale env entry → ∀ c ∈ p.calls, c.conn ≠ conn := by
  obtain ⟨shaped, counted⟩ := run_tallied run
  obtain ⟨entry, held⟩ := Option.isSome_iff_exists.mp ((shaped.cached conn).mp cached)
  have exactly := counted.refcount conn entry held
  refine ⟨entry, held, exactly, by omega, counted.limit conn entry held, ?_⟩
  rintro env ⟨unused, _⟩ c member here
  have none : transfersOn p.calls conn = 0 := by omega
  have absent := List.countP_eq_zero.mp none c member
  simp [here] at absent

/-- One request opens a connection and a second one joins it. -/
theorem two_transfers_counted :
    ∃ entry, (oneConn 2 [] [smallChunk, smallChunk]).conns 0 = some entry ∧
      entry.refcount = transfersOn [smallChunk, smallChunk] 0 :=
  have quiet {p : Plugin Unit} {event : Event Unit} (fresh : event.replyTo = none)
      (opening : ∀ index attempt, event = .connect index true → p.attempts[index]? = some attempt →
        (p.transfers attempt).length = 1) : Balanced id p (smallEnv, event) :=
    { opening := opening
      replying := fun _ _ completes => nomatch fresh.symm.trans completes.replies
      asking := fun req _ => small_ports req }
  have run : Reaches (next id) (fun p e => Possible p e ∧ Balanced id p e) (init Unit)
      (oneConn 2 [] [smallChunk, smallChunk]) :=
    ((Reaches.refl.snoc (smallEnv, .getChunk (smallReq "a"))
      ⟨small_possible (by simp), quiet rfl (fun _ _ ev => nomatch ev)⟩ rfl).snoc
      (smallEnv, .connect 0 true)
      ⟨small_possible (by simp), quiet rfl (fun index attempt ev tried => by
        obtain ⟨rfl, _⟩ := Event.connect.inj ev
        obtain rfl := Option.some_inj.mp tried
        rfl)⟩ one_conn_opens).snoc (smallEnv, .getChunk (smallReq "a"))
      ⟨small_possible (by simp), quiet rfl (fun _ _ ev => nomatch ev)⟩ (one_conn_start _ (by decide))
  have ⟨entry, held, exactly, _⟩ := refcount_exact run (List.mem_singleton_self 0)
  ⟨entry, held, exactly⟩

/-- Two requests wait for one connection: it opens with a count of one and two
transfers in flight. -/
theorem two_waiting_requests_counted_once :
    ¬ ∀ p : Plugin Unit, Reaches (next id) Possible (init Unit) p →
      ∀ conn ∈ p.connCache, ∀ entry, p.conns conn = some entry →
        entry.refcount = transfersOn p.calls conn := by
  intro exactly
  have run : Reaches (next id) Possible (init Unit) _ :=
    ((Reaches.refl.snoc (smallEnv, .getChunk (smallReq "a")) (small_possible (by simp)) rfl).snoc
      (smallEnv, .getChunk (smallReq "a")) (small_possible (by simp)) rfl).snoc
      (smallEnv, .connect 0 true) (small_possible (by simp)) rfl
  exact absurd (exactly _ run 0 (by decide) _ rfl) (by decide)

end Plugin
end Ditto.XferGtc
