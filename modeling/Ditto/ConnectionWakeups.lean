import Ditto.ConnectionWaiters

/-! What a parked request waits for. Requests park on a full connection, and only
the completion of a chunk transfer on it, or its deletion, wakes them. The
condition under which a connection with parked requests always has a chunk
transfer in flight is read off one step at a time. -/
namespace Ditto.XferGtc
open Outcomes Runs

variable {κ : Type} {p q : Plugin κ} {env : Env} {req : ChunkReq κ} {conn other : ConnId}
  {entry : ConnEntry κ} {hash : List UInt8 → List UInt8} {e : Env × Event κ} {c : Call κ}

theorem chunks_on_erase {calls : List (Call κ)} {index : ℕ} (called : calls[index]? = some c)
    (conn : ConnId) :
    chunksOn (calls.eraseIdx index) conn +
      (if c.conn = conn ∧ c.transfer.isChunk = true then 1 else 0) = chunksOn calls conn := by
  have counted := (erase_call_perm called).countP_eq fun c => c.conn == conn && c.transfer.isChunk
  simpa [chunksOn, List.countP_cons] using counted

/-- Some request is parked on the connection. -/
def HasWaiter (entry : ConnEntry κ) : Prop := ∃ req, some req ∈ entry.waitCb

theorem no_waiter (idle : entry.firstWaiter = none) : ¬ HasWaiter entry := by
  rintro ⟨req, member⟩
  obtain ⟨index, slot⟩ := List.mem_iff_getElem?.mp member
  have listed : (some req, index) ∈ entry.waitCb.zipIdx := List.mem_zipIdx_iff_getElem?.mpr slot
  have absent := List.find?_eq_none.mp idle _ listed
  simp at absent

namespace Plugin

/-- The connection is full, and not of chunks: what parks there is not woken. -/
def Stalled (p : Plugin κ) (conn : ConnId) : Prop :=
  ∃ entry, p.conns conn = some entry ∧ maxRpcsInFlight ≤ entry.refcount ∧ chunksOn p.calls conn = 0

/-- Every connection with a parked request, but one perhaps, has a chunk transfer
in flight. -/
def ServedBut (exempt : Option ConnId) (p : Plugin κ) : Prop :=
  ∀ conn entry, some conn ≠ exempt → p.conns conn = some entry → HasWaiter entry →
    0 < chunksOn p.calls conn

/-- Every connection with a parked request has a chunk transfer in flight. -/
def Served (p : Plugin κ) : Prop :=
  ∀ conn entry, p.conns conn = some entry → HasWaiter entry → 0 < chunksOn p.calls conn

theorem Served.but (served : Served p) (exempt : Option ConnId) : ServedBut exempt p :=
  fun conn entry _ => served conn entry

theorem Served.alike (served : Served p) (conns : q.conns = p.conns) (calls : q.calls = p.calls) :
    Served q := by
  unfold Served
  rw [conns, calls]
  exact served

/-- A request keeps every connection served when the one it is sent to is not
stalled: there it starts a chunk transfer, or parks behind one. -/
theorem Asked.served (asked : Asked env req p q) (served : ServedBut (p.target env req) p)
    (fluid : ∀ conn, p.target env req = some conn → ¬ Stalled p conn) : Served q := by
  cases asked with
  | queued pending attempts absent =>
    exact fun conn entry held waits => served conn entry (by simp [absent]) held waits
  | joined key conn entry absent routed found held =>
    intro other updated held' waits
    show 0 < chunksOn (p.calls ++ [⟨conn, .chunk req 0 []⟩]) other
    rw [chunks_on_append]
    exact Nat.add_pos_left (served other updated (by simp [absent]) held' waits) _
  | parked conn entry found held full =>
    intro other updated held' waits
    obtain ⟨rfl, rfl⟩ | ⟨different, before⟩ := update_held held'
    · have busy : chunksOn p.calls other ≠ 0 := fun none => fluid other found ⟨entry, held, full, none⟩
      exact Nat.pos_of_ne_zero busy
    · exact served other updated (by simpa [found] using different) before waits
  | started conn entry found held room =>
    intro other updated held' waits
    show 0 < chunksOn (p.calls ++ [⟨conn, .chunk req 0 []⟩]) other
    rw [chunks_on_append]
    obtain ⟨rfl, rfl⟩ | ⟨different, before⟩ := update_held held'
    · simp [chunksOn, Transfer.isChunk]
    · exact Nat.add_pos_left (served other updated (by simpa [found] using different) before waits) _

/-- A request stalls nothing. -/
theorem Asked.fluid (asked : Asked env req p q) (fluid : ¬ Stalled p other) : ¬ Stalled q other := by
  rintro ⟨updated, held', full', none⟩
  cases asked with
  | queued pending attempts absent => exact fluid ⟨updated, held', full', none⟩
  | joined key conn entry absent routed found held =>
    have none : chunksOn (p.calls ++ [⟨conn, .chunk req 0 []⟩]) other = 0 := none
    rw [chunks_on_append] at none
    exact fluid ⟨updated, held', full', by omega⟩
  | parked conn entry found held full =>
    obtain ⟨rfl, rfl⟩ | ⟨_, before⟩ := update_held held'
    · exact fluid ⟨entry, held, full, none⟩
    · exact fluid ⟨updated, before, full', none⟩
  | started conn entry found held room =>
    have none : chunksOn (p.calls ++ [⟨conn, .chunk req 0 []⟩]) other = 0 := none
    rw [chunks_on_append] at none
    obtain ⟨rfl, rfl⟩ | ⟨_, before⟩ := update_held held'
    · simp [chunksOn, Transfer.isChunk] at none
    · exact fluid ⟨updated, before, full', by omega⟩

/-! ## The world around a sequence of requests -/

/-- `q` has the connections of `p` or fewer, under the same keys, and stalls none
that `p` does not. -/
structure Grown (p q : Plugin κ) : Prop where
  keys : ∀ conn entry, q.conns conn = some entry →
    ∃ old, p.conns conn = some old ∧ old.key = entry.key
  fluid : ∀ conn, ¬ Stalled p conn → ¬ Stalled q conn

theorem Grown.refl (p : Plugin κ) : Grown p p :=
  ⟨fun _ entry held => ⟨entry, held, rfl⟩, fun _ fluid => fluid⟩

theorem Grown.asked {r : Plugin κ} (grown : Grown p q) (asked : Asked env req q r) : Grown p r := by
  refine ⟨fun other updated held' => ?_, fun other fluid => asked.fluid (grown.fluid other fluid)⟩
  cases asked with
  | queued pending attempts absent => exact grown.keys other updated held'
  | joined key conn entry absent routed found held => exact grown.keys other updated held'
  | parked conn entry found held full | started conn entry found held room =>
    obtain ⟨rfl, rfl⟩ | ⟨_, before⟩ := update_held held'
    · exact grown.keys other entry held
    · exact grown.keys other updated before

theorem Grown.drop (grown : Grown p q) (conn : ConnId) : Grown p (q.dropConn conn) where
  keys := fun other entry held => grown.keys other entry (update_none_held held).2
  fluid := by
    rintro other fluid ⟨entry, held, full, none⟩
    exact grown.fluid other fluid ⟨entry, (update_none_held held).2, full, none⟩

/-- The request names the node this connection leads to. -/
def Aims (env : Env) (req : ChunkReq κ) (p : Plugin κ) (conn : ConnId) : Prop :=
  ∃ name rest res entry, req.hints = name :: rest ∧ env.nextHop name = .ok res ∧
    p.conns conn = some entry ∧ entry.key = res.key

theorem Grown.aims (grown : Grown p q) (found : q.target env req = some conn) :
    Aims env req p conn := by
  unfold target at found
  split at found
  · cases found
  · rename_i name rest hinted
    split at found
    · cases found
    · rename_i res hop
      obtain ⟨_, entry, held, named⟩ := lookup_live found
      obtain ⟨old, before, same⟩ := grown.keys conn entry held
      exact ⟨name, rest, res, old, hinted, hop, before, same.trans named⟩

/-- The cache and the keys decide where a request is sent. -/
theorem target_congr (cache : q.connCache = p.connCache)
    (keys : ∀ conn, (q.conns conn).map (·.key) = (p.conns conn).map (·.key)) :
    q.target env req = p.target env req := by
  have named (r : Plugin κ) (key : String) (conn : ConnId) :
      (r.conns conn).any (·.key == key) = ((r.conns conn).map (·.key)).any (· == key) := by
    cases r.conns conn <;> rfl
  have found (key : String) : q.lookup key = p.lookup key := by
    simp only [lookup, cache, named, keys]
  unfold target
  simp only [found]

theorem Asked.target_eq {again : ChunkReq κ} (asked : Asked env req p q) :
    q.target env again = p.target env again := by
  cases asked with
  | queued pending attempts absent => exact target_congr rfl fun _ => rfl
  | joined key conn entry absent routed found held => exact target_congr rfl fun _ => rfl
  | parked conn entry found held full | started conn entry found held room =>
    refine target_congr rfl fun other => ?_
    show (Function.update p.conns conn _ other).map _ = _
    by_cases same : other = conn
    · subst same
      simp [held]
    · rw [Function.update_of_ne same]

/-! ## The condition -/

/-- The plugin after a chunk transfer, with its first waiter taken out. -/
def woken (p : Plugin κ) (conn : ConnId) (entry : ConnEntry κ) (index : ℕ) : Plugin κ :=
  p.writeConn conn { entry with
    refcount := entry.refcount - 1, waitCb := entry.waitCb.set index none }

/-- The step strands no parked request. A request, fresh or woken, does not find
a stalled connection; a refusal leaves a chunk transfer where requests are
parked; and so does a completion whose waiter turns elsewhere while others stay
parked. -/
structure Wakeful (hash : List UInt8 → List UInt8) (p : Plugin κ) (e : Env × Event κ) : Prop where
  requesting : ∀ req conn, e.2 = .getChunk req → p.target e.1 req = some conn → ¬ Stalled p conn
  failing : ∀ index c entry req conn, Completes hash p e.2 index c .failed →
    p.conns c.conn = some entry → some req ∈ entry.waitCb →
    ((p.withoutCall index).dropConn c.conn).target e.1 req = some conn →
    ¬ Stalled ((p.withoutCall index).dropConn c.conn) conn
  refusing : ∀ index c entry, Completes hash p e.2 index c .refused →
    p.conns c.conn = some entry → HasWaiter entry → 0 < chunksOn (p.calls.eraseIdx index) c.conn
  finding : ∀ index c entry req slot conn, Completes hash p e.2 index c .finished →
    c.transfer.isChunk = true → p.conns c.conn = some entry →
    entry.firstWaiter = some (some req, slot) →
    ((p.withoutCall index).woken c.conn entry slot).target e.1 req = some conn →
    ¬ Stalled ((p.withoutCall index).woken c.conn entry slot) conn
  leaving : ∀ index c entry req slot, Completes hash p e.2 index c .finished →
    c.transfer.isChunk = true → p.conns c.conn = some entry →
    entry.firstWaiter = some (some req, slot) →
    ((p.withoutCall index).woken c.conn entry slot).target e.1 req ≠ some c.conn →
    (∃ other, some other ∈ entry.waitCb.set slot none) →
    0 < chunksOn (p.calls.eraseIdx index) c.conn
  reaping : ∀ order conn entry req other, e.2 = .reap order → p.conns conn = some entry →
    Stale e.1 entry → some req ∈ entry.waitCb → Aims e.1 req p other → ¬ Stalled p other

/-- What is left of the served connections when a call is taken out. -/
theorem Served.without_call {index : ℕ} (served : Served p) (called : p.calls[index]? = some c)
    (different : c.conn ≠ conn ∨ c.transfer.isChunk = false) (held : p.conns conn = some entry)
    (waits : HasWaiter entry) : 0 < chunksOn (p.calls.eraseIdx index) conn := by
  have spared : ¬ (c.conn = conn ∧ c.transfer.isChunk = true) := by
    rintro ⟨same, isChunk⟩
    rcases different with elsewhere | isOther
    · exact elsewhere same
    · cases isOther.symm.trans isChunk
  have counted := chunks_on_erase called conn
  rw [if_neg spared, Nat.add_zero] at counted
  rw [counted]
  exact served conn entry held waits

theorem Served.drop (served : Served p) (conn : ConnId) : Served (p.dropConn conn) :=
  fun other entry held => served other entry (update_none_held held).2

/-- Deleting a connection whose waiters find no stalled one. -/
theorem delete_served (served : Served (p.dropConn conn))
    (fluid : ∀ entry req other, p.conns conn = some entry → some req ∈ entry.waitCb →
      (p.dropConn conn).target env req = some other → ¬ Stalled (p.dropConn conn) other) :
    Ends Served (fun _ => True) (p.deleteConn env conn) := by
  have kept : Ends (fun q => Served q ∧ Grown (p.dropConn conn) q ∧
      ∀ req, q.target env req = (p.dropConn conn).target env req) (fun _ => True)
      (p.deleteConn env conn) := by
    refine delete_conn_ends (fun _ _ => trivial) (fun _ => trivial)
      (fun _ _ => ⟨served, .refl _, fun _ => rfl⟩) ?_
    rintro entry req index before after held slot ⟨served, grown, same⟩ asked
    have noted : Served (before.noteResumed conn index) := served.alike rfl rfl
    have grown : Grown (p.dropConn conn) (before.noteResumed conn index) := ⟨grown.keys, grown.fluid⟩
    refine ⟨asked.served (noted.but _) fun other found => grown.fluid other ?_, grown.asked asked,
      fun again => asked.target_eq.trans (same again)⟩
    exact fluid entry req other held (List.mem_of_getElem? slot) ((same req).symm.trans found)
  exact kept.imp fun _ kept => kept.1

theorem Stalled.alike (stalled : Stalled p conn) (conns : q.conns = p.conns)
    (calls : q.calls = p.calls) : Stalled q conn := by
  obtain ⟨entry, held, full, none⟩ := stalled
  exact ⟨entry, conns ▸ held, full, calls ▸ none⟩

/-- The first waiter of a connection whose chunk transfer is over makes its
request. -/
theorem Served.wake {index slot : ℕ} {after : Plugin κ} (served : Served p)
    (wakeful : Wakeful hash p e) (completes : Completes hash p e.2 index c .finished)
    (isChunk : c.transfer.isChunk = true) (held : p.conns c.conn = some entry)
    (first : entry.firstWaiter = some (some req, slot))
    (conns : q.conns = ((p.withoutCall index).woken c.conn entry slot).conns)
    (cache : q.connCache = p.connCache) (calls : q.calls = p.calls.eraseIdx index)
    (asked : Asked e.1 req q after) : Served after := by
  have aimed : q.target e.1 req = ((p.withoutCall index).woken c.conn entry slot).target e.1 req :=
    target_congr cache fun _ => by rw [conns]
  refine asked.served ?_ ?_
  · intro conn updated spared held' waits
    rw [calls]
    rw [conns] at held'
    rw [aimed] at spared
    obtain ⟨rfl, rfl⟩ | ⟨different, before⟩ := update_held held'
    · exact wakeful.leaving index c entry req slot completes isChunk held first (Ne.symm spared) waits
    · exact served.without_call completes.called (.inl (Ne.symm different)) before waits
  · intro conn found stalled
    exact wakeful.finding index c entry req slot conn completes isChunk held first
      (aimed ▸ found) (stalled.alike conns.symm calls.symm)

/-- A reply, from a plugin whose connections are served. -/
theorem Served.reply {index : ℕ} {how : Completion} {result : Except Fault (Plugin κ)}
    (served : Served p) (completes : Completes hash p e.2 index c how) (wakeful : Wakeful hash p e)
    (course : Course e.1 (p.withoutCall index) c how result) :
    Ends Served (fun _ => True) result := by
  have called := completes.called
  -- the other connections do not notice that the call is gone
  have elsewhere (conn : ConnId) (entry : ConnEntry κ) (different : conn ≠ c.conn)
      (held : p.conns conn = some entry) (waits : HasWaiter entry) :
      0 < chunksOn (p.calls.eraseIdx index) conn :=
    served.without_call called (.inl (Ne.symm different)) held waits
  have issued (transfer : Transfer κ) (same : transfer.isChunk = c.transfer.isChunk) :
      Ends Served (fun _ => True) ((p.withoutCall index).call c.conn transfer) := by
    refine (call_ends fun _ => trivial).imp fun q ⟨_, sent⟩ => ?_
    subst sent
    intro conn entry held waits
    exact (replace_call called same conn).2 ▸ served conn entry held waits
  cases course with
  | failed a =>
    have dropped : Served ((p.withoutCall index).dropConn c.conn) := by
      intro conn entry held waits
      obtain ⟨different, before⟩ := update_none_held held
      exact elsewhere conn entry different before waits
    have deleted : Ends Served (fun _ => True) ((p.withoutCall index).deleteConn e.1 c.conn) :=
      delete_served dropped fun entry req other held member =>
        wakeful.failing index c entry req other completes held member
    exact deleted.bind fun q served => served.alike rfl rfl
  | refused a =>
    intro conn entry held waits
    by_cases same : conn = c.conn
    · subst same
      exact wakeful.refusing index c entry completes held waits
    · exact elsewhere conn entry same held waits
  | continued transfer same => exact issued transfer same
  | reported transfer same a =>
    exact (issued transfer same).bind fun q served => served.alike rfl rfl
  | chunk isChunk a =>
    refine (release_conn_ends fun _ => trivial).bind fun q ⟨entry, held, written⟩ => ?_
    subst written
    refine check_outstanding_ends (fun _ _ => trivial) (fun _ => trivial) ?_ ?_
    · intro entry' held' idle conn updated held'' waits
      by_cases same : conn = c.conn
      · subst same
        obtain rfl := Option.some_inj.mp (held'.symm.trans held'')
        exact absurd waits (no_waiter idle)
      · exact elsewhere conn updated same (by simpa [Plugin.answer, withoutCall, same] using held'')
          waits
    · intro entry' req slot after held' first asked
      obtain ⟨_, rfl⟩ | ⟨different, _⟩ := update_held held'
      · refine served.wake wakeful completes isChunk held first ?_ ?_ ?_ asked
        · exact Function.update_idem ..
        · rfl
        · rfl
      · exact absurd rfl different
  | other isOther a =>
    refine (release_conn_ends fun _ => trivial).bind fun q ⟨entry, held, written⟩ => ?_
    subst written
    intro conn updated held' waits
    obtain ⟨rfl, rfl⟩ | ⟨different, before⟩ := update_held held'
    · exact served.without_call called (.inr isOther) held waits
    · exact elsewhere conn updated different before waits
  | overread how => exact trivial

theorem Served.step (served : Served p) (shaped : Shaped p) (possible : Possible p e)
    (wakeful : Wakeful hash p e) : Ends Served (fun _ => True) (p.step hash e.1 e.2) := by
  refine step_ends (fun _ _ => trivial) (fun q alike => served.alike alike.conns alike.calls)
    ?_ ?_ ?_ ?_ ?_
  · exact fun req q asking asked =>
      asked.served (served.but _) fun conn => wakeful.requesting req conn asking
  · intro conn entry transfer held isOther other updated held' waits
    show 0 < chunksOn (p.calls ++ [⟨conn, transfer⟩]) other
    rw [chunks_on_append]
    obtain ⟨rfl, rfl⟩ | ⟨_, before⟩ := update_held held'
    · exact Nat.add_pos_left (served other entry held waits) _
    · exact Nat.add_pos_left (served other updated before waits) _
  · intro index attempt key q _ _ alike
    refine Served.alike (p := p.opened e.1 key (p.transfers attempt)) ?_ alike.conns alike.calls
    intro other updated held' waits
    obtain ⟨rfl, rfl⟩ | ⟨_, before⟩ := update_held held'
    · obtain ⟨req, member⟩ := waits
      cases member
    · show 0 < chunksOn (p.calls ++ _) other
      rw [chunks_on_append]
      exact Nat.add_pos_left (served other updated before waits) _
  · exact fun index c how result completes course => served.reply completes wakeful course
  · intro order ticked
    have kept : Ends (fun q => Served q ∧ Grown p q) (fun _ => True) (p.reapConnEntries e.1 order) := by
      refine reap_ends (fun _ _ => trivial) shaped (possible order ticked) ⟨served, .refl p⟩ ?_ ?_
      · exact fun conn _ q _ _ _ kept => ⟨kept.1.drop conn, kept.2.drop conn⟩
      · rintro conn entry req index before after held stale slot _ ⟨served, grown⟩ asked
        have noted : Served (before.noteResumed conn index) := served.alike rfl rfl
        have grown : Grown p (before.noteResumed conn index) := ⟨grown.keys, grown.fluid⟩
        refine ⟨asked.served (noted.but _) fun other found => grown.fluid other ?_, grown.asked asked⟩
        exact wakeful.reaping order conn entry req other ticked held stale
          (List.mem_of_getElem? slot) (grown.aims found)
    exact kept.imp fun _ kept => kept.1

/-! ## Runs -/

/-- What every run keeps of the log of resumed waiters. -/
structure Recorded (p : Plugin κ) : Prop where
  shaped : Shaped p
  logged : Logged p

theorem run_recorded {guard : Plugin κ → Env × Event κ → Prop}
    (run : Reaches (next hash) guard (init κ) p) : Recorded p := by
  have initial : Recorded (init κ) := ⟨Shaped.init, List.nodup_nil, by simp [init], by simp [init]⟩
  refine invariant initial (fun before e after recorded _ ran => ?_) run
  exact ⟨(recorded.shaped.step hash e.1 e.2).of_ok (next_eq_some ran),
    (recorded.logged.step recorded.shaped hash e.1 e.2).of_ok (next_eq_some ran)⟩

/-- What a wakeful run keeps. -/
structure Attended (p : Plugin κ) : Prop where
  shaped : Shaped p
  served : Served p

theorem run_attended (run : Reaches (next hash) (fun p e => Possible p e ∧ Wakeful hash p e)
    (init κ) p) : Attended p := by
  have initial : Attended (init κ) := ⟨Shaped.init, fun _ _ held => nomatch held⟩
  refine invariant initial (fun before e after attended admitted ran => ?_) run
  exact ⟨(attended.shaped.step hash e.1 e.2).of_ok (next_eq_some ran),
    (attended.served.step attended.shaped admitted.1 admitted.2).of_ok (next_eq_some ran)⟩

/-- **Parked requests are resumed once and not lost.** In every run a waiter is
resumed at most once; in a wakeful run a connection with a parked request has a
chunk transfer in flight. -/
theorem parked_requests_attended :
    (∀ p : Plugin κ, Reaches (next hash) Possible (init κ) p → p.resumed.Nodup) ∧
    ∀ p : Plugin κ, Reaches (next hash) (fun p e => Possible p e ∧ Wakeful hash p e) (init κ) p →
      ∀ conn entry, p.conns conn = some entry → (∃ req, some req ∈ entry.waitCb) →
        ∃ c ∈ p.calls, c.conn = conn ∧ c.transfer.isChunk = true := by
  constructor
  · exact fun p run => (run_recorded run).logged.nodup
  · intro p run conn entry held waits
    obtain ⟨c, member, counted⟩ := List.countP_pos_iff.mp ((run_attended run).served conn entry held waits)
    exact ⟨c, member, by simpa using counted⟩

/-- Requests for a chunk fill the connection one by one. -/
theorem one_conn_fills {guard : Plugin Unit → Env × Event Unit → Prop}
    (asks : guard (init Unit) (smallEnv, .getChunk (smallReq "a")))
    (connects : ∀ p, guard p (smallEnv, .connect 0 true))
    (joins : ∀ n : ℕ, guard (oneConn (n + 1 : ℕ) [] (List.replicate (n + 1) smallChunk))
      (smallEnv, .getChunk (smallReq "a"))) {n : ℕ} (room : n < 50) :
    Reaches (next id) guard (init Unit)
      (oneConn (n + 1 : ℕ) [] (List.replicate (n + 1) smallChunk)) := by
  induction n with
  | zero =>
    exact (Reaches.refl.snoc (smallEnv, .getChunk (smallReq "a")) asks rfl).snoc
      (smallEnv, .connect 0 true) (connects _) one_conn_opens
  | succ n ih =>
    have slot : ((n + 1 : ℕ) : ℤ) < maxRpcsInFlight := by
      unfold maxRpcsInFlight
      omega
    have started := one_conn_start (List.replicate (n + 1) smallChunk) slot
    rw [← List.replicate_succ'] at started
    exact (ih (by omega)).snoc _ (joins n) started

theorem one_conn_parks (calls : List (Call Unit)) :
    next id (oneConn 50 [] calls) (smallEnv, .getChunk (smallReq "a")) =
      some (oneConn 50 [some (smallReq "a")] calls) := by
  simp [next, step, getChunk, smallReq, smallEnv, lookup, oneConn, readConn, bind, Except.bind,
    maxRpcsInFlight, writeConn, Except.toOption]

/-- The fifty-first request parks behind fifty chunks. -/
theorem fifty_first_request_attended :
    ∃ c ∈ (oneConn 50 [some (smallReq "a")] (List.replicate 50 smallChunk)).calls,
      c.conn = 0 ∧ c.transfer.isChunk = true := by
  have quiet {p : Plugin Unit} {event : Event Unit} (fresh : event.replyTo = none)
      (untimed : ∀ order, event ≠ .reap order)
      (requesting : ∀ req conn, event = .getChunk req → p.target smallEnv req = some conn →
        ¬ Stalled p conn) : Wakeful id p (smallEnv, event) :=
    { requesting := requesting
      failing := fun _ _ _ _ _ completes => by cases fresh.symm.trans completes.replies
      refusing := fun _ _ _ completes => by cases fresh.symm.trans completes.replies
      finding := fun _ _ _ _ _ _ completes => by cases fresh.symm.trans completes.replies
      leaving := fun _ _ _ _ _ completes => by cases fresh.symm.trans completes.replies
      reaping := fun order _ _ _ _ ticked => absurd ticked (untimed order) }
  have busy (n : ℕ) (waitCb : List (Option (ChunkReq Unit))) (refcount : ℤ) (conn : ConnId) :
      ¬ Stalled (oneConn refcount waitCb (List.replicate (n + 1) smallChunk)) conn := by
    rintro ⟨entry, held, _, none⟩
    have held : Function.update (fun _ => Option.none) 0 (some _) conn = some entry := held
    obtain ⟨rfl, _⟩ | ⟨_, absent⟩ := update_held held
    · simp [oneConn, chunksOn, smallChunk, Transfer.isChunk, List.replicate_succ] at none
    · cases absent
  have full : Reaches (next id) (fun p e => Possible p e ∧ Wakeful id p e) (init Unit) _ :=
    one_conn_fills ⟨small_possible (by simp), quiet rfl (by simp) fun req conn _ found => by
      obtain ⟨cached, _⟩ := target_live found
      cases cached⟩
    (fun p => ⟨small_possible (by simp), quiet rfl (by simp) fun _ _ ev => by cases ev⟩)
    (fun n => ⟨small_possible (by simp), quiet rfl (by simp) fun _ conn _ _ => busy n _ _ conn⟩)
    (show 49 < 50 by decide)
  have run := full.snoc (smallEnv, .getChunk (smallReq "a"))
    ⟨small_possible (by simp), quiet rfl (by simp) fun _ conn _ _ => busy 49 _ _ conn⟩
    (one_conn_parks _)
  exact parked_requests_attended.2 _ run 0 _ rfl ⟨smallReq "a", List.mem_cons_self ..⟩

/-- Fifty chunks are refused while a request is parked behind them: nothing is
left in flight, and the request stays parked. -/
theorem refusals_strand_a_request :
    ¬ ∀ p : Plugin Unit, Reaches (next id) Possible (init Unit) p →
      ∀ conn entry, p.conns conn = some entry → (∃ req, some req ∈ entry.waitCb) →
        ∃ c ∈ p.calls, c.conn = conn := by
  intro attended
  have full := (one_conn_fills (fun order ticked => nomatch ticked)
    (fun p order ticked => nomatch ticked) (fun n order ticked => nomatch ticked)
    (show 49 < 50 by decide)).snoc (smallEnv, .getChunk (smallReq "a"))
    (small_possible (by simp)) (one_conn_parks _)
  have refused (n : ℕ) (answers : List (Answer Unit)) (run : Reaches (next id) Possible (init Unit)
      { oneConn 50 [some (smallReq "a")] (List.replicate n smallChunk) with answers := answers }) :
      ∃ answers, Reaches (next id) Possible (init Unit)
        { oneConn 50 [some (smallReq "a")] [] with answers := answers } := by
    induction n generalizing answers with
    | zero => exact ⟨answers, run⟩
    | succ n ih =>
      exact ih _ (run.snoc (smallEnv, .chunkReply 0 (.notOk "busy")) (small_possible (by simp)) rfl)
  obtain ⟨answers, run⟩ := refused 50 [] full
  obtain ⟨c, member, _⟩ := attended _ run 0 _ rfl ⟨smallReq "a", List.mem_cons_self ..⟩
  cases member

end Plugin
end Ditto.XferGtc
