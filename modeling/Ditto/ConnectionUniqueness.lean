import Mathlib.Data.List.Perm.Basic
import Ditto.ConnectionShape

/-! One connection for each peer. A `get_chunk` looks for an attempt in the table of pending
connections before it starts one, and enters its own there; a `get_descriptors` or a
`get_bitmap` does neither. So there is one connection for each key as long as none of
these meets an attempt for its key, and no `get_chunk` meets one of theirs. -/
namespace Ditto.XferGtc
open Outcomes Runs Words

variable {κ : Type} {p q : Plugin κ} {env : Env} {req : ChunkReq κ} {conn : ConnId} {entry : ConnEntry κ}
  {key : String} {attempt : Attempt κ} {index : ℕ} {hash : List UInt8 → List UInt8}

/-- The key of the peer that a request for descriptors or a bitmap names. -/
def Event.objectKey (env : Env) : Event κ → Option String
  | .getDescriptors _ (name :: _) _ | .getBitmap _ (name :: _) _ => env.parseHint name
  | _ => none

namespace Plugin

/-- No two connections in the cache have one key, and no two attempts. -/
structure OnePerPeer (p : Plugin κ) : Prop where
  cached : p.connCache.Pairwise fun a b => (p.conns a).map ConnEntry.key ≠ (p.conns b).map ConnEntry.key
  outstanding : (p.attempts.map Attempt.key).Nodup

/-- Whoever connects to the key is in the table of pending connections. -/
def Tabled (p : Plugin κ) (key : String) : Prop :=
  ∀ attempt ∈ p.attempts, attempt.key = key → attempt = .establishConnection key

/-- A request for descriptors or a bitmap of an uncached peer meets no attempt for its key,
and a request for a chunk none but those in the table of pending connections. -/
structure Clear (hash : List UInt8 → List UInt8) (p : Plugin κ) (e : Env × Event κ) : Prop where
  chunks : ∀ req, Asks hash p e.1 e.2 req → ∀ key, route e.1 req = some key → Tabled p key
  objects : ∀ key, e.2.objectKey e.1 = some key → p.lookup key = none →
    ∀ attempt ∈ p.attempts, attempt.key ≠ key

/-- Connections and attempts have keys of their own, and the attempts for chunks are in the
table. -/
structure Single (p : Plugin κ) : Prop where
  shaped : Shaped p
  keys : ∀ a b entry entry', p.conns a = some entry → p.conns b = some entry' → entry.key = entry'.key → a = b
  outstanding : (p.attempts.map Attempt.key).Nodup
  apart : ∀ attempt ∈ p.attempts, ∀ conn entry, p.conns conn = some entry → entry.key ≠ attempt.key
  pending : ∀ key, .establishConnection key ∈ p.attempts → (p.pendingConnCache key).isSome

theorem Single.init : Single (init κ) where
  shaped := .init
  keys := fun _ _ _ _ held => by cases held
  outstanding := List.nodup_nil
  apart := fun _ member => absurd member List.not_mem_nil
  pending := fun _ member => absurd member List.not_mem_nil

theorem Single.one_each (single : Single p) : OnePerPeer p where
  cached := by
    refine single.shaped.nodup.imp_of_mem fun {a b} a_cached b_cached different same => different ?_
    obtain ⟨entry, held⟩ := Option.isSome_iff_exists.mp ((single.shaped.cached a).mp a_cached)
    obtain ⟨entry', held'⟩ := Option.isSome_iff_exists.mp ((single.shaped.cached b).mp b_cached)
    rw [held, held', Option.map_some, Option.map_some, Option.some_inj] at same
    exact single.keys a b entry entry' held held' same
  outstanding := single.outstanding

/-- An uncached key is the key of no connection. -/
theorem Single.uncached (single : Single p) (absent : p.lookup key = none) (held : p.conns conn = some entry) :
    entry.key ≠ key := by
  intro same
  have cached := (single.shaped.cached conn).mpr (by rw [held]; rfl)
  have missed := List.find?_eq_none.mp absent conn cached
  simp [held, same] at missed

/-- Connections of the same keys, and no new attempt. -/
theorem Single.congr (single : Single p) (shaped : Shaped q)
    (conns : ∀ conn entry', q.conns conn = some entry' →
      ∃ entry, p.conns conn = some entry ∧ entry.key = entry'.key)
    (attempts : q.attempts.Sublist p.attempts)
    (pending : ∀ key, .establishConnection key ∈ q.attempts → q.pendingConnCache key = p.pendingConnCache key) :
    Single q where
  shaped := shaped
  keys := fun a b entry entry' held held' same => by
    obtain ⟨before, before_held, before_key⟩ := conns a entry held
    obtain ⟨before', before_held', before_key'⟩ := conns b entry' held'
    exact single.keys a b before before' before_held before_held' (by rw [before_key, before_key', same])
  outstanding := single.outstanding.sublist (attempts.map _)
  apart := fun attempt member conn entry held => by
    obtain ⟨before, before_held, before_key⟩ := conns conn entry held
    rw [← before_key]
    exact single.apart attempt (attempts.subset member) conn before before_held
  pending := fun key member => by
    rw [pending key member]
    exact single.pending key (attempts.subset member)

theorem Single.write {new : ConnEntry κ} (single : Single p) (held : p.conns conn = some entry)
    (same : new.key = entry.key) : Single (p.writeConn conn new) := by
  apply single.congr (single.shaped.write held new)
  case conns =>
    intro other entry' held'
    obtain ⟨rfl, rfl⟩ | ⟨_, before⟩ := update_held held'
    · exact ⟨entry, held, same.symm⟩
    · exact ⟨entry', before, rfl⟩
  case attempts => exact List.Sublist.refl _
  case pending => exact fun _ _ => rfl

theorem Single.same (single : Single p) (shaped : Shaped q) (conns : q.conns = p.conns)
    (attempts : q.attempts = p.attempts) (pending : q.pendingConnCache = p.pendingConnCache) : Single q := by
  apply single.congr shaped
  case conns => exact fun conn entry' held => ⟨entry', by rw [← conns, held], rfl⟩
  case attempts => rw [attempts]
  case pending => exact fun _ _ => by rw [pending]

/-! ## Requests for chunks -/

/-- What a `get_chunk` keeps: one connection for each key, and that the attempts for a key
are in the table. -/
def Keeps (p q : Plugin κ) : Prop := Single q ∧ ∀ key, Tabled p key → Tabled q key

theorem Single.keeps (single : Single q) (attempts : ∀ attempt ∈ q.attempts, attempt ∈ p.attempts) : Keeps p q :=
  ⟨single, fun _ tabled attempt member => tabled attempt (attempts attempt member)⟩

/-- A new attempt for a key that has neither a connection nor an attempt. -/
theorem Single.start (single : Single p) (absent : p.lookup key = none)
    (unasked : ∀ attempt ∈ p.attempts, attempt.key ≠ key) (named : attempt.key = key)
    {pending : String → Option (List (ChunkReq κ))}
    (tabled : ∀ other, .establishConnection other ∈ p.attempts ++ [attempt] → (pending other).isSome) :
    Single { p with pendingConnCache := pending, attempts := p.attempts ++ [attempt] } where
  shaped := single.shaped.congr rfl rfl rfl fun _ member => member
  keys := single.keys
  outstanding := by
    rw [List.map_append, List.map_singleton, List.nodup_append]
    refine ⟨single.outstanding, List.pairwise_singleton .., ?_⟩
    rintro other member _ here rfl
    obtain ⟨before, before_member, rfl⟩ := List.mem_map.mp member
    exact unasked before before_member ((List.mem_singleton.mp here).trans named)
  apart := fun other member conn entry held => by
    rcases List.mem_append.mp member with before | new
    · exact single.apart other before conn entry held
    · rw [List.mem_singleton.mp new, named]
      exact single.uncached absent held
  pending := tabled

theorem get_connection_keeps {host : String} {port : ℤ} (single : Single p)
    (clear : Tabled p (connectionKey host port)) :
    Ends (Keeps p) (fun _ => True) (p.getConnection host port req) := by
  simp only [getConnection]
  generalize connectionKey host port = key at clear ⊢
  split
  next conn found =>
    apply (call_ends fun _ => trivial).imp
    rintro _ ⟨⟨entry, held⟩, rfl⟩
    refine Single.keeps (p := p) ?_ fun _ member => member
    exact single.same (single.shaped.call held) rfl rfl rfl
  next absent =>
    split
    next pendingCbs waiting =>
      refine Single.keeps ?_ fun _ member => member
      refine ⟨single.shaped.congr rfl rfl rfl fun _ member => member, single.keys, single.outstanding,
        single.apart, fun other member => ?_⟩
      by_cases same : other = key
      · rw [same]
        simp only [Function.update_self, Option.isSome_some]
      · simp only [Function.update_of_ne same]
        exact single.pending other member
    next waiting =>
      -- an attempt for the key would be in the table, and the table has none
      have unasked : ∀ attempt ∈ p.attempts, attempt.key ≠ key := by
        intro attempt member named
        have listed := single.pending key (clear attempt member named ▸ member)
        rw [waiting] at listed
        cases listed
      refine ⟨single.start absent unasked rfl fun other member => ?_, fun other tabled => ?_⟩
      · by_cases same : other = key
        · rw [same, Function.update_self]
          rfl
        · rw [Function.update_of_ne same]
          rcases List.mem_append.mp member with before | new
          · exact single.pending other before
          · cases List.mem_singleton.mp new
            exact absurd rfl same
      · intro attempt member named
        rcases List.mem_append.mp member with before | new
        · exact tabled attempt before named
        · rw [List.mem_singleton.mp new] at named ⊢
          exact congrArg _ named

theorem get_chunk_keeps (single : Single p) (clear : ∀ key, route env req = some key → Tabled p key) :
    Ends (Keeps p) (fun _ => True) (p.getChunk env req) := by
  unfold getChunk
  cases hinted : req.hints with
  | nil => trivial
  | cons name rest =>
    cases hop : env.nextHop name with
    | error msg =>
      simp only [hop]
      trivial
    | ok res =>
      have routed : route env req = some (connectionKey res.hostname (toInt res.port)) := by
        simp [route, hinted, hop, Except.toOption]
      simp only [hop]
      cases found : p.lookup res.key with
      | none => exact get_connection_keeps single (clear _ routed)
      | some conn =>
        obtain ⟨_, entry, held, _⟩ := lookup_live found
        simp only [readConn, held]
        by_cases full : maxRpcsInFlight ≤ entry.refcount
        · simp only [bind, Except.bind, if_pos full]
          have written : Single (p.writeConn conn { entry with waitCb := entry.waitCb ++ [some req] }) :=
            single.write held rfl
          exact written.keeps fun _ member => member
        · simp only [bind, Except.bind, if_neg full, getChunkInt, call, readConn, conns_write_conn,
            Function.update_self]
          refine Single.keeps (p := p) ?_ fun _ member => member
          have written : Single (p.writeConn conn { entry with refcount := entry.refcount + 1, tv := env.now }) :=
            single.write held rfl
          exact written.same (written.shaped.call (Function.update_self conn _ p.conns)) rfl rfl rfl

/-! ## Connects -/

/-- A connect leaves the attempts as they are, and the table of all keys but its own. -/
theorem connect_frame (connected : Bool) (attempt : Attempt κ) :
    Ends (fun q => q.attempts = p.attempts ∧ ∀ key, attempt ≠ .establishConnection key →
      q.pendingConnCache key = p.pendingConnCache key) (fun _ => True) (p.connect env connected attempt) := by
  cases attempt with
  | establishConnection key =>
    simp only [connect, establishConnection]
    cases pending : p.pendingConnCache key with
    | none => trivial
    | some pendingCbs =>
      have other : ∀ other, (Attempt.establishConnection key : Attempt κ) ≠ .establishConnection other →
          Function.update p.pendingConnCache key none other = p.pendingConnCache other := by
        intro other different
        rw [Function.update_of_ne fun same => different (by rw [same])]
      cases connected with
      | true =>
        have alone : p.opened env key [] = p.newConn env key := by simp [opened, newConn]
        have launched := launch_eq (p := p) env key pendingCbs []
        rw [alone] at launched
        simp only [if_true, launched, bind, Except.bind]
        exact ⟨rfl, other⟩
      | false =>
        cases pendingCbs with
        | nil => exact ⟨rfl, other⟩
        | cons req rest => trivial
  | getDescriptorsClnt oid hints cb key =>
    cases connected with
    | true =>
      simp only [connect, getDescriptorsClnt, if_true, getDescriptorsInt, call, readConn, newConn,
        conns_write_conn, Function.update_self, bind, Except.bind]
      exact ⟨rfl, fun _ _ => rfl⟩
    | false => exact ⟨rfl, fun _ _ => rfl⟩
  | getBitmapClnt oid cb key =>
    cases connected with
    | true =>
      simp only [connect, getBitmapClnt, if_true, Plugin.getBitmapInt, call, readConn, newConn,
        conns_write_conn, Function.update_self, bind, Except.bind]
      exact ⟨rfl, fun _ _ => rfl⟩
    | false => exact ⟨rfl, fun _ _ => rfl⟩

/-- The other attempts are for other keys. -/
theorem Single.others (single : Single p) (asked : p.attempts[index]? = some attempt) {other : Attempt κ}
    (member : other ∈ p.attempts.eraseIdx index) : other.key ≠ attempt.key := by
  have split : p.attempts.Perm (attempt :: p.attempts.eraseIdx index) := by
    obtain ⟨inside, rfl⟩ := List.getElem?_eq_some_iff.mp asked
    exact (List.getElem_cons_eraseIdx_perm inside).symm
  have distinct := (split.map Attempt.key).nodup_iff.mp single.outstanding
  rw [List.map_cons, List.nodup_cons] at distinct
  intro same
  exact distinct.1 (same ▸ List.mem_map_of_mem member)

/-- A connect ends an attempt, and the connection it opens is the only one of its key. -/
theorem Single.connect (single : Single p) (asked : p.attempts[index]? = some attempt) (connected : Bool) :
    Ends Single (fun _ => True)
      ({ p with attempts := p.attempts.eraseIdx index }.connect env connected attempt) := by
  have fewer := List.eraseIdx_sublist p.attempts index
  have frame := @connect_frame κ { p with attempts := p.attempts.eraseIdx index } env connected attempt
  have unchanged : ∀ q : Plugin κ, (q.attempts = p.attempts.eraseIdx index ∧
      ∀ key, attempt ≠ .establishConnection key → q.pendingConnCache key = p.pendingConnCache key) →
      ∀ key, .establishConnection key ∈ q.attempts → q.pendingConnCache key = p.pendingConnCache key := by
    rintro q ⟨attempts, unchanged⟩ key member
    rw [attempts] at member
    exact unchanged key fun same => single.others asked member (congrArg Attempt.key same).symm
  have old : Shaped { p with attempts := p.attempts.eraseIdx index } :=
    single.shaped.congr rfl rfl rfl fun _ member => member
  have opened : Ends (fun q => Shaped q ∧ ∀ a entry, q.conns a = some entry →
      p.conns a = some entry ∨ a = p.nextConn ∧ entry.key = attempt.key) (fun _ => True)
      ({ p with attempts := p.attempts.eraseIdx index }.connect env connected attempt) := by
    apply connect_ends
    case tolerated => exact fun _ _ => trivial
    case alike => exact fun q alike => ⟨old.alike alike, fun a entry held => .inl (by rw [← held, alike.conns])⟩
    case opens =>
      intro _ q alike
      refine ⟨(old.opened env _ _).alike alike, fun a entry held => ?_⟩
      rw [alike.conns] at held
      obtain ⟨rfl, rfl⟩ | ⟨_, before⟩ := update_held held
      · exact .inr ⟨rfl, rfl⟩
      · exact .inl before
  refine (frame.and opened).imp fun q after => ?_
  obtain ⟨frame, shaped, conns⟩ := after
  have here := List.mem_of_getElem? asked
  have remain : ∀ other ∈ q.attempts, other ∈ p.attempts ∧ other.key ≠ attempt.key := by
    intro other member
    rw [frame.1] at member
    exact ⟨fewer.subset member, single.others asked member⟩
  constructor
  case shaped => exact shaped
  case keys =>
    intro a b entry entry' held held' same
    rcases conns a entry held with before | ⟨rfl, named⟩
    · rcases conns b entry' held' with before' | ⟨rfl, named'⟩
      · exact single.keys a b entry entry' before before' same
      · exact absurd (same.trans named') (single.apart attempt here a entry before)
    · rcases conns b entry' held' with before' | ⟨rfl, _⟩
      · exact absurd (same.symm.trans named) (single.apart attempt here b entry' before')
      · rfl
  case outstanding =>
    rw [frame.1]
    exact single.outstanding.sublist (fewer.map _)
  case apart =>
    intro other member a entry held
    obtain ⟨before, different⟩ := remain other member
    rcases conns a entry held with old | ⟨_, named⟩
    · exact single.apart other before a entry old
    · exact fun same => different (same.symm.trans named)
  case pending =>
    intro key member
    rw [unchanged q frame key member]
    exact single.pending key (remain _ member).1

/-! ## Replies and requests -/

/-- A waiter that is resumed. -/
theorem resumed_keeps {first : Plugin κ} (kept : Keeps first p) (conn : ConnId) (index : ℕ)
    (clear : ∀ key, route env req = some key → Tabled first key) :
    Ends (Keeps first) (fun _ => True) ((p.noteResumed conn index).getChunk env req) := by
  have noted : Single (p.noteResumed conn index) :=
    kept.1.same (kept.1.shaped.note_resumed conn index) rfl rfl rfl
  refine (get_chunk_keeps noted fun key routed => kept.2 key (clear key routed)).imp fun q after => ?_
  exact ⟨after.1, fun key tabled => after.2 key (kept.2 key tabled)⟩

theorem Single.drop (single : Single p) (conn : ConnId) : Single (p.dropConn conn) := by
  apply single.congr (single.shaped.drop conn)
  case conns => exact fun other entry held => ⟨entry, (update_none_held held).2, rfl⟩
  case attempts => exact List.Sublist.refl _
  case pending => exact fun _ _ => rfl

theorem Single.delete (single : Single p) (conn : ConnId)
    (clear : ∀ (entry : ConnEntry κ) (slot : ℕ) (req : ChunkReq κ), p.conns conn = some entry →
      entry.waitCb[slot]? = some (some req) → ∀ key, route env req = some key → Tabled p key) :
    Ends (Keeps p) (fun _ => True) (p.deleteConn env conn) := by
  refine delete_conn_rule (fun _ => trivial) (fun _ _ => ?_) fun entry req index before held slot kept => ?_
  · exact (single.drop conn).keeps fun _ member => member
  · exact resumed_keeps kept conn index (clear entry index req held slot)

theorem Single.answer (single : Single p) (a : Answer κ) : Single (p.answer a) :=
  single.same (single.shaped.answer a) rfl rfl rfl

theorem Single.release (single : Single p) (conn : ConnId) :
    Ends (fun q => Single q ∧ q.attempts = p.attempts ∧ ∃ entry, p.conns conn = some entry ∧
      q = p.writeConn conn { entry with refcount := entry.refcount - 1 }) (fun _ => True) (p.releaseConn conn) :=
  (release_conn_ends fun _ => trivial).imp fun _ ⟨entry, held, same⟩ =>
    ⟨same ▸ single.write held rfl, same ▸ rfl, entry, held, same⟩

theorem Single.call (single : Single p) (conn : ConnId) (transfer : Transfer κ) :
    Ends Single (fun _ => True) (p.call conn transfer) :=
  (call_ends fun _ => trivial).imp fun _ ⟨⟨_, held⟩, same⟩ =>
    same ▸ single.same (single.shaped.call held) rfl rfl rfl

theorem Single.course {c : Call κ} {how : Completion} {event : Event κ} {result : Except Fault (Plugin κ)}
    (single : Single p) (clear : Clear hash p (env, event)) (completes : Completes hash p event index c how)
    (course : Course env (p.withoutCall index) c how result) : Ends Single (fun _ => True) result := by
  have without : Single (p.withoutCall index) :=
    single.same (single.shaped.without_call index) rfl rfl rfl
  cases course with
  | failed a =>
    refine (without.delete c.conn fun entry slot req held waits => ?_).bind fun q kept => kept.1.answer a
    exact clear.chunks req (.failed index slot c entry req completes held waits)
  | refused a => exact without.answer a
  | continued transfer same => exact without.call c.conn transfer
  | reported transfer same a => exact (without.call c.conn transfer).bind fun q single => single.answer a
  | chunk isChunk a =>
    refine (without.release c.conn).bind fun q released => ?_
    obtain ⟨single, attempts, entry, held, written⟩ := released
    refine check_outstanding_rule (fun _ => trivial) (fun _ _ _ => single.answer a) ?_
    intro entry' req slot held' first
    have woken : Single ((q.answer a).writeConn c.conn { entry' with waitCb := entry'.waitCb.set slot none }) :=
      (single.answer a).write held' rfl
    have same : entry' = { entry with refcount := entry.refcount - 1 } := by
      have now : q.conns c.conn = some entry' := held'
      rw [written, conns_write_conn, Function.update_self] at now
      exact (Option.some_inj.mp now).symm
    refine (resumed_keeps (woken.keeps fun _ member => member) c.conn slot ?_).imp fun q kept => kept.1
    intro key routed
    have tabled := clear.chunks req (.woken index slot c entry req completes held (by rw [same] at first; exact first))
      key routed
    intro attempt member
    exact tabled attempt (attempts ▸ member)
  | other isOther a => exact (without.release c.conn).bind fun q released => released.1.answer a
  | overread how => trivial

/-- A request for descriptors or a bitmap on a cached connection. -/
theorem Single.join (single : Single p) (held : p.conns conn = some entry) (transfer : Transfer κ) :
    Ends Single (fun _ => True)
      ((p.writeConn conn { entry with refcount := entry.refcount + 1, tv := env.now }).call conn transfer) := by
  have written : Single (p.writeConn conn { entry with refcount := entry.refcount + 1, tv := env.now }) :=
    single.write held rfl
  exact written.call conn transfer

/-- A step that is clear keeps one connection for each key. -/
theorem step_single (single : Single p) {e : Env × Event κ} (possible : Possible p e) (clear : Clear hash p e) :
    Ends Single (fun _ => True) (p.step hash e.1 e.2) := by
  obtain ⟨env, event⟩ := e
  have reply (index : ℕ) (replies : event.replyTo = some index) :
      Ends Single (fun _ => True) (p.step hash env event) := by
    by_cases completed : ∃ c how, Completes hash p event index c how
    · obtain ⟨c, how, completes⟩ := completed
      exact single.course clear completes (step_course completes)
    · rw [step_idle replies fun c how completes => completed ⟨c, how, completes⟩]
      exact single
  have begins : ∀ key attempt, event.objectKey env = some key → attempt.key = key → p.lookup key = none →
      (∀ other, attempt ≠ .establishConnection other) →
      Single { p with attempts := p.attempts ++ [attempt] } := by
    intro key attempt named keyed absent untabled
    apply single.start absent (clear.objects key named absent) keyed
    intro other member
    rcases List.mem_append.mp member with before | new
    · exact single.pending other before
    · exact absurd (List.mem_singleton.mp new).symm (untabled other)
  cases event with
  | getChunk req =>
    exact (get_chunk_keeps single (clear.chunks req (.fresh req rfl))).imp fun q kept => kept.1
  | getDescriptors oid hints cb =>
    simp only [Plugin.step, getDescriptors]
    split
    next => trivial
    next name rest =>
      split
      next => trivial
      next key named =>
        split
        next absent => exact begins key _ named rfl absent fun _ same => by cases same
        next conn found =>
          obtain ⟨_, entry, held, _⟩ := lookup_live found
          simp only [readConn, held, bind, Except.bind]
          exact single.join held _
  | getBitmap oid hints cb =>
    simp only [Plugin.step, getBitmap]
    split
    next => trivial
    next name rest =>
      split
      next => trivial
      next key named =>
        split
        next absent => exact begins key _ named rfl absent fun _ same => by cases same
        next conn found =>
          obtain ⟨_, entry, held, _⟩ := lookup_live found
          simp only [readConn, held, bind, Except.bind]
          split
          · trivial
          · exact single.join held _
  | connect index connected =>
    simp only [Plugin.step]
    split
    next attempt asked => exact single.connect asked connected
    next => exact single
  | chunkReply index res => exact reply index rfl
  | descriptorsReply index res => exact reply index rfl
  | bitmapReply index res => exact reply index rfl
  | reap order =>
    have reaped : Ends (Keeps p) (fun _ => True) (p.reapConnEntries env order) := by
      apply reap_rule single.shaped (possible order rfl)
      case initial => exact single.keeps fun _ member => member
      case removed => exact fun conn entry q _ _ _ kept => ⟨kept.1.drop conn, kept.2⟩
      case woken =>
        intro conn entry req index before held stale waits _ kept
        apply resumed_keeps kept conn index
        exact clear.chunks req (.reaped order conn index entry req rfl held stale waits)
    exact reaped.imp fun q kept => kept.1

/-- **One connection for each peer** in every run in which no request meets an attempt of
another kind for its key. -/
theorem one_per_peer (run : Reaches (next hash) (fun p e => Possible p e ∧ Clear hash p e) (init κ) p) :
    OnePerPeer p := by
  have single : Single p := by
    apply invariant Single.init _ run
    intro before e after single admitted ran
    exact (step_single single admitted.1 admitted.2).of_ok (next_eq_some ran)
  exact single.one_each

/-- The plugin while it connects to a node for a chunk. -/
def connecting : Plugin Unit :=
  { init Unit with
    pendingConnCache := Function.update (fun _ => none) "a:1" (some [smallReq "a"])
    attempts := [.establishConnection "a:1"] }

theorem one_per_peer_two : OnePerPeer { connecting with
    attempts := [.establishConnection "a:1", .getDescriptorsClnt [7] ["b"] () "b:1"] } := by
  have first : Reaches (next id) (fun p e => Possible p e ∧ Clear id p e) (init Unit) connecting := by
    refine Reaches.refl.snoc (smallEnv, .getChunk (smallReq "a")) ⟨small_possible nofun, ?_⟩ rfl
    exact ⟨fun _ _ _ _ _ member => absurd member List.not_mem_nil, fun _ _ _ _ member =>
      absurd member List.not_mem_nil⟩
  refine one_per_peer (first.snoc (smallEnv, .getDescriptors [7] ["b"] ()) ⟨small_possible nofun, ?_, ?_⟩ rfl)
  · intro _ _ key _ attempt member named
    obtain rfl := List.mem_singleton.mp member
    exact congrArg _ named
  · rintro key named _ attempt member rfl
    obtain rfl := List.mem_singleton.mp member
    exact absurd (Option.some_inj.mp named) (by decide)

/-- Two requests for the descriptors of an object open two connections to its peer. -/
theorem not_one_per_peer : ¬ ∀ p : Plugin Unit, Reaches (next id) Possible (init Unit) p → OnePerPeer p := by
  intro always
  have run : Reaches (next id) Possible (init Unit) _ :=
    (((Reaches.refl.snoc (smallEnv, .getDescriptors [7] ["a"] ()) (small_possible nofun) rfl).snoc
      (smallEnv, .getDescriptors [7] ["a"] ()) (small_possible nofun) rfl).snoc
      (smallEnv, .connect 0 true) (small_possible nofun) rfl).snoc
      (smallEnv, .connect 0 true) (small_possible nofun) rfl
  have cached := (always _ run).cached
  exact (List.pairwise_cons.mp cached).1 0 (List.mem_singleton_self 0) rfl

end Plugin
end Ditto.XferGtc
