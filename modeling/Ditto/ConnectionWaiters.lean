import Ditto.ConnectionCounts

/-! Parked requests. A request parks on a connection that is full and is woken by
the completion of a chunk transfer there; completions of the other kinds of
transfer, and refusals, wake nobody. No request is woken twice. A parked request
has a chunk transfer to wait for as long as nobody parks on a connection that is
full of other transfers, and the last chunk transfer does not end without
replacing itself. -/
namespace Ditto.XferGtc
open Outcomes Runs

variable {κ : Type} {p q : Plugin κ} {env : Env} {req : ChunkReq κ} {conn : ConnId}
  {entry : ConnEntry κ} {hash : List UInt8 → List UInt8} {e : Env × Event κ} {c : Call κ}

namespace Plugin

/-! ## No request is resumed twice -/

/-- The waiters resumed so far are out of their connections, each once. -/
structure Logged (p : Plugin κ) : Prop where
  nodup : p.resumed.Nodup
  old : ∀ waiter ∈ p.resumed, waiter.1 < p.nextConn
  spent : ∀ waiter ∈ p.resumed, ∀ entry, p.conns waiter.1 = some entry →
    entry.waitCb[waiter.2]? = some none

theorem Logged.alike (logged : Logged p) (resumed : q.resumed = p.resumed)
    (next : q.nextConn = p.nextConn) (conns : q.conns = p.conns) : Logged q where
  nodup := resumed ▸ logged.nodup
  old := by rw [resumed, next]; exact logged.old
  spent := by rw [resumed, conns]; exact logged.spent

/-- Writing a connection whose spent slots stay spent. -/
theorem Logged.write (logged : Logged p) (held : p.conns conn = some entry) {new : ConnEntry κ}
    (kept : ∀ index : ℕ, entry.waitCb[index]? = some none → new.waitCb[index]? = some none) :
    Logged (p.writeConn conn new) where
  nodup := logged.nodup
  old := logged.old
  spent := fun waiter member updated held' => by
    obtain ⟨rfl, rfl⟩ | ⟨_, before⟩ := update_held held'
    · exact kept _ (logged.spent waiter member entry held)
    · exact logged.spent waiter member updated before

theorem Logged.asked (logged : Logged p) (asked : Asked env req p q) : Logged q := by
  cases asked with
  | queued pending attempts absent => exact logged.alike rfl rfl rfl
  | joined key conn entry absent routed found held => exact logged.alike rfl rfl rfl
  | parked conn entry found held full =>
    refine logged.write held fun index spent => ?_
    obtain ⟨inside, _⟩ := List.getElem?_eq_some_iff.mp spent
    rw [List.getElem?_append_left inside, spent]
  | started conn entry found held room =>
    have written : Logged (p.writeConn conn { entry with
        refcount := entry.refcount + 1, tv := env.now }) := logged.write held fun _ spent => spent
    exact written.alike rfl rfl rfl

theorem Asked.resumed_eq (asked : Asked env req p q) : q.resumed = p.resumed := by
  cases asked <;> rfl

theorem Asked.next_eq (asked : Asked env req p q) : q.nextConn = p.nextConn := by
  cases asked <;> rfl

theorem Asked.gone_stays (asked : Asked env req p q) (gone : p.conns conn = none) :
    q.conns conn = none := by
  cases asked with
  | queued pending attempts absent => exact gone
  | joined key other entry absent routed found held => exact gone
  | parked other entry found held full | started other entry found held room =>
    show Function.update p.conns other _ conn = none
    by_cases same : conn = other
    · subst same
      cases gone.symm.trans held
    · rw [Function.update_of_ne same, gone]

/-- The waiters of a deleted connection are resumed one after the other. -/
theorem resume_all_logged (env : Env) (waiters : List (Option (ChunkReq κ) × ℕ)) (logged : Logged p)
    (gone : p.conns conn = none) (old : conn < p.nextConn) (distinct : (waiters.map Prod.snd).Nodup)
    (unspent : ∀ waiter ∈ waiters, waiter.1.isSome → (conn, waiter.2) ∉ p.resumed) :
    Ends Logged (fun _ => True) (waiters.foldlM (fun p waiter => p.resume env conn waiter) p) := by
  induction waiters generalizing p with
  | nil => exact logged
  | cons waiter rest ih =>
    obtain ⟨apart, distinct⟩ := List.nodup_cons.mp distinct
    have unspent' := fun other member => unspent other (List.mem_cons_of_mem _ member)
    rw [List.foldlM_cons]
    refine (resume_ends (fun _ _ => trivial) p conn waiter).bind fun q resumed => ?_
    rcases resumed with ⟨_, rfl⟩ | ⟨req, waits, asked⟩
    · exact ih logged gone old distinct unspent'
    · have new := unspent waiter (List.mem_cons_self ..) (by simp [waits])
      have noted : Logged (p.noteResumed conn waiter.2) := by
        refine ⟨?_, fun other member => ?_, fun other member entry held => ?_⟩
        · exact List.nodup_append.mpr ⟨logged.nodup, by simp, by
            rintro other member _ here rfl
            obtain rfl := List.mem_singleton.mp here
            exact new member⟩
        · rcases List.mem_append.mp member with before | here
          · exact logged.old other before
          · obtain rfl := List.mem_singleton.mp here
            exact old
        · rcases List.mem_append.mp member with before | here
          · exact logged.spent other before entry held
          · obtain rfl := List.mem_singleton.mp here
            cases gone.symm.trans held
      refine ih (noted.asked asked) (asked.gone_stays gone) (asked.next_eq ▸ old) distinct ?_
      intro other member waits' listed
      rw [asked.resumed_eq] at listed
      rcases List.mem_append.mp listed with before | here
      · exact unspent' other member waits' before
      · have same := (Prod.mk.inj (List.mem_singleton.mp here)).2
        exact apart (same ▸ List.mem_map_of_mem member)

theorem Logged.delete (logged : Logged p) (shaped : Shaped p) (env : Env) (conn : ConnId) :
    Ends Logged (fun _ => True) (p.deleteConn env conn) := by
  refine (read_conn_ends fun _ => trivial).bind fun entry held => ?_
  have dropped : Logged (p.dropConn conn) :=
    ⟨logged.nodup, logged.old, fun waiter member other held' =>
      logged.spent waiter member other (update_none_held held').2⟩
  refine resume_all_logged env _ dropped (Function.update_self ..) (shaped.live_lt held)
    (by simp [List.nodup_range']) ?_
  intro waiter member waits listed
  have slot := List.mem_zipIdx_iff_getElem?.mp member
  have spent := logged.spent _ listed entry held
  rw [Option.some_inj.mp (slot.symm.trans spent)] at waits
  cases waits

theorem Logged.course {how : Completion} {result : Except Fault (Plugin κ)} (logged : Logged p)
    (shaped : Shaped p) (course : Course env p c how result) :
    Ends Logged (fun _ => True) result := by
  have issued (transfer : Transfer κ) : Ends Logged (fun _ => True) (p.call c.conn transfer) :=
    (call_ends fun _ => trivial).imp fun q ⟨_, sent⟩ => sent ▸ logged.alike rfl rfl rfl
  have released : Ends (fun q => Logged q ∧ Shaped q) (fun _ => True) (p.releaseConn c.conn) :=
    (release_conn_ends fun _ => trivial).imp fun q ⟨_, held, written⟩ =>
      written ▸ ⟨logged.write held fun _ spent => spent, shaped.write held _⟩
  cases course with
  | failed a =>
    exact (logged.delete shaped env c.conn).bind fun q logged => logged.alike rfl rfl rfl
  | refused a => exact logged.alike rfl rfl rfl
  | continued transfer same => exact issued transfer
  | reported transfer same a =>
    exact (issued transfer).bind fun q logged => logged.alike rfl rfl rfl
  | chunk isChunk a =>
    refine released.bind fun q ⟨logged, shaped⟩ => ?_
    have answered : Logged (q.answer a) := logged.alike rfl rfl rfl
    refine check_outstanding_ends (fun _ _ => trivial) (fun _ => trivial)
      (fun _ _ _ => answered) ?_
    intro entry req index after held first asked
    obtain ⟨_, _, slot⟩ := first_waiter_some first
    obtain ⟨inside, _⟩ := List.getElem?_eq_some_iff.mp slot
    have fresh : (c.conn, index) ∉ q.resumed := fun listed => by
      cases slot.symm.trans (logged.spent _ listed entry held)
    refine Logged.asked ⟨?_, ?_, ?_⟩ asked
    · exact List.nodup_append.mpr ⟨logged.nodup, by simp, by
        rintro waiter member _ here rfl
        obtain rfl := List.mem_singleton.mp here
        exact fresh member⟩
    · intro waiter member
      rcases List.mem_append.mp member with before | here
      · exact logged.old waiter before
      · obtain rfl := List.mem_singleton.mp here
        exact shaped.live_lt held
    · intro waiter member updated held'
      obtain ⟨here, rfl⟩ | ⟨different, before⟩ := update_held held'
      · by_cases same : waiter.2 = index
        · simp [same, inside]
        · rcases List.mem_append.mp member with before | last
          · rw [List.getElem?_set_ne (Ne.symm same)]
            exact logged.spent waiter before entry (here ▸ held)
          · exact absurd (Prod.mk.inj (List.mem_singleton.mp last)).2 same
      · rcases List.mem_append.mp member with listed | here
        · exact logged.spent waiter listed updated before
        · exact absurd (Prod.mk.inj (List.mem_singleton.mp here)).1 different
  | other isOther a => exact released.bind fun q ⟨logged, _⟩ => logged.alike rfl rfl rfl
  | overread how => exact trivial

theorem Logged.step (logged : Logged p) (shaped : Shaped p) (hash : List UInt8 → List UInt8)
    (env : Env) (event : Event κ) : Ends Logged (fun _ => True) (p.step hash env event) := by
  refine step_ends (fun _ _ => trivial)
    (fun q alike => logged.alike alike.resumed alike.next alike.conns) ?_ ?_ ?_ ?_ ?_
  · exact fun req q _ asked => logged.asked asked
  · intro conn entry transfer held _
    have written : Logged (p.writeConn conn { entry with
        refcount := entry.refcount + 1, tv := env.now }) := logged.write held fun _ spent => spent
    exact written.alike rfl rfl rfl
  · intro index attempt key q _ _ alike
    have opened : Logged (p.opened env key (p.transfers attempt)) := by
      refine ⟨logged.nodup, fun waiter member => Nat.lt_succ_of_lt (logged.old waiter member), ?_⟩
      intro waiter member entry held
      obtain ⟨here, _⟩ | ⟨_, before⟩ := update_held held
      · exact absurd here (Nat.ne_of_lt (logged.old waiter member))
      · exact logged.spent waiter member entry before
    exact opened.alike alike.resumed alike.next alike.conns
  · exact fun index c how result _ course =>
      (logged.alike (q := p.withoutCall index) rfl rfl rfl).course (shaped.without_call index) course
  · intro order _
    have tick : Ends (fun q => Logged q ∧ Shaped q) (fun _ => True) (p.reapConnEntries env order) := by
      refine ends_foldlM (fun q conn _ kept => ?_) ⟨logged, shaped⟩
      refine (read_conn_ends fun _ => trivial).bind fun entry _ => ?_
      split
      · exact (kept.1.delete kept.2 env conn).and (kept.2.delete env conn)
      · exact kept
    exact tick.imp fun _ kept => kept.1

end Plugin
end Ditto.XferGtc
