import Ditto.ChunkRequests
import Ditto.ConnectionLifetime
import Ditto.ConnectionUniqueness
import Ditto.ConnectionWakeups

/-! The events that do not stop the daemon. A request is made with a hint that can be followed,
fresh or resumed, a connect that requests wait for succeeds, and replies are as long as they
say: then nothing is left to fail but the use of a deleted connection. -/
namespace Ditto.XferGtc.Plugin
open Outcomes Tallies

variable {κ : Type} {p : Plugin κ} {env : Env} {req : ChunkReq κ} {conn : ConnId} {e : Env × Event κ}
  {total : Multiset κ} {hash : List UInt8 → List UInt8}

/-- An event that can be handled to its end. -/
structure Prompt (hash : List UInt8 → List UInt8) (p : Plugin κ) (e : Env × Event κ) : Prop where
  routed : ∀ req, Asks hash p e.1 e.2 req → (route e.1 req).isSome
  connected : ∀ index key, e.2 = .connect index false → p.attempts[index]? ≠ some (.establishConnection key)
  descriptors : ∀ oid hints cb, e.2 = .getDescriptors oid hints cb → (e.2.objectKey e.1).isSome
  bitmap : ∀ oid hints cb, e.2 = .getBitmap oid hints cb → ∃ key, e.2.objectKey e.1 = some key ∧
    ∀ conn entry, p.lookup key = some conn → p.conns conn = some entry → entry.refcount < maxRpcsInFlight
  counted : ∀ index resok, e.2 = .descriptorsReply index (.ok resok) →
    resok.count.toNat ≤ resok.descriptors.length
  packed : ∀ index resok, e.2 = .bitmapReply index (.ok resok) →
    (convertToBitvec resok.bmp resok.count).isSome ∧ resok.offset ≤ resok.count.toUInt64 + resok.offset

/-- The fault that is left. -/
def Gone (f : Fault) : Prop := f = .useAfterDelete

theorem gone : Gone .useAfterDelete := rfl

theorem call_steady (p : Plugin κ) (conn : ConnId) (transfer : Transfer κ) :
    Ends (fun _ => True) Gone (p.call conn transfer) :=
  (call_ends fun _ => gone).imp fun _ _ => trivial

theorem get_chunk_steady (routed : (route env req).isSome) :
    Ends (fun _ => True) Gone (p.getChunk env req) := by
  unfold getChunk
  unfold route at routed
  cases hinted : req.hints with
  | nil =>
    rw [hinted] at routed
    cases routed
  | cons name rest =>
    rw [hinted, List.head?_cons, Option.bind_some] at routed
    dsimp only
    cases hop : env.nextHop name with
    | error msg =>
      rw [hop] at routed
      cases routed
    | ok res =>
      dsimp only
      cases found : p.lookup res.key with
      | none =>
        simp only [getConnection]
        split
        · exact call_steady ..
        · split <;> trivial
      | some conn =>
        refine (read_conn_ends fun _ => gone).bind fun entry _ => ?_
        split
        · trivial
        · exact call_steady ..

theorem delete_conn_steady
    (routed : ∀ entry req (slot : ℕ), p.conns conn = some entry → entry.waitCb[slot]? = some (some req) →
      (route env req).isSome) :
    Ends (fun _ => True) Gone (p.deleteConn env conn) :=
  delete_conn_rule (fun _ => gone) (fun _ _ => trivial) fun entry req index _ held waits _ =>
    get_chunk_steady (routed entry req index held waits)

/-- The connection of a call that failed is deleted, and what waited there has a route. -/
theorem failure_steady {event : Event κ} {index : ℕ} {c : Call κ} (failed : Completes hash p event index c .failed)
    (routed : ∀ again, Asks hash p env event again → (route env again).isSome) :
    Ends (fun _ => True) Gone ((p.withoutCall index).deleteConn env c.conn) :=
  delete_conn_steady fun entry again slot held waits => routed again (.failed index slot c entry again failed held waits)

theorem chunk_reply_steady {index offset : ℕ} {data : List UInt8} {res : Reply ChunkResOk}
    (called : p.calls[index]? = some ⟨conn, .chunk req offset data⟩)
    (routed : ∀ again, Asks hash p env (.chunkReply index res) again → (route env again).isSome) :
    Ends (fun _ => True) Gone
      ({ p with calls := p.calls.eraseIdx index }.getChunkInternalCb hash env req data conn res) := by
  cases res with
  | err clntStat =>
    have deleted := failure_steady ⟨rfl, called, rfl⟩ routed
    exact deleted.bind fun _ _ => trivial
  | notOk errmsg => trivial
  | ok resok =>
    simp only [getChunkInternalCb]
    split
    next ended =>
      split
      next => trivial
      next same =>
        have finished : Completes hash p (.chunkReply index (.ok resok)) index ⟨conn, .chunk req offset data⟩
            .finished := ⟨rfl, called, by simp only [Event.completion, if_pos ended, if_neg same]⟩
        refine (release_conn_ends fun _ => gone).bind fun q released => ?_
        obtain ⟨entry, held, released⟩ := released
        refine check_outstanding_rule (fun _ => gone) (fun _ _ _ => trivial) fun entry' again slot held' first => ?_
        refine get_chunk_steady (routed again (.woken index slot _ entry again finished held ?_))
        rw [released] at held'
        obtain ⟨_, rfl⟩ | ⟨away, _⟩ := update_held held'
        · exact first
        · exact absurd rfl away
    next => exact call_steady ..

theorem connect_steady (accounts : Accounts total p) {index : ℕ} {attempt : Attempt κ} (connected : Bool)
    (place : p.attempts[index]? = some attempt)
    (succeeds : connected = false → ∀ key, attempt ≠ .establishConnection key) :
    Ends (fun _ => True) Gone ({ p with attempts := p.attempts.eraseIdx index }.connect env connected attempt) := by
  cases attempt with
  | establishConnection key =>
    cases connected with
    | false => exact absurd rfl (succeeds rfl key)
    | true =>
      have member : Attempt.establishConnection key ∈ p.attempts := List.mem_of_getElem? place
      have listed : key ∈ p.tabledKeys := List.mem_filterMap.mpr ⟨_, member, rfl⟩
      obtain ⟨pendingCbs, pending⟩ := Option.isSome_iff_exists.mp ((accounts.tabled key).mpr listed)
      have launched := launch_eq (p := { p with attempts := p.attempts.eraseIdx index }) env key pendingCbs []
      rw [opened_alone, List.nil_append] at launched
      simp only [connect, establishConnection, pending, if_true]
      rw [launched]
      trivial
  | getDescriptorsClnt oid hints cb key =>
    cases connected with
    | true => exact call_steady ..
    | false => trivial
  | getBitmapClnt oid cb key =>
    cases connected with
    | true => exact call_steady ..
    | false => trivial

theorem get_descriptors_steady {oid : List UInt8} {hints : List String} {cb : κ}
    (named : ((Event.getDescriptors oid hints cb).objectKey env).isSome) :
    Ends (fun _ => True) Gone (p.getDescriptors env oid hints cb) := by
  cases hints with
  | nil => cases named
  | cons name rest =>
    obtain ⟨key, parsed⟩ : ∃ key, env.parseHint name = some key := Option.isSome_iff_exists.mp named
    simp only [getDescriptors, parsed]
    split
    · trivial
    · exact (read_conn_ends fun _ => gone).bind fun _ _ => call_steady ..

theorem get_bitmap_steady {oid : List UInt8} {hints : List String} {cb : κ} {key : String}
    (named : (Event.getBitmap oid hints cb).objectKey env = some key)
    (roomy : ∀ conn entry, p.lookup key = some conn → p.conns conn = some entry → entry.refcount < maxRpcsInFlight) :
    Ends (fun _ => True) Gone (p.getBitmap env oid hints cb) := by
  cases hints with
  | nil => cases named
  | cons name rest =>
    have parsed : env.parseHint name = some key := named
    simp only [getBitmap, parsed]
    split
    · trivial
    next conn found =>
      refine (read_conn_ends fun _ => gone).bind fun entry held => ?_
      rw [if_neg (Int.not_le.mpr (roomy conn entry found held))]
      exact call_steady ..

theorem descriptors_reply_steady {index : ℕ} {oid : List UInt8} {hints : List String} {cb : κ} {offset : ℤ}
    {res : Reply DescriptorsResOk} (called : p.calls[index]? = some ⟨conn, .descriptors oid hints cb offset⟩)
    (routed : ∀ again, Asks hash p env (.descriptorsReply index res) again → (route env again).isSome)
    (counted : ∀ resok, res = .ok resok → resok.count.toNat ≤ resok.descriptors.length) :
    Ends (fun _ => True) Gone
      ({ p with calls := p.calls.eraseIdx index }.getDescInternalCb env oid hints cb conn res) := by
  cases res with
  | err clntStat =>
    have deleted := failure_steady ⟨rfl, called, rfl⟩ routed
    exact deleted.bind fun _ _ => trivial
  | notOk errmsg => trivial
  | ok resok =>
    simp only [getDescInternalCb, if_neg (Nat.not_lt.mpr (counted resok rfl))]
    split
    · exact (release_conn_ends fun _ => gone).bind fun _ _ => trivial
    · exact (call_steady ..).bind fun _ _ => trivial

theorem bitmap_reply_steady {index : ℕ} {oid : List UInt8} {cb : κ} {offset : ℤ} {bmp : List Bool}
    {res : Reply BitmapResOk} (called : p.calls[index]? = some ⟨conn, .bitmap oid cb offset bmp⟩)
    (routed : ∀ again, Asks hash p env (.bitmapReply index res) again → (route env again).isSome)
    (packed : ∀ resok, res = .ok resok →
      (convertToBitvec resok.bmp resok.count).isSome ∧ resok.offset ≤ resok.count.toUInt64 + resok.offset) :
    Ends (fun _ => True) Gone
      (Plugin.getBitmapInternalCb { p with calls := p.calls.eraseIdx index } env oid cb bmp conn res) := by
  cases res with
  | err clntStat =>
    have deleted := failure_steady ⟨rfl, called, rfl⟩ routed
    exact deleted.bind fun _ _ => trivial
  | notOk errmsg => trivial
  | ok resok =>
    obtain ⟨converts, straight⟩ := packed resok rfl
    obtain ⟨bmpTmp, converted⟩ := Option.isSome_iff_exists.mp converts
    simp only [Plugin.getBitmapInternalCb, XferGtc.getBitmapInternalCb, converted, Option.bind_eq_bind,
      Option.bind_some, if_neg (UInt64.not_lt.mpr straight)]
    cases resok.ended with
    | true => exact (release_conn_ends fun _ => gone).bind fun _ _ => trivial
    | false => exact call_steady ..

/-- **A prompt event fails at most at a deleted connection.** -/
theorem step_steady (accounts : Accounts total p) (possible : Possible p e) (prompt : Prompt hash p e) :
    Ends (fun _ => True) Gone (p.step hash e.1 e.2) := by
  obtain ⟨env, event⟩ := e
  cases event with
  | getChunk req => exact get_chunk_steady (prompt.routed req (.fresh req rfl))
  | getDescriptors oid hints cb => exact get_descriptors_steady (prompt.descriptors oid hints cb rfl)
  | getBitmap oid hints cb =>
    obtain ⟨key, named, roomy⟩ := prompt.bitmap oid hints cb rfl
    exact get_bitmap_steady named roomy
  | connect index connected =>
    simp only [Plugin.step]
    split
    next attempt place =>
      refine connect_steady accounts connected place fun failed key pending => ?_
      subst failed pending
      exact prompt.connected index key rfl place
    next => trivial
  | chunkReply index res =>
    simp only [Plugin.step]
    split
    next called => exact chunk_reply_steady called prompt.routed
    next => trivial
  | descriptorsReply index res =>
    simp only [Plugin.step]
    split
    next called =>
      exact descriptors_reply_steady called prompt.routed fun resok same => prompt.counted index resok (same ▸ rfl)
    next => trivial
  | bitmapReply index res =>
    simp only [Plugin.step]
    split
    next called =>
      exact bitmap_reply_steady called prompt.routed fun resok same => prompt.packed index resok (same ▸ rfl)
    next => trivial
  | reap order =>
    refine reap_rule accounts.shaped (possible order rfl) trivial (fun _ _ _ _ _ _ _ => trivial) ?_
    intro conn entry req index before held stale waits _ _
    exact get_chunk_steady (prompt.routed req (.reaped order conn index entry req rfl held stale waits))

/-! ## Together with the other conditions -/

/-- An event that deletes no shared connection, strands no parked request and can be handled
to its end. -/
structure Careful (hash : List UInt8 → List UInt8) (p : Plugin κ) (e : Env × Event κ) : Prop where
  possible : Possible p e
  unshared : Unshared hash p e
  wakeful : Wakeful hash p e
  prompt : Prompt hash p e

/-- What careful events keep: the accounts of the requests, calls on live connections, and a
chunk transfer wherever a request is parked. -/
structure Steady (total : Multiset κ) (p : Plugin κ) : Prop where
  accounts : Accounts total p
  live : CallsLive p
  served : Served p

theorem Steady.init (κ : Type) : Steady 0 (init κ) :=
  ⟨.init κ, fun _ member => (by cases member), fun _ _ held => (by cases held)⟩

/-- **A careful event is handled to its end.** The requests in hand and told are those of
before and the new one, and the callbacks called are appended. -/
theorem Steady.step (steady : Steady total p) (careful : Careful hash p e) :
    ∃ q, p.step hash e.1 e.2 = .ok q ∧ Steady (total + (e.2.chunkCb.toList : Multiset κ)) q ∧
      ∃ new, q.answers = p.answers ++ new := by
  have shaped := steady.accounts.shaped
  have live := steady.live.step shaped careful.possible careful.unshared
  have only_gone := step_steady steady.accounts careful.possible careful.prompt
  cases ran : p.step hash e.1 e.2 with
  | error f => exact absurd (only_gone.of_error ran) (live.of_error ran)
  | ok q =>
    have accounts := (step_accounts steady.accounts hash e.1 e.2).of_ok ran
    have served := (steady.served.step shaped careful.possible careful.wakeful).of_ok ran
    obtain ⟨new, grown, _⟩ := (step_justified hash p e.1 e.2).of_ok ran
    exact ⟨q, rfl, ⟨accounts, live.of_ok ran, served⟩, new, grown⟩

/-- With nothing in flight no request is in hand. -/
theorem Steady.idle (steady : Steady total p) (uncalled : p.calls = []) (untried : p.attempts = []) : p.inHand = 0 := by
  have unparked : tally p.nextConn p.waitingOn = 0 := tally_nothing fun conn => by
    cases held : p.conns conn with
    | none => simp only [waitingOn, held, Option.map_none, Option.getD_none, Multiset.coe_nil]
    | some entry =>
      have nobody : entry.waiting = [] := by
        refine List.filterMap_eq_nil_iff.mpr fun waiter member => ?_
        cases waiter with
        | none => rfl
        | some req =>
          have busy := steady.served conn entry held ⟨req, member⟩
          rw [uncalled] at busy
          cases busy
      simp only [waitingOn, held, Option.map_some, Option.getD_some, nobody, Multiset.coe_nil]
  simp only [inHand, uncalled, tabledKeys, untried, unparked, List.filterMap_nil, List.flatMap_nil, Multiset.coe_nil,
    add_zero]

end Ditto.XferGtc.Plugin
