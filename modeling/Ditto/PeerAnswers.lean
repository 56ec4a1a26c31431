import Ditto.BitmapRoundTrip
import Ditto.PeerServer
import Ditto.SteadySteps

/-! Every request of a peer is answered once. A request waits for the storage or for a chunk from
the next hop, or it was answered, and each event moves it on from one of these to the next.
What stops the daemon is a request whose hints or id the code reads without looking, and a
fetch that cannot be made. -/
namespace Ditto.PeerServer
open XferGtc PeerHints Outcomes Runs Tallies
open XferGtc.Plugin (Steady Accounts)
open Downloads (Sbp XferId)
open GtcNode (Cont GetChunkArg GetChunkResOk PeerRead serveChunk)

variable {s t : Server} {env : ServerEnv} {e : ServerEnv × ServerEvent} {hash : List UInt8 → List UInt8}
  {sbp : Sbp} {offset : UInt32}

/-- The request that a callback of the client side is for. -/
def peer : Cont → Option (Sbp × Proc)
  | .proxyGetChunk sbp _ => some (sbp, .getChunk)
  | _ => none

namespace Server

/-- The requests that wait for the storage. -/
def reading (s : Server) : Multiset (Sbp × Proc) :=
  (s.chunkReads.map fun read => (read.sbp, Proc.getChunk) : List (Sbp × Proc)) +
    (s.descriptorReads.map fun read => (read.1, Proc.getDescriptors) : List (Sbp × Proc)) +
    (s.bitmapReads.map fun read => (read.1, Proc.getBitmap) : List (Sbp × Proc))

/-- The requests that were not answered yet. -/
def held (s : Server) : Multiset (Sbp × Proc) := s.reading + s.plugin.inHand.filterMap peer

/-- The requests that were answered, as often as they were. -/
def answered (s : Server) : List (Sbp × Proc) := s.replies.map fun reply => (reply.1, reply.2.proc)

/-- Nothing is in flight. -/
structure Idle (s : Server) : Prop where
  chunkReads : s.chunkReads = []
  descriptorReads : s.descriptorReads = []
  bitmapReads : s.bitmapReads = []
  calls : s.plugin.calls = []
  attempts : s.plugin.attempts = []

/-- What an event has the client side do. -/
def clientEvent (s : Server) : ServerEvent → Option (Event Cont)
  | .remoteGetChunkCb index (.error _) =>
    match s.chunkReads[index]? with
    | some read => if read.lastTry then none else some (.getChunk
        { d := read.arg.desc, hints := read.arg.hints, cb := .proxyGetChunk read.sbp read.arg })
    | none => none
  | .getChunk d hints xferId => some (.getChunk { d := d, hints := hints, cb := .xpFetchData xferId })
  | .plugin (.getChunk _) => none
  | .plugin event => some event
  | _ => none

/-- An event that the code is ready for: a request has hints, the first can be parsed, and an
id that can be hashed, and the client side can do what it is to do. -/
structure Careful (hash : List UInt8 → List UInt8) (s : Server) (e : ServerEnv × ServerEvent) : Prop where
  chunk : ∀ sbp arg, e.2 = .remoteGetChunk sbp arg →
    4 ≤ arg.desc.id.length ∧ ∃ name rest, arg.hints = name :: rest ∧ WellFormed name
  descriptors : ∀ sbp oid hints offset, e.2 = .remoteGetDescriptors sbp oid hints offset → oid ≠ [] →
    ∃ name rest, hints = name :: rest ∧ WellFormed name
  client : ∀ event, s.clientEvent e.2 = some event → Plugin.Careful hash s.plugin (e.1.toEnv, event)

/-- Every request received is held or was answered. -/
structure Sound (s : Server) : Prop where
  steady : ∃ total, Steady total s.plugin
  whole : s.held + (s.answered : Multiset (Sbp × Proc)) = s.requests

theorem Sound.init : Sound init where
  steady := ⟨0, .init Cont⟩
  whole := by
    have nothing : (Plugin.init Cont).inHand = 0 := (Steady.init Cont).idle rfl rfl
    simp only [held, Server.init, nothing]
    rfl

/-! ## Replies -/

/-- A server that has sent replies and stored chunks. -/
def saying (s : Server) (replies : List (Sbp × PeerReply)) (puts : List (Descriptor × List UInt8)) : Server :=
  { s with replies := s.replies ++ replies, puts := puts }

/-- A callback for a peer sends it one reply, and another none. -/
theorem callback_saying (s : Server) (a : Answer Cont) :
    ∃ replies puts, s.callback a = s.saying replies puts ∧
      replies.map (fun reply => (reply.1, reply.2.proc)) = (a.chunkCb.bind peer).toList := by
  have nothing : s = s.saying [] s.puts := by rw [saying, List.append_nil]
  cases a with
  | descriptors cb res => exact ⟨[], s.puts, nothing, rfl⟩
  | bitmap cb res => exact ⟨[], s.puts, nothing, rfl⟩
  | chunk cb res =>
    cases cb with
    | xpFetchData xferId => exact ⟨[], s.puts, nothing, rfl⟩
    | other => exact ⟨[], s.puts, nothing, rfl⟩
    | proxyGetChunk sbp arg =>
      cases res with
      | error errmsg => exact ⟨[(sbp, .chunk (.error errmsg))], s.puts, rfl, rfl⟩
      | ok res => exact ⟨[(sbp, .chunk (serveChunk arg res.1 res.2).1)], _, rfl, rfl⟩

theorem callbacks_saying (s : Server) (new : List (Answer Cont)) :
    ∃ replies puts, new.foldl callback s = s.saying replies puts ∧
      replies.map (fun reply => (reply.1, reply.2.proc)) = (new.filterMap Answer.chunkCb).filterMap peer := by
  induction new generalizing s with
  | nil => exact ⟨[], s.puts, by rw [saying, List.append_nil]; rfl, rfl⟩
  | cons a rest ih =>
    obtain ⟨first, puts, said, firsts⟩ := callback_saying s a
    obtain ⟨later, puts', said', laters⟩ := ih (s.callback a)
    refine ⟨first ++ later, puts', ?_, ?_⟩
    · rw [List.foldl_cons, said', said]
      simp only [saying, List.append_assoc]
    · rw [List.map_append, firsts, laters, List.filterMap_filterMap, List.filterMap_filterMap, List.filterMap_cons]
      cases a.chunkCb.bind peer <;> rfl

/-- The client side does something: the requests that it passes on to a peer were in its
hand, or are new. -/
theorem settle_sound {total : Multiset Cont} {event : Event Cont} (steady : Steady total s.plugin)
    (careful : Plugin.Careful hash s.plugin (env.toEnv, event))
    (request : s.held + (s.answered : Multiset (Sbp × Proc)) +
      ((event.chunkCb.bind peer).toList : Multiset (Sbp × Proc)) = s.requests) :
    Ends Sound Never (s.settle (s.plugin.step hash env.toEnv event)) := by
  obtain ⟨q, ran, steady', new, grown⟩ := steady.step careful
  obtain ⟨replies, puts, said, sent⟩ := callbacks_saying { s with plugin := q } new
  let t := ({ s with plugin := q } : Server).saying replies puts
  have settled : s.settle (s.plugin.step hash env.toEnv event) = .ok t := by
    rw [ran, settle]
    show Except.ok ((q.answers.drop s.plugin.answers.length).foldl callback { s with plugin := q }) = _
    rw [grown, List.drop_left, said]
  have whole : t.held + (t.answered : Multiset (Sbp × Proc)) = s.requests := by
    have before := steady.accounts.whole
    have after := steady'.accounts.whole
    have told : q.told = s.plugin.told ++ new.filterMap Answer.chunkCb := by
      rw [Plugin.told, grown, List.filterMap_append]
      rfl
    have moved : q.inHand + (new.filterMap Answer.chunkCb : Multiset Cont) =
        s.plugin.inHand + (event.chunkCb.toList : Multiset Cont) := by
      rw [told, ← Multiset.coe_add, ← before, add_right_comm _ (s.plugin.told : Multiset Cont),
        add_comm (s.plugin.told : Multiset Cont), ← add_assoc] at after
      exact add_right_cancel after
    have passed := congrArg (Multiset.filterMap peer) moved
    rw [Multiset.filterMap_add, Multiset.filterMap_add, Multiset.filterMap_coe, Multiset.filterMap_coe] at passed
    have asked : event.chunkCb.toList.filterMap peer = (event.chunkCb.bind peer).toList := by
      cases event.chunkCb with
      | none => rfl
      | some cb => cases named : peer cb <;> simp [named]
    have answered : t.answered = s.answered ++ (new.filterMap Answer.chunkCb).filterMap peer := by
      rw [← sent]
      exact List.map_append
    have held : t.held = s.reading + q.inHand.filterMap peer := rfl
    rw [held, answered, ← Multiset.coe_add, add_add_add_comm, passed, asked, ← request, Server.held]
    abel
  exact settled ▸ (⟨⟨_, steady'⟩, whole⟩ : Sound t)

/-! ## Events -/

/-- An event that leaves the client side alone: what it takes from the reads and gives to the
requests, it gives to the reads or answers. -/
theorem Sound.same (sound : Sound s) (plugin : t.plugin = s.plugin)
    (whole : t.reading + (t.answered : Multiset (Sbp × Proc)) + (s.requests : Multiset (Sbp × Proc)) =
      s.reading + (s.answered : Multiset (Sbp × Proc)) + (t.requests : Multiset (Sbp × Proc))) : Sound t where
  steady := plugin ▸ sound.steady
  whole := by
    have before := sound.whole
    have held : t.held = t.reading + s.plugin.inHand.filterMap peer := by rw [Server.held, plugin]
    rw [← before, Server.held] at whole
    rw [held]
    refine add_right_cancel (b := s.reading + (s.answered : Multiset (Sbp × Proc))) ?_
    rw [add_comm (t.requests : Multiset (Sbp × Proc)), ← whole]
    abel

/-- A request that waits for the storage. -/
theorem Sound.asked (sound : Sound s) (request : Sbp × Proc) (plugin : t.plugin = s.plugin)
    (reading : t.reading = s.reading + {request}) (answered : t.answered = s.answered)
    (requests : t.requests = s.requests ++ [request]) : Sound t := by
  refine sound.same plugin ?_
  rw [reading, answered, requests, ← Multiset.coe_add, Multiset.coe_singleton]
  abel

/-- A request that is answered at once. -/
theorem Sound.refused (sound : Sound s) (request : Sbp × Proc) (plugin : t.plugin = s.plugin)
    (reading : t.reading = s.reading) (answered : t.answered = s.answered ++ [request])
    (requests : t.requests = s.requests ++ [request]) : Sound t := by
  refine sound.same plugin ?_
  rw [reading, answered, requests, ← Multiset.coe_add, ← Multiset.coe_add]
  abel

/-- A request that is answered with what the storage gave. -/
theorem Sound.replied (sound : Sound s) (request : Sbp × Proc) (plugin : t.plugin = s.plugin)
    (reading : s.reading = t.reading + {request}) (answered : t.answered = s.answered ++ [request])
    (requests : t.requests = s.requests) : Sound t := by
  refine sound.same plugin ?_
  rw [reading, answered, requests, ← Multiset.coe_add, Multiset.coe_singleton]
  abel

theorem answered_reply (s : Server) (sbp : Sbp) (res : PeerReply) :
    (s.reply sbp res).answered = s.answered ++ [(sbp, res.proc)] :=
  List.map_append

theorem remote_get_chunk_sound (sound : Sound s) {arg : GetChunkArg}
    (ready : 4 ≤ arg.desc.id.length ∧ ∃ name rest, arg.hints = name :: rest ∧ WellFormed name) :
    Ends Sound Never ((s.receive sbp .getChunk).remoteGetChunk env sbp arg) := by
  obtain ⟨hashable, name, rest, hinted, formed⟩ := ready
  obtain ⟨res, parsed⟩ := Option.isSome_iff_exists.mp (parse_hint_isSome_iff.mpr formed)
  simp only [remoteGetChunk, if_neg (Nat.not_lt.mpr hashable), hinted, parsed]
  apply sound.asked (sbp, .getChunk)
  case plugin => rfl
  case reading =>
    simp only [reading, receive, List.map_append, ← Multiset.coe_add]
    show _ + ({(sbp, Proc.getChunk)} : Multiset (Sbp × Proc)) + _ + _ = _
    abel
  case answered => rfl
  case requests => rfl

theorem remote_get_descriptors_sound (sound : Sound s) {oid : List UInt8} {hints : List String} {offset : UInt64}
    (ready : oid ≠ [] → ∃ name rest, hints = name :: rest ∧ WellFormed name) :
    Ends Sound Never ((s.receive sbp .getDescriptors).remoteGetDescriptors sbp oid hints offset) := by
  unfold remoteGetDescriptors
  split
  next empty =>
    apply sound.refused (sbp, .getDescriptors)
    case plugin => rfl
    case reading => rfl
    case answered => exact answered_reply ..
    case requests => rfl
  next named =>
    have nonempty : oid ≠ [] := fun empty => named (by rw [empty]; exact Nat.zero_lt_one)
    obtain ⟨name, rest, rfl, formed⟩ := ready nonempty
    obtain ⟨res, parsed⟩ := Option.isSome_iff_exists.mp (parse_hint_isSome_iff.mpr formed)
    simp only [parsed]
    apply sound.asked (sbp, .getDescriptors)
    case plugin => rfl
    case reading =>
      simp only [reading, receive, List.map_append, ← Multiset.coe_add]
      show _ + (_ + ({(sbp, Proc.getDescriptors)} : Multiset (Sbp × Proc))) + _ = _
      abel
    case answered => rfl
    case requests => rfl

theorem remote_get_bitmap_sound (sound : Sound s) (oid : List UInt8) (offset : UInt64) :
    Sound ((s.receive sbp .getBitmap).remoteGetBitmap sbp oid offset) := by
  unfold remoteGetBitmap
  split
  next empty =>
    apply sound.refused (sbp, .getBitmap)
    case plugin => rfl
    case reading => rfl
    case answered => exact answered_reply ..
    case requests => rfl
  next named =>
    apply sound.asked (sbp, .getBitmap)
    case plugin => rfl
    case reading =>
      simp only [reading, receive, List.map_append, ← Multiset.coe_add]
      show _ + (_ + ({(sbp, Proc.getBitmap)} : Multiset (Sbp × Proc))) = _
      abel
    case answered => rfl
    case requests => rfl

/-! ## Answers of the storage -/

theorem remote_get_chunk_cb_sound (sound : Sound s) {index : ℕ} {read : PeerRead}
    (place : s.chunkReads[index]? = some read) {res : Except String (Descriptor × List UInt8)}
    (careful : ∀ event, s.clientEvent (.remoteGetChunkCb index res) = some event →
      Plugin.Careful hash s.plugin (env.toEnv, event)) :
    Ends Sound Never ({ s with chunkReads := s.chunkReads.eraseIdx index }.remoteGetChunkCb env read res) := by
  let rest : Server := { s with chunkReads := s.chunkReads.eraseIdx index }
  have taken : s.reading = rest.reading + {(read.sbp, Proc.getChunk)} := by
    have out := taken_out_map place fun read => (read.sbp, Proc.getChunk)
    rw [reading, out, reading]
    abel
  cases res with
  | ok found =>
    apply sound.replied (read.sbp, .getChunk)
    case plugin => rfl
    case reading => exact taken
    case answered => exact answered_reply ..
    case requests => rfl
  | error errmsg =>
    simp only [remoteGetChunkCb]
    split
    next last =>
      apply sound.replied (read.sbp, .getChunk)
      case plugin => rfl
      case reading => exact taken
      case answered => exact answered_reply ..
      case requests => rfl
    next again =>
      let event : Event Cont := .getChunk
        { d := read.arg.desc, hints := read.arg.hints, cb := .proxyGetChunk read.sbp read.arg }
      have asks : s.clientEvent (.remoteGetChunkCb index (.error errmsg)) = some event := by
        simp only [clientEvent, place, if_neg again]
        rfl
      obtain ⟨total, steady⟩ := sound.steady
      refine settle_sound (s := rest) steady (careful event asks) ?_
      show rest.held + (rest.answered : Multiset (Sbp × Proc)) + ({(read.sbp, Proc.getChunk)} : Multiset _) = s.requests
      rw [← sound.whole, held, held, taken]
      show rest.reading + s.plugin.inHand.filterMap peer + (s.answered : Multiset (Sbp × Proc)) + _ = _
      abel

theorem remote_get_descriptors_cb_sound (sound : Sound s) {index : ℕ}
    (place : s.descriptorReads[index]? = some (sbp, offset)) (res : Except String (List Descriptor)) :
    Sound ({ s with descriptorReads := s.descriptorReads.eraseIdx index }.remoteGetDescriptorsCb sbp offset res) := by
  have taken (t : Server) (reads : t.reading =
      ({ s with descriptorReads := s.descriptorReads.eraseIdx index } : Server).reading) :
      s.reading = t.reading + {(sbp, Proc.getDescriptors)} := by
    have out := taken_out_map place fun read => (read.1, Proc.getDescriptors)
    rw [reads, reading, out, reading]
    abel
  cases res with
  | error errmsg =>
    apply sound.replied (sbp, .getDescriptors)
    case plugin => rfl
    case reading => exact taken _ rfl
    case answered => exact answered_reply ..
    case requests => rfl
  | ok descs =>
    apply sound.replied (sbp, .getDescriptors)
    case plugin => rfl
    case reading => exact taken _ rfl
    case answered => exact answered_reply ..
    case requests => rfl

/-- The bytes of a bitmap in a reply are among those that were packed. -/
theorem bitmap_within {err : Option String} {bmp : List Bool} {resok : BitmapResOk}
    (sent : XferGtc.remoteGetBitmapCb offset err bmp = .ok resok) :
    (bytesFor resok.count).toNat ≤ resok.bmp.length := by
  cases err with
  | some errmsg => cases sent
  | none =>
    simp only [XferGtc.remoteGetBitmapCb] at sent
    generalize UInt32.ofNat bmp.length = total at sent
    split at sent
    · cases sent
    next inside =>
      cases sent
      have zero : (0 : UInt32).toNat = 0 := rfl
      have small : offset ≤ total := by
        rw [length_convert_from, UInt32.lt_iff_toNat_lt] at inside
        rw [UInt32.le_iff_toNat_le]
        omega
      have left : (total - offset).toNat = total.toNat - offset.toNat := UInt32.toNat_sub_of_le _ _ small
      have most : (if maxbits < total - offset then maxbits else total - offset).toNat ≤ total.toNat - offset.toNat := by
        split
        next more =>
          rw [UInt32.lt_iff_toNat_lt, left] at more
          omega
        next => omega
      have start : (offset / 8).toNat = offset.toNat / 8 := UInt32.toNat_div ..
      dsimp only
      rw [List.length_take, List.length_drop, length_convert_from, start]
      refine le_min (Nat.le_refl _) ?_
      rw [to_nat_bytes_for]
      rw [UInt32.le_iff_toNat_le] at small
      omega

theorem remote_get_bitmap_cb_sound (sound : Sound s) {index : ℕ}
    (place : s.bitmapReads[index]? = some (sbp, offset)) (res : Except String (List Bool)) :
    Ends Sound Never ({ s with bitmapReads := s.bitmapReads.eraseIdx index }.remoteGetBitmapCb sbp offset res) := by
  have replied (reply : Except String BitmapResOk) :
      Sound (({ s with bitmapReads := s.bitmapReads.eraseIdx index } : Server).reply sbp (.bitmap reply)) := by
    apply sound.replied (sbp, .getBitmap)
    case plugin => rfl
    case reading =>
      have out := taken_out_map place fun read => (read.1, Proc.getBitmap)
      show s.reading = ({ s with bitmapReads := s.bitmapReads.eraseIdx index } : Server).reading + _
      rw [reading, out, reading]
      abel
    case answered => exact answered_reply ..
    case requests => rfl
  have within (err : Option String) (bmp : List Bool) (resok : BitmapResOk)
      (sent : XferGtc.remoteGetBitmapCb offset err bmp = .ok resok) :
        ¬ resok.bmp.length < (bytesFor resok.count).toNat :=
    Nat.not_lt.mpr (bitmap_within sent)
  cases res with
  | error errmsg => exact replied _
  | ok bmp =>
    simp only [remoteGetBitmapCb]
    cases sent : XferGtc.remoteGetBitmapCb offset none bmp with
    | error errmsg => exact replied _
    | ok resok =>
      dsimp only
      rw [if_neg (within none bmp resok sent)]
      exact replied _

/-! ## Runs -/

/-- **An event that the code is ready for is handled to its end.** -/
theorem step_sound (sound : Sound s) (careful : Careful hash s e) : Ends Sound Never (s.step hash e.1 e.2) := by
  obtain ⟨env, event⟩ := e
  cases event with
  | remoteGetChunk sbp arg => exact remote_get_chunk_sound sound (careful.chunk sbp arg rfl)
  | remoteGetDescriptors sbp oid hints offset =>
    exact remote_get_descriptors_sound sound (careful.descriptors sbp oid hints offset rfl)
  | remoteGetBitmap sbp oid offset => exact remote_get_bitmap_sound sound oid offset
  | remoteGetChunkCb index res =>
    simp only [step]
    split
    next read place => exact remote_get_chunk_cb_sound sound place careful.client
    next => exact sound
  | remoteGetDescriptorsCb index res =>
    simp only [step]
    split
    next sbp offset place => exact remote_get_descriptors_cb_sound sound place res
    next => exact sound
  | remoteGetBitmapCb index res =>
    simp only [step]
    split
    next sbp offset place => exact remote_get_bitmap_cb_sound sound place res
    next => exact sound
  | getChunk d hints xferId =>
    obtain ⟨total, steady⟩ := sound.steady
    refine settle_sound steady (careful.client _ rfl) ?_
    exact (add_zero _).trans sound.whole
  | plugin event =>
    obtain ⟨total, steady⟩ := sound.steady
    have own (unasked : event.chunkCb = none) (asks : s.clientEvent (.plugin event) = some event) :
        Ends Sound Never (s.settle (s.plugin.step hash env.toEnv event)) := by
      refine settle_sound steady (careful.client event asks) ?_
      rw [unasked]
      exact (add_zero _).trans sound.whole
    cases event with
    | getChunk req => exact sound
    | getDescriptors oid hints cb => exact own rfl rfl
    | getBitmap oid hints cb => exact own rfl rfl
    | connect index connected => exact own rfl rfl
    | chunkReply index res => exact own rfl rfl
    | descriptorsReply index res => exact own rfl rfl
    | bitmapReply index res => exact own rfl rfl
    | reap order => exact own rfl rfl

theorem Sound.idle (sound : Sound s) (idle : Idle s) : s.held = 0 := by
  obtain ⟨total, steady⟩ := sound.steady
  simp only [held, reading, idle.chunkReads, idle.descriptorReads, idle.bitmapReads,
    steady.idle idle.calls idle.attempts]
  rfl

def smallEnv : ServerEnv where
  now := 0
  routingTable := .ok fun host => if host = "n" then some "n" else none
  hostname := "me"
  listenPort := 12000

def smallArg (hints : List String) : GetChunkArg where
  desc := { id := [1, 2, 3, 4], length := 4 }
  hints := hints
  offset := 0

end Server
end Ditto.PeerServer
