import Ditto.ContentAddressing
import Ditto.HeldRequests

/-! What a step of a node adds: the chunks it stores, which are those of the sniffer and
those that a reply completes, its replies to peers, its reads of the storage for a peer
and the requests it holds. -/
namespace Ditto.GtcNode
open XferGtc Downloads Outcomes Logs

variable {hash : List UInt8 → List UInt8} {n m : Node} {env : NodeEnv} {event : NodeEvent}
  {put : Descriptor × List UInt8 → Prop} {reply : Sbp × Except String GetChunkResOk → Prop}
  {result : Except XferGtc.Fault (Plugin Cont)}

/-- The storage after a `put_ichunk`. -/
def keep (stored : List UInt8 → Option (List UInt8)) (entry : Descriptor × List UInt8) :
    List UInt8 → Option (List UInt8) :=
  Gtcd.store stored (.putIchunk entry.1 entry.2)

/-- A chunk that is stored stays. -/
theorem keep_stored {stored : List UInt8 → Option (List UInt8)} {entry : Descriptor × List UInt8} {id data : List UInt8}
    (held : stored id = some data) : keep stored entry id = some data := by
  unfold keep Gtcd.store
  dsimp only
  split
  · exact held
  next absent =>
    by_cases same : id = entry.1.id
    · rw [← same, held] at absent
      exact absurd rfl absent
    · rw [Function.update_of_ne same, held]

theorem foldl_keep_stored {entries : List (Descriptor × List UInt8)} {stored : List UInt8 → Option (List UInt8)}
    {id data : List UInt8} (held : stored id = some data) : entries.foldl keep stored id = some data := by
  induction entries generalizing stored with
  | nil => exact held
  | cons entry rest ih => exact ih (keep_stored held)

/-- What is stored is of one kind if it was and what is put is. -/
theorem keep_each {kind : List UInt8 → List UInt8 → Prop} {entry : Descriptor × List UInt8}
    {stored : List UInt8 → Option (List UInt8)} (initial : ∀ id data, stored id = some data → kind id data)
    (new : kind entry.1.id entry.2) : ∀ id data, keep stored entry id = some data → kind id data := by
  intro id data held
  unfold keep Gtcd.store at held
  dsimp only at held
  split at held
  · exact initial id data held
  · by_cases same : id = entry.1.id
    · rw [same, Function.update_self] at held
      cases held
      rw [same]
      exact new
    · rw [Function.update_of_ne same] at held
      exact initial id data held

theorem foldl_keep_each {kind : List UInt8 → List UInt8 → Prop} {entries : List (Descriptor × List UInt8)}
    {stored : List UInt8 → Option (List UInt8)} (initial : ∀ id data, stored id = some data → kind id data)
    (each : ∀ entry ∈ entries, kind entry.1.id entry.2) :
    ∀ id data, entries.foldl keep stored id = some data → kind id data := by
  induction entries generalizing stored with
  | nil => exact initial
  | cons entry rest ih =>
    obtain ⟨first, others⟩ := List.forall_mem_cons.mp each
    exact ih (keep_each initial first) others

/-- What is put is stored from then on, unless something was. -/
theorem keep_put (stored : List UInt8 → Option (List UInt8)) (entry : Descriptor × List UInt8) :
    (keep stored entry entry.1.id).isSome := by
  unfold keep Gtcd.store
  dsimp only
  split
  next held => exact held
  next => rw [Function.update_self]; rfl

/-- The chunk that a reply is a part of is stored. -/
def Backs (stored : List UInt8 → Option (List UInt8)) (entry : Sbp × Except String GetChunkResOk) : Prop :=
  ∀ resok, entry.2 = .ok resok → (stored resok.chunkId).isSome

/-- The storage is what the new chunks make of it, they and the new replies are of one
kind each, and the chunks of the new replies are stored. -/
structure Adds (put : Descriptor × List UInt8 → Prop) (reply : Sbp × Except String GetChunkResOk → Prop)
    (n m : Node) : Prop where
  puts : ∃ new, m.puts = n.puts ++ new ∧ m.gtcd.stored = new.foldl keep n.gtcd.stored ∧ ∀ entry ∈ new, put entry
  replies : Grows (fun entry => reply entry ∧ Backs m.gtcd.stored entry) n.peerReplies m.peerReplies

theorem Adds.stored {id data : List UInt8} (adds : Adds put reply n m) (held : n.gtcd.stored id = some data) :
    m.gtcd.stored id = some data := by
  obtain ⟨new, _, stored, _⟩ := adds.puts
  rw [stored]
  exact foldl_keep_stored held

theorem Adds.stored_some {id : List UInt8} (adds : Adds put reply n m) (held : (n.gtcd.stored id).isSome) :
    (m.gtcd.stored id).isSome := by
  obtain ⟨data, found⟩ := Option.isSome_iff_exists.mp held
  rw [adds.stored found]
  rfl

theorem Adds.same (puts : m.puts = n.puts) (stored : m.gtcd.stored = n.gtcd.stored)
    (replies : m.peerReplies = n.peerReplies) : Adds put reply n m where
  puts := ⟨[], by rw [puts, List.append_nil], stored, List.forall_mem_nil _⟩
  replies := Grows.same replies

theorem Adds.trans {k : Node} (first : Adds put reply n m) (second : Adds put reply m k) : Adds put reply n k where
  puts := by
    obtain ⟨new, puts, stored, kind⟩ := first.puts
    obtain ⟨newer, puts', stored', kind'⟩ := second.puts
    refine ⟨new ++ newer, ?_, ?_, List.forall_mem_append.mpr ⟨kind, kind'⟩⟩
    · rw [puts', puts, List.append_assoc]
    · rw [stored', stored, List.foldl_append]
  replies := by
    refine Grows.trans (first.replies.imp fun entry replied => ⟨replied.1, fun resok ok => ?_⟩) second.replies
    exact second.stored_some (replied.2 resok ok)

theorem Adds.put_ichunk {d : Descriptor} {data : List UInt8} (kind : put (d, data)) :
    Adds put reply n (n.putIchunk d data) where
  puts := ⟨[(d, data)], rfl, rfl, List.forall_mem_singleton.mpr kind⟩
  replies := Grows.same rfl

theorem Adds.peer_reply {sbp : Sbp} {res : Except String GetChunkResOk} (kind : reply (sbp, res))
    (backs : Backs n.gtcd.stored (sbp, res)) : Adds put reply n (n.peerReply sbp res) where
  puts := ⟨[], (List.append_nil _).symm, rfl, List.forall_mem_nil _⟩
  replies := Grows.snoc ⟨kind, backs⟩

theorem backs_error {stored : List UInt8 → Option (List UInt8)} (sbp : Sbp) (msg : String) :
    Backs stored (sbp, .error msg) := by
  rintro resok ⟨⟩

/-- What is served is of the chunk asked for. -/
theorem serve_chunk_id {arg : GetChunkArg} {d : Descriptor} {data : List UInt8} {resok : GetChunkResOk}
    (served : (serveChunk arg d data).1 = .ok resok) : resok.chunkId = d.id := by
  simp only [serveChunk] at served
  split at served
  · cases served
  · cases served
    rfl

theorem serve_chunk_backs {stored : List UInt8 → Option (List UInt8)} {sbp : Sbp} {arg : GetChunkArg} {d : Descriptor}
    {data : List UInt8} (held : (stored d.id).isSome) : Backs stored (sbp, (serveChunk arg d data).1) := by
  intro resok served
  rw [serve_chunk_id served]
  exact held

/-- A peer is served from the buffer that is stored then. -/
theorem Adds.proxied {sbp : Sbp} {arg : GetChunkArg} {d : Descriptor} {data left : List UInt8}
    (served : reply (sbp, (serveChunk arg d data).1)) (kind : put (d, left)) :
    Adds put reply n ((n.peerReply sbp (serveChunk arg d data).1).putIchunk d left) where
  puts := ⟨[(d, left)], rfl, rfl, List.forall_mem_singleton.mpr kind⟩
  replies := Grows.snoc ⟨served, serve_chunk_backs (keep_put n.gtcd.stored (d, left))⟩

/-- The storage's calls that store nothing leave it as it is. -/
theorem foldl_store (ops : List SpOp) (stored : List UInt8 → Option (List UInt8)) :
    ops.foldl Gtcd.store stored = (ops.filterMap SpOp.put).foldl keep stored := by
  induction ops generalizing stored with
  | nil => rfl
  | cons op rest ih =>
    rw [List.foldl_cons, ih]
    cases op <;> rfl

theorem Adds.update (xferId : XferId) {after : Downloads.Transfer}
    (stores : Grows (fun op => ∀ entry, op.put = some entry → put entry) (n.gtcd.transfers xferId).spOps after.spOps) :
    Adds put reply n (n.update xferId after) where
  puts := by
    refine ⟨_, rfl, foldl_store _ _, fun entry member => ?_⟩
    obtain ⟨op, added, stored⟩ := List.mem_filterMap.mp member
    exact stores.of_mem_drop added entry stored
  replies := Grows.same rfl

theorem Adds.update_nothing (xferId : XferId) {after : Downloads.Transfer}
    (nothing : StoresNothing (n.gtcd.transfers xferId) after) : Adds put reply n (n.update xferId after) :=
  Adds.update xferId (nothing.imp fun op none_put entry stored => by cases none_put.symm.trans stored)

theorem init_cb_stored {g : Gtcd} {xferId : XferId} {call : InitCall} {res : Except String (List Descriptor × Bool)} :
    Ends (fun after => after.stored = g.stored) (fun _ => True) (g.getInitCb xferId call res) := by
  cases res with
  | error s =>
    simp only [Gtcd.getInitCb]
    split
    · exact rfl
    · exact (deref_ends _).bind fun _ _ => rfl
  | ok found =>
    obtain ⟨descs, ended⟩ := found
    simp only [Gtcd.getInitCb]
    refine (deref_ends _).bind fun pdp _ => ?_
    split <;> exact rfl

/-! ## Callbacks -/

/-- What the callback adds for the chunk of a request is of either kind. -/
def Admits (put : Descriptor × List UInt8 → Prop) (reply : Sbp × Except String GetChunkResOk → Prop)
    (d : Descriptor) (data : List UInt8) : Cont → Prop
  | .proxyGetChunk sbp arg => reply (sbp, (serveChunk arg d data).1) ∧ put (d, (serveChunk arg d data).2)
  | .xpFetchData _ => put (d, data)
  | .other => True

/-- An answer of the transfer plugin, where what its callback adds is of either kind. -/
def Admitted (put : Descriptor × List UInt8 → Prop) (reply : Sbp × Except String GetChunkResOk → Prop)
    (a : Answer Cont) : Prop :=
  ∀ cb d data, a = .chunk cb (.ok (d, data)) → Admits put reply d data cb

/-- After some of the callbacks of an operation that left the transfer plugin so. -/
structure Settles (put : Descriptor × List UInt8 → Prop) (reply : Sbp × Except String GetChunkResOk → Prop)
    (n : Node) (p : Plugin Cont) (m : Node) : Prop where
  adds : Adds put reply n m
  plugin : m.plugin = p
  reads : m.peerReads = n.peerReads

theorem callback_settles {p : Plugin Cont} {k : Node} {a : Answer Cont} (errors : ∀ sbp msg, reply (sbp, .error msg))
    (admitted : Admitted put reply a) (settles : Settles put reply n p k) (ran : Node.callback env k a = some m) :
    Settles put reply n p m := by
  unfold Node.callback at ran
  split at ran
  next sbp arg res =>
    cases ran
    cases res with
    | error msg =>
      have replied := settles.adds.trans (Adds.peer_reply (errors sbp msg) (backs_error sbp msg))
      exact ⟨replied, settles.plugin, settles.reads⟩
    | ok chunk =>
      obtain ⟨d, data⟩ := chunk
      obtain ⟨served, left⟩ := admitted _ d data rfl
      exact ⟨settles.adds.trans (Adds.proxied served left), settles.plugin, settles.reads⟩
  next xferId res =>
    obtain ⟨t, got, written⟩ := Option.bind_eq_some_iff.mp ran
    cases written
    refine ⟨settles.adds.trans (Adds.update xferId ?_), settles.plugin, settles.reads⟩
    refine ((xp_fetch_data_cb_stores res).of_ok (ok_of_to_option got)).imp fun op stored entry kept => ?_
    exact admitted _ entry.1 entry.2 (by rw [stored entry kept])
  next =>
    cases ran
    exact settles

/-- The callbacks of one operation of the transfer plugin. -/
theorem settle_ends (errors : ∀ sbp msg, reply (sbp, .error msg))
    (admitted : Ends (fun q => Grows (Admitted put reply) n.plugin.answers q.answers) (fun _ => True) result)
    (ran : n.settle env result = some m) : ∃ p, result = .ok p ∧ Settles put reply n p m := by
  obtain ⟨p, got, ran⟩ := Option.bind_eq_some_iff.mp ran
  have grown := admitted.of_ok (ok_of_to_option got)
  have initial : Settles put reply n p { n with plugin := p } := ⟨Adds.same rfl rfl rfl, rfl, rfl⟩
  have each : ∀ before a after, a ∈ p.answers.drop n.plugin.answers.length → Settles put reply n p before →
      Node.callback env before a = some after → Settles put reply n p after :=
    fun _ _ _ member settles stepped => callback_settles errors (grown.of_mem_drop member) settles stepped
  exact ⟨p, ok_of_to_option got, Runs.kept_of_foldlM initial each ran⟩

/-- An operation that calls no callback. -/
theorem settle_silent (same : Ends (fun q => q.answers = n.plugin.answers) (fun _ => True) result)
    (ran : n.settle env result = some m) : ∃ p, result = .ok p ∧ m = { n with plugin := p } := by
  obtain ⟨p, got, ran⟩ := Option.bind_eq_some_iff.mp ran
  have silent := same.of_ok (ok_of_to_option got)
  rw [silent, List.drop_length] at ran
  cases ran
  exact ⟨p, ok_of_to_option got, rfl⟩

/-! ## Events -/

/-- What an event adds is of either kind: a whole chunk from the sniffer, the reply from
the storage to a peer, and the chunk that a reply completes. -/
structure Grants (hash : List UInt8 → List UInt8) (put : Descriptor × List UInt8 → Prop)
    (reply : Sbp × Except String GetChunkResOk → Prop) (n : Node) (event : NodeEvent) : Prop where
  errors : ∀ sbp msg, reply (sbp, .error msg)
  sniffed : ∀ sbp data, event = .putChunk sbp data true → put (⟨hash data, data.length⟩, data)
  served : ∀ index read d data, event = .remoteGetChunkCb index (.ok (d, data)) →
    n.peerReads[index]? = some read → reply (read.sbp, (serveChunk read.arg d data).1) ∧ (n.gtcd.stored d.id).isSome
  completed : ∀ happened req data, event = .plugin happened → Plugin.Delivers hash n.plugin happened req data →
    Admits put reply req.d data req.cb

theorem step_adds (grants : Grants hash put reply n event) (others : ∀ id data, event ≠ .gtcd (.putIchunk id data))
    (ran : n.step hash env event = some m) : Adds put reply n m := by
  cases event with
  | putChunk sbp data ended =>
    cases ended with
    | false =>
      cases ran
      exact Adds.same rfl rfl rfl
    | true =>
      cases ran
      exact (Adds.put_ichunk (grants.sniffed sbp data rfl)).trans (Adds.same rfl rfl rfl)
  | remoteGetChunk sbp arg =>
    cases remote_get_chunk_some ran
    exact Adds.same rfl rfl rfl
  | remoteGetChunkCb index res =>
    simp only [Node.step] at ran
    split at ran
    next read found =>
      have erased : Adds put reply n { n with peerReads := n.peerReads.eraseIdx index } := Adds.same rfl rfl rfl
      cases res with
      | error msg =>
        simp only [Node.remoteGetChunkCb] at ran
        split at ran
        · cases ran
          exact erased.trans (Adds.peer_reply (grants.errors read.sbp msg) (backs_error read.sbp msg))
        · obtain ⟨p, _, rfl⟩ := settle_silent (Plugin.get_chunk_answers _) ran
          exact Adds.same rfl rfl rfl
      | ok chunk =>
        cases ran
        obtain ⟨served, held⟩ := grants.served index read chunk.1 chunk.2 rfl found
        exact erased.trans (Adds.peer_reply served (serve_chunk_backs held))
    next =>
      cases ran
      exact Adds.same rfl rfl rfl
  | gtcd event =>
    cases event with
    | getInit sbp oid hints xmode =>
      cases ran
      refine Adds.same rfl ?_ rfl
      simp only [Gtcd.getInit]
      split_ifs
      · rfl
      · rfl
      · cases xmode <;> rfl
    | getInitCb xferId res =>
      obtain ⟨g, got, ran⟩ := Option.bind_eq_some_iff.mp ran
      cases ran
      refine Adds.same rfl ?_ rfl
      simp only [Gtcd.step] at got
      split at got
      · exact init_cb_stored.of_ok (ok_of_to_option got)
      · cases got
        rfl
    | putIchunk id data => exact absurd rfl (others id data)
    | xpFetchDataCb xferId index res =>
      cases ran
      exact Adds.same rfl rfl rfl
    | getData sbp xferId =>
      obtain ⟨t, got, ran⟩ := Option.bind_eq_some_iff.mp ran
      cases ran
      have nothing := (get_data_stores_nothing xferId).of_ok (ok_of_to_option got)
      exact Adds.update_nothing xferId (nothing.of_ops rfl)
    | getChunkCb xferId index res =>
      simp only [Node.step, Node.handle] at ran
      split at ran
      next =>
        cases ran
        exact Adds.same rfl rfl rfl
      next read found =>
        obtain ⟨t, got, ran⟩ := Option.bind_eq_some_iff.mp ran
        cases ran
        have nothing := (get_chunk_cb_stores_nothing read res).of_ok (ok_of_to_option got)
        exact Adds.update_nothing xferId (nothing.of_ops rfl)
    | fetchData xferId =>
      simp only [Node.step, Node.handle] at ran
      split at ran
      next =>
        cases ran
        exact Adds.same rfl rfl rfl
      next due =>
        obtain ⟨t, got, ran⟩ := Option.bind_eq_some_iff.mp ran
        have nothing := (fetch_data_stores_nothing _).of_ok (ok_of_to_option got)
        have fetched : Adds put reply n (n.update xferId t) := Adds.update_nothing xferId (nothing.of_ops rfl)
        obtain ⟨p, _, rfl⟩ := settle_silent (get_chunks_answers _ _) ran
        exact fetched.trans (Adds.same rfl rfl rfl)
  | plugin happened =>
    simp only [Node.step] at ran
    split at ran
    next =>
      cases ran
      exact Adds.same rfl rfl rfl
    next =>
      have admitted : Ends (fun q => Grows (Admitted put reply) n.plugin.answers q.answers) (fun _ => True)
          (n.plugin.step hash env.toEnv happened) := by
        refine (Plugin.step_justified hash n.plugin env.toEnv happened).imp fun q grows => ?_
        refine grows.imp fun a justified cb d data given => ?_
        obtain ⟨req, rfl, rfl, delivers⟩ := justified cb d data given
        exact grants.completed happened req data rfl delivers
      obtain ⟨p, _, settles⟩ := settle_ends grants.errors admitted ran
      exact settles.adds

/-- The transfer plugin and the reads for peers after an operation. -/
theorem settle_plugin (ran : n.settle env result = some m) : result = .ok m.plugin ∧ m.peerReads = n.peerReads := by
  obtain ⟨p, got, ran⟩ := Option.bind_eq_some_iff.mp ran
  have each : ∀ before a after, a ∈ p.answers.drop n.plugin.answers.length →
      Settles (fun _ => True) (fun _ => True) n p before → Node.callback env before a = some after →
      Settles (fun _ => True) (fun _ => True) n p after := by
    refine fun _ _ _ _ settles stepped => callback_settles (fun _ _ => trivial) ?_ settles stepped
    intro cb d data _
    cases cb with
    | proxyGetChunk sbp arg => exact ⟨trivial, trivial⟩
    | xpFetchData xferId => trivial
    | other => trivial
  have settles := Runs.kept_of_foldlM ⟨Adds.same rfl rfl rfl, rfl, rfl⟩ each ran
  exact ⟨(ok_of_to_option got).trans (congrArg _ settles.plugin.symm), settles.reads⟩

/-- A request of a client leaves the reads for peers alone, and asks the transfer plugin for
chunks of a transfer if for any. -/
theorem handle_plugin {event : Downloads.Event} (ran : n.handle env event = some m) :
    m.peerReads = n.peerReads ∧ (m.plugin = n.plugin ∨ ∃ xferId reqs,
      (∀ req ∈ reqs, req.cb = .xpFetchData xferId) ∧ n.plugin.getChunks env.toEnv reqs = .ok m.plugin) := by
  cases event with
  | fetchData xferId =>
    simp only [Node.handle] at ran
    split at ran
    next =>
      cases ran
      exact ⟨rfl, .inl rfl⟩
    next =>
      obtain ⟨t, _, ran⟩ := Option.bind_eq_some_iff.mp ran
      obtain ⟨asked, reads⟩ := settle_plugin ran
      refine ⟨reads, .inr ⟨xferId, _, fun req member => ?_, asked⟩⟩
      obtain ⟨d, _, rfl⟩ := List.mem_map.mp member
      rfl
  | getChunkCb xferId index res =>
    simp only [Node.handle] at ran
    split at ran
    next =>
      cases ran
      exact ⟨rfl, .inl rfl⟩
    next =>
      obtain ⟨t, _, ran⟩ := Option.bind_eq_some_iff.mp ran
      cases ran
      exact ⟨rfl, .inl rfl⟩
  | xpFetchDataCb xferId index res =>
    cases ran
    exact ⟨rfl, .inl rfl⟩
  | getInit sbp oid hints xmode =>
    cases ran
    exact ⟨rfl, .inl rfl⟩
  | putIchunk id data =>
    cases ran
    exact ⟨rfl, .inl rfl⟩
  | getData sbp xferId =>
    obtain ⟨t, _, ran⟩ := Option.bind_eq_some_iff.mp ran
    cases ran
    exact ⟨rfl, .inl rfl⟩
  | getInitCb xferId res =>
    obtain ⟨g, _, ran⟩ := Option.bind_eq_some_iff.mp ran
    cases ran
    exact ⟨rfl, .inl rfl⟩

/-- A read of the storage for a peer was in flight before, or is for its request. -/
theorem step_reads {read : PeerRead} (ran : n.step hash env event = some m) (member : read ∈ m.peerReads) :
    read ∈ n.peerReads ∨ event = .remoteGetChunk read.sbp read.arg := by
  cases event with
  | putChunk sbp data ended =>
    cases ended <;> (cases ran; exact .inl member)
  | remoteGetChunk sbp arg =>
    cases remote_get_chunk_some ran
    rcases List.mem_append.mp member with old | new
    · exact .inl old
    · rw [List.mem_singleton.mp new]
      exact .inr rfl
  | remoteGetChunkCb index res =>
    simp only [Node.step] at ran
    split at ran
    next read' found =>
      have erased : ∀ {k : Node}, k.peerReads = n.peerReads.eraseIdx index → read ∈ k.peerReads →
          read ∈ n.peerReads := by
        intro k same member
        rw [same] at member
        exact (List.eraseIdx_sublist _ _).subset member
      cases res with
      | error msg =>
        simp only [Node.remoteGetChunkCb] at ran
        split at ran
        · cases ran
          exact .inl (erased rfl member)
        · exact .inl (erased (settle_plugin ran).2 member)
      | ok chunk =>
        cases ran
        exact .inl (erased rfl member)
    next =>
      cases ran
      exact .inl member
  | gtcd event =>
    rw [(handle_plugin ran).1] at member
    exact .inl member
  | plugin happened =>
    simp only [Node.step] at ran
    split at ran
    next =>
      cases ran
      exact .inl member
    next =>
      rw [(settle_plugin ran).2] at member
      exact .inl member

/-- The requests that the transfer plugin of a node holds. -/
theorem step_holding {Q : ChunkReq Cont → Prop} {P : Call Cont → Prop} (starts : Plugin.Starts Q P)
    (holding : Plugin.Holding Q P n.plugin) (fetches : ∀ req xferId, req.cb = .xpFetchData xferId → Q req)
    (proxied : ∀ index read msg, event = .remoteGetChunkCb index (.error msg) → n.peerReads[index]? = some read →
      Q { d := read.arg.desc, hints := read.arg.hints, cb := .proxyGetChunk read.sbp read.arg })
    (goes : ∀ happened, event = .plugin happened → Plugin.Goes P n.plugin happened)
    (ran : n.step hash env event = some m) : Plugin.Holding Q P m.plugin := by
  cases event with
  | putChunk sbp data ended =>
    cases ended <;> (cases ran; exact holding)
  | remoteGetChunk sbp arg =>
    cases remote_get_chunk_some ran
    exact holding
  | remoteGetChunkCb index res =>
    simp only [Node.step] at ran
    split at ran
    next read found =>
      cases res with
      | error msg =>
        simp only [Node.remoteGetChunkCb] at ran
        split at ran
        · cases ran
          exact holding
        · exact (holding.get_chunk starts (proxied index read msg rfl found)).of_ok (settle_plugin ran).1
      | ok chunk =>
        cases ran
        exact holding
    next =>
      cases ran
      exact holding
  | gtcd event =>
    obtain ⟨_, same | ⟨xferId, reqs, each, asked⟩⟩ := handle_plugin ran
    · rw [same]
      exact holding
    · exact (holding.get_chunks starts fun req member => fetches req xferId (each req member)).of_ok asked
  | plugin happened =>
    simp only [Node.step] at ran
    split at ran
    next =>
      cases ran
      exact holding
    next others =>
      exact (holding.step starts (fun req same => absurd same (others req)) (goes happened rfl)).of_ok
        (settle_plugin ran).1

end Ditto.GtcNode
