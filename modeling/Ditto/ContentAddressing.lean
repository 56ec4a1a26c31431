import Ditto.ConnectionAnswers
import Ditto.DownloadStores
import Ditto.GtcNode
import Ditto.Runs

/-! Chunks are stored under their hash. The sniffer's plugin hashes what it stores,
and the transfer plugin delivers a chunk only if it has the hash asked for. The
proxy stores the buffer it has served a peer from, which by then has lost the
bytes before the offset the peer asked for. -/
namespace Ditto.GtcNode
open XferGtc Downloads Outcomes Logs Runs

variable {hash : List UInt8 → List UInt8} {n m : Node} {env : NodeEnv}

/-- Every chunk so far was stored under its hash. -/
def Addressed (hash : List UInt8 → List UInt8) (n : Node) : Prop :=
  ∀ put ∈ n.puts, hash put.2 = put.1.id

/-- Serving the request takes nothing off the chunk: it is from the first byte, or
from past the last and refused. -/
def Whole (arg : GetChunkArg) (data : List UInt8) : Prop :=
  arg.offset = 0 ∨ data.length ≤ arg.offset.toNat

/-- A chunk that completes the fetch for a peer, with the hash that was asked for, is whole
after serving it. -/
def WholeForPeers (hash : List UInt8 → List UInt8) (n : Node) (event : NodeEnv × NodeEvent) : Prop :=
  ∀ index resok conn req offset before sbp arg,
    event.2 = .plugin (.chunkReply index (.ok resok)) →
    n.plugin.calls[index]? = some ⟨conn, .chunk req offset before⟩ →
    req.cb = .proxyGetChunk sbp arg → resok.ended = true → hash (before ++ resok.data) = req.d.id →
    Whole arg (before ++ resok.data)

theorem serve_chunk_whole {arg : GetChunkArg} {desc : Descriptor} {data : List UInt8}
    (whole : Whole arg data) : (serveChunk arg desc data).2 = data := by
  unfold serveChunk
  cases whole with
  | inl first =>
    rw [first]
    dsimp only
    split
    · rfl
    · rfl
  | inr past => rw [if_pos past]

theorem Addressed.put (addressed : Addressed hash n) {d : Descriptor} {data : List UInt8}
    (same : hash data = d.id) : Addressed hash (n.putIchunk d data) := by
  intro put member
  cases List.mem_append.mp member with
  | inl old => exact addressed put old
  | inr new =>
    rw [List.mem_singleton.mp new]
    exact same

/-- A chunk the node may be given. -/
def Good (hash : List UInt8 → List UInt8) (a : Answer Cont) : Prop :=
  ∀ cb d data, a = .chunk cb (.ok (d, data)) →
    hash data = d.id ∧ ∀ sbp arg, cb = .proxyGetChunk sbp arg → Whole arg data

theorem Addressed.update (addressed : Addressed hash n) (xferId : XferId)
    {after : Downloads.Transfer}
    (stores : Grows (fun op => ∀ put, op.put = some put → hash put.2 = put.1.id)
      (n.gtcd.transfers xferId).spOps after.spOps) : Addressed hash (n.update xferId after) := by
  intro put member
  cases List.mem_append.mp member with
  | inl old => exact addressed put old
  | inr new =>
    obtain ⟨op, added, stored⟩ := List.mem_filterMap.mp new
    exact stores.of_mem_drop added put stored

theorem Addressed.update_nothing (addressed : Addressed hash n) (xferId : XferId)
    {after : Downloads.Transfer} (nothing : StoresNothing (n.gtcd.transfers xferId) after) :
    Addressed hash (n.update xferId after) := by
  refine addressed.update xferId (nothing.imp fun op none_put put stored => ?_)
  cases none_put.symm.trans stored

theorem to_option_some {ε α : Type} {ran : Except ε α} {value : α}
    (found : ran.toOption = some value) : ran = .ok value := by
  cases ran with
  | error reason => cases found
  | ok result =>
    cases found
    rfl

theorem callback_addressed (addressed : Addressed hash n) {a : Answer Cont} (good : Good hash a)
    (ran : Node.callback env n a = some m) : Addressed hash m := by
  unfold Node.callback at ran
  split at ran
  next sbp arg res =>
    cases ran
    cases res with
    | error s => exact addressed
    | ok chunk =>
      obtain ⟨desc, data⟩ := chunk
      obtain ⟨hashed, whole⟩ := good _ desc data rfl
      have served : Addressed hash (n.peerReply sbp (serveChunk arg desc data).1) := addressed
      refine served.put ?_
      have left : (serveChunk arg desc data).2 = data := serve_chunk_whole (whole sbp arg rfl)
      exact (congrArg hash left).trans hashed
  next xferId res =>
    obtain ⟨t, got, written⟩ := Option.bind_eq_some_iff.mp ran
    cases written
    refine addressed.update xferId ?_
    refine ((xp_fetch_data_cb_stores res).of_ok (to_option_some got)).imp fun op stored put kept => ?_
    exact (good _ put.1 put.2 (by rw [stored put kept])).1
  next =>
    cases ran
    exact addressed

/-- The callbacks of one operation of the transfer plugin. -/
theorem settle_addressed (addressed : Addressed hash n) {result : Except XferGtc.Fault (Plugin Cont)}
    (good : Ends (fun q => Grows (Good hash) n.plugin.answers q.answers) (fun _ => True) result)
    (ran : n.settle env result = some m) : Addressed hash m := by
  obtain ⟨p, got, ran⟩ := Option.bind_eq_some_iff.mp ran
  have grown := good.of_ok (to_option_some got)
  have initial : Addressed hash { n with plugin := p } := addressed
  exact kept_of_foldlM initial
    (fun before a after member kept => callback_addressed kept (grown.of_mem_drop member)) ran

theorem remote_get_chunk_cb_addressed (addressed : Addressed hash n) (read : PeerRead)
    (res : Except String (Descriptor × List UInt8)) (ran : n.remoteGetChunkCb env read res = some m) :
    Addressed hash m := by
  unfold Node.remoteGetChunkCb at ran
  split at ran
  next errmsg =>
    split at ran
    · cases ran
      exact addressed
    · refine settle_addressed addressed ?_ ran
      exact (Plugin.get_chunk_answers _).imp fun _ same => Grows.same same
  next =>
    cases ran
    exact addressed

theorem get_chunks_answers (p : Plugin Cont) (reqs : List (ChunkReq Cont)) :
    Ends (fun q => q.answers = p.answers) (fun _ => True) (p.getChunks env.toEnv reqs) :=
  ends_foldlM (fun before _ _ kept => (Plugin.get_chunk_answers before).imp
    fun _ same => same.trans kept) rfl

theorem handle_addressed (addressed : Addressed hash n) (event : Downloads.Event)
    (ran : n.handle env event = some m) : Addressed hash m := by
  -- the requests and answers that the `gtcd` handles without a transfer
  have other : ∀ event, (do
      let g ← (n.gtcd.step env.beyond event).toOption
      some { n with gtcd := g }) = some m → Addressed hash m := by
    intro event ran
    obtain ⟨g, _, ran⟩ := Option.bind_eq_some_iff.mp ran
    cases ran
    exact addressed
  cases event with
  | getInit sbp oid hints xmode => exact other _ ran
  | getInitCb xferId res => exact other _ ran
  | putIchunk id data => exact other _ ran
  | xpFetchDataCb xferId index res =>
    cases ran
    exact addressed
  | getData sbp xferId =>
    obtain ⟨t, got, ran⟩ := Option.bind_eq_some_iff.mp ran
    cases ran
    have nothing := (get_data_stores_nothing xferId).of_ok (to_option_some got)
    exact addressed.update_nothing xferId (nothing.of_ops rfl)
  | getChunkCb xferId index res =>
    simp only [Node.handle] at ran
    split at ran
    next =>
      cases ran
      exact addressed
    next read found =>
      obtain ⟨t, got, ran⟩ := Option.bind_eq_some_iff.mp ran
      cases ran
      have nothing := (get_chunk_cb_stores_nothing read res).of_ok (to_option_some got)
      exact addressed.update_nothing xferId (nothing.of_ops rfl)
  | fetchData xferId =>
    simp only [Node.handle] at ran
    split at ran
    next =>
      cases ran
      exact addressed
    next due =>
      obtain ⟨t, got, ran⟩ := Option.bind_eq_some_iff.mp ran
      have nothing := (fetch_data_stores_nothing _).of_ok (to_option_some got)
      have fetched : Addressed hash (n.update xferId t) :=
        addressed.update_nothing xferId (nothing.of_ops rfl)
      exact settle_addressed fetched
        ((get_chunks_answers _ _).imp fun _ same => Grows.same same) ran

/-- A request of a peer leads to a read of the storage. -/
theorem remote_get_chunk_some {sbp : Sbp} {arg : GetChunkArg} (ran : n.remoteGetChunk env sbp arg = some m) :
    m = { n with peerReads := n.peerReads ++ [⟨sbp, arg, gtcInHintList env arg⟩] } := by
  unfold Node.remoteGetChunk at ran
  split at ran
  · cases ran
  · obtain ⟨_, _, ran⟩ := Option.bind_eq_some_iff.mp ran
    obtain ⟨_, _, ran⟩ := Option.bind_eq_some_iff.mp ran
    exact (Option.some_inj.mp ran).symm

theorem step_addressed (addressed : Addressed hash n) (event : NodeEvent)
    (whole : WholeForPeers hash n (env, event)) (ran : n.step hash env event = some m) :
    Addressed hash m := by
  cases event with
  | putChunk sbp data ended =>
    cases ran
    unfold Node.putChunk
    split
    · exact Addressed.put addressed rfl
    · exact addressed
  | remoteGetChunk sbp arg =>
    cases remote_get_chunk_some ran
    exact addressed
  | remoteGetChunkCb index res =>
    simp only [Node.step] at ran
    split at ran
    next read found =>
      have initial : Addressed hash { n with peerReads := n.peerReads.eraseIdx index } := addressed
      exact remote_get_chunk_cb_addressed initial read res ran
    next =>
      cases ran
      exact addressed
  | gtcd event => exact handle_addressed addressed event ran
  | plugin event =>
    simp only [Node.step] at ran
    split at ran
    next =>
      cases ran
      exact addressed
    next =>
      refine settle_addressed addressed ?_ ran
      refine (Plugin.step_justified hash n.plugin env.toEnv event).imp fun q grows => ?_
      refine grows.imp fun a justified cb d data given => ?_
      obtain ⟨req, rfl, rfl, ⟨index, resok, conn, offset, before, rfl, called, ended, rfl⟩, hashed⟩ :=
        justified cb d data given
      exact ⟨hashed, fun sbp arg same =>
        whole index resok conn req offset before sbp arg rfl called same ended hashed⟩

/-- **In every run in which serving a peer takes nothing off the chunk fetched for
it, every chunk is stored under its hash.** -/
theorem puts_addressed_of_whole {stored : List UInt8 → Option (List UInt8)}
    (run : Reaches (Node.next hash) (WholeForPeers hash) (Node.init stored) n) : Addressed hash n := by
  have initial : Addressed hash (Node.init stored) := fun _ member => absurd member List.not_mem_nil
  exact Runs.invariant initial (fun before event after addressed whole ran =>
    step_addressed addressed event.2 whole ran) run

/-! ## A peer that asks from the second byte -/

/-- A small world: every hint is the host that it names, all listen on one port, and the
node is named in none. -/
def smallNodeEnv : NodeEnv where
  now := 0
  parseHint := fun host => some (connectionKey host 12000)
  nextHop := fun host => .ok { hostname := host, port := 12000 }
  beyond := fun _ => .unknown
  listen := "proxy:12000"

/-- A peer asks for a chunk from an offset, the storage does not have it, and it is
fetched whole. -/
def proxied (offset : UInt64) : List NodeEvent :=
  [.remoteGetChunk 0 { desc := ⟨[5, 6, 7, 8], 4⟩, hints := ["origin"], offset := offset },
    .remoteGetChunkCb 0 (.error "not found"),
    .plugin (.connect 0 true),
    .plugin (.chunkReply 0 (.ok { data := [5, 6, 7, 8], ended := true }))]

/-- The state after some of these events, with the chunk itself for its hash. -/
def proxiedAfter (offset : UInt64) (count : ℕ) : Node :=
  ((proxied offset).take count).foldl (fun n event => (n.next id (smallNodeEnv, event)).getD n)
    (Node.init fun _ => none)

theorem proxied_fetch (offset : UInt64) :
    Reaches (Node.next id) (WholeForPeers id) (Node.init fun _ => none) (proxiedAfter offset 3) := by
  have asked : Reaches (Node.next id) (WholeForPeers id) (proxiedAfter offset 0) (proxiedAfter offset 1) := by
    refine Reaches.refl.snoc (smallNodeEnv, .remoteGetChunk 0
      { desc := ⟨[5, 6, 7, 8], 4⟩, hints := ["origin"], offset := offset }) ?_ rfl
    rintro _ _ _ _ _ _ _ _ ⟨⟩
  have missed : Reaches (Node.next id) (WholeForPeers id) (proxiedAfter offset 0) (proxiedAfter offset 2) := by
    refine asked.snoc (smallNodeEnv, .remoteGetChunkCb 0 (.error "not found")) ?_ rfl
    rintro _ _ _ _ _ _ _ _ ⟨⟩
  refine missed.snoc (smallNodeEnv, .plugin (.connect 0 true)) ?_ rfl
  rintro _ _ _ _ _ _ _ _ ⟨⟩

theorem proxied_first_byte :
    Reaches (Node.next id) (WholeForPeers id) (Node.init fun _ => none) (proxiedAfter 0 4) := by
  refine (proxied_fetch 0).snoc
    (smallNodeEnv, .plugin (.chunkReply 0 (.ok { data := [5, 6, 7, 8], ended := true }))) ?_ rfl
  intro index resok conn req offset before sbp arg replied called proxies _ _
  cases replied
  have pending : (proxiedAfter 0 3).plugin.calls[0]? = some ⟨0, .chunk
      ⟨⟨[5, 6, 7, 8], 4⟩, ["origin"], .proxyGetChunk 0 ⟨⟨[5, 6, 7, 8], 4⟩, ["origin"], 0⟩⟩ 0 []⟩ := rfl
  cases pending.symm.trans called
  cases proxies
  exact .inl rfl

/-- A peer that asks from the first byte leaves the whole chunk to be stored. -/
theorem puts_addressed_first_byte :
    (proxiedAfter 0 4).puts = [(⟨[5, 6, 7, 8], 4⟩, [5, 6, 7, 8])] ∧ Addressed id (proxiedAfter 0 4) :=
  ⟨rfl, puts_addressed_of_whole proxied_first_byte⟩

/-- **A peer that asks from the second byte has the proxy store the rest of the
chunk under the hash of the whole.** -/
theorem not_puts_addressed : ¬ ∀ (hash : List UInt8 → List UInt8)
    (stored : List UInt8 → Option (List UInt8)) (n : Node),
    Reaches (Node.next hash) (fun _ _ => True) (Node.init stored) n → Addressed hash n := by
  intro claimed
  have fetched := (proxied_fetch 1).weaken fun (n : Node) (event : NodeEnv × NodeEvent)
    (_ : WholeForPeers id n event) => trivial
  have run : Reaches (Node.next id) (fun _ _ => True) (Node.init fun _ => none) (proxiedAfter 1 4) :=
    fetched.snoc
      (smallNodeEnv, .plugin (.chunkReply 0 (.ok { data := [5, 6, 7, 8], ended := true }))) trivial rfl
  have stored : (⟨[5, 6, 7, 8], 4⟩, [6, 7, 8]) ∈ (proxiedAfter 1 4).puts := by
    have puts : (proxiedAfter 1 4).puts = [(⟨[5, 6, 7, 8], 4⟩, [6, 7, 8])] := rfl
    rw [puts]
    exact List.mem_singleton_self _
  have same : ([6, 7, 8] : List UInt8) = [5, 6, 7, 8] := claimed id _ _ run _ stored
  cases same

end Ditto.GtcNode
