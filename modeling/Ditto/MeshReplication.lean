import Ditto.Mesh
import Ditto.Replication

/-! What the nodes of a mesh come to store, when no two chunks that are given to them have
one hash: a chunk that a node is given, or a copy of what another one had stored when it
served it. A transfer that goes on holds a part of such a chunk, and the part that ends it
makes the chunk whole. -/
namespace Ditto.GtcNode
open XferGtc Downloads Outcomes Runs Paging Replication

variable {hash : List UInt8 → List UInt8}

/-- Chunks in memory, no two of them with one hash. -/
structure Originals (hash : List UInt8 → List UInt8) where
  chunks : Set (List UInt8)
  sized : ∀ chunk ∈ chunks, chunk.length < 2 ^ 64
  apart : Set.InjOn hash chunks

/-- A chunk is given under its hash. -/
theorem offers_hash {event : NodeEvent} {id data : List UInt8} (own : Own hash event)
    (offered : offers hash event = some (id, data)) : hash data = id := by
  cases event with
  | putChunk sbp data ended =>
    cases ended with
    | true =>
      cases offered
      rfl
    | false => cases offered
  | gtcd event =>
    cases event with
    | putIchunk id data =>
      cases offered
      exact own
    | _ => cases offered
  | _ => cases offered

/-! ## Parts of chunks -/

variable {originals : Originals hash} {backed : ConnId → List UInt8 → Prop}
  {passed more : Set (List UInt8 × List UInt8)} {asked : List GetChunkArg} {n k : Node} {env : NodeEnv}
  {event : NodeEvent}

/-- The buffer of a transfer is the beginning of a chunk with the hash it asks for, and it
asks from where the buffer ends. -/
def Buffered (originals : Originals hash) (c : Call Cont) : Prop :=
  ∀ req offset data, c.transfer = .chunk req offset data →
    offset = data.length ∧ (data ≠ [] → ∃ chunk ∈ originals.chunks, hash chunk = req.d.id ∧ data <+: chunk)

/-- A reply is the part that was asked for of such a chunk, which was passed on. -/
def PartOf (originals : Originals hash) (passed : Set (List UInt8 × List UInt8)) (asked : List GetChunkArg)
    (entry : Sbp × Except String GetChunkResOk) : Prop :=
  ∀ resok, entry.2 = .ok resok → ∃ arg, ∃ chunk ∈ originals.chunks, asked[entry.1]? = some arg ∧
    hash chunk = arg.desc.id ∧ (arg.desc.id, chunk) ∈ passed ∧ (serveChunk arg arg.desc chunk).1 = .ok resok

/-- A node that stores, fetches and serves such chunks only. -/
structure Copying (originals : Originals hash) (passed : Set (List UInt8 × List UInt8)) (asked : List GetChunkArg)
    (n : Node) : Prop where
  stored : ∀ id data, n.gtcd.stored id = some data → data ∈ originals.chunks
  holding : Plugin.Holding (fun _ => True) (Buffered originals) n.plugin
  replies : ∀ entry ∈ n.peerReplies, PartOf originals passed asked entry

/-- What the storage answers a peer is passed on, and a reply to a call is the part that the
call asks for of a chunk that was. -/
def Faithful (originals : Originals hash) (passed : Set (List UInt8 × List UInt8)) (n : Node) : NodeEvent → Prop
  | .remoteGetChunkCb index (.ok (d, data)) => ∀ read, n.peerReads[index]? = some read → (d.id, data) ∈ passed
  | .plugin (.chunkReply index (.ok resok)) => ∀ conn req offset before,
    n.plugin.calls[index]? = some ⟨conn, .chunk req offset before⟩ →
    ∃ chunk ∈ originals.chunks, hash chunk = req.d.id ∧ (req.d.id, chunk) ∈ passed ∧
      ∃ reply, (serveChunk ⟨req.d, req.hints, UInt64.ofNat offset⟩ req.d chunk).1 = .ok reply ∧
        resok = ⟨reply.data, reply.ended⟩
  | _ => True

/-- The part that is asked for from where the buffer ends. -/
theorem part_extends {d : Descriptor} {hints : List String} {chunk before : List UInt8} {reply : GetChunkResOk}
    (sized : chunk.length < 2 ^ 64) (begun : before <+: chunk)
    (served : (serveChunk ⟨d, hints, UInt64.ofNat before.length⟩ d chunk).1 = .ok reply) :
    before ++ reply.data <+: chunk ∧ (reply.ended = true ↔ before ++ reply.data = chunk) := by
  have short := begun.length_le
  have offset : (UInt64.ofNat before.length).toNat = before.length := by
    rw [UInt64.toNat_ofNat']
    omega
  rw [ChunkExchange.serve_chunk_eq] at served
  have inside : before.length < chunk.length := by
    by_contra past
    simp only [ChunkExchange.remoteGetChunkCb, offset, if_pos (Nat.le_of_not_lt past)] at served
    cases served
  have page := @ChunkExchange.remote_page sendSize before.length d hints ⟨chunk, sized⟩ inside
  cases page.symm.trans served
  have whole : before ++ Paging.page sendSize chunk before.length = chunk.take (before.length + sendSize) := by
    rw [← take_page, ← List.prefix_iff_eq_take.mp begun]
  simp only [whole, decide_eq_true_eq]
  refine ⟨List.take_prefix _ _, fun last => List.take_of_length_le (by omega), fun same => ?_⟩
  have size := congrArg List.length same
  rw [List.length_take] at size
  omega

/-- The buffer of a call, as the beginning of the chunk that its peer has. -/
theorem Buffered.begun {conn : ConnId} {req : ChunkReq Cont} {offset : ℕ} {before chunk : List UInt8}
    (buffered : Buffered originals ⟨conn, .chunk req offset before⟩) (original : chunk ∈ originals.chunks)
    (hashed : hash chunk = req.d.id) : offset = before.length ∧ before <+: chunk := by
  obtain ⟨place, part⟩ := buffered req offset before rfl
  refine ⟨place, ?_⟩
  by_cases empty : before = []
  · rw [empty]
    exact List.nil_prefix
  · obtain ⟨other, original', hashed', begun⟩ := part empty
    rwa [originals.apart original original' (hashed.trans hashed'.symm)]

/-- A reply makes the buffer longer, and whole when it is the last one. -/
theorem Faithful.extends {index : ℕ} {resok : ChunkResOk} {conn : ConnId} {req : ChunkReq Cont} {offset : ℕ}
    {before : List UInt8} (faithful : Faithful originals passed n (.plugin (.chunkReply index (.ok resok))))
    (copying : Copying originals passed asked n)
    (called : n.plugin.calls[index]? = some ⟨conn, .chunk req offset before⟩) :
    ∃ chunk ∈ originals.chunks, hash chunk = req.d.id ∧ (req.d.id, chunk) ∈ passed ∧
      before ++ resok.data <+: chunk ∧ (resok.ended = true ↔ before ++ resok.data = chunk) := by
  obtain ⟨chunk, original, hashed, has, reply, served, rfl⟩ := faithful conn req offset before called
  obtain ⟨rfl, begun⟩ := (copying.holding.calls _ (List.mem_of_getElem? called)).begun original hashed
  exact ⟨chunk, original, hashed, has, part_extends (originals.sized chunk original) begun served⟩

/-! ## One node -/

/-- What a node comes to store with an event: the chunk it is given, or one that was passed
on. -/
def Comes (originals : Originals hash) (passed : Set (List UInt8 × List UInt8)) (event : NodeEvent)
    (put : Descriptor × List UInt8) : Prop :=
  put.2 ∈ originals.chunks ∧ (offers hash event = some (put.1.id, put.2) ∨ (put.1.id, put.2) ∈ passed)

theorem Copying.init {stored : List UInt8 → Option (List UInt8)}
    (original : ∀ id data, stored id = some data → data ∈ originals.chunks) :
    Copying originals passed asked (Node.init stored) :=
  ⟨original, .init, List.forall_mem_nil _⟩

theorem Copying.mono {longer : List GetChunkArg} (copying : Copying originals passed asked n) (grew : asked <+: longer)
    (within : passed ⊆ more) : Copying originals more longer n where
  stored := copying.stored
  holding := copying.holding
  replies := by
    intro entry member resok ok
    obtain ⟨arg, chunk, original, place, hashed, spread, served⟩ := copying.replies entry member resok ok
    exact ⟨arg, chunk, original, Logs.place_of_prefix grew place, hashed, within spread, served⟩

/-- What an event adds to a node. -/
theorem Copying.grants (copying : Copying originals passed asked n) (sound : Sound hash backed asked n)
    (fair : Fair hash backed asked n event) (faithful : Faithful originals passed n event)
    (given : ∀ id data, offers hash event = some (id, data) → data ∈ originals.chunks) :
    Grants hash (Comes originals passed event) (PartOf originals passed asked) n event where
  errors := by
    rintro sbp msg resok ⟨⟩
  sniffed := by
    rintro sbp data rfl
    exact ⟨given _ data rfl, .inl rfl⟩
  served := by
    rintro index read d data rfl found
    obtain ⟨rfl, held⟩ := fair read found
    refine ⟨fun resok ok => ?_, by rw [held]; rfl⟩
    exact ⟨read.arg, data, copying.stored _ _ held, (sound.reads read (List.mem_of_getElem? found)).1,
      sound.authentic _ _ held, faithful read found, ok⟩
  completed := by
    rintro happened req data rfl ⟨⟨index, resok, conn, offset, before, rfl, called, ended, rfl⟩, hashed⟩
    obtain ⟨chunk, original, same, has, _, whole⟩ := faithful.extends copying called
    obtain rfl := whole.mp ended
    have forPeer := (sound.holding.calls _ (List.mem_of_getElem? called) req offset before rfl).1
    have comes : Comes originals passed (.plugin (.chunkReply index (.ok resok))) (req.d, before ++ resok.data) :=
      ⟨original, .inr has⟩
    cases cb : req.cb with
    | proxyGetChunk sbp arg =>
      obtain ⟨place, same, first⟩ := forPeer sbp arg cb
      have left : (serveChunk arg req.d (before ++ resok.data)).2 = before ++ resok.data :=
        serve_chunk_whole (.inl first)
      refine ⟨fun resok' ok => ?_, by rw [left]; exact comes⟩
      rw [same] at ok hashed has
      exact ⟨arg, _, original, place, hashed, has, ok⟩
    | xpFetchData xferId => exact comes
    | other => trivial

/-- One event of a node. -/
theorem Copying.step (copying : Copying originals passed asked n) (sound : Sound hash backed asked n)
    (fair : Fair hash backed asked n event) (faithful : Faithful originals passed n event)
    (given : ∀ id data, offers hash event = some (id, data) → data ∈ originals.chunks)
    (ran : n.step hash env event = some k) : Copying originals passed asked k ∧
      ∃ entries : List (Descriptor × List UInt8), k.gtcd.stored = entries.foldl keep n.gtcd.stored ∧
        ∀ put ∈ entries, Comes originals passed event put := by
  have starts : Plugin.Starts (fun _ => True) (Buffered originals) := by
    refine ⟨fun conn req _ req' offset data same => ?_, fun c isOther req offset data same => ?_⟩
    · cases same
      exact ⟨rfl, fun some_data => absurd rfl some_data⟩
    · rw [same] at isOther
      cases isOther
  have holding : Plugin.Holding (fun _ => True) (Buffered originals) k.plugin := by
    refine step_holding starts copying.holding (fun _ _ _ => trivial) (fun _ _ _ _ _ => trivial) ?_ ran
    rintro happened rfl index resok conn req offset before rfl _ called req' offset' data same
    cases same
    obtain ⟨chunk, original, hashed, _, begun, _⟩ := faithful.extends copying called
    exact ⟨rfl, fun _ => ⟨chunk, original, hashed, begun⟩⟩
  by_cases put : ∃ id data, event = .gtcd (.putIchunk id data)
  · obtain ⟨id, data, rfl⟩ := put
    cases ran
    have comes : Comes originals passed (.gtcd (.putIchunk id data)) (⟨id, data.length⟩, data) :=
      ⟨given id data rfl, .inl rfl⟩
    refine ⟨⟨?_, holding, copying.replies⟩, [(⟨id, data.length⟩, data)], rfl, List.forall_mem_singleton.mpr comes⟩
    exact @keep_each (fun _ data => data ∈ originals.chunks) (⟨id, data.length⟩, data) _ copying.stored comes.1
  have adds := step_adds (copying.grants sound fair faithful given) (fun id data same => put ⟨id, data, same⟩) ran
  obtain ⟨new, _, stored, comes⟩ := adds.puts
  refine ⟨⟨?_, holding, ?_⟩, new, stored, comes⟩
  · rw [stored]
    exact foldl_keep_each copying.stored fun entry member => (comes entry member).1
  · obtain ⟨newer, replies, parts⟩ := adds.replies
    rw [replies]
    exact List.forall_mem_append.mpr ⟨copying.replies, fun entry member => (parts entry member).1⟩

/-- A storage that lets go of a chunk. -/
theorem Copying.drop (copying : Copying originals passed asked n) (id : List UInt8) :
    Copying originals passed asked (n.drop id) where
  stored := by
    intro id' data held
    simp only [Node.drop] at held
    by_cases same : id' = id
    · rw [same, Function.update_self] at held
      cases held
    · rw [Function.update_of_ne same] at held
      exact copying.stored id' data held
  holding := copying.holding
  replies := copying.replies

/-! ## The mesh -/

variable {Host : Type} {peer : Host → ConnId → Host} {m after : Mesh Host} {host client : Host}
  {stored : Host → List UInt8 → Option (List UInt8)}

namespace Mesh

/-- What each node stores. -/
def held (m : Mesh Host) (host : Host) : List UInt8 → Option (List UInt8) := (m.nodes host).gtcd.stored

/-- The node was given the chunk. -/
def Given (m : Mesh Host) (host : Host) (id data : List UInt8) : Prop := (host, id, data) ∈ m.given

/-- What may happen in a mesh whose nodes are given these chunks only. -/
def Original (originals : Originals hash) (peer : Host → ConnId → Host) (m : Mesh Host) (happening : Happening Host) :
    Prop :=
  Allowed peer hash m happening ∧ ∀ host env event, happening = .own host env event →
    ∀ id data, offers hash event = some (id, data) → data ∈ originals.chunks

/-- Every node is sound, and stores, fetches and serves the original chunks only. -/
structure Replicating (originals : Originals hash) (passed : Set (List UInt8 × List UInt8))
    (peer : Host → ConnId → Host) (m : Mesh Host) : Prop where
  sound : m.Sound hash peer
  each : ∀ host, Copying originals passed (m.asked host) (m.nodes host)
  given : ∀ host id data, m.Given host id data → data ∈ originals.chunks ∧ hash data = id

theorem Replicating.mono (replicating : m.Replicating originals passed peer) (within : passed ⊆ more) :
    m.Replicating originals more peer where
  sound := replicating.sound
  each := fun host => (replicating.each host).mono (List.prefix_refl _) within
  given := replicating.given

/-- The reply that reaches a client is the part that was asked for of what the peer has, or
had until its storage let go of it. -/
theorem Replicating.replied (replicating : m.Replicating originals passed peer) {sbp : Sbp} {arg : GetChunkArg}
    {resok : GetChunkResOk} (replied : (sbp, .ok resok) ∈ (m.nodes host).peerReplies)
    (answers : (m.asked host)[sbp]? = some arg) : ∃ chunk ∈ originals.chunks, hash chunk = arg.desc.id ∧
      (arg.desc.id, chunk) ∈ passed ∧ (serveChunk arg arg.desc chunk).1 = .ok resok ∧
      (m.held host arg.desc.id = some chunk ∨ (host, arg.desc.id) ∈ m.dropped) := by
  obtain ⟨arg', chunk, original, place, hashed, spread, ok⟩ := (replicating.each host).replies _ replied resok rfl
  cases answers.symm.trans place
  refine ⟨chunk, original, hashed, spread, ok, ?_⟩
  have traced := replicating.sound.traced host sbp resok replied
  rw [replicating.sound.reply_id replied answers] at traced
  refine traced.imp_left fun has => ?_
  obtain ⟨data, found⟩ := Option.isSome_iff_exists.mp has
  have same : data = chunk := by
    refine originals.apart ((replicating.each host).stored _ _ found) original ?_
    rw [(replicating.sound.each host).authentic _ _ found, hashed]
  exact same ▸ found

/-- What happens at a node alone brings no part of a chunk. -/
theorem faithful_own (own : Own hash event) : Faithful originals passed n event := by
  cases event with
  | remoteGetChunkCb index res => exact own.elim
  | plugin event =>
    cases event with
    | chunkReply index res =>
      cases res with
      | ok resok => exact own.elim
      | _ => trivial
    | _ => trivial
  | _ => trivial

theorem Replicating.faithful_replied (replicating : m.Replicating originals passed peer) {index : ℕ} {conn : ConnId}
    {arg : GetChunkArg} {sbp : Sbp} {res : Except String GetChunkResOk}
    (found : (m.nodes client).chunkCall index = some (conn, arg))
    (replied : (sbp, res) ∈ (m.nodes (peer client conn)).peerReplies)
    (answers : (m.asked (peer client conn))[sbp]? = some arg) :
    Faithful originals passed (m.nodes client) (.plugin (.chunkReply index (ChunkExchange.wire res))) := by
  cases res with
  | error errmsg => trivial
  | ok resok =>
    intro conn' req offset before called
    obtain ⟨chunk, original, hashed, spread, ok, _⟩ := replicating.replied replied answers
    obtain ⟨req', offset', before', called', rfl⟩ := chunk_call_some found
    cases called.symm.trans called'
    exact ⟨chunk, original, hashed, spread, resok, ok, rfl⟩

theorem Replicating.init (originals : Originals hash)
    (original : ∀ host id data, stored host id = some data → data ∈ originals.chunks ∧ hash data = id) :
    (init stored).Replicating originals passed peer where
  sound := sound_init fun host id data held => (original host id data held).2
  each := fun host => .init fun id data held => (original host id data held).1
  given := fun _ _ _ given => absurd given List.not_mem_nil

variable [DecidableEq Host]

/-- The storage of a node after it was called for some chunks. -/
theorem holds_puts (world : World Host (List UInt8) (List UInt8)) (host : Host)
    (entries : List (Descriptor × List UInt8)) :
    { world with holds := Function.update world.holds host (entries.foldl keep (world.holds host)) } =
      (entries.map fun entry => (entry.1.id, entry.2)).foldl
        (fun world entry => put world host entry.1 entry.2) world := by
  have one : ∀ (world : World Host (List UInt8) (List UInt8)) (entry : Descriptor × List UInt8),
      put world host entry.1.id entry.2 =
        { world with holds := Function.update world.holds host (keep (world.holds host) entry) } := by
    intro world entry
    unfold put keep Gtcd.store
    dsimp only
    split
    · rw [Function.update_eq_self]
    · rfl
  induction entries generalizing world with
  | nil =>
    rw [List.foldl_nil, Function.update_eq_self]
    rfl
  | cons entry rest ih =>
    rw [List.map_cons, List.foldl_cons, List.foldl_cons, one, ← ih]
    dsimp only
    rw [Function.update_self, Function.update_idem]

theorem Replicating.turn (replicating : m.Replicating originals passed peer)
    (fair : Fair hash (m.PeerHas peer host) (m.asked host) (m.nodes host) event)
    (faithful : Faithful originals passed (m.nodes host) event)
    (given : ∀ id data, offers hash event = some (id, data) → data ∈ originals.chunks ∧ hash data = id)
    (ran : m.turn hash host env event = some after) : after.Replicating originals passed peer ∧
      Copies after.Given ⟨m.held, passed⟩ ⟨after.held, passed⟩ := by
  have sound := replicating.sound.turn fair ran
  obtain ⟨n, stepped, rfl⟩ := turn_some ran
  obtain ⟨here, entries, stored, comes⟩ := (replicating.each host).step (replicating.sound.each host) fair faithful
    (fun id data offered => (given id data offered).1) stepped
  refine ⟨⟨sound, fun other => ?_, fun other id data member => ?_⟩, ?_⟩
  · by_cases same : other = host
    · subst same
      simpa only [Function.update_self] using here
    · simpa only [Function.update_of_ne same] using replicating.each other
  · rcases List.mem_append.mp member with old | new
    · exact replicating.given other id data old
    · obtain ⟨chunk, offered, same⟩ := Option.map_eq_some_iff.mp (Option.mem_toList.mp new)
      cases same
      exact given id data offered
  · have holds : held { m with nodes := Function.update m.nodes host n } =
        Function.update m.held host (entries.foldl keep (m.held host)) := by
      funext other
      by_cases same : other = host
      · subst same
        simp only [held, Function.update_self, stored]
      · simp only [held, Function.update_of_ne same]
    have puts := holds_puts ⟨m.held, passed⟩ host entries
    dsimp only at puts
    show Copies _ _ ⟨held { m with nodes := Function.update m.nodes host n }, passed⟩
    rw [holds, puts]
    refine copies_puts fun entry member => ?_
    obtain ⟨put, among, rfl⟩ := List.mem_map.mp member
    refine (comes put among).2.imp_left fun offered => ?_
    refine List.mem_append_right _ (Option.mem_toList.mpr ?_)
    rw [offered]
    rfl

/-- What one happening leaves, with the chunks that were passed on by then. -/
def Goes (originals : Originals hash) (passed : Set (List UInt8 × List UInt8)) (peer : Host → ConnId → Host)
    (m after : Mesh Host) : Prop :=
  ∃ more, after.Replicating originals more peer ∧ Copies after.Given ⟨m.held, passed⟩ ⟨after.held, more⟩

theorem Replicating.drop (replicating : m.Replicating originals passed peer) {id : List UInt8}
    (free : ¬ m.Engaged peer host id) : Goes originals passed peer m (m.drop host id) := by
  refine ⟨passed, ⟨replicating.sound.drop free, fun other => ?_, replicating.given⟩, ?_⟩
  · by_cases same : other = host
    · subst same
      simpa only [Mesh.drop, Function.update_self] using (replicating.each other).drop id
    · simpa only [Mesh.drop, Function.update_of_ne same] using replicating.each other
  · have holds : (m.drop host id).held = Function.update m.held host (Function.update (m.held host) id none) := by
      funext other
      by_cases same : other = host
      · subst same
        simp only [held, Mesh.drop, Node.drop, Function.update_self]
      · simp only [held, Mesh.drop, Function.update_of_ne same]
    rw [holds]
    exact .single (.forget host id)

theorem Replicating.step (replicating : m.Replicating originals passed peer) {happening : Happening Host}
    (allowed : Original originals peer m happening) (ran : m.step peer hash happening = some after) :
    Goes originals passed peer m after := by
  have sound := replicating.sound.step allowed.1 ran
  have nothing : ∀ {event : NodeEvent}, offers hash event = none → ∀ id data, offers hash event = some (id, data) →
      data ∈ originals.chunks ∧ hash data = id := by
    intro event none_offered id data offered
    cases none_offered.symm.trans offered
  cases happening with
  | own host env event =>
    refine ⟨passed, replicating.turn (fair_own allowed.1) (faithful_own allowed.1) (fun id data offered => ?_) ran⟩
    exact ⟨allowed.2 host env event rfl id data offered, offers_hash allowed.1 offered⟩
  | sends client index =>
    obtain ⟨_, _, ran⟩ := Option.bind_eq_some_iff.mp ran
    cases ran
    exact ⟨passed, ⟨sound, replicating.each, replicating.given⟩, .refl⟩
  | arrives env place =>
    obtain ⟨⟨host, arg⟩, found, ran⟩ := Option.bind_eq_some_iff.mp ran
    have received : (m.receive host arg).Replicating originals passed peer :=
      ⟨replicating.sound.receive host arg, fun other => (replicating.each other).mono (asked_receive m host other arg)
        subset_rfl, replicating.given⟩
    have fair : Fair hash ((m.receive host arg).PeerHas peer host) ((m.receive host arg).asked host) (m.nodes host)
        (.remoteGetChunk (m.asked host).length arg) := fair_arrives replicating.sound found
    exact ⟨passed, received.turn fair trivial (nothing rfl) ran⟩
  | losesCall place =>
    cases ran
    exact ⟨passed, ⟨sound, replicating.each, replicating.given⟩, .refl⟩
  | storage host env index res =>
    have fair : Fair hash (m.PeerHas peer host) (m.asked host) (m.nodes host) (.remoteGetChunkCb index res) := allowed.1
    cases res with
    | error msg => exact ⟨passed, replicating.turn fair trivial (nothing rfl) ran⟩
    | ok chunk =>
      obtain ⟨d, data⟩ := chunk
      cases found : (m.nodes host).peerReads[index]? with
      | none =>
        refine ⟨passed, replicating.turn fair (fun read found' => ?_) (nothing rfl) ran⟩
        cases found.symm.trans found'
      | some read =>
        -- the storage has the chunk, so it can be passed on first
        obtain ⟨_, held⟩ := allowed.1 read found
        have wider := replicating.mono (Set.subset_insert (d.id, data) passed)
        have passes : Copies after.Given ⟨m.held, passed⟩ ⟨m.held, insert (d.id, data) passed⟩ := .single (.pass held)
        obtain ⟨kept, copies⟩ := wider.turn fair (fun _ _ => Set.mem_insert _ _) (nothing rfl) ran
        exact ⟨_, kept, passes.trans copies⟩
  | drops host id =>
    cases ran
    exact replicating.drop allowed.1
  | replied client env index place =>
    obtain ⟨conn, arg, sbp, res, found, replied, carried, answers, ran⟩ := replied_some ran
    have fair := fair_replied replicating.sound found replied carried answers
    have faithful := replicating.faithful_replied found (List.mem_of_getElem? replied) answers
    exact ⟨passed, replicating.turn fair faithful (nothing rfl) ran⟩
  | losesReply host place =>
    cases ran
    exact ⟨passed, ⟨sound, replicating.each, replicating.given⟩, .refl⟩

end Mesh
end Ditto.GtcNode
