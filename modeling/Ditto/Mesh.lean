import Ditto.ChunkExchange
import Ditto.NodeSteps
import Mathlib.Tactic.FinCases
import Mathlib.Tactic.IntervalCases

/-! A mesh of nodes. The chunks that a node asks for over a connection are asked of the
node at its other end, which answers from its storage or asks the next hop in turn. The
network may delay, lose and repeat what it carries, but it makes nothing up; what
clients, sniffers and the reading of descriptors do at each node is left open.

The storages are not part of the nodes. What is assumed of one is that it answers a read with
the chunk that it has, fails a read of a later part only when it has not got the chunk, and
lets go of a chunk only when no peer can still ask for a later part of it. -/
namespace Ditto.GtcNode
open XferGtc Downloads Outcomes Logs Runs

/-- A mesh: its nodes, the calls for chunks on their way, each with the node it is for, and
the ones that have reached each node, which knows a call by its place. The last three fields
are the replies that are lost to the network, by their place at a node, the chunks that
storages let go of, and the chunks that nodes were given. -/
structure Mesh (Host : Type) where
  nodes : Host → Node
  sent : List (Host × GetChunkArg)
  asked : Host → List GetChunkArg
  lost : List (Host × ℕ)
  dropped : List (Host × List UInt8)
  given : List (Host × List UInt8 × List UInt8)

/-- What happens in a mesh: something at a node alone, a call for a chunk that is sent, one that
arrives and one that is lost, the storage's answer to a read for a peer, a chunk that a storage
lets go of, a reply that arrives and one that is lost. -/
inductive Happening (Host : Type) where
  | own (host : Host) (env : NodeEnv) (event : NodeEvent)
  | sends (client : Host) (index : ℕ)
  | arrives (env : NodeEnv) (place : ℕ)
  | losesCall (place : ℕ)
  | storage (host : Host) (env : NodeEnv) (index : ℕ) (res : Except String (Descriptor × List UInt8))
  | drops (host : Host) (id : List UInt8)
  | replied (client : Host) (env : NodeEnv) (index place : ℕ)
  | losesReply (host : Host) (place : ℕ)

/-- What a node may meet without its peers: no call is answered but by a failure, and what
others put in its storage is under its hash. -/
def Own (hash : List UInt8 → List UInt8) : NodeEvent → Prop
  | .remoteGetChunk .. => False
  | .remoteGetChunkCb .. => False
  | .plugin (.chunkReply _ (.notOk _)) => False
  | .plugin (.chunkReply _ (.ok _)) => False
  | .gtcd (.putIchunk id data) => hash data = id
  | _ => True

/-- The chunk that a node is given by its sniffer or by others that use its storage. -/
def offers (hash : List UInt8 → List UInt8) : NodeEvent → Option (List UInt8 × List UInt8)
  | .putChunk _ data true => some (hash data, data)
  | .gtcd (.putIchunk id data) => some (id, data)
  | _ => none

/-- What the storage of a node may answer to a read for a peer. -/
def Node.Answers (n : Node) (arg : GetChunkArg) : Except String (Descriptor × List UInt8) → Prop
  | .ok (d, data) => d = arg.desc ∧ n.gtcd.stored d.id = some data
  | .error _ => arg.offset ≠ 0 → n.gtcd.stored arg.desc.id = none

/-- The storage of a node lets go of a chunk. -/
def Node.drop (n : Node) (id : List UInt8) : Node :=
  { n with gtcd := { n.gtcd with stored := Function.update n.gtcd.stored id none } }

/-- The call for a chunk at a place, and over which connection it is. -/
def Node.chunkCall (n : Node) (index : ℕ) : Option (ConnId × GetChunkArg) :=
  match n.plugin.calls[index]? with
  | some ⟨conn, .chunk req offset _⟩ => some (conn, { desc := req.d, hints := req.hints, offset := UInt64.ofNat offset })
  | _ => none

namespace Mesh

variable {Host : Type}

/-- A mesh with nothing in flight, over its storages. -/
def init (stored : Host → List UInt8 → Option (List UInt8)) : Mesh Host where
  nodes := fun host => .init (stored host)
  sent := []
  asked := fun _ => []
  lost := []
  dropped := []
  given := []

/-- A peer may still ask the node for a later part of the chunk: it does, or it may come to,
with a reply that is not the last one. -/
inductive Engaged (peer : Host → ConnId → Host) (m : Mesh Host) (host : Host) (id : List UInt8) : Prop
  | calling (client : Host) (conn : ConnId) (req : ChunkReq Cont) (offset : ℕ) (data : List UInt8)
      (called : ⟨conn, .chunk req offset data⟩ ∈ (m.nodes client).plugin.calls) (later : offset ≠ 0)
      (leads : peer client conn = host) (names : req.d.id = id)
  | sent (arg : GetChunkArg) (carried : (host, arg) ∈ m.sent) (later : arg.offset ≠ 0) (names : arg.desc.id = id)
  | reading (read : PeerRead) (reads : read ∈ (m.nodes host).peerReads) (later : read.arg.offset ≠ 0)
      (names : read.arg.desc.id = id)
  | replied (place : ℕ) (sbp : Sbp) (resok : GetChunkResOk)
      (replied : (m.nodes host).peerReplies[place]? = some (sbp, .ok resok)) (carried : (host, place) ∉ m.lost)
      (more : resok.ended = false) (names : resok.chunkId = id)

/-- What may happen in a mesh. -/
def Allowed (peer : Host → ConnId → Host) (hash : List UInt8 → List UInt8) (m : Mesh Host) : Happening Host → Prop
  | .own _ _ event => Own hash event
  | .storage host _ index res => ∀ read, (m.nodes host).peerReads[index]? = some read →
    (m.nodes host).Answers read.arg res
  | .drops host id => ¬ m.Engaged peer host id
  | _ => True

variable [DecidableEq Host]

/-- An event at one node. -/
def turn (hash : List UInt8 → List UInt8) (m : Mesh Host) (host : Host) (env : NodeEnv) (event : NodeEvent) :
    Option (Mesh Host) := do
  let n ← (m.nodes host).next hash (env, event)
  some { m with
    nodes := Function.update m.nodes host n
    given := m.given ++ ((offers hash event).map fun chunk => (host, chunk)).toList }

/-- A call reaches a node. -/
def receive (m : Mesh Host) (host : Host) (arg : GetChunkArg) : Mesh Host :=
  { m with asked := Function.update m.asked host (m.asked host ++ [arg]) }

/-- A storage lets go of a chunk. -/
def drop (m : Mesh Host) (host : Host) (id : List UInt8) : Mesh Host :=
  { m with
    nodes := Function.update m.nodes host ((m.nodes host).drop id)
    dropped := m.dropped ++ [(host, id)] }

/-- One happening, where connections lead from each node to its peers. A reply goes to a
call that asks for what it is a reply to. -/
def step (peer : Host → ConnId → Host) (hash : List UInt8 → List UInt8) (m : Mesh Host) :
    Happening Host → Option (Mesh Host)
  | .own host env event => m.turn hash host env event
  | .sends client index => do
    let (conn, arg) ← (m.nodes client).chunkCall index
    some { m with sent := m.sent ++ [(peer client conn, arg)] }
  | .arrives env place => do
    let (host, arg) ← m.sent[place]?
    (m.receive host arg).turn hash host env (.remoteGetChunk (m.asked host).length arg)
  | .losesCall place => some { m with sent := m.sent.eraseIdx place }
  | .storage host env index res => m.turn hash host env (.remoteGetChunkCb index res)
  | .drops host id => some (m.drop host id)
  | .replied client env index place => do
    let (conn, arg) ← (m.nodes client).chunkCall index
    let (sbp, res) ← (m.nodes (peer client conn)).peerReplies[place]?
    if (peer client conn, place) ∉ m.lost ∧ (m.asked (peer client conn))[sbp]? = some arg then
      m.turn hash client env (.plugin (.chunkReply index (ChunkExchange.wire res)))
    else none
  | .losesReply host place => some { m with lost := m.lost ++ [(host, place)] }

end Mesh

/-! ## One node -/

variable {hash : List UInt8 → List UInt8} {backed more : ConnId → List UInt8 → Prop} {asked longer : List GetChunkArg}
  {n k : Node} {env : NodeEnv} {event : NodeEvent}

/-- A chunk is fetched for a peer only if it asked for the whole of it. -/
def ForPeer (asked : List GetChunkArg) (req : ChunkReq Cont) : Prop :=
  ∀ sbp arg, req.cb = .proxyGetChunk sbp arg → asked[sbp]? = some arg ∧ req.d = arg.desc ∧ arg.offset = 0

/-- A call for a chunk: past its first byte it is asked of a node that has it. -/
def Backed (backed : ConnId → List UInt8 → Prop) (asked : List GetChunkArg) (c : Call Cont) : Prop :=
  ∀ req offset data, c.transfer = .chunk req offset data →
    ForPeer asked req ∧ (offset ≠ 0 → backed c.conn req.d.id)

/-- A reply with a part of a chunk is the part that was asked for, of a chunk with the hash
that was asked for. -/
def Served (hash : List UInt8 → List UInt8) (asked : List GetChunkArg) (entry : Sbp × Except String GetChunkResOk) :
    Prop :=
  ∀ resok, entry.2 = .ok resok → ∃ arg data, asked[entry.1]? = some arg ∧ hash data = arg.desc.id ∧
    (serveChunk arg arg.desc data).1 = .ok resok

/-- A node in a mesh, where its peers have what is said of them. -/
structure Sound (hash : List UInt8 → List UInt8) (backed : ConnId → List UInt8 → Prop) (asked : List GetChunkArg)
    (n : Node) : Prop where
  addressed : Addressed hash n
  authentic : ∀ id data, n.gtcd.stored id = some data → hash data = id
  reads : ∀ read ∈ n.peerReads, asked[read.sbp]? = some read.arg ∧
    (read.arg.offset ≠ 0 → (n.gtcd.stored read.arg.desc.id).isSome)
  holding : Plugin.Holding (ForPeer asked) (Backed backed asked) n.plugin
  replies : ∀ entry ∈ n.peerReplies, Served hash asked entry

/-- What may happen to a node of a mesh. -/
def Fair (hash : List UInt8 → List UInt8) (backed : ConnId → List UInt8 → Prop) (asked : List GetChunkArg) (n : Node) :
    NodeEvent → Prop
  | .remoteGetChunk sbp arg => asked[sbp]? = some arg ∧ (arg.offset ≠ 0 → (n.gtcd.stored arg.desc.id).isSome)
  | .remoteGetChunkCb index res => ∀ read, n.peerReads[index]? = some read → n.Answers read.arg res
  | .plugin (.chunkReply index (.ok resok)) => resok.ended = false → ∀ conn req offset before,
    n.plugin.calls[index]? = some ⟨conn, .chunk req offset before⟩ → backed conn req.d.id
  | .gtcd (.putIchunk id data) => hash data = id
  | _ => True

theorem Sound.init {stored : List UInt8 → Option (List UInt8)}
    (authentic : ∀ id data, stored id = some data → hash data = id) : Sound hash backed asked (Node.init stored) where
  addressed := List.forall_mem_nil _
  authentic := authentic
  reads := List.forall_mem_nil _
  holding := .init
  replies := List.forall_mem_nil _

theorem ForPeer.mono {req : ChunkReq Cont} (forPeer : ForPeer asked req) (grew : asked <+: longer) :
    ForPeer longer req := by
  intro sbp arg cb
  obtain ⟨place, same⟩ := forPeer sbp arg cb
  exact ⟨ place_of_prefix grew place, same⟩

/-- More requests may arrive, and the peers may come to have more, or less where no call needs
it. -/
theorem Sound.mono (sound : Sound hash backed asked n) (grew : asked <+: longer)
    (implied : ∀ conn req offset data, ⟨conn, .chunk req offset data⟩ ∈ n.plugin.calls → offset ≠ 0 →
      backed conn req.d.id → more conn req.d.id) : Sound hash more longer n where
  addressed := sound.addressed
  authentic := sound.authentic
  reads := fun read member => ⟨ place_of_prefix grew (sound.reads read member).1, (sound.reads read member).2⟩
  holding := by
    refine ⟨fun c member req offset data chunk => ?_, ?_, ?_⟩
    · obtain ⟨forPeer, held⟩ := sound.holding.calls c member req offset data chunk
      refine ⟨forPeer.mono grew, fun later => implied c.conn req offset data ?_ later (held later)⟩
      rwa [← chunk]
    · exact fun conn entry held req waits => (sound.holding.waiting conn entry held req waits).mono grew
    · exact fun key reqs pending req member => (sound.holding.pending key reqs pending req member).mono grew
  replies := by
    intro entry member resok ok
    obtain ⟨arg, data, place, served⟩ := sound.replies entry member resok ok
    exact ⟨arg, data, place_of_prefix grew place, served⟩

/-- What an event adds to a node in a mesh. -/
theorem Sound.grants (sound : Sound hash backed asked n) (fair : Fair hash backed asked n event) :
    Grants hash (fun put => hash put.2 = put.1.id) (Served hash asked) n event where
  errors := by
    rintro sbp msg resok ⟨⟩
  sniffed := fun _ _ _ => rfl
  served := by
    rintro index read d data rfl found
    obtain ⟨rfl, held⟩ := fair read found
    refine ⟨fun resok ok => ?_, by rw [held]; rfl⟩
    exact ⟨read.arg, data, (sound.reads read (List.mem_of_getElem? found)).1, sound.authentic _ _ held, ok⟩
  completed := by
    rintro happened req data rfl ⟨⟨index, resok, conn, offset, before, rfl, called, _, rfl⟩, hashed⟩
    have forPeer := (sound.holding.calls _ (List.mem_of_getElem? called) req offset before rfl).1
    cases cb : req.cb with
    | proxyGetChunk sbp arg =>
      obtain ⟨place, same, first⟩ := forPeer sbp arg cb
      refine ⟨fun resok' ok => ?_, ?_⟩
      · rw [same] at ok hashed
        exact ⟨arg, _, place, hashed, ok⟩
      · exact (congrArg hash (serve_chunk_whole (.inl first))).trans hashed
    | xpFetchData xferId => exact hashed
    | other => trivial

/-- The requests that a node in a mesh holds. -/
theorem Sound.step_holding (sound : Sound hash backed asked n) (fair : Fair hash backed asked n event)
    (ran : n.step hash env event = some k) : Plugin.Holding (ForPeer asked) (Backed backed asked) k.plugin := by
  refine GtcNode.step_holding ⟨?_, ?_⟩ sound.holding ?_ ?_ ?_ ran
  · intro conn req forPeer req' offset data same
    cases same
    exact ⟨forPeer, fun positive => absurd rfl positive⟩
  · intro c isOther req offset data same
    rw [same] at isOther
    cases isOther
  · intro req xferId cb sbp arg cb'
    cases cb.symm.trans cb'
  · rintro index read msg rfl found sbp arg ⟨⟩
    obtain ⟨place, held⟩ := sound.reads read (List.mem_of_getElem? found)
    refine ⟨place, rfl, by_contra fun positive => ?_⟩
    -- a later part is asked of a node that has the chunk, and its storage does not fail
    have absent : n.gtcd.stored read.arg.desc.id = none := fair read found positive
    have has := held positive
    rw [absent] at has
    cases has
  · rintro happened rfl index resok conn req offset before rfl more called req' offset' data same
    cases same
    have forPeer := (sound.holding.calls _ (List.mem_of_getElem? called) req offset before rfl).1
    exact ⟨forPeer, fun _ => fair more conn req offset before called⟩

/-- A chunk that is stored stays, under its hash, and one event of a node in a mesh leaves it
sound and replies with parts of what is stored then. -/
theorem Sound.step (sound : Sound hash backed asked n) (fair : Fair hash backed asked n event)
    (ran : n.step hash env event = some k) :
    Sound hash backed asked k ∧ (∀ id data, n.gtcd.stored id = some data → k.gtcd.stored id = some data) ∧
      Grows (Backs k.gtcd.stored) n.peerReplies k.peerReplies := by
  have holding := sound.step_holding fair ran
  by_cases put : ∃ id data, event = .gtcd (.putIchunk id data)
  · obtain ⟨id, data, rfl⟩ := put
    cases ran
    have stays : ∀ id' data', n.gtcd.stored id' = some data' →
        keep n.gtcd.stored (⟨id, data.length⟩, data) id' = some data' :=
      fun _ _ held => keep_stored held
    refine ⟨⟨sound.addressed, ?_, ?_, holding, sound.replies⟩, stays, Grows.same rfl⟩
    · have hashed : hash data = id := fair
      exact @keep_each (fun id data => hash data = id) (⟨id, data.length⟩, data) _ sound.authentic hashed
    · refine fun read member => ⟨(sound.reads read member).1, fun positive => ?_⟩
      obtain ⟨data', found⟩ := Option.isSome_iff_exists.mp ((sound.reads read member).2 positive)
      exact Option.isSome_iff_exists.mpr ⟨data', stays _ _ found⟩
  have adds := step_adds (sound.grants fair) (fun id data same => put ⟨id, data, same⟩) ran
  obtain ⟨new, puts, stored, hashed⟩ := adds.puts
  refine ⟨⟨?_, ?_, ?_, holding, ?_⟩, fun _ _ held => adds.stored held, adds.replies.imp fun _ replied => replied.2⟩
  · rw [Addressed, puts]
    exact List.forall_mem_append.mpr ⟨sound.addressed, hashed⟩
  · rw [stored]
    exact foldl_keep_each sound.authentic hashed
  · intro read member
    rcases step_reads ran member with old | rfl
    · exact ⟨(sound.reads read old).1, fun positive => adds.stored_some ((sound.reads read old).2 positive)⟩
    · exact ⟨fair.1, fun positive => adds.stored_some (fair.2 positive)⟩
  · obtain ⟨newer, replies, served⟩ := adds.replies
    rw [replies]
    exact List.forall_mem_append.mpr ⟨sound.replies, fun entry member => (served entry member).1⟩

/-- The storage of a node may let go of a chunk that no read for a later part is for. -/
theorem Sound.drop (sound : Sound hash backed asked n) {id : List UInt8}
    (unread : ∀ read ∈ n.peerReads, read.arg.offset ≠ 0 → read.arg.desc.id ≠ id) :
    Sound hash backed asked (n.drop id) where
  addressed := sound.addressed
  authentic := by
    intro id' data held
    simp only [Node.drop] at held
    by_cases same : id' = id
    · rw [same, Function.update_self] at held
      cases held
    · rw [Function.update_of_ne same] at held
      exact sound.authentic id' data held
  reads := by
    refine fun read member => ⟨(sound.reads read member).1, fun positive => ?_⟩
    simp only [Node.drop, Function.update_of_ne (unread read member positive)]
    exact (sound.reads read member).2 positive
  holding := sound.holding
  replies := sound.replies

/-! ## The mesh -/

variable {Host : Type} {peer : Host → ConnId → Host} {m after : Mesh Host} {host client : Host}

namespace Mesh

/-- The node at the other end of a connection has the chunk. -/
def PeerHas (peer : Host → ConnId → Host) (m : Mesh Host) (host : Host) (conn : ConnId) (id : List UInt8) : Prop :=
  ((m.nodes (peer host conn)).gtcd.stored id).isSome

/-- Every node is sound, what is asked for from past the first byte is asked of a node that
has it, and a node has the chunk that it has replied with a part of, until its storage lets go
of it. -/
structure Sound (hash : List UInt8 → List UInt8) (peer : Host → ConnId → Host) (m : Mesh Host) : Prop where
  each : ∀ host, GtcNode.Sound hash (m.PeerHas peer host) (m.asked host) (m.nodes host)
  sent : ∀ call ∈ m.sent, call.2.offset ≠ 0 → ((m.nodes call.1).gtcd.stored call.2.desc.id).isSome
  parts : ∀ host place sbp resok, (m.nodes host).peerReplies[place]? = some (sbp, .ok resok) →
    (host, place) ∉ m.lost → resok.ended = false → ((m.nodes host).gtcd.stored resok.chunkId).isSome
  traced : ∀ host sbp resok, (sbp, .ok resok) ∈ (m.nodes host).peerReplies →
    ((m.nodes host).gtcd.stored resok.chunkId).isSome ∨ (host, resok.chunkId) ∈ m.dropped

theorem sound_init {stored : Host → List UInt8 → Option (List UInt8)}
    (authentic : ∀ host id data, stored host id = some data → hash data = id) : (init stored).Sound hash peer := by
  refine ⟨fun host => .init (authentic host), List.forall_mem_nil _, ?_, ?_⟩
  · rintro host place sbp resok ⟨⟩
  · rintro host sbp resok ⟨⟩

/-- A reply is to a call for the chunk that it is a part of. -/
theorem Sound.reply_id (sound : m.Sound hash peer) {arg : GetChunkArg} {sbp : Sbp} {resok : GetChunkResOk}
    (replied : (sbp, .ok resok) ∈ (m.nodes host).peerReplies) (answers : (m.asked host)[sbp]? = some arg) :
    resok.chunkId = arg.desc.id := by
  obtain ⟨arg', data, place, _, ok⟩ := (sound.each host).replies _ replied resok rfl
  cases answers.symm.trans place
  exact serve_chunk_id ok

/-- The call for a chunk at a place. -/
theorem chunk_call_some {n : Node} {index : ℕ} {conn : ConnId} {arg : GetChunkArg}
    (found : n.chunkCall index = some (conn, arg)) :
    ∃ req offset data, n.plugin.calls[index]? = some ⟨conn, .chunk req offset data⟩ ∧
      arg = { desc := req.d, hints := req.hints, offset := UInt64.ofNat offset } := by
  unfold Node.chunkCall at found
  split at found
  next conn' req offset data called =>
    cases found
    exact ⟨req, offset, data, called, rfl⟩
  next => cases found

/-- What happens at a node alone. -/
theorem fair_own {n : Node} {backed : ConnId → List UInt8 → Prop} (own : Own hash event) :
    Fair hash backed asked n event := by
  cases event with
  | putChunk sbp data ended => trivial
  | remoteGetChunk sbp arg => exact own.elim
  | remoteGetChunkCb index res => exact own.elim
  | gtcd event => cases event <;> exact own
  | plugin event =>
    cases event with
    | chunkReply index res => cases res <;> first | exact own.elim | trivial
    | _ => trivial

theorem fair_replied (sound : m.Sound hash peer) {index place : ℕ} {conn : ConnId} {arg : GetChunkArg} {sbp : Sbp}
    {res : Except String GetChunkResOk} (found : (m.nodes client).chunkCall index = some (conn, arg))
    (replied : (m.nodes (peer client conn)).peerReplies[place]? = some (sbp, res))
    (carried : (peer client conn, place) ∉ m.lost) (answers : (m.asked (peer client conn))[sbp]? = some arg) :
    Fair hash (m.PeerHas peer client) (m.asked client) (m.nodes client)
      (.plugin (.chunkReply index (ChunkExchange.wire res))) := by
  cases res with
  | error errmsg => trivial
  | ok resok =>
    intro more conn' req offset before called
    have held := sound.parts _ place sbp resok replied carried more
    rw [sound.reply_id (List.mem_of_getElem? replied) answers] at held
    obtain ⟨req', offset', before', called', rfl⟩ := chunk_call_some found
    cases called.symm.trans called'
    exact held

variable [DecidableEq Host]

/-- What one node does leaves the others alone, and the chunks that it had stored. -/
theorem stored_turn {n : Node}
    (stays : ∀ id data, (m.nodes host).gtcd.stored id = some data → n.gtcd.stored id = some data)
    (other : Host) (id : List UInt8) (held : ((m.nodes other).gtcd.stored id).isSome) :
    ((Function.update m.nodes host n other).gtcd.stored id).isSome := by
  by_cases same : other = host
  · obtain ⟨data, found⟩ := Option.isSome_iff_exists.mp held
    rw [same] at found ⊢
    rw [Function.update_self, stays id data found]
    rfl
  · rw [Function.update_of_ne same]
    exact held

/-- An event at one node. -/
theorem turn_some (ran : m.turn hash host env event = some after) : ∃ n, (m.nodes host).step hash env event = some n ∧
    after = { m with
      nodes := Function.update m.nodes host n
      given := m.given ++ ((offers hash event).map fun chunk => (host, chunk)).toList } := by
  obtain ⟨n, stepped, written⟩ := Option.bind_eq_some_iff.mp ran
  exact ⟨n, stepped, (Option.some_inj.mp written).symm⟩

theorem Sound.turn (sound : m.Sound hash peer)
    (fair : Fair hash (m.PeerHas peer host) (m.asked host) (m.nodes host) event)
    (ran : m.turn hash host env event = some after) : after.Sound hash peer := by
  obtain ⟨n, stepped, rfl⟩ := turn_some ran
  obtain ⟨here, stays, grew⟩ := (sound.each host).step fair stepped
  have held := stored_turn stays
  have grows : ∀ other, Grows (Backs (Function.update m.nodes host n other).gtcd.stored) (m.nodes other).peerReplies
      (Function.update m.nodes host n other).peerReplies := by
    intro other
    by_cases same : other = host
    · subst same
      rw [Function.update_self]
      exact grew
    · rw [Function.update_of_ne same]
      exact Grows.same rfl
  constructor
  case each =>
    intro other
    have more : ∀ {k : Node}, GtcNode.Sound hash (m.PeerHas peer other) (m.asked other) k →
        GtcNode.Sound hash (PeerHas peer { m with nodes := Function.update m.nodes host n } other) (m.asked other) k :=
      fun kept => kept.mono (List.prefix_refl _) fun conn req _ _ _ _ has => held _ req.d.id has
    by_cases same : other = host
    · subst same
      dsimp only
      rw [Function.update_self]
      exact more here
    · dsimp only
      rw [Function.update_of_ne same]
      exact more (sound.each other)
  case sent => exact fun call member positive => held call.1 _ (sound.sent call member positive)
  case parts =>
    intro other place sbp resok replied carried more
    obtain ⟨new, replies, backed⟩ := grows other
    dsimp only at replied ⊢
    rw [replies] at replied
    by_cases old : place < (m.nodes other).peerReplies.length
    · rw [List.getElem?_append_left old] at replied
      exact held other _ (sound.parts other place sbp resok replied carried more)
    · rw [List.getElem?_append_right (Nat.le_of_not_lt old)] at replied
      exact backed _ (List.mem_of_getElem? replied) resok rfl
  case traced =>
    intro other sbp resok replied
    obtain ⟨new, replies, backed⟩ := grows other
    dsimp only at replied ⊢
    rw [replies] at replied
    rcases List.mem_append.mp replied with old | added
    · exact (sound.traced other sbp resok old).imp_left (held other _)
    · exact .inl (backed _ added resok rfl)

/-! ## Chunks that a storage lets go of -/

theorem held_drop {other : Host} {id id' : List UInt8} (held : ((m.nodes other).gtcd.stored id').isSome)
    (another : ¬ (other = host ∧ id' = id)) : (((m.drop host id).nodes other).gtcd.stored id').isSome := by
  simp only [drop]
  by_cases same : other = host
  · subst same
    rw [Function.update_self]
    simp only [Node.drop, Function.update_of_ne fun here => another ⟨rfl, here⟩]
    exact held
  · rw [Function.update_of_ne same]
    exact held

theorem replies_drop (m : Mesh Host) (host other : Host) (id : List UInt8) :
    ((m.drop host id).nodes other).peerReplies = (m.nodes other).peerReplies := by
  simp only [drop]
  by_cases same : other = host
  · subst same
    rw [Function.update_self]
    rfl
  · rw [Function.update_of_ne same]

/-- A storage may let go of a chunk that no peer can still ask for a later part of. -/
theorem Sound.drop (sound : m.Sound hash peer) {id : List UInt8} (free : ¬ m.Engaged peer host id) :
    (m.drop host id).Sound hash peer := by
  constructor
  case each =>
    intro other
    have more : ∀ {k : Node}, k.plugin = (m.nodes other).plugin →
        GtcNode.Sound hash (m.PeerHas peer other) (m.asked other) k →
        GtcNode.Sound hash ((m.drop host id).PeerHas peer other) (m.asked other) k := by
      intro k plugin kept
      refine kept.mono (List.prefix_refl _) fun conn req offset data called later has => held_drop has ?_
      rintro ⟨leads, names⟩
      exact free (.calling other conn req offset data (plugin ▸ called) later leads names)
    by_cases same : other = host
    · subst same
      have dropped : GtcNode.Sound hash (m.PeerHas peer other) (m.asked other) ((m.nodes other).drop id) :=
        (sound.each other).drop fun read reads later names => free (.reading read reads later names)
      simp only [Mesh.drop, Function.update_self]
      exact more rfl dropped
    · simp only [Mesh.drop, Function.update_of_ne same]
      exact more rfl (sound.each other)
  case sent =>
    refine fun call carried later => held_drop (sound.sent call carried later) ?_
    rintro ⟨rfl, names⟩
    exact free (.sent call.2 carried later names)
  case parts =>
    intro other place sbp resok replied carried more
    rw [replies_drop] at replied
    refine held_drop (sound.parts other place sbp resok replied carried more) ?_
    rintro ⟨rfl, names⟩
    exact free (.replied place sbp resok replied carried more names)
  case traced =>
    intro other sbp resok replied
    rw [replies_drop] at replied
    by_cases here : other = host ∧ resok.chunkId = id
    · obtain ⟨rfl, rfl⟩ := here
      exact .inr (List.mem_append_right _ (List.mem_singleton_self _))
    · exact (sound.traced other sbp resok replied).imp (held_drop · here) (List.mem_append_left _)

/-! ## Runs -/

theorem asked_receive (m : Mesh Host) (host other : Host) (arg : GetChunkArg) :
    m.asked other <+: (m.receive host arg).asked other := by
  by_cases same : other = host
  · subst same
    simp only [receive, Function.update_self, List.prefix_append]
  · simp only [receive, Function.update_of_ne same, List.prefix_refl]

theorem Sound.receive (sound : m.Sound hash peer) (host : Host) (arg : GetChunkArg) :
    (m.receive host arg).Sound hash peer where
  each := fun other => (sound.each other).mono (asked_receive m host other arg) fun _ _ _ _ _ _ has => has
  sent := sound.sent
  parts := sound.parts
  traced := sound.traced

/-- A reply that reaches a client, with what it is a reply to. -/
theorem replied_some {index place : ℕ} (ran : m.step peer hash (.replied client env index place) = some after) :
    ∃ conn arg sbp res, (m.nodes client).chunkCall index = some (conn, arg) ∧
      (m.nodes (peer client conn)).peerReplies[place]? = some (sbp, res) ∧ (peer client conn, place) ∉ m.lost ∧
      (m.asked (peer client conn))[sbp]? = some arg ∧
      m.turn hash client env (.plugin (.chunkReply index (ChunkExchange.wire res))) = some after := by
  obtain ⟨⟨conn, arg⟩, found, ran⟩ := Option.bind_eq_some_iff.mp ran
  obtain ⟨⟨sbp, res⟩, replied, ran⟩ := Option.bind_eq_some_iff.mp ran
  dsimp only at ran
  split at ran
  next reaches => exact ⟨conn, arg, sbp, res, found, replied, reaches.1, reaches.2, ran⟩
  next => cases ran

theorem fair_arrives (sound : m.Sound hash peer) {place : ℕ} {arg : GetChunkArg}
    (found : m.sent[place]? = some (host, arg)) :
    Fair hash ((m.receive host arg).PeerHas peer host) ((m.receive host arg).asked host) (m.nodes host)
      (.remoteGetChunk (m.asked host).length arg) := by
  refine ⟨?_, sound.sent _ (List.mem_of_getElem? found)⟩
  simp only [Mesh.receive, Function.update_self, List.getElem?_concat_length]

theorem Sound.step (sound : m.Sound hash peer) {happening : Happening Host} (allowed : Allowed peer hash m happening)
    (ran : m.step peer hash happening = some after) : after.Sound hash peer := by
  cases happening with
  | own host env event => exact sound.turn (fair_own allowed) ran
  | sends client index =>
    obtain ⟨⟨conn, arg⟩, found, ran⟩ := Option.bind_eq_some_iff.mp ran
    cases ran
    obtain ⟨req, offset, data, called, rfl⟩ := chunk_call_some found
    refine ⟨sound.each, List.forall_mem_append.mpr ⟨sound.sent, List.forall_mem_singleton.mpr fun positive => ?_⟩,
      sound.parts, sound.traced⟩
    refine ((sound.each client).holding.calls _ (List.mem_of_getElem? called) req offset data rfl).2
      fun zero => positive ?_
    rw [zero]
    rfl
  | arrives env place =>
    obtain ⟨⟨host, arg⟩, found, ran⟩ := Option.bind_eq_some_iff.mp ran
    have fair : Fair hash ((m.receive host arg).PeerHas peer host) ((m.receive host arg).asked host) (m.nodes host)
        (.remoteGetChunk (m.asked host).length arg) := fair_arrives sound found
    exact (sound.receive host arg).turn fair ran
  | losesCall place =>
    cases ran
    exact ⟨sound.each, fun call member => sound.sent call ((List.eraseIdx_sublist _ _).subset member), sound.parts,
      sound.traced⟩
  | storage host env index res =>
    have fair : Fair hash (m.PeerHas peer host) (m.asked host) (m.nodes host) (.remoteGetChunkCb index res) := allowed
    exact sound.turn fair ran
  | drops host id =>
    cases ran
    exact sound.drop allowed
  | replied client env index place =>
    obtain ⟨conn, arg, sbp, res, found, replied, carried, answers, ran⟩ := replied_some ran
    exact sound.turn (fair_replied sound found replied carried answers) ran
  | losesReply host place =>
    cases ran
    refine ⟨sound.each, sound.sent, fun other place' sbp resok replied carried => ?_, sound.traced⟩
    exact sound.parts other place' sbp resok replied fun before => carried (List.mem_append_left _ before)

theorem mesh_sound {stored : Host → List UInt8 → Option (List UInt8)}
    (authentic : ∀ host id data, stored host id = some data → hash data = id)
    (run : Reaches (step peer hash) (Allowed peer hash) (init stored) m) : m.Sound hash peer :=
  Runs.invariant (sound_init authentic) (fun _ _ _ sound allowed ran => sound.step allowed ran) run

/-- **However its messages are delayed, lost and repeated, a mesh whose storages start out
with chunks under their hashes puts every chunk under its hash**: no node completes a chunk
for a peer that asked for a part of it. -/
theorem mesh_addressed {stored : Host → List UInt8 → Option (List UInt8)}
    (authentic : ∀ host id data, stored host id = some data → hash data = id)
    (run : Reaches (step peer hash) (Allowed peer hash) (init stored) m) (host : Host) :
    (∀ event, WholeForPeers hash (m.nodes host) event) ∧ Addressed hash (m.nodes host) ∧
      ∀ id data, (m.nodes host).gtcd.stored id = some data → hash data = id := by
  have sound := (mesh_sound authentic run).each host
  refine ⟨?_, sound.addressed, sound.authentic⟩
  intro event index resok conn req offset before sbp arg _ called cb _ _
  obtain ⟨_, _, first⟩ := (sound.holding.calls _ (List.mem_of_getElem? called) req offset before rfl).1 sbp arg cb
  exact .inl first

/-! ## A chunk over two hops -/

/-- The chunk, with itself for its hash. -/
def fourBytes : List UInt8 := [5, 6, 7, 8]

/-- A client, a proxy and an origin that has the chunk. -/
def originStored (host : Fin 3) (id : List UInt8) : Option (List UInt8) :=
  if host = 2 ∧ id = fourBytes then some fourBytes else none

/-- The client fetches the chunk from the proxy, which does not have it and fetches it from
the origin, which then lets go of it. -/
def overTwoHops : List (Happening (Fin 3)) :=
  [.own 0 smallNodeEnv (.gtcd (.getInit 0 [1] ["origin"] (some .sequential))),
    .own 0 smallNodeEnv (.gtcd (.getInitCb 1 (.ok ([⟨fourBytes, 4⟩], true)))),
    .own 0 smallNodeEnv (.gtcd (.getData 0 1)),
    .own 0 smallNodeEnv (.gtcd (.fetchData 1)),
    .own 0 smallNodeEnv (.plugin (.connect 0 true)),
    .sends 0 0,
    .arrives smallNodeEnv 0,
    .storage 1 smallNodeEnv 0 (.error "not found"),
    .own 1 smallNodeEnv (.plugin (.connect 0 true)),
    .sends 1 0,
    .arrives smallNodeEnv 1,
    .storage 2 smallNodeEnv 0 (.ok (⟨fourBytes, 4⟩, fourBytes)),
    .replied 1 smallNodeEnv 0 0,
    .replied 0 smallNodeEnv 0 0,
    .drops 2 fourBytes]

/-- Every connection leads to the next node. -/
def nextNode (host : Fin 3) (_ : ConnId) : Fin 3 := host + 1

/-- The mesh after the first of that. -/
def overTwoHopsAfter (n : ℕ) : Option (Mesh (Fin 3)) :=
  (overTwoHops.take n).foldlM (step nextNode id) (init originStored)

/-- The one reply in the mesh. -/
def wholeReply : GetChunkResOk := { offset := 0, chunkId := fourBytes, data := fourBytes, ended := true }

theorem fetched_some : ∃ m, overTwoHopsAfter 15 = some m ∧ (m.nodes 0).puts = [(⟨fourBytes, 4⟩, fourBytes)] ∧
    (m.nodes 1).peerReplies = [(0, .ok wholeReply)] :=
  ⟨_, rfl, rfl, rfl⟩

theorem origin_authentic (host : Fin 3) (id data : List UInt8) (held : originStored host id = some data) :
    data = id := by
  unfold originStored at held
  split at held
  next found => exact (Option.some_inj.mp held).symm.trans found.2.symm
  next => cases held

/-- Before the origin lets go of the chunk no call is in flight, and its one reply is whole. -/
theorem fetched_still : ∃ m, overTwoHopsAfter 14 = some m ∧ (∀ host, (m.nodes host).plugin.calls = []) ∧
    (∀ call ∈ m.sent, call.2.offset = 0) ∧ (m.nodes 2).peerReads = [] ∧
    (m.nodes 2).peerReplies = [(0, .ok wholeReply)] := by
  refine ⟨_, rfl, ?_, ?_, rfl, rfl⟩
  · rintro ⟨_ | _ | _ | _, small⟩
    · rfl
    · rfl
    · rfl
    · omega
  · rintro call (_ | ⟨_, _ | ⟨_, ⟨⟩⟩⟩) <;> rfl

/-- Nobody asks for a later part of the chunk. -/
theorem origin_free {m : Mesh (Fin 3)} (ran : overTwoHopsAfter 14 = some m) : ¬ m.Engaged nextNode 2 fourBytes := by
  obtain ⟨m', ran', idle, first, unread, whole⟩ := fetched_still
  cases ran'.symm.trans ran
  intro engaged
  cases engaged with
  | calling client conn req offset data called _ _ _ =>
    rw [idle client] at called
    cases called
  | sent arg carried later _ => exact later (first _ carried)
  | reading read reads _ _ =>
    rw [unread] at reads
    cases reads
  | replied place sbp resok replied _ more _ =>
    have member := List.mem_of_getElem? replied
    rw [whole] at member
    cases List.mem_singleton.mp member
    cases more

theorem two_hops_allowed (n : ℕ) (happening : Happening (Fin 3)) (place : overTwoHops[n]? = some happening) :
    ∀ m, overTwoHopsAfter n = some m → Allowed nextNode id m happening := by
  intro m ran
  have short : n < 15 := (List.getElem?_eq_some_iff.mp place).1
  by_cases missed : n = 7
  · subst missed
    cases place
    cases ran
    rintro read ⟨⟩ later
    exact absurd rfl later
  by_cases found : n = 11
  · subst found
    cases place
    cases ran
    rintro read ⟨⟩
    exact ⟨rfl, rfl⟩
  by_cases last : n = 14
  · subst last
    cases place
    exact origin_free ran
  interval_cases n <;> first | omega | (cases place; trivial)

theorem over_two_hops_run {guard : Mesh (Fin 3) → Happening (Fin 3) → Prop}
    (admitted : ∀ happening ∈ overTwoHops, ∀ m, Allowed nextNode id m happening → guard m happening) {n : ℕ}
    {m : Mesh (Fin 3)} (ran : overTwoHopsAfter n = some m) : Reaches (step nextNode id) guard (init originStored) m := by
  refine reaches_of_places (fun k happening place state walked => ?_) ran
  rw [List.getElem?_take] at place
  split at place
  next before =>
    rw [List.take_take, Nat.min_eq_left (Nat.le_of_lt before)] at walked
    exact admitted happening (List.mem_of_getElem? place) state (two_hops_allowed k happening place state walked)
  next => cases place

theorem mesh_addressed_two_hops : ∃ m, overTwoHopsAfter 15 = some m ∧
    (m.nodes 0).puts = [(⟨fourBytes, 4⟩, fourBytes)] ∧ Addressed id (m.nodes 0) := by
  obtain ⟨m, ran, puts, _⟩ := fetched_some
  have run := over_two_hops_run (fun _ _ _ allowed => allowed) ran
  exact ⟨m, ran, puts, (mesh_addressed origin_authentic run 0).2.1⟩

/-- **What a node of a mesh serves is the part that was asked for, of a chunk that has the
hash asked for**, and the node has a chunk under that hash from then on, until its storage lets
go of it. -/
theorem mesh_serves {stored : Host → List UInt8 → Option (List UInt8)}
    (authentic : ∀ host id data, stored host id = some data → hash data = id)
    (run : Reaches (step peer hash) (Allowed peer hash) (init stored) m) {host : Host} {sbp : Sbp}
    {resok : GetChunkResOk} (replied : (sbp, .ok resok) ∈ (m.nodes host).peerReplies) :
    ∃ arg data, (m.asked host)[sbp]? = some arg ∧ hash data = arg.desc.id ∧
      (serveChunk arg arg.desc data).1 = .ok resok ∧
      (((m.nodes host).gtcd.stored arg.desc.id).isSome ∨ (host, arg.desc.id) ∈ m.dropped) := by
  have sound := mesh_sound authentic run
  obtain ⟨arg, data, place, hashed, ok⟩ := (sound.each host).replies _ replied resok rfl
  have traced := sound.traced host sbp resok replied
  rw [sound.reply_id replied place] at traced
  exact ⟨arg, data, place, hashed, ok, traced⟩

/-- The proxy has the chunk that it has served. -/
theorem mesh_serves_two_hops : ∃ m, overTwoHopsAfter 15 = some m ∧ (m.nodes 1).peerReplies = [(0, .ok wholeReply)] ∧
    ∃ arg data, (m.asked 1)[0]? = some arg ∧ id data = arg.desc.id ∧
      (serveChunk arg arg.desc data).1 = .ok wholeReply ∧
      (((m.nodes 1).gtcd.stored arg.desc.id).isSome ∨ (1, arg.desc.id) ∈ m.dropped) := by
  obtain ⟨m, ran, _, replies⟩ := fetched_some
  have run := over_two_hops_run (fun _ _ _ allowed => allowed) ran
  refine ⟨m, ran, replies, mesh_serves origin_authentic run ?_⟩
  rw [replies]
  exact List.mem_singleton_self _

end Mesh
end Ditto.GtcNode
