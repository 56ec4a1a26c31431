import Ditto.Downloads

/-! A node: a `gtcd` whose transfer plugin is `xferPlugin_gtc`, with the sniffer's
plugin and the requests of peers. A chunk a peer asks for that is not in storage
is fetched for it, served from the buffer it arrived in and stored. -/
namespace Ditto.GtcNode
open XferGtc Downloads

/-- `xfergtc_get_chunk_arg`. -/
structure GetChunkArg where
  desc : Descriptor
  hints : List String
  offset : UInt64
  deriving DecidableEq

/-- `xfergtc_get_chunk_res_ok`. -/
structure GetChunkResOk where
  offset : UInt64
  chunkId : List UInt8
  data : List UInt8
  ended : Bool
  deriving DecidableEq, Repr

/-- Whom the transfer plugin answers: `proxy_get_chunk_cb` with the request of a
peer, `xp_fetch_data_cb` of a transfer, or a request for descriptors or a bitmap,
whose answer stores nothing. -/
inductive Cont where
  | proxyGetChunk (sbp : Sbp) (arg : GetChunkArg)
  | xpFetchData (xferId : XferId)
  | other

/-- A `get_chunk` of the storage plugin in flight for a peer, with `last_try`. -/
structure PeerRead where
  sbp : Sbp
  arg : GetChunkArg
  lastTry : Bool

/-- What a step reads of the world: that of the transfer plugin, what memory holds
past a status vector, and the `host:port` the node listens on. -/
structure NodeEnv extends Env where
  beyond : ℕ → DescStatus
  listen : String

/-- A node. The last three fields log its replies to peers and to the sniffer, and
every `put_ichunk` with its arguments. -/
structure Node where
  plugin : Plugin Cont
  gtcd : Gtcd
  peerReads : List PeerRead
  peerReplies : List (Sbp × Except String GetChunkResOk)
  snifferReplies : List (Sbp × Except String Unit)
  puts : List (Descriptor × List UInt8)

/-- What a node is called with: a chunk from the sniffer, a request of a peer and
the storage's answer to it, the requests of clients and what the storage answers
them, and the completions and ticks of the transfer plugin. -/
inductive NodeEvent where
  | putChunk (sbp : Sbp) (data : List UInt8) (ended : Bool)
  | remoteGetChunk (sbp : Sbp) (arg : GetChunkArg)
  | remoteGetChunkCb (index : ℕ) (res : Except String (Descriptor × List UInt8))
  | gtcd (event : Downloads.Event)
  | plugin (event : XferGtc.Event Cont)

/-- `gtc_in_hint_list`: every round of its loop looks at the first hint. -/
def gtcInHintList (env : NodeEnv) (arg : GetChunkArg) : Bool :=
  arg.hints.any fun _ => (arg.hints.head?.bind env.parseHint) = some env.listen

/-- `remote_get_chunk_cb` with a chunk in hand: the reply, and what it leaves of
the buffer. -/
def serveChunk (arg : GetChunkArg) (desc : Descriptor) (data : List UInt8) :
    Except String GetChunkResOk × List UInt8 :=
  let offset := arg.offset.toNat
  if data.length ≤ offset then (.error "Invalid offset for get_chunk", data)
  else
    let numBytes := min (data.length - offset) sendSize
    let ended := !decide (numBytes < data.length - offset)
    let data := if 0 < offset then data.drop offset else data
    (.ok { offset := arg.offset, chunkId := desc.id, data := data.take numBytes, ended := ended },
      data)

namespace Node

/-- A node with nothing in flight, over a storage. -/
def init (stored : List UInt8 → Option (List UInt8)) : Node where
  plugin := .init Cont
  gtcd := .init stored
  peerReads := []
  peerReplies := []
  snifferReplies := []
  puts := []

/-- `sp->put_ichunk (d, data, ...)`. -/
def putIchunk (n : Node) (d : Descriptor) (data : List UInt8) : Node :=
  { n with
    gtcd := { n.gtcd with stored := Gtcd.store n.gtcd.stored (.putIchunk d data) }
    puts := n.puts ++ [(d, data)] }

/-- `sbp->replyref (res)` to a peer. -/
def peerReply (n : Node) (sbp : Sbp) (res : Except String GetChunkResOk) : Node :=
  { n with peerReplies := n.peerReplies ++ [(sbp, res)] }

/-- `snifferPlugin_tcp::put_chunk`. -/
def putChunk (computeChunkId : List UInt8 → List UInt8) (n : Node) (sbp : Sbp) (data : List UInt8)
    (ended : Bool) : Node :=
  if ended then
    let n := n.putIchunk { id := computeChunkId data, length := data.length } data
    { n with snifferReplies := n.snifferReplies ++ [(sbp, .ok ())] }
  else
    { n with
      snifferReplies := n.snifferReplies ++ [(sbp, .error "Can only handle full chunks for now")] }

/-- `proxy_get_chunk_cb`: the buffer the peer was served from is stored. -/
def proxyGetChunkCb (n : Node) (sbp : Sbp) (arg : GetChunkArg) :
    Except String (Descriptor × List UInt8) → Node
  | .error s => n.peerReply sbp (.error s)
  | .ok (desc, data) =>
    let (res, data) := serveChunk arg desc data
    (n.peerReply sbp res).putIchunk desc data

/-- A transfer after one of its handlers ran, with the chunks it stored. -/
def update (n : Node) (xferId : XferId) (t : Downloads.Transfer) : Node :=
  let ops := t.spOps.drop (n.gtcd.transfers xferId).spOps.length
  { n with
    gtcd := n.gtcd.update xferId t
    puts := n.puts ++ ops.filterMap SpOp.put }

/-- A callback of the transfer plugin. -/
def callback (env : NodeEnv) (n : Node) : Answer Cont → Option Node
  | .chunk (.proxyGetChunk sbp arg) res => some (n.proxyGetChunkCb sbp arg res)
  | .chunk (.xpFetchData xferId) res => do
    let t ← ((n.gtcd.transfers xferId).xpFetchDataCb env.beyond res).toOption
    some (n.update xferId t)
  | _ => some n

/-- The transfer plugin after an operation, and the callbacks it called. -/
def settle (env : NodeEnv) (n : Node) (ran : Except XferGtc.Fault (Plugin Cont)) : Option Node := do
  let p ← ran.toOption
  (p.answers.drop n.plugin.answers.length).foldlM (callback env) { n with plugin := p }

/-- `remote_get_chunk`. -/
def remoteGetChunk (n : Node) (env : NodeEnv) (sbp : Sbp) (arg : GetChunkArg) : Option Node :=
  -- `statCache` is hashed with the first four bytes of the id
  if arg.desc.id.length < 4 then none
  else do
    let name ← arg.hints.head?
    let _ ← env.parseHint name
    some { n with peerReads := n.peerReads ++ [⟨sbp, arg, gtcInHintList env arg⟩] }

/-- `remote_get_chunk_cb` for an answer of the storage. The buffer is the
storage's from here on. -/
def remoteGetChunkCb (n : Node) (env : NodeEnv) (read : PeerRead) :
    Except String (Descriptor × List UInt8) → Option Node
  | .error errmsg =>
    if read.lastTry then some (n.peerReply read.sbp (.error errmsg))
    else
      n.settle env (n.plugin.getChunk env.toEnv
        { d := read.arg.desc, hints := read.arg.hints, cb := .proxyGetChunk read.sbp read.arg })
  | .ok (desc, data) => some (n.peerReply read.sbp (serveChunk read.arg desc data).1)

/-- A request of a client, or an answer to one, in the `gtcd`. -/
def handle (n : Node) (env : NodeEnv) : Downloads.Event → Option Node
  | .getData sbp xferId => do
    let t := n.gtcd.transfers xferId
    let t ← ({ t with gets := t.gets ++ [sbp] }.getData env.beyond xferId sbp).toOption
    some (n.update xferId t)
  | .getChunkCb xferId index res =>
    let t := n.gtcd.transfers xferId
    match t.reads[index]? with
    | none => some n
    | some read => do
      let t ← ({ t with reads := t.reads.eraseIdx index }.getChunkCb env.beyond read res).toOption
      some (n.update xferId t)
  | .fetchData xferId => do
    let t := n.gtcd.transfers xferId
    if t.scheduled = 0 then some n
    else do
      let after ← ({ t with scheduled := t.scheduled - 1 }.fetchData env.beyond fun d =>
        (n.gtcd.stored d.id).isSome).toOption
      let missing := after.requested.drop t.requested.length
      let hints := ((t.pdp.bind (·.hints)).getD [])
      let n := n.update xferId after
      n.settle env (n.plugin.getChunks env.toEnv
        (missing.map fun d => { d := d, hints := hints, cb := .xpFetchData xferId }))
  | .xpFetchDataCb .. => some n
  | event => do
    let g ← (n.gtcd.step env.beyond event).toOption
    some { n with gtcd := g }

/-- One event. Chunks are asked of the transfer plugin by the node alone. -/
def step (computeChunkId : List UInt8 → List UInt8) (n : Node) (env : NodeEnv) :
    NodeEvent → Option Node
  | .putChunk sbp data ended => some (n.putChunk computeChunkId sbp data ended)
  | .remoteGetChunk sbp arg => n.remoteGetChunk env sbp arg
  | .remoteGetChunkCb index res =>
    match n.peerReads[index]? with
    | some read => { n with peerReads := n.peerReads.eraseIdx index }.remoteGetChunkCb env read res
    | none => some n
  | .gtcd event => n.handle env event
  | .plugin event =>
    match event with
    | .getChunk _ => some n
    | event => n.settle env (n.plugin.step computeChunkId env.toEnv event)

/-- A step that does not stop the daemon. -/
def next (computeChunkId : List UInt8 → List UInt8) (n : Node) (event : NodeEnv × NodeEvent) :
    Option Node :=
  n.step computeChunkId event.1 event.2

end Node
end Ditto.GtcNode
