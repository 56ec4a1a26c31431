import Ditto.DescriptorExchange
import Ditto.PeerHints

/-! The serving side of `xferPlugin_gtc`: the requests of peers, what the storage answers to
them and the chunks that are fetched for a peer from the next hop. The storage and the node's own
downloads are part of the environment. -/
namespace Ditto.PeerServer
open XferGtc PeerHints
open Downloads (Sbp XferId)
open GtcNode (Cont GetChunkArg GetChunkResOk PeerRead serveChunk)

/-- The calls of the protocol. -/
inductive Proc where
  | getChunk
  | getDescriptors
  | getBitmap
  deriving DecidableEq, Repr

/-- What a peer is sent. -/
inductive PeerReply where
  | chunk (res : Except String GetChunkResOk)
  | descriptors (res : Except String DescriptorsResOk)
  | bitmap (res : Except String BitmapResOk)

/-- The call that a reply is for. -/
def PeerReply.proc : PeerReply → Proc
  | .chunk _ => .getChunk
  | .descriptors _ => .getDescriptors
  | .bitmap _ => .getBitmap

/-- What a step reads of the world: the clock, the routing table, and the host and the port
that the node is known by. -/
structure ServerEnv where
  now : ℤ
  routingTable : RoutingTable
  hostname : String
  listenPort : UInt32

/-- The world of the client side, with `get_chunk`'s reading of `get_next_hop`. -/
def ServerEnv.toEnv (env : ServerEnv) : Env where
  now := env.now
  parseHint := fun hint => (parseHint hint "gtc").map HintRes.key
  nextHop := fun hint =>
    match getNextHop env.routingTable hint with
    | .error msg => .error msg
    | .ok none => .error "No hints to get chunk from\n"
    | .ok (some res) => .ok res

/-- A node as its peers see it: the client side, the reads of the storage in flight for a
peer, with the offset in the call, the replies, the requests received and every `put_ichunk`. -/
structure Server where
  plugin : Plugin Cont
  chunkReads : List PeerRead
  descriptorReads : List (Sbp × UInt32)
  bitmapReads : List (Sbp × UInt32)
  replies : List (Sbp × PeerReply)
  requests : List (Sbp × Proc)
  puts : List (Descriptor × List UInt8)

/-- What a node is called with: the requests of peers, the storage's answers to them, a
download's request for a chunk, and what else happens to the client side. -/
inductive ServerEvent where
  | remoteGetChunk (sbp : Sbp) (arg : GetChunkArg)
  | remoteGetDescriptors (sbp : Sbp) (oid : List UInt8) (hints : List String) (offset : UInt64)
  | remoteGetBitmap (sbp : Sbp) (oid : List UInt8) (offset : UInt64)
  | remoteGetChunkCb (index : ℕ) (res : Except String (Descriptor × List UInt8))
  | remoteGetDescriptorsCb (index : ℕ) (res : Except String (List Descriptor))
  | remoteGetBitmapCb (index : ℕ) (res : Except String (List Bool))
  | getChunk (d : Descriptor) (hints : List String) (xferId : XferId)
  | plugin (event : Event Cont)

/-- `gtc_in_hint_list`: every round of its loop looks at the first hint. -/
def gtcInHintList (env : ServerEnv) (arg : GetChunkArg) : Bool :=
  arg.hints.any fun _ =>
    (arg.hints.head?.bind (parseHint · "gtc")) = some { hostname := env.hostname, port := env.listenPort }

/-- The most descriptors in one reply, with `EVP_MAX_MD_SIZE`. -/
def maxd : UInt32 := UInt32.ofNat sendSize * 2 / (64 * 5)

namespace Server

/-- A node that was not asked for anything. -/
def init : Server where
  plugin := .init Cont
  chunkReads := []
  descriptorReads := []
  bitmapReads := []
  replies := []
  requests := []
  puts := []

/-- A request arrives. -/
def receive (s : Server) (sbp : Sbp) (proc : Proc) : Server := { s with requests := s.requests ++ [(sbp, proc)] }

/-- `sbp->replyref (res)`. -/
def reply (s : Server) (sbp : Sbp) (res : PeerReply) : Server := { s with replies := s.replies ++ [(sbp, res)] }

/-! ## Fetches for a peer -/

/-- `proxy_get_chunk_cb`: the buffer the peer was served from is stored. -/
def proxyGetChunkCb (s : Server) (sbp : Sbp) (arg : GetChunkArg) :
    Except String (Descriptor × List UInt8) → Server
  | .error errmsg => s.reply sbp (.chunk (.error errmsg))
  | .ok (desc, data) =>
    let (res, data) := serveChunk arg desc data
    { s.reply sbp (.chunk res) with puts := s.puts ++ [(desc, data)] }

/-- A callback of the client side. Those that are not for a peer leave the server alone. -/
def callback (s : Server) : Answer Cont → Server
  | .chunk (.proxyGetChunk sbp arg) res => s.proxyGetChunkCb sbp arg res
  | _ => s

/-- The client side after an operation, and the callbacks it called. -/
def settle (s : Server) (ran : Except Fault (Plugin Cont)) : Except Fault Server := do
  let p ← ran
  .ok ((p.answers.drop s.plugin.answers.length).foldl callback { s with plugin := p })

/-! ## Requests -/

/-- `remote_get_chunk`. -/
def remoteGetChunk (s : Server) (env : ServerEnv) (sbp : Sbp) (arg : GetChunkArg) : Except Fault Server :=
  -- `statCache` is hashed with the first four bytes of the id
  if arg.desc.id.length < 4 then .error .outOfRange
  else
    match arg.hints with
    | [] => .error .outOfRange
    | name :: _ =>
      match parseHint name "gtc" with
      | none => .error (.fatal "No hints to get descriptors from\n")
      | some _ => .ok { s with chunkReads := s.chunkReads ++ [⟨sbp, arg, gtcInHintList env arg⟩] }

/-- `remote_get_chunk_cb` for an answer of the storage. -/
def remoteGetChunkCb (s : Server) (env : ServerEnv) (read : PeerRead) :
    Except String (Descriptor × List UInt8) → Except Fault Server
  | .error errmsg =>
    if read.lastTry then .ok (s.reply read.sbp (.chunk (.error errmsg)))
    else
      s.settle (s.plugin.getChunk env.toEnv
        { d := read.arg.desc, hints := read.arg.hints, cb := .proxyGetChunk read.sbp read.arg })
  | .ok (desc, data) => .ok (s.reply read.sbp (.chunk (serveChunk read.arg desc data).1))

/-- `remote_get_descriptors`. -/
def remoteGetDescriptors (s : Server) (sbp : Sbp) (oid : List UInt8) (hints : List String) (offset : UInt64) :
    Except Fault Server :=
  if oid.length < 1 then
    .ok (s.reply sbp (.descriptors (.error "Received invalid OID for GET_DESCRIPTORS")))
  else
    match hints with
    | [] => .error .outOfRange
    | name :: _ =>
      match parseHint name "gtc" with
      | none => .error (.fatal "No hints to get descriptors from\n")
      | some _ => .ok { s with descriptorReads := s.descriptorReads ++ [(sbp, offset.toUInt32)] }

/-- `remote_get_descriptors_cb` for an answer of the storage. -/
def remoteGetDescriptorsCb (s : Server) (sbp : Sbp) (offset : UInt32) : Except String (List Descriptor) → Server
  | .error errmsg =>
    s.reply sbp (.descriptors (DescriptorExchange.remoteGetDescriptorsCb maxd offset (some errmsg) []))
  | .ok descs => s.reply sbp (.descriptors (DescriptorExchange.remoteGetDescriptorsCb maxd offset none descs))

/-- `remote_get_bitmap`. -/
def remoteGetBitmap (s : Server) (sbp : Sbp) (oid : List UInt8) (offset : UInt64) : Server :=
  if oid.length < 1 then s.reply sbp (.bitmap (.error "Received invalid OID for GET_BITMAP"))
  else { s with bitmapReads := s.bitmapReads ++ [(sbp, offset.toUInt32)] }

/-- `remote_get_bitmap_cb` for an answer of the storage, where a reply that takes its bytes
from past the packed ones is cut short by them. -/
def remoteGetBitmapCb (s : Server) (sbp : Sbp) (offset : UInt32) (res : Except String (List Bool)) :
    Except Fault Server :=
  let reply := match res with
    | .error errmsg => XferGtc.remoteGetBitmapCb offset (some errmsg) []
    | .ok bmp => XferGtc.remoteGetBitmapCb offset none bmp
  match reply with
  | .error errmsg => .ok (s.reply sbp (.bitmap (.error errmsg)))
  | .ok resok =>
    if resok.bmp.length < (bytesFor resok.count).toNat then .error .outOfRange
    else .ok (s.reply sbp (.bitmap (.ok resok)))

/-- `dispatch` and what the daemon is called back with. A chunk for a peer is asked of the
client side by `remoteGetChunkCb` alone. -/
def step (computeChunkId : List UInt8 → List UInt8) (s : Server) (env : ServerEnv) :
    ServerEvent → Except Fault Server
  | .remoteGetChunk sbp arg => (s.receive sbp .getChunk).remoteGetChunk env sbp arg
  | .remoteGetDescriptors sbp oid hints offset =>
    (s.receive sbp .getDescriptors).remoteGetDescriptors sbp oid hints offset
  | .remoteGetBitmap sbp oid offset =>
    .ok ((s.receive sbp .getBitmap).remoteGetBitmap sbp oid offset)
  | .remoteGetChunkCb index res =>
    match s.chunkReads[index]? with
    | some read => { s with chunkReads := s.chunkReads.eraseIdx index }.remoteGetChunkCb env read res
    | none => .ok s
  | .remoteGetDescriptorsCb index res =>
    match s.descriptorReads[index]? with
    | some (sbp, offset) =>
      .ok ({ s with descriptorReads := s.descriptorReads.eraseIdx index }.remoteGetDescriptorsCb sbp offset res)
    | none => .ok s
  | .remoteGetBitmapCb index res =>
    match s.bitmapReads[index]? with
    | some (sbp, offset) => { s with bitmapReads := s.bitmapReads.eraseIdx index }.remoteGetBitmapCb sbp offset res
    | none => .ok s
  | .getChunk d hints xferId =>
    s.settle (s.plugin.getChunk env.toEnv { d := d, hints := hints, cb := .xpFetchData xferId })
  | .plugin event =>
    match event with
    | .getChunk _ => .ok s
    | event => s.settle (s.plugin.step computeChunkId env.toEnv event)

/-- A step that does not stop the daemon. -/
def next (computeChunkId : List UInt8 → List UInt8) (s : Server) (e : ServerEnv × ServerEvent) : Option Server :=
  (s.step computeChunkId e.1 e.2).toOption

end Server
end Ditto.PeerServer
