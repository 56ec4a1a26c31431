import Mathlib.Logic.Function.Basic
import Ditto.BitmapTransfer
import Ditto.PeerHints

/-! The client side of `xferPlugin_gtc`: one object with its cache of
connections, the connections being opened and the RPCs in flight. Raw pointers
to a connection are its number, and numbers are not used twice, so touching a
connection after its deletion is an observable fault. The async layer is the
list of events: it completes connects and calls in any order, each once. -/
namespace Ditto.XferGtc
open Words
open PeerHints (HintRes)

/-- A `conn_entry *`. -/
abbrev ConnId := ℕ

/-- `dot_descriptor`, as far as the transfers read it. -/
structure Descriptor where
  id : List UInt8
  length : ℕ
  deriving DecidableEq, Repr

/-- What a `get_chunk` was asked for and whom it answers. -/
structure ChunkReq (κ : Type) where
  d : Descriptor
  hints : List String
  cb : κ
  deriving DecidableEq

/-- `conn_entry`: the waiters are the `get_chunk` calls parked in `wait_cb`. The count is
an `int`, which more than 2^31 requests would be needed to overflow; that is left out. -/
structure ConnEntry (κ : Type) where
  key : String
  refcount : ℤ
  tv : ℤ
  waitCb : List (Option (ChunkReq κ))

/-- The first entry of `wait_cb` that is not null, with its index. -/
def ConnEntry.firstWaiter {κ : Type} (entry : ConnEntry κ) : Option (Option (ChunkReq κ) × ℕ) :=
  entry.waitCb.zipIdx.find? (·.1.isSome)

/-- What a call in flight carries in its callback. -/
inductive Transfer (κ : Type) where
  | chunk (req : ChunkReq κ) (offset : ℕ) (data : List UInt8)
  | descriptors (oid : List UInt8) (hints : List String) (cb : κ) (offset : ℤ)
  | bitmap (oid : List UInt8) (cb : κ) (offset : ℤ) (bmp : List Bool)

/-- An RPC in flight. -/
structure Call (κ : Type) where
  conn : ConnId
  transfer : Transfer κ

/-- A `tcpconnect` in flight. -/
inductive Attempt (κ : Type) where
  | establishConnection (key : String)
  | getDescriptorsClnt (oid : List UInt8) (hints : List String) (cb : κ) (key : String)
  | getBitmapClnt (oid : List UInt8) (cb : κ) (key : String)

/-- A callback that was called, with its arguments. -/
inductive Answer (κ : Type) where
  | chunk (cb : κ) (res : Except String (Descriptor × List UInt8))
  | descriptors (cb : κ) (res : Except String (List Descriptor × Bool))
  | bitmap (cb : κ) (res : Except String (List Bool))

/-- `xfergtc_get_chunk_res_ok`, as far as the client reads it. -/
structure ChunkResOk where
  data : List UInt8
  ended : Bool
  deriving DecidableEq, Repr

/-- `xfergtc_get_descriptors_res_ok`. -/
structure DescriptorsResOk where
  offset : UInt64
  count : UInt32
  descriptors : List Descriptor
  ended : Bool
  deriving DecidableEq, Repr

/-- How a call comes back: the transport fails, or the peer answers with an error
or a result. -/
inductive Reply (ρ : Type) where
  | err (clntStat : String)
  | notOk (errmsg : String)
  | ok (resok : ρ)

/-- What stops the daemon. -/
inductive Fault where
  | useAfterDelete
  | nullConn
  | outOfRange
  | fatal (msg : String)
  deriving DecidableEq, Repr

/-- What a step reads of the world: the clock, `parse_hint` with the `host:port` key made
of its result, and `get_next_hop` or the message that `get_chunk` ends with. -/
structure Env where
  now : ℤ
  parseHint : String → Option String
  nextHop : String → Except String HintRes

/-- The key that `get_connection` prints, whose port is an `int`. -/
def connectionKey (host : String) (port : ℤ) : String := host ++ ":" ++ toString port

/-- It is the key that `get_chunk` prints as long as the port fits. -/
theorem connection_key_eq {res : HintRes} (fits : res.port.toNat < 2 ^ 31) :
    connectionKey res.hostname (toInt res.port) = res.key := by
  rw [toInt_of_small fits]
  rfl

/-- `xferPlugin_gtc`, with the deleted connections missing from `conns`. The
last two fields log the waiters resumed, by connection and index, and the
callbacks called. -/
structure Plugin (κ : Type) where
  conns : ConnId → Option (ConnEntry κ)
  connCache : List ConnId
  pendingConnCache : String → Option (List (ChunkReq κ))
  attempts : List (Attempt κ)
  calls : List (Call κ)
  nextConn : ConnId
  resumed : List (ConnId × ℕ)
  answers : List (Answer κ)

/-- `CONN_ENTRY_IDLE_SEC` and `MAX_RPCS_IN_FLIGHT`. -/
def connEntryIdleSec : ℤ := 600
def maxRpcsInFlight : ℤ := 50

namespace Plugin

/-- The plugin before any request. -/
def init (κ : Type) : Plugin κ where
  conns := fun _ => none
  connCache := []
  pendingConnCache := fun _ => none
  attempts := []
  calls := []
  nextConn := 0
  resumed := []
  answers := []

variable {κ : Type}

/-- `connCache[key]`: a key inserted twice is found at its last insertion, as in a table
that has not grown in between (growing one reverses its chains). -/
def lookup (p : Plugin κ) (key : String) : Option ConnId :=
  p.connCache.find? fun conn => (p.conns conn).any (·.key == key)

/-- Reading through a `conn_entry *`. -/
def readConn (p : Plugin κ) (conn : ConnId) : Except Fault (ConnEntry κ) :=
  match p.conns conn with
  | some entry => .ok entry
  | none => .error .useAfterDelete

def writeConn (p : Plugin κ) (conn : ConnId) (entry : ConnEntry κ) : Plugin κ :=
  { p with conns := Function.update p.conns conn (some entry) }

/-- Calling a callback. -/
def answer (p : Plugin κ) (a : Answer κ) : Plugin κ := { p with answers := p.answers ++ [a] }

/-- `conn->c->call (...)`. -/
def call (p : Plugin κ) (conn : ConnId) (transfer : Transfer κ) : Except Fault (Plugin κ) := do
  let _ ← p.readConn conn
  .ok { p with calls := p.calls ++ [⟨conn, transfer⟩] }

/-- `New conn_entry (key, c)`, inserted into the cache and stamped. -/
def newConn (p : Plugin κ) (env : Env) (key : String) : Plugin κ :=
  { p.writeConn p.nextConn { key := key, refcount := 1, tv := env.now, waitCb := [] } with
    connCache := p.nextConn :: p.connCache
    nextConn := p.nextConn + 1 }

/-- `get_chunk_int`. The error, if any, is reported and the call made all the
same; a missing connection is a null pointer. -/
def getChunkInt (p : Plugin κ) (req : ChunkReq κ) (offset : ℕ) (data : List UInt8)
    (s : Option String) (conn : Option ConnId) : Except Fault (Plugin κ) :=
  let p := match s with
    | some s => p.answer (.chunk req.cb (.error s))
    | none => p
  match conn with
  | some conn => p.call conn (.chunk req offset data)
  | none => .error .nullConn

/-- `get_connection`. -/
def getConnection (p : Plugin κ) (host : String) (port : ℤ) (req : ChunkReq κ) : Except Fault (Plugin κ) :=
  let key := connectionKey host port
  match p.lookup key with
  | some conn => p.getChunkInt req 0 [] none (some conn)
  | none =>
    match p.pendingConnCache key with
    | some pendingCbs => .ok { p with
        pendingConnCache := Function.update p.pendingConnCache key (some (pendingCbs ++ [req])) }
    | none => .ok { p with
        pendingConnCache := Function.update p.pendingConnCache key (some [req])
        attempts := p.attempts ++ [.establishConnection key] }

/-- `get_chunk`, also as a waiter that is resumed. -/
def getChunk (p : Plugin κ) (env : Env) (req : ChunkReq κ) : Except Fault (Plugin κ) :=
  match req.hints with
  | [] => .error .outOfRange
  | name :: _ =>
    match env.nextHop name with
    | .error msg => .error (.fatal msg)
    | .ok res =>
      match p.lookup res.key with
      | none => p.getConnection res.hostname (toInt res.port) req
      | some conn => do
        let entry ← p.readConn conn
        if maxRpcsInFlight ≤ entry.refcount then
          .ok (p.writeConn conn { entry with waitCb := entry.waitCb ++ [some req] })
        else
          (p.writeConn conn { entry with refcount := entry.refcount + 1, tv := env.now }).getChunkInt
            req 0 [] none (some conn)

/-- Resuming the waiter at an index of `wait_cb`. -/
def resume (p : Plugin κ) (env : Env) (conn : ConnId) :
    Option (ChunkReq κ) × ℕ → Except Fault (Plugin κ)
  | (none, _) => .ok p
  | (some req, index) => { p with resumed := p.resumed ++ [(conn, index)] }.getChunk env req

/-- The plugin without a connection. -/
def dropConn (p : Plugin κ) (conn : ConnId) : Plugin κ :=
  { p with
    connCache := p.connCache.erase conn
    conns := Function.update p.conns conn none }

/-- `connCache.remove (conn); delete conn;`, whose destructor resumes every
waiter. -/
def deleteConn (p : Plugin κ) (env : Env) (conn : ConnId) : Except Fault (Plugin κ) := do
  let entry ← p.readConn conn
  entry.waitCb.zipIdx.foldlM (fun p waiter => p.resume env conn waiter) (p.dropConn conn)

/-- `check_outstanding`: the first waiter left is taken out and resumed. -/
def checkOutstanding (p : Plugin κ) (env : Env) (conn : ConnId) : Except Fault (Plugin κ) := do
  let entry ← p.readConn conn
  match entry.firstWaiter with
  | none => .ok p
  | some (w, i) =>
    (p.writeConn conn { entry with waitCb := entry.waitCb.set i none }).resume env conn (w, i)

/-- `conn->refcount--`. -/
def releaseConn (p : Plugin κ) (conn : ConnId) : Except Fault (Plugin κ) := do
  let entry ← p.readConn conn
  .ok (p.writeConn conn { entry with refcount := entry.refcount - 1 })

/-! ## Requests -/

/-- `get_chunks`: the hints of a chunk are at its index. -/
def getChunks (p : Plugin κ) (env : Env) (reqs : List (ChunkReq κ)) : Except Fault (Plugin κ) :=
  reqs.foldlM (fun p req => p.getChunk env req) p

/-- `get_descriptors_int`. -/
def getDescriptorsInt (p : Plugin κ) (oid : List UInt8) (offset : ℤ) (cb : κ)
    (hints : List String) (conn : ConnId) : Except Fault (Plugin κ) :=
  p.call conn (.descriptors oid hints cb offset)

/-- `get_descriptors`. -/
def getDescriptors (p : Plugin κ) (env : Env) (oid : List UInt8) (hints : List String) (cb : κ) :
    Except Fault (Plugin κ) :=
  match hints with
  | [] => .error .outOfRange
  | name :: _ =>
    match env.parseHint name with
    | none => .error (.fatal "No hints to get chunk from\n")
    | some key =>
      match p.lookup key with
      | none => .ok { p with attempts := p.attempts ++ [.getDescriptorsClnt oid hints cb key] }
      | some conn => do
        let entry ← p.readConn conn
        (p.writeConn conn { entry with refcount := entry.refcount + 1, tv := env.now
          }).getDescriptorsInt oid 0 cb hints conn

/-- `get_bitmap_int`. -/
def getBitmapInt (p : Plugin κ) (oid : List UInt8) (offset : ℤ) (cb : κ) (conn : ConnId)
    (bmp : List Bool) : Except Fault (Plugin κ) :=
  p.call conn (.bitmap oid cb offset bmp)

/-- `get_bitmap`. -/
def getBitmap (p : Plugin κ) (env : Env) (oid : List UInt8) (hints : List String) (cb : κ) :
    Except Fault (Plugin κ) :=
  match hints with
  | [] => .error .outOfRange
  | name :: _ =>
    match env.parseHint name with
    | none => .error (.fatal "No hints to get bitmap from\n")
    | some key =>
      match p.lookup key with
      | none => .ok { p with attempts := p.attempts ++ [.getBitmapClnt oid cb key] }
      | some conn => do
        let entry ← p.readConn conn
        if maxRpcsInFlight ≤ entry.refcount then
          .error (.fatal "xferPlugin_gtc::get_bitmap: Why so many RPCs?\n")
        else
          (p.writeConn conn { entry with refcount := entry.refcount + 1, tv := env.now
            }).getBitmapInt oid 0 cb conn []

/-! ## Connects -/

/-- `establish_connection`. -/
def establishConnection (p : Plugin κ) (env : Env) (key : String) (connected : Bool) :
    Except Fault (Plugin κ) :=
  match p.pendingConnCache key with
  | none => .error (.fatal "Unable to find entry in pending Conn Cache")
  | some pendingCbs => do
    let p ← if connected then
        pendingCbs.foldlM (fun q req => q.getChunkInt req 0 [] none (some p.nextConn))
          (p.newConn env key)
      else
        pendingCbs.foldlM
          (fun q req => q.getChunkInt req 0 [] (some "could not connect to remote host") none) p
    .ok { p with pendingConnCache := Function.update p.pendingConnCache key none }

/-- `get_descriptors_clnt`. -/
def getDescriptorsClnt (p : Plugin κ) (env : Env) (oid : List UInt8) (hints : List String) (cb : κ)
    (key : String) (connected : Bool) : Except Fault (Plugin κ) :=
  if connected then (p.newConn env key).getDescriptorsInt oid 0 cb hints p.nextConn
  else .ok (p.answer (.descriptors cb (.error "could not connect to remote host")))

/-- `get_bitmap_clnt`. -/
def getBitmapClnt (p : Plugin κ) (env : Env) (oid : List UInt8) (cb : κ) (key : String)
    (connected : Bool) : Except Fault (Plugin κ) :=
  if connected then (p.newConn env key).getBitmapInt oid 0 cb p.nextConn []
  else .ok (p.answer (.bitmap cb (.error "could not connect to remote host")))

/-- A `tcpconnect` that comes back. -/
def connect (p : Plugin κ) (env : Env) (connected : Bool) : Attempt κ → Except Fault (Plugin κ)
  | .establishConnection key => p.establishConnection env key connected
  | .getDescriptorsClnt oid hints cb key =>
    p.getDescriptorsClnt env oid hints cb key connected
  | .getBitmapClnt oid cb key => p.getBitmapClnt env oid cb key connected

/-! ## Replies

The messages start with the function's name, which stands for `__PRETTY_FUNCTION__`: what the
compiler writes there is its own choice. -/

/-- `get_chunk_internal_cb`, where `computeChunkId` is the hash. -/
def getChunkInternalCb (computeChunkId : List UInt8 → List UInt8) (p : Plugin κ) (env : Env)
    (req : ChunkReq κ) (data : List UInt8) (conn : ConnId) :
    Reply ChunkResOk → Except Fault (Plugin κ)
  | .err clntStat => do
    let p ← p.deleteConn env conn
    .ok (p.answer (.chunk req.cb (.error ("xferPlugin_gtc::get_chunk_internal_cb" ++
      " XFERGTC_PROC_GET_CHUNK RPC failure: " ++ clntStat ++ "\n"))))
  | .notOk errmsg =>
    .ok (p.answer (.chunk req.cb (.error ("xferPlugin_gtc::get_chunk_internal_cb" ++
      " XFERGTC_PROC_GET_CHUNK returned:\n`" ++ errmsg ++ "'\n"))))
  | .ok resok =>
    let data := data ++ resok.data
    if resok.ended then
      if req.d.id ≠ computeChunkId data then
        .ok (p.answer (.chunk req.cb (.error ("xferPlugin_gtc::get_chunk_internal_cb" ++
          " XFERGTC_PROC_GET_CHUNK returned invalid data\n"))))
      else do
        let p ← p.releaseConn conn
        (p.answer (.chunk req.cb (.ok (req.d, data)))).checkOutstanding env conn
    else p.getChunkInt req data.length data none (some conn)

/-- `get_desc_internal_cb`. -/
def getDescInternalCb (p : Plugin κ) (env : Env) (oid : List UInt8) (hints : List String) (cb : κ)
    (conn : ConnId) : Reply DescriptorsResOk → Except Fault (Plugin κ)
  | .err clntStat => do
    let p ← p.deleteConn env conn
    .ok (p.answer (.descriptors cb (.error ("xferPlugin_gtc::get_desc_internal_cb" ++
      " XFERGTC_PROC_GET_DESCRIPTORS RPC failure: " ++ clntStat ++ "\n"))))
  | .notOk errmsg =>
    .ok (p.answer (.descriptors cb (.error ("xferPlugin_gtc::get_desc_internal_cb" ++
      " XFERGTC_PROC_GET_DESCRIPTORS returned:\n`" ++ errmsg ++ "'\n"))))
  | .ok resok =>
    if resok.descriptors.length < resok.count.toNat then .error .outOfRange
    else do
      let next := toInt (resok.count.toUInt64 + resok.offset).toUInt32
      let p ← if resok.ended then p.releaseConn conn
        else p.getDescriptorsInt oid next cb hints conn
      .ok (p.answer (.descriptors cb (.ok (resok.descriptors.take resok.count.toNat, resok.ended))))

/-- `get_bitmap_internal_cb`. -/
def getBitmapInternalCb (p : Plugin κ) (env : Env) (oid : List UInt8) (cb : κ) (bmp : List Bool)
    (conn : ConnId) : Reply BitmapResOk → Except Fault (Plugin κ)
  | .err clntStat => do
    let p ← p.deleteConn env conn
    .ok (p.answer (.bitmap cb (.error ("xferPlugin_gtc::get_bitmap_internal_cb" ++
      " XFERGTC_PROC_GET_BITMAP RPC failure: " ++ clntStat ++ "\n"))))
  | .notOk errmsg => .ok (p.answer (.bitmap cb (.error (bitmapReturned errmsg))))
  | .ok resok =>
    match XferGtc.getBitmapInternalCb (.ok resok) bmp with
    | none => .error .outOfRange
    | some (.failed msg) => .ok (p.answer (.bitmap cb (.error msg)))
    | some (.again offset bmp) => p.getBitmapInt oid offset cb conn bmp
    | some (.finished bmp) => do
      let p ← p.releaseConn conn
      .ok (p.answer (.bitmap cb (.ok bmp)))

/-- `int_reap_conn_entries`. -/
def intReapConnEntries (env : Env) (p : Plugin κ) (conn : ConnId) : Except Fault (Plugin κ) := do
  let entry ← p.readConn conn
  if entry.refcount = 0 ∧ connEntryIdleSec < env.now - entry.tv then p.deleteConn env conn
  else .ok p

/-- `reap_conn_entries`, over the cache in the hash table's order. -/
def reapConnEntries (p : Plugin κ) (env : Env) (order : List ConnId) : Except Fault (Plugin κ) :=
  order.foldlM (intReapConnEntries env) p

end Plugin

/-- What the plugin is called with, by the node and by the async layer. Connects
and calls in flight are named by their place in the list. -/
inductive Event (κ : Type) where
  | getChunk (req : ChunkReq κ)
  | getDescriptors (oid : List UInt8) (hints : List String) (cb : κ)
  | getBitmap (oid : List UInt8) (hints : List String) (cb : κ)
  | connect (index : ℕ) (connected : Bool)
  | chunkReply (index : ℕ) (res : Reply ChunkResOk)
  | descriptorsReply (index : ℕ) (res : Reply DescriptorsResOk)
  | bitmapReply (index : ℕ) (res : Reply BitmapResOk)
  | reap (order : List ConnId)

namespace Plugin

variable {κ : Type}

/-- One event. A completion of something that is not in flight does nothing. -/
def step (computeChunkId : List UInt8 → List UInt8) (p : Plugin κ) (env : Env) :
    Event κ → Except Fault (Plugin κ)
  | .getChunk req => p.getChunk env req
  | .getDescriptors oid hints cb => p.getDescriptors env oid hints cb
  | .getBitmap oid hints cb => p.getBitmap env oid hints cb
  | .connect index connected =>
    match p.attempts[index]? with
    | some attempt => { p with attempts := p.attempts.eraseIdx index }.connect env connected attempt
    | none => .ok p
  | .chunkReply index res =>
    match p.calls[index]? with
    | some ⟨conn, .chunk req _ data⟩ =>
      { p with calls := p.calls.eraseIdx index }.getChunkInternalCb computeChunkId env req data conn
        res
    | _ => .ok p
  | .descriptorsReply index res =>
    match p.calls[index]? with
    | some ⟨conn, .descriptors oid hints cb _⟩ =>
      { p with calls := p.calls.eraseIdx index }.getDescInternalCb env oid hints cb conn res
    | _ => .ok p
  | .bitmapReply index res =>
    match p.calls[index]? with
    | some ⟨conn, .bitmap oid cb _ bmp⟩ =>
      { p with calls := p.calls.eraseIdx index }.getBitmapInternalCb env oid cb bmp conn res
    | _ => .ok p
  | .reap order => p.reapConnEntries env order

end Plugin
end Ditto.XferGtc
