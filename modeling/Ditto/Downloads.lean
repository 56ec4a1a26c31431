import Mathlib.Logic.Function.Basic
import Ditto.XferPlugin

/-! The downloads of `gtcd`. A transfer is an entry of `xferTable` together with
what is in flight for its id: fetches due, storage reads and chunks asked of the
transfer plugin, each a callback that names the transfer. The storage and the
transfer plugin answer through events, in any order. -/
namespace Ditto.Downloads
open XferGtc (Descriptor)

/-- A `svccb *`: the request a reply goes to. -/
abbrev Sbp := ℕ

/-- `dot_xferId`. The counter has 32 bits in the source: this is what `gtcd` does with the first
`2 ^ 32 - 1` ids, behind which it starts again and `insert` replaces the entries it meets. -/
abbrev XferId := ℕ

/-- `desc_status`. -/
inductive DescStatus where
  | unknown
  | onStorage
  | requested
  | done
  | error
  deriving DecidableEq, Repr

/-- `xfer_mode`. -/
inductive XferMode where
  | sequential
  | outOfOrder
  deriving DecidableEq, Repr

/-- `xferData`, as far as a download uses it. The parked continuation `xcb` is
always `transfer_data` for a request. -/
structure XferData where
  xmode : XferMode
  descs : Option (List Descriptor)
  descsStatus : Option (List DescStatus)
  descsCount : ℕ
  descsXfered : ℕ
  buf : List UInt8
  bufOffset : ℤ
  fetching : Bool
  xcb : Option Sbp
  err : Option String
  hints : Option (List String)

/-- The `xferData` that `get_init` makes. -/
def XferData.opened (xmode : XferMode) (hints : List String) : XferData where
  xmode := xmode
  descs := none
  descsStatus := none
  descsCount := 0
  descsXfered := 0
  buf := []
  bufOffset := 0
  fetching := false
  xcb := none
  err := none
  hints := some hints

/-- `gtc_get_data_res_ok`. -/
structure GetDataOk where
  offset : UInt64
  count : ℕ
  data : List UInt8
  ended : Bool
  deriving DecidableEq, Repr

/-- A call of the storage plugin that takes or gives back a reference. -/
inductive SpOp where
  | incChunkRefcount (d : Descriptor)
  | putIchunk (d : Descriptor) (data : List UInt8)
  | releaseIchunk (d : Descriptor)
  deriving DecidableEq, Repr

/-- The chunk that a call stores. -/
def SpOp.put : SpOp → Option (Descriptor × List UInt8)
  | .putIchunk d data => some (d, data)
  | _ => none

/-- A `get_chunk` of the storage plugin in flight, with what `get_chunk_cb`
captured. -/
structure SpRead where
  sbp : Sbp
  descNo : ℕ
  offset : ℤ
  desc : Descriptor
  deriving DecidableEq, Repr

/-- A `get_descriptors` in flight, with what `get_init_cb` captured. -/
structure InitCall where
  sbp : Sbp
  lastTry : Bool
  deriving DecidableEq, Repr

/-- A transfer id: its entry in `xferTable`, what is in flight for it, and what has
happened to it so far: the GET_DATA requests and their replies, its storage calls,
the chunks copied into the buffer by index, and the status indices read past the
vector. -/
structure Transfer where
  pdp : Option XferData
  opening : Option InitCall
  scheduled : ℕ
  reads : List SpRead
  requested : List Descriptor
  gets : List Sbp
  replies : List (Sbp × Except String GetDataOk)
  spOps : List SpOp
  copied : List (ℕ × List UInt8)
  overreads : List ℕ

/-- What stops the daemon. -/
inductive Fault where
  | nullDeref
  | outOfRange
  | assertion
  deriving DecidableEq, Repr

/-- `SEND_SIZE`: the most bytes that one reply carries. -/
class SendSize where
  sendSize : ℕ
  positive : 0 < sendSize

/-- The size that `gtcd` is built with. -/
instance : SendSize := ⟨XferGtc.sendSize, by decide⟩

/-- An `int` assignment. -/
def int32 (value : ℤ) : ℤ := Int.bmod value (2 ^ 32)

namespace Transfer

open SendSize (sendSize)

variable [SendSize]

/-- An id not in use. -/
def unused : Transfer where
  pdp := none
  opening := none
  scheduled := 0
  reads := []
  requested := []
  gets := []
  replies := []
  spOps := []
  copied := []
  overreads := []

/-- `xferTable[xferId]`, dereferenced. -/
def deref (t : Transfer) : Except Fault XferData :=
  match t.pdp with
  | some pdp => .ok pdp
  | none => .error .nullDeref

/-- Dereferencing a member that is unset at first. -/
def derefMember (member : Option α) : Except Fault α :=
  match member with
  | some value => .ok value
  | none => .error .nullDeref

/-- `(*pdp->descs_status)[i]`. Past the vector it reads what memory holds there. -/
def readStatus (t : Transfer) (beyond : ℕ → DescStatus) (status : List DescStatus) (i : ℕ) :
    DescStatus × Transfer :=
  match status[i]? with
  | some s => (s, t)
  | none => (beyond i, { t with overreads := t.overreads ++ [i] })

/-- `sbp->replyref (res)`. -/
def reply (t : Transfer) (sbp : Sbp) (res : Except String GetDataOk) : Transfer :=
  { t with replies := t.replies ++ [(sbp, res)] }

/-- `sp->get_chunk` for the descriptor at an index. -/
def getChunk (t : Transfer) (sbp : Sbp) (descs : List Descriptor) (descNo : ℕ) (offset : ℤ) :
    Except Fault Transfer :=
  match descs[descNo]? with
  | some d => .ok { t with reads := t.reads ++ [⟨sbp, descNo, offset, d⟩] }
  | none => .error .outOfRange

/-- The first descriptor that is on storage. -/
def firstOnStorage (status : List DescStatus) : Option ℕ :=
  status.findIdx? (· = .onStorage)

/-- `actual_transfer_data`. -/
def actualTransferData (t : Transfer) (sbp : Sbp) : Except Fault Transfer := do
  let pdp ← t.deref
  match pdp.err with
  | some err =>
    let t := t.reply sbp (.error err)
    .ok { t with pdp := none }
  | none =>
    if pdp.buf.length ≤ sendSize then do
      let descs ← derefMember pdp.descs
      let res (ended : Bool) : GetDataOk := {
        offset := UInt64.ofInt pdp.bufOffset
        count := pdp.buf.length
        data := pdp.buf
        ended := ended }
      if pdp.descsXfered = descs.length then
        let t := t.reply sbp (.ok (res true))
        .ok { t with spOps := t.spOps ++ descs.map .releaseIchunk, pdp := none }
      else
        let t := t.reply sbp (.ok (res false))
        .ok { t with pdp := some { pdp with
          bufOffset := int32 (pdp.bufOffset + pdp.buf.length)
          buf := [] } }
    else
      let res : GetDataOk := {
        offset := UInt64.ofInt pdp.bufOffset
        count := sendSize
        data := pdp.buf.take sendSize
        ended := false }
      let t := t.reply sbp (.ok res)
      .ok { t with pdp := some { pdp with
        bufOffset := int32 (pdp.bufOffset + sendSize)
        buf := pdp.buf.drop sendSize } }

/-- `transfer_data`. Out of order it does nothing when no chunk is on storage. -/
def transferData (t : Transfer) (beyond : ℕ → DescStatus) (sbp : Sbp) : Except Fault Transfer := do
  let pdp ← t.deref
  if pdp.err.isSome then t.actualTransferData sbp
  else
    match pdp.xmode with
    | .sequential =>
      if pdp.buf.length < sendSize then do
        let descs ← derefMember pdp.descs
        if pdp.descsXfered ≠ descs.length then do
          let status ← derefMember pdp.descsStatus
          let (s, t) := t.readStatus beyond status pdp.descsCount
          if s = .onStorage then
            let t := { t with pdp := some { pdp with descsCount := pdp.descsCount + 1 } }
            t.getChunk sbp descs pdp.descsCount (-1)
          else t.actualTransferData sbp
        else t.actualTransferData sbp
      else t.actualTransferData sbp
    | .outOfOrder =>
      if 0 < pdp.buf.length then t.actualTransferData sbp
      else do
        let descs ← derefMember pdp.descs
        if descs.length = 0 then .ok t
        else do
          let status ← derefMember pdp.descsStatus
          match firstOnStorage status with
          | some i => t.getChunk sbp descs i ((descs.take i).map fun d => (d.length : ℤ)).sum
          | none => .ok t

/-- `get_chunk_cb` for a read that came back. -/
def getChunkCb (t : Transfer) (beyond : ℕ → DescStatus) (read : SpRead)
    (res : Except String (List UInt8)) : Except Fault Transfer := do
  let pdp ← t.deref
  match res with
  | .error s =>
    let t := { t with pdp := some { pdp with err := some s } }
    t.actualTransferData read.sbp
  | .ok data => do
    let status ← derefMember pdp.descsStatus
    let descs ← derefMember pdp.descs
    if status.length ≤ read.descNo then .error .outOfRange
    else do
      let status := status.set read.descNo .done
      let pdp := { pdp with
        buf := pdp.buf ++ data
        descsStatus := some status
        descsXfered := pdp.descsXfered + 1
        bufOffset := if 0 ≤ read.offset then int32 read.offset else pdp.bufOffset }
      let t := { t with pdp := some pdp, copied := t.copied ++ [(read.descNo, data)] }
      if pdp.buf.length < sendSize ∧ pdp.descsXfered ≠ descs.length then do
        let (s, t) := t.readStatus beyond status (read.descNo + 1)
        if s = .onStorage then
          match pdp.xmode with
          | .sequential =>
            if pdp.descsCount ≠ read.descNo + 1 then .error .assertion
            else
              let t := { t with pdp := some { pdp with descsCount := pdp.descsCount + 1 } }
              t.getChunk read.sbp descs (read.descNo + 1) (-1)
          | .outOfOrder => t.getChunk read.sbp descs (read.descNo + 1) (-1)
        else t.actualTransferData read.sbp
      else t.actualTransferData read.sbp

/-- Running the parked continuation, if the mode's test lets it run. -/
def resumeXcb (t : Transfer) (beyond : ℕ → DescStatus) (pdp : XferData) (sbp : Sbp) :
    Except Fault Transfer :=
  { t with pdp := some { pdp with xcb := none } }.transferData beyond sbp

/-- The middle of `fetch_data`: the parked continuation runs if it has something
to send. -/
def resumeFetched (t : Transfer) (beyond : ℕ → DescStatus) (pdp : XferData)
    (status : List DescStatus) : Except Fault Transfer :=
  match pdp.xcb, pdp.xmode with
  | none, _ => .ok t
  | some sbp, .sequential =>
    let (s, t) := t.readStatus beyond status pdp.descsCount
    if s = .onStorage then t.resumeXcb beyond pdp sbp else .ok t
  | some sbp, .outOfOrder =>
    if (firstOnStorage status).isSome then t.resumeXcb beyond pdp sbp else .ok t

/-- `fetch_data`, where `stored` says what the storage has a count for. -/
def fetchData (t : Transfer) (beyond : ℕ → DescStatus) (stored : Descriptor → Bool) :
    Except Fault Transfer := do
  let pdp ← t.deref
  let _ ← derefMember pdp.descsStatus
  let descs ← derefMember pdp.descs
  let status := descs.map fun d => if stored d then DescStatus.onStorage else .requested
  let missing := descs.filter fun d => !stored d
  let pdp := { pdp with descsStatus := some status }
  let t := { t with
    pdp := some pdp
    spOps := t.spOps ++ (descs.filter stored).map SpOp.incChunkRefcount }
  let t ← t.resumeFetched beyond pdp status
  if missing = [] then .ok t
  else do
    let _ ← derefMember pdp.hints
    .ok { t with requested := t.requested ++ missing }

/-- The loop of `xp_fetch_data_cb` over the descriptors: the new statuses, and
whether the chunk was wanted somewhere. It stops at the first position that has
the chunk already. -/
def arrive (id : List UInt8) : List Descriptor → List DescStatus → List DescStatus × Bool
  | d :: descs, s :: status =>
    if d.id = id then
      if s = .onStorage then (s :: status, false)
      else (.onStorage :: (arrive id descs status).1, true)
    else (s :: (arrive id descs status).1, (arrive id descs status).2)
  | _, status => (status, false)

/-- The end of `xp_fetch_data_cb`: the parked continuation runs, out of order without
looking whether it has something to send. -/
def resumeArrived (t : Transfer) (beyond : ℕ → DescStatus) (pdp : XferData)
    (status : List DescStatus) : Except Fault Transfer :=
  match pdp.xcb, pdp.xmode with
  | none, _ => .ok t
  | some sbp, .outOfOrder => t.resumeXcb beyond pdp sbp
  | some sbp, .sequential =>
    let (s, t) := t.readStatus beyond status pdp.descsCount
    if s = .onStorage then t.resumeXcb beyond pdp sbp else .ok t

/-- `xp_fetch_data_cb`. -/
def xpFetchDataCb (t : Transfer) (beyond : ℕ → DescStatus)
    (res : Except String (Descriptor × List UInt8)) : Except Fault Transfer :=
  match t.pdp with
  | none => .ok t
  | some pdp =>
    let failed (err : String) : Except Fault Transfer :=
      let pdp := { pdp with err := some err }
      match pdp.xcb with
      | some sbp => t.resumeXcb beyond pdp sbp
      | none => .ok { t with pdp := some pdp }
    match res with
    | .error s => failed s
    | .ok (_, []) => failed "Unable to fetch data from the xfer plugin"
    | .ok (desc, data) => do
      let status ← derefMember pdp.descsStatus
      let descs ← derefMember pdp.descs
      let (status, found) := arrive desc.id descs status
      let pdp := { pdp with descsStatus := some status }
      let t := { t with
        pdp := some pdp
        spOps := if found then t.spOps ++ [SpOp.putIchunk desc data] else t.spOps }
      t.resumeArrived beyond pdp status

/-- The first test of `get_data`: something can be sent at once. -/
def sendable (t : Transfer) (beyond : ℕ → DescStatus) (pdp : XferData) :
    Except Fault (Bool × Transfer) :=
  if 0 < pdp.buf.length then .ok (true, t)
  else
    match pdp.xmode with
    | .outOfOrder => .ok (false, t)
    | .sequential => do
      let status ← derefMember pdp.descsStatus
      let (s, t) := t.readStatus beyond status pdp.descsCount
      .ok (decide (s = .onStorage), t)

/-- The second test of `get_data`: out of order, some chunk is on storage. -/
def available (pdp : XferData) (descs : List Descriptor) : Except Fault Bool :=
  match pdp.xmode with
  | .sequential => .ok false
  | .outOfOrder =>
    if descs.length = 0 then .ok false
    else do
      let status ← derefMember pdp.descsStatus
      .ok (firstOnStorage status).isSome

/-- `get_data`, for the transfer id named in the request. -/
def getData (t : Transfer) (beyond : ℕ → DescStatus) (xferId : XferId) (sbp : Sbp) :
    Except Fault Transfer :=
  match t.pdp with
  | none => .ok (t.reply sbp (.error ("unknown transfer id: " ++ toString xferId)))
  | some pdp => do
    let (ready, t) ← t.sendable beyond pdp
    if ready then t.transferData beyond sbp
    else do
      let descs ← derefMember pdp.descs
      if pdp.descsXfered = descs.length then
        let t := t.reply sbp (.ok { offset := 0, count := 0, data := [], ended := true })
        .ok { t with pdp := none }
      else do
        let found ← available pdp descs
        if found then t.transferData beyond sbp
        else if pdp.fetching then .ok { t with pdp := some { pdp with xcb := some sbp } }
        else .ok { t with
          pdp := some { pdp with fetching := true, xcb := some sbp }
          scheduled := t.scheduled + 1 }

end Transfer

/-- A `gtcd`, with the chunks the storage plugin holds by id. -/
structure Gtcd where
  transfers : XferId → Transfer
  xferCounter : XferId
  initReplies : List (Sbp × Except String XferId)
  stored : List UInt8 → Option (List UInt8)

/-- What a `gtcd` is called with: GET_INIT and GET_DATA by its client, callbacks by
the plugins, and a chunk stored by someone else. Calls in flight are named by
their place in the list. -/
inductive Event where
  | getInit (sbp : Sbp) (oid : List UInt8) (hints : List String) (xmode : Option XferMode)
  | getInitCb (xferId : XferId) (res : Except String (List Descriptor × Bool))
  | getData (sbp : Sbp) (xferId : XferId)
  | fetchData (xferId : XferId)
  | xpFetchDataCb (xferId : XferId) (index : ℕ) (res : Except String (List UInt8))
  | getChunkCb (xferId : XferId) (index : ℕ) (res : Except String (List UInt8))
  | putIchunk (id data : List UInt8)

namespace Gtcd

variable [SendSize]

/-- A `gtcd` with no transfer yet, over a storage. -/
def init (stored : List UInt8 → Option (List UInt8)) : Gtcd where
  transfers := fun _ => .unused
  xferCounter := 1
  initReplies := []
  stored := stored

/-- The storage after a call: a chunk it has is not stored again. -/
def store (stored : List UInt8 → Option (List UInt8)) : SpOp → List UInt8 → Option (List UInt8)
  | .putIchunk d data => if (stored d.id).isSome then stored else Function.update stored d.id (some data)
  | _ => stored

/-- The transfer with a result of one of its handlers, and the storage with the
chunks it stored. -/
def update (g : Gtcd) (xferId : XferId) (t : Transfer) : Gtcd :=
  { g with
    transfers := Function.update g.transfers xferId t
    stored := (t.spOps.drop (g.transfers xferId).spOps.length).foldl store g.stored }

/-- `get_init`, up to the first call of the storage. -/
def getInit (g : Gtcd) (sbp : Sbp) (oid : List UInt8) (hints : List String)
    (xmode : Option XferMode) : Gtcd :=
  let refuse (errmsg : String) : Gtcd :=
    { g with initReplies := g.initReplies ++ [(sbp, .error errmsg)] }
  if oid.length < 1 then refuse "Received invalid OID for GET"
  else if hints.length ≤ 0 then refuse "No Hints provided for GET"
  else
    match xmode with
    | none => refuse "Invalid Trasnfer mode"
    | some xmode =>
      let t := g.transfers g.xferCounter
      let t := { t with pdp := some (.opened xmode hints), opening := some ⟨sbp, false⟩ }
      { g with
        transfers := Function.update g.transfers g.xferCounter t
        xferCounter := g.xferCounter + 1 }

/-- `get_init_cb`. The call stays in flight until its last part. -/
def getInitCb (g : Gtcd) (xferId : XferId) (call : InitCall) :
    Except String (List Descriptor × Bool) → Except Fault Gtcd
  | .error s => do
    let t := g.transfers xferId
    if call.lastTry then
      let t := { t with pdp := none, opening := none }
      .ok { g with
        transfers := Function.update g.transfers xferId t
        initReplies := g.initReplies ++ [(call.sbp, .error s)] }
    else do
      let _ ← t.deref
      let t := { t with opening := some { call with lastTry := true } }
      .ok { g with transfers := Function.update g.transfers xferId t }
  | .ok (descs, ended) => do
    let t := g.transfers xferId
    let pdp ← t.deref
    let all := match pdp.descs with
      | none => descs
      | some before => before ++ descs
    let pdp := { pdp with descs := some all }
    if ended then
      let pdp := { pdp with descsStatus := some (all.map fun _ => .unknown) }
      let t := { t with pdp := some pdp, opening := none }
      .ok { g with
        transfers := Function.update g.transfers xferId t
        initReplies := g.initReplies ++ [(call.sbp, .ok xferId)] }
    else
      let t := { t with pdp := some pdp }
      .ok { g with transfers := Function.update g.transfers xferId t }

/-- One event. A completion of something that is not in flight does nothing. -/
def step (g : Gtcd) (beyond : ℕ → DescStatus) : Event → Except Fault Gtcd
  | .getInit sbp oid hints xmode => .ok (g.getInit sbp oid hints xmode)
  | .getInitCb xferId res =>
    match (g.transfers xferId).opening with
    | some call => g.getInitCb xferId call res
    | none => .ok g
  | .getData sbp xferId => do
    let t := g.transfers xferId
    let t ← { t with gets := t.gets ++ [sbp] }.getData beyond xferId sbp
    .ok (g.update xferId t)
  | .fetchData xferId =>
    let t := g.transfers xferId
    if t.scheduled = 0 then .ok g
    else do
      let t ← { t with scheduled := t.scheduled - 1 }.fetchData beyond fun d => (g.stored d.id).isSome
      .ok (g.update xferId t)
  | .xpFetchDataCb xferId index res =>
    let t := g.transfers xferId
    match t.requested[index]? with
    | none => .ok g
    | some d => do
      let t ← { t with requested := t.requested.eraseIdx index }.xpFetchDataCb beyond
        (res.map fun data => (d, data))
      .ok (g.update xferId t)
  | .getChunkCb xferId index res =>
    let t := g.transfers xferId
    match t.reads[index]? with
    | none => .ok g
    | some read => do
      let t ← { t with reads := t.reads.eraseIdx index }.getChunkCb beyond read res
      .ok (g.update xferId t)
  | .putIchunk id data =>
    .ok { g with stored := store g.stored (.putIchunk { id := id, length := data.length } data) }

end Gtcd
end Ditto.Downloads
