import Ditto.ReconstructedChunk
import Ditto.Traces

/-! `SniffTcp`. Each flow has a list of the blocks captured for it. In the
single-chance mode every segment goes there, and a pass over the blocks takes the
records out. With multiple chances a segment that shows a chunk id starts the
reassembly of that chunk, later segments of the flow that lie in the chunk go to
it, and the rest goes to the lists.

The two sniffers of the repository handle packets alike but for what they
remember of the chunks of a flow: one has a cached copy of their start and length
(`ChunkInfo`), the other (`ideal-sniffer`) looks both up in the chunk. -/
namespace Ditto.Sniffer
open Words Traces

/-- `FlowId`. -/
structure FlowId where
  srcIp : String
  dstIp : String
  srcPort : UInt16
  dstPort : UInt16
  deriving DecidableEq

/-- `FlowId::toString`. -/
def FlowId.toString (flow : FlowId) : String :=
  flow.srcIp ++ ":" ++ flow.srcPort.toNat.repr ++ " => " ++ flow.dstIp ++ ":" ++ flow.dstPort.toNat.repr

/-- A chunk id, a `string`. -/
abbrev ChunkId := List UInt8

/-- `ChunkInfo`. -/
structure ChunkInfo where
  chunkId : ChunkId
  sSeqNum : TcpSeq
  chunkLength : ℕ
  deriving DecidableEq

/-- The memory a step may read by mistake: around the characters of a string, and at
a `string` object itself. How much can be read from the object of a string on depends on
where it lies; reading past that ends the program. -/
structure Memory where
  aroundString : List UInt8 → ℤ → UInt8
  atString : Pointer
  readable : List UInt8 → ℕ

/-- `c_str ()`. -/
def Memory.cStr (mem : Memory) (s : List UInt8) : Pointer := .ofBytes s (mem.aroundString s)

/-- The object of a string as a `char *`, for a copy of `size` bytes. -/
def Memory.tempPointer (mem : Memory) (s : List UInt8) (size : ℤ) : Option Pointer :=
  if size ≤ mem.readable s then some mem.atString else none

/-- A PUT_CHUNK: its data, how many bytes the string it comes from has from the record
header on, the record's length field and, for a reassembled chunk, the chunk's length. -/
structure PutChunk where
  data : List UInt8
  held : ℕ
  payloadLength : ℕ
  chunkLength : Option ℕ
  deriving DecidableEq

/-- What a sniffer hands on: a slice `[first, first + size)` of `held` bytes to
`insert`, bytes to the `fill_gaps_in_chunk` of a chunk that has the flow's start and
this length, bytes dropped since the chunk does not know the flow, and a PUT_CHUNK. -/
inductive Call where
  | insert (flow : FlowId) (seqNum : TcpSeq) (first size held : ℤ)
  | fill (flow : FlowId) (chunkId : ChunkId) (seqNum : TcpSeq) (size : ℤ) (start : TcpSeq)
      (length : ℕ)
  | dropped (flow : FlowId) (chunkId : ChunkId)
  | putChunk (flow : FlowId) (chunk : PutChunk)
  deriving DecidableEq

/-- What is sent to the sniffer plugin, with the flow at hand. -/
def Call.sent : Call → Option (FlowId × List UInt8)
  | .putChunk flow chunk => some (flow, chunk.data)
  | _ => none

/-- The bytes a `SniffTcp` has: the blocks of the flows and the chunks. -/
structure Buffers where
  pFlowList : List (FlowId × List ContiguousBlock)
  chunkIdReconstructedChunkMap : ChunkId → Option ReconstructedChunk
  numDuplicateBytes : UInt64

/-- A `SniffTcp` that remembers `κ` of each chunk of a flow. -/
structure SniffTcp (κ : Type) where
  buffers : Buffers
  flowChunkMap : String → Option (List κ)

/-- What a sniffer remembers of a chunk of a flow, and how it finds the chunk's start
and length for the flow again. -/
class Remembers (κ : Type) where
  info : ChunkId → TcpSeq → ℕ → κ
  chunkId : κ → ChunkId
  place : (ChunkId → Option ReconstructedChunk) → String → κ → Option (TcpSeq × ℕ)
  chunkId_info : ∀ id seqNum length, chunkId (info id seqNum length) = id

/-- `sniffer/SniffTcp.cc` remembers a `ChunkInfo`. -/
instance : Remembers ChunkInfo where
  info := ChunkInfo.mk
  chunkId := ChunkInfo.chunkId
  place := fun _ _ ci => some (ci.sSeqNum, ci.chunkLength)
  chunkId_info := fun _ _ _ => rfl

/-- `ideal-sniffer/SniffTcp.cc` remembers the id. Its `flow_seq_map[flow]` would add a
start of 0 for a flow the chunk does not know. -/
instance : Remembers ChunkId where
  info := fun chunkId _ _ => chunkId
  chunkId := id
  place := fun chunks flow chunkId =>
    (chunks chunkId).map fun pRc => ((pRc.flowSeqMap flow).getD 0, pRc.length)
  chunkId_info := fun _ _ _ => rfl

/-! ## Records in bytes -/

/-- `mask_size_in_bytes`. -/
def maskSizeInBytes : ℕ := 24

/-- `mask`: zero, but for two bytes. -/
def mask : List UInt8 :=
  [0, 0, 0, 1, 0, 0, 0, 0, 0, 0, 0, 0, 0, 0, 0, 0, 0, 0, 0, 0, 0, 0, 0, 1]

/-- `MIN_CHUNK_SIZE`, `RPC_HEADER_LEN` and `MIN_PAYLOAD_LENGTH`. -/
def minChunkSize : ℕ := 0x400
def rpcHeaderLen : ℕ := 28
def minPayloadLength : ℕ := minChunkSize + rpcHeaderLen - 4

/-- `RPC_HEADER`. -/
def rpcHeader : UInt8 := 0x80

/-- `get_length_from_byte_stream`. -/
def getLengthFromByteStream (b : Pointer) : ℕ :=
  2 ^ 24 * ((b 0).toNat % 0x80) + 2 ^ 16 * (b 1).toNat + 2 ^ 8 * (b 2).toNat + (b 3).toNat

theorem get_length_small (p : Pointer) : getLengthFromByteStream p < 2 ^ 31 := by
  have first := (p 1).toNat_lt
  have second := (p 2).toNat_lt
  have third := (p 3).toNat_lt
  rw [getLengthFromByteStream]
  omega

/-- `ntohl` of the word at a pointer. -/
def ntohl (b : Pointer) : ℕ :=
  2 ^ 24 * (b 0).toNat + 2 ^ 16 * (b 1).toNat + 2 ^ 8 * (b 2).toNat + (b 3).toNat

/-- `dot_chunk_res_t`, with the bytes its pointers and lengths give. -/
structure DotChunkRes where
  chunkId : ChunkId
  chunkData : List UInt8

/-- `extract_chunk_response`. The lengths are not compared with what is there. -/
def extractChunkResponse (rpcHeader : Pointer) : Option DotChunkRes :=
  let tmp := rpcHeader.advance 32
  let chunkIdLen := ntohl (tmp.advance 8)
  let chunkDataLen := ntohl (tmp.advance 32)
  if getLengthFromByteStream rpcHeader < minPayloadLength then none
  else if chunkIdLen ≠ 20 then none
  else if chunkDataLen < minChunkSize then none
  else some ⟨(tmp.advance 12).bytes chunkIdLen, (tmp.advance 36).bytes chunkDataLen⟩

/-- `rpc_header_in_stream`, as an offset. The comparison may go past the payload. -/
def rpcHeaderInStream (payload : Pointer) (len : ℕ) : Option ℕ :=
  (List.range len).find? fun i : ℕ => payload i = rpcHeader ∧
    (payload.advance (i + 8)).bytes maskSizeInBytes = mask

/-- `getChunkId`: the id and the offset of its record in the payload. -/
def getChunkId (payload : Pointer) (len : ℕ) : Option (ChunkId × ℕ) := do
  let rpcOffset ← rpcHeaderInStream payload len
  let chunkRes ← extractChunkResponse (payload.advance rpcOffset)
  some (chunkRes.chunkId, rpcOffset)

/-! ## Insertion -/

/-- What an insertion did to the list. -/
inductive Edit where
  | kept
  | inserted (index : ℕ)
  | erased (index : ℕ)
  deriving DecidableEq, Repr

/-- The same, with a block in front. -/
def Edit.shift : Edit → Edit
  | .kept => .kept
  | .inserted index => .inserted (index + 1)
  | .erased index => .erased (index + 1)

/-- Where a block went; an iterator to a block that was erased is invalid. -/
def Edit.moved (index : ℕ) : Edit → Option ℕ
  | .kept => some index
  | .inserted other => some (if other ≤ index then index + 1 else index)
  | .erased other =>
    if other = index then none else some (if other < index then index - 1 else index)

/-- The walk of `insert` over the blocks of a flow. -/
def insertBlocks (payload : Pointer) (sizePayload : ℤ) (seqNum : TcpSeq) :
    List ContiguousBlock → Option (List ContiguousBlock × Edit)
  | [] => do
    -- packet from the future, inserted at the end of the list
    let pCb ← ContiguousBlock.create.append payload sizePayload seqNum
    some ([pCb], .inserted 0)
  | li :: rest =>
    let last := seqNum + UInt32.ofInt sizePayload
    if seqNum < li.nextExpectedSeqNumber then
      if last = li.startingSeqNumber then do
        let li ← li.prepend payload sizePayload seqNum
        some (li :: rest, .kept)
      else if last < li.startingSeqNumber then do
        let pCb ← ContiguousBlock.create.append payload sizePayload seqNum
        some (pCb :: li :: rest, .inserted 0)
      else some (li :: rest, .kept)
    else if seqNum = li.nextExpectedSeqNumber then do
      let li ← li.append payload sizePayload last
      match rest with
      | [] => some ([li], .kept)
      | li2 :: rest =>
        if li.nextExpectedSeqNumber = li2.startingSeqNumber then
          some (li.appendString li2.contiguousBlock li2.nextExpectedSeqNumber :: rest, .erased 1)
        else some (li :: li2 :: rest, .kept)
    else do
      let (rest, edit) ← insertBlocks payload sizePayload seqNum rest
      some (li :: rest, edit.shift)

/-- The list of a flow in `p_flow_list`, or a new one at its end. -/
def insertFlow (flow : FlowId) (payload : Pointer) (sizePayload : ℤ) (seqNum : TcpSeq) :
    List (FlowId × List ContiguousBlock) → Option (List (FlowId × List ContiguousBlock) × Edit)
  | [] => do
    let pCb ← ContiguousBlock.create.append payload sizePayload seqNum
    some ([(flow, [pCb])], .inserted 0)
  | (other, blocks) :: rest =>
    if other = flow then do
      let (blocks, edit) ← insertBlocks payload sizePayload seqNum blocks
      some ((other, blocks) :: rest, edit)
    else do
      let (rest, edit) ← insertFlow flow payload sizePayload seqNum rest
      some ((other, blocks) :: rest, edit)

/-- `p_lcb->erase (li)` for the block of a flow at an index. -/
def eraseBlock (flow : FlowId) (index : ℕ) :
    List (FlowId × List ContiguousBlock) → List (FlowId × List ContiguousBlock)
  | [] => []
  | (other, blocks) :: rest =>
    if other = flow then (other, blocks.eraseIdx index) :: rest
    else (other, blocks) :: eraseBlock flow index rest

/-- A sequence number inside a chunk, past its first byte. -/
def within (starting : TcpSeq) (length : ℕ) (seqNum : TcpSeq) : Bool :=
  starting < seqNum ∧ seqNum < starting + UInt32.ofInt length

/-- The bytes of a segment past the end of a chunk, an `int`. -/
def pastChunk (starting : TcpSeq) (length : ℕ) (sizePayload : ℤ) (seqNum : TcpSeq) : ℤ :=
  max 0 (toInt (seqNum + UInt32.ofInt sizePayload - (starting + UInt32.ofInt length)))

namespace Buffers

/-- Nothing captured. -/
def empty : Buffers where
  pFlowList := []
  chunkIdReconstructedChunkMap := fun _ => none
  numDuplicateBytes := 0

/-- The blocks of a flow. -/
def blocksOf (b : Buffers) (flow : FlowId) : List ContiguousBlock :=
  match b.pFlowList.find? (·.1 = flow) with
  | some entry => entry.2
  | none => []

/-- `chunkId_reconstructedChunk_map[chunkId] = pRc`. -/
def setChunk (b : Buffers) (chunkId : ChunkId) (pRc : ReconstructedChunk) : Buffers :=
  { b with
    chunkIdReconstructedChunkMap :=
      Function.update b.chunkIdReconstructedChunkMap chunkId (some pRc) }

/-- `send_chunk_to_sniffer_plugin`, for a string with `held` bytes at the pointer. -/
def sendChunkToSnifferPlugin (flow : FlowId) (rpcBuffer : Pointer) (held : ℕ)
    (chunkLength : Option ℕ) : Traced Call Unit :=
  match extractChunkResponse rpcBuffer with
  | none => pure ()
  | some chunkRes =>
    Traced.note (.putChunk flow ⟨chunkRes.chunkData, held, getLengthFromByteStream rpcBuffer, chunkLength⟩)

/-- `insert`, of a slice that starts at `first` in `held` bytes. -/
def insert (b : Buffers) (flow : FlowId) (payload : Pointer) (sizePayload : ℤ) (seqNum : TcpSeq)
    (first held : ℤ) : Traced Call (Buffers × Edit) := do
  Traced.note (.insert flow seqNum first sizePayload held)
  let (flows, edit) ← Traced.lift (insertFlow flow payload sizePayload seqNum b.pFlowList)
  pure ({ b with pFlowList := flows }, edit)

/-- The first half of `fill_gaps_in_chunk`: the last `diff` bytes go to the flow's list. -/
def insertPast (b : Buffers) (flow : FlowId) (payload : Pointer) (diff sizePayload : ℤ)
    (seqNum : TcpSeq) : Traced Call (Buffers × Edit) :=
  if 0 < diff then
    b.insert flow (payload.advance (sizePayload - diff)) diff
      (seqNum + UInt32.ofInt sizePayload - UInt32.ofInt diff) (sizePayload - diff) sizePayload
  else pure (b, .kept)

/-- `fill_gaps_in_chunk`: what is past the chunk's end goes to the flow's list, the
rest to the chunk. -/
def fillGapsInChunk (b : Buffers) (chunkId : ChunkId) (flow : FlowId) (payload : Pointer)
    (sizePayload : ℤ) (seqNum : TcpSeq) : Traced Call (Buffers × Bool × Edit) := do
  let pRc ← Traced.lift (b.chunkIdReconstructedChunkMap chunkId)
  match pRc.flowSeqMap flow.toString with
  | none => do
    Traced.note (.dropped flow chunkId)
    pure (b, false, .kept)
  | some startingSeqNum => do
    let diff := pastChunk startingSeqNum pRc.length sizePayload seqNum
    let (b, edit) ← b.insertPast flow payload diff sizePayload seqNum
    Traced.note (.fill flow chunkId seqNum (sizePayload - diff) startingSeqNum pRc.length)
    let (pRc, numDuplicateBytes, bChunkDone) ← Traced.lift <|
      pRc.fillGapsInChunk flow.toString payload (sizePayload - diff) seqNum b.numDuplicateBytes
    pure ({ b.setChunk chunkId pRc with numDuplicateBytes := numDuplicateBytes }, bChunkDone, edit)

/-- A chunk that is done is sent. -/
def sendDone (b : Buffers) (mem : Memory) (chunkId : ChunkId) (flow : FlowId) :
    Bool → Traced Call Unit
  | false => pure ()
  | true => do
    let pRc ← Traced.lift (b.chunkIdReconstructedChunkMap chunkId)
    match pRc.getData with
    | none => pure ()
    | some data => sendChunkToSnifferPlugin flow (mem.cStr data) data.length (some pRc.length)

/-- `fill_gaps_in_chunk`, and the chunk is sent if it is done. -/
def fillAndSend (b : Buffers) (mem : Memory) (chunkId : ChunkId) (flow : FlowId)
    (payload : Pointer) (sizePayload : ℤ) (seqNum : TcpSeq) : Traced Call (Buffers × Edit) := do
  let (b, bChunkDone, edit) ← b.fillGapsInChunk chunkId flow payload sizePayload seqNum
  b.sendDone mem chunkId flow bChunkDone
  pure (b, edit)

/-- The loop of `deal_with_candidates_for_chunk` from an index on: the next block
that starts in the chunk goes to it and is erased. A round makes no block that
starts in the chunk, so as many rounds as blocks are enough. -/
def candidatesFrom (mem : Memory) (chunkId : ChunkId) (flow : FlowId) (starting : TcpSeq)
    (length : ℕ) : ℕ → ℕ → Buffers → Traced Call Buffers
  | 0, _, b => pure b
  | rounds + 1, index, b =>
    match ((b.blocksOf flow).drop index).findIdx? fun li =>
      within starting length li.startingSeqNumber with
    | none => pure b
    | some skipped => do
      let li ← Traced.lift ((b.blocksOf flow)[index + skipped]?)
      let (b, edit) ← b.fillAndSend mem chunkId flow (mem.cStr li.contiguousBlock)
        (toInt (UInt32.ofNat li.contiguousBlock.length)) li.startingSeqNumber
      let index ← Traced.lift (edit.moved (index + skipped))
      candidatesFrom mem chunkId flow starting length rounds index
        { b with pFlowList := eraseBlock flow index b.pFlowList }

/-- `deal_with_candidates_for_chunk`. -/
def dealWithCandidatesForChunk (b : Buffers) (mem : Memory) (chunkId : ChunkId)
    (flow : FlowId) : Traced Call Buffers := do
  let pRc ← Traced.lift (b.chunkIdReconstructedChunkMap chunkId)
  let startingSeqNumber := (pRc.flowSeqMap flow.toString).getD 0
  candidatesFrom mem chunkId flow startingSeqNumber pRc.length (b.blocksOf flow).length 0 b

/-- The part of `handle_ip` that both branches for a chunk id share: a chunk that is
new also takes the blocks captured before. -/
def announceChunk (b : Buffers) (mem : Memory) (flow : FlowId) (chunkId : ChunkId)
    (payload : Pointer) (sizePayload : ℕ) (seqNum : TcpSeq) : Traced Call Buffers :=
  match b.chunkIdReconstructedChunkMap chunkId with
  | none => do
    let chunkLen := getLengthFromByteStream payload
    let pRc := (ReconstructedChunk.create chunkId chunkLen).setFlowStart flow.toString seqNum
    let (b, _) ← (b.setChunk chunkId pRc).fillAndSend mem chunkId flow payload sizePayload seqNum
    b.dealWithCandidatesForChunk mem chunkId flow
  | some pRc => do
    let pRc := pRc.setFlowStart flow.toString seqNum
    let (b, _) ← (b.setChunk chunkId pRc).fillAndSend mem chunkId flow payload sizePayload seqNum
    pure b

/-- The bytes before the record, of a flow that showed no chunk before. -/
def insertBefore (b : Buffers) (flow : FlowId) (payload : Pointer) (chunkOffset : ℕ)
    (seqNum : TcpSeq) (held : ℤ) : Traced Call Buffers :=
  if 0 < chunkOffset then do
    let (b, _) ← b.insert flow payload chunkOffset seqNum 0 held
    pure b
  else pure b

end Buffers

namespace SniffTcp

variable {κ : Type}

/-- A sniffer that has seen nothing. -/
def create : SniffTcp κ where
  buffers := .empty
  flowChunkMap := fun _ => none

/-- The chunks of a flow are known. -/
def setInfos (s : SniffTcp κ) (flow : FlowId) (infos : List κ) : SniffTcp κ :=
  { s with flowChunkMap := Function.update s.flowChunkMap flow.toString (some infos) }

/-- The chunk of a flow that a segment without a chunk id goes to. -/
def chunkFor [Remembers κ] (s : SniffTcp κ) (flow : FlowId) (infos : List κ) (seqNum : TcpSeq) :
    Option κ :=
  infos.find? fun ci =>
    match Remembers.place s.buffers.chunkIdReconstructedChunkMap flow.toString ci with
    | some (starting, length) => within starting length seqNum
    | none => false

/-- `deal_with_pkt_without_chunkid`, for the front of a segment of `held` bytes. -/
def dealWithPktWithoutChunkid [Remembers κ] (s : SniffTcp κ) (mem : Memory) (flow : FlowId)
    (payload : Pointer) (sizePayload : ℕ) (seqNum : TcpSeq) (held : ℤ) :
    Traced Call (SniffTcp κ) :=
  match s.flowChunkMap flow.toString with
  | none => pure s
  | some infos =>
    match s.chunkFor flow infos seqNum with
    | some ci => do
      let (buffers, _) ←
        s.buffers.fillAndSend mem (Remembers.chunkId ci) flow payload sizePayload seqNum
      pure { s with buffers := buffers }
    | none => do
      let (buffers, _) ← s.buffers.insert flow payload sizePayload seqNum 0 held
      pure { s with buffers := buffers }

/-- The bytes before the record, of a flow that did. -/
def dealBefore [Remembers κ] (s : SniffTcp κ) (mem : Memory) (flow : FlowId) (payload : Pointer)
    (chunkOffset : ℕ) (seqNum : TcpSeq) (held : ℤ) : Traced Call (SniffTcp κ) :=
  if 0 < chunkOffset then s.dealWithPktWithoutChunkid mem flow payload chunkOffset seqNum held
  else pure s

/-- The list of a flow with a chunk it has shown: at its end, unless it is there. -/
def noteChunk [Remembers κ] (infos : List κ) (chunkId : ChunkId) (seqNum : TcpSeq) (length : ℕ) :
    List κ :=
  if infos.any (Remembers.chunkId · = chunkId) then infos
  else infos ++ [Remembers.info chunkId seqNum length]

/-- `handle_ip` from the TCP payload on. -/
def handleIp [Remembers κ] (s : SniffTcp κ) (gMultiChances : Bool) (mem : Memory) (flow : FlowId)
    (payload : Pointer) (sizePayload : ℕ) (seqNum : TcpSeq) : Traced Call (SniffTcp κ) :=
  if sizePayload = 0 then pure s
  else if !gMultiChances then do
    let (buffers, _) ← s.buffers.insert flow payload sizePayload seqNum 0 sizePayload
    pure { s with buffers := buffers }
  else
    match s.flowChunkMap flow.toString, getChunkId payload sizePayload with
    | none, none => do
      let (buffers, _) ← s.buffers.insert flow payload sizePayload seqNum 0 sizePayload
      pure { s with buffers := buffers }
    | none, some (chunkId, chunkOffset) => do
      let buffers ← s.buffers.insertBefore flow payload chunkOffset seqNum sizePayload
      let payload := payload.advance chunkOffset
      let seqNum := seqNum + UInt32.ofInt chunkOffset
      let infos := [Remembers.info chunkId seqNum (getLengthFromByteStream payload)]
      let s := s.setInfos flow infos
      let buffers ←
        buffers.announceChunk mem flow chunkId payload (sizePayload - chunkOffset) seqNum
      pure { s with buffers := buffers }
    | some _, none => s.dealWithPktWithoutChunkid mem flow payload sizePayload seqNum sizePayload
    | some infos, some (chunkId, chunkOffset) => do
      let s ← s.dealBefore mem flow payload chunkOffset seqNum sizePayload
      let payload := payload.advance chunkOffset
      let seqNum := seqNum + UInt32.ofInt chunkOffset
      let infos := noteChunk infos chunkId seqNum (getLengthFromByteStream payload)
      let s := s.setInfos flow infos
      let buffers ←
        s.buffers.announceChunk mem flow chunkId payload (sizePayload - chunkOffset) seqNum
      pure { s with buffers := buffers }

end SniffTcp

/-! ## The pass over the blocks -/

/-- The test of `grep_contiguous_block_for_chunks` for a record at an index. -/
def isRecord (cbData : Pointer) (size : ℕ) (i : UInt32) : Bool :=
  cbData i.toNat = rpcHeader ∧ (i + 3).toNat < size ∧
    (i + 8 + UInt32.ofNat maskSizeInBytes).toNat < size ∧
    (cbData.advance (i + 8).toNat).bytes maskSizeInBytes = mask

/-- The first record in a block, with its start and its end. -/
def firstRecord (cbData : Pointer) (size : ℕ) : Option (UInt32 × UInt32) := do
  let start ← ((List.range size).map UInt32.ofNat).find? (isRecord cbData size)
  some (start, start + UInt32.ofInt (getLengthFromByteStream (cbData.advance start.toNat) + 4))

namespace Buffers

/-- `grep_contiguous_block_for_chunks`: the blocks put in front, and the block. The
bytes before a record that is in the middle are copied from the string object instead
of from its characters, once the record is sent. -/
def grepContiguousBlockForChunks (mem : Memory) (flow : FlowId) (pcb : ContiguousBlock) :
    Traced Call (List ContiguousBlock × ContiguousBlock) :=
  let cbData := mem.cStr pcb.contiguousBlock
  let size := pcb.contiguousBlock.length
  match firstRecord cbData size with
  | none =>
    if size < 2 ^ 32 then pure ([], { pcb with bModified := false })
    else
      -- the index starts at 0 again, for ever
      Traced.lift none
  | some (start, last) =>
    if last.toNat ≤ size then do
      sendChunkToSnifferPlugin flow (cbData.advance start.toNat) (size - start.toNat) none
      let left := { pcb with
        startingSeqNumber := pcb.startingSeqNumber + last
        contiguousBlock := pcb.contiguousBlock.drop last.toNat }
      if start = 0 then pure ([], left)
      else do
        let tempPointer ← Traced.lift (mem.tempPointer pcb.contiguousBlock (toInt start))
        let pCb ← Traced.lift <|
          ContiguousBlock.create.append tempPointer (toInt start) pcb.startingSeqNumber
        pure ([{ pCb with bModified := false }], left)
    else
      -- waiting for more data to come
      pure ([], { pcb with bModified := false })

/-- The loop of `grep_flows_for_chunks` over one block, up to a number of rounds: the
blocks that are left of it. Out of rounds it does not end. -/
def grepBlock (mem : Memory) (flow : FlowId) : ℕ → ContiguousBlock →
    Traced Call (List ContiguousBlock)
  | 0, _ => Traced.lift none
  | rounds + 1, pcb =>
    if pcb.bModified ∧ pcb.startingSeqNumber < pcb.nextExpectedSeqNumber then do
      let (front, pcb) ← grepContiguousBlockForChunks mem flow pcb
      let left ← grepBlock mem flow rounds pcb
      pure (front ++ left)
    else pure (if pcb.startingSeqNumber = pcb.nextExpectedSeqNumber then [] else [pcb])

/-- The loop over the blocks of a flow. A round shortens the block or is the last. -/
def grepBlocks (mem : Memory) (flow : FlowId) :
    List ContiguousBlock → Traced Call (List ContiguousBlock)
  | [] => pure []
  | pcb :: rest => do
    let left ← grepBlock mem flow (pcb.contiguousBlock.length + 2) pcb
    let rest ← grepBlocks mem flow rest
    pure (left ++ rest)

/-- The loop over the flows. -/
def grepFlows (mem : Memory) : List (FlowId × List ContiguousBlock) →
    Traced Call (List (FlowId × List ContiguousBlock))
  | [] => pure []
  | (flow, blocks) :: rest => do
    let blocks ← grepBlocks mem flow blocks
    let rest ← grepFlows mem rest
    pure ((flow, blocks) :: rest)

/-- `grep_flows_for_chunks`. -/
def grepFlowsForChunks (b : Buffers) (mem : Memory) : Traced Call Buffers := do
  let flows ← grepFlows mem b.pFlowList
  pure { b with pFlowList := flows }

end Buffers

/-- What a sniffer is called with: a captured segment, with the memory around its
payload, or a pass over the blocks. -/
inductive SniffEvent where
  | segment (flow : FlowId) (payload : List UInt8) (around : ℤ → UInt8) (seqNum : TcpSeq)
  | grepFlows

/-- One event. -/
def SniffTcp.step (gMultiChances : Bool) (s : SniffTcp ChunkInfo) (event : Memory × SniffEvent) :
    Traced Call (SniffTcp ChunkInfo) :=
  match event.2 with
  | .segment flow payload around seqNum =>
    s.handleIp gMultiChances event.1 flow (.ofBytes payload around) payload.length seqNum
  | .grepFlows => do
    let buffers ← s.buffers.grepFlowsForChunks event.1
    pure { s with buffers := buffers }

/-- A sniffer at work, with the calls it has made; an exception ends the program. -/
structure Capture where
  sniffer : Option (SniffTcp ChunkInfo)
  calls : List Call

/-- A sniffer that starts. -/
def Capture.start : Capture where
  sniffer := some .create
  calls := []

/-- One event of a sniffer that is running. -/
def Capture.step (gMultiChances : Bool) (c : Capture) (event : Memory × SniffEvent) : Option Capture :=
  c.sniffer.map fun s =>
    let ran := s.step gMultiChances event
    { sniffer := ran.result, calls := c.calls ++ ran.calls }

end Ditto.Sniffer
