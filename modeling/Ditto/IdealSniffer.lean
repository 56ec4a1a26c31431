import Ditto.SniffTcp

/-! The `SniffTcp` of `ideal-sniffer`, which also says of each chunk whether it is done.
Packets are handled as in the other sniffer, with the flag of a chunk set where a
complete one is sent. The pass over the blocks puts what it finds into the map of the
chunks as well: an entry for the id that it reads in the record, with the flag set. -/
namespace Ditto.Sniffer
open Words Traces

/-- The ideal `SniffTcp`, with the `chunk_done` of the chunks in its map. -/
structure IdealSniffTcp extends SniffTcp ChunkId where
  chunkDone : ChunkId → Bool

namespace IdealSniffTcp

/-- A sniffer that has seen nothing. -/
def create : IdealSniffTcp where
  toSniffTcp := .create
  chunkDone := fun _ => false

/-- `new ReconstructedChunk`, as the entry of a chunk id: it is not done. -/
def newChunk (i : IdealSniffTcp) (chunkId : ChunkId) (pRc : ReconstructedChunk) : IdealSniffTcp :=
  { i with
    buffers := i.buffers.setChunk chunkId pRc
    chunkDone := Function.update i.chunkDone chunkId false }

/-- `chunk_done = true`. -/
def setDone (i : IdealSniffTcp) (chunkId : ChunkId) : IdealSniffTcp :=
  { i with chunkDone := Function.update i.chunkDone chunkId true }

@[simp] theorem chunk_done_set_done (i : IdealSniffTcp) (chunkId : ChunkId) :
    (i.setDone chunkId).chunkDone = Function.update i.chunkDone chunkId true := rfl

@[simp] theorem chunk_done_new_chunk (i : IdealSniffTcp) (chunkId : ChunkId) (pRc : ReconstructedChunk) :
    (i.newChunk chunkId pRc).chunkDone = Function.update i.chunkDone chunkId false := rfl

/-- `send_chunk_to_sniffer_plugin`: the reply whose data is transmitted. -/
def sendChunkToSnifferPlugin (rpcBuffer : Pointer) : Traced DotChunkRes Unit :=
  match extractChunkResponse rpcBuffer with
  | none => pure ()
  | some chunkRes => Traced.note chunkRes

/-! ## Packets -/

/-- A chunk that is done is marked and sent. -/
def sendDone (i : IdealSniffTcp) (mem : Memory) (chunkId : ChunkId) : Bool → Traced DotChunkRes IdealSniffTcp
  | false => pure i
  | true => do
    let pRc ← Traced.lift (i.buffers.chunkIdReconstructedChunkMap chunkId)
    match pRc.getData with
    | none => pure i
    | some data => do
      let i := i.setDone chunkId
      sendChunkToSnifferPlugin (mem.cStr data)
      pure i

/-- `fill_gaps_in_chunk`, and the chunk is marked and sent if it is done. -/
def fillAndSend (i : IdealSniffTcp) (mem : Memory) (chunkId : ChunkId) (flow : FlowId) (payload : Pointer)
    (sizePayload : ℤ) (seqNum : TcpSeq) : Traced DotChunkRes (IdealSniffTcp × Edit) := do
  let (b, bChunkDone, edit) ← Traced.lift
    (i.buffers.fillGapsInChunk chunkId flow payload sizePayload seqNum).result
  let i ← { i with buffers := b }.sendDone mem chunkId bChunkDone
  pure (i, edit)

/-- `insert`. -/
def insert (i : IdealSniffTcp) (flow : FlowId) (payload : Pointer) (sizePayload : ℕ) (seqNum : TcpSeq) :
    Traced DotChunkRes IdealSniffTcp := do
  let (b, _) ← Traced.lift (i.buffers.insert flow payload sizePayload seqNum 0 sizePayload).result
  pure { i with buffers := b }

/-- The loop of `deal_with_candidates_for_chunk` from an index on. -/
def candidatesFrom (mem : Memory) (chunkId : ChunkId) (flow : FlowId) (starting : TcpSeq) (length : ℕ) :
    ℕ → ℕ → IdealSniffTcp → Traced DotChunkRes IdealSniffTcp
  | 0, _, i => pure i
  | rounds + 1, index, i =>
    match ((i.buffers.blocksOf flow).drop index).findIdx? fun li =>
      within starting length li.startingSeqNumber with
    | none => pure i
    | some skipped => do
      let li ← Traced.lift ((i.buffers.blocksOf flow)[index + skipped]?)
      let (i, edit) ← i.fillAndSend mem chunkId flow (mem.cStr li.contiguousBlock)
        (toInt (UInt32.ofNat li.contiguousBlock.length)) li.startingSeqNumber
      let index ← Traced.lift (edit.moved (index + skipped))
      candidatesFrom mem chunkId flow starting length rounds index
        { i with buffers := { i.buffers with pFlowList := eraseBlock flow index i.buffers.pFlowList } }

/-- `deal_with_candidates_for_chunk`. -/
def dealWithCandidatesForChunk (i : IdealSniffTcp) (mem : Memory) (chunkId : ChunkId) (flow : FlowId) :
    Traced DotChunkRes IdealSniffTcp := do
  let pRc ← Traced.lift (i.buffers.chunkIdReconstructedChunkMap chunkId)
  let startingSeqNumber := (pRc.flowSeqMap flow.toString).getD 0
  candidatesFrom mem chunkId flow startingSeqNumber pRc.length (i.buffers.blocksOf flow).length 0 i

/-- The part of `handle_ip` that both branches for a chunk id share. -/
def announceChunk (i : IdealSniffTcp) (mem : Memory) (flow : FlowId) (chunkId : ChunkId) (payload : Pointer)
    (sizePayload : ℕ) (seqNum : TcpSeq) : Traced DotChunkRes IdealSniffTcp :=
  match i.buffers.chunkIdReconstructedChunkMap chunkId with
  | none => do
    let chunkLen := getLengthFromByteStream payload
    let pRc := (ReconstructedChunk.create chunkId chunkLen).setFlowStart flow.toString seqNum
    let (i, _) ← (i.newChunk chunkId pRc).fillAndSend mem chunkId flow payload sizePayload seqNum
    i.dealWithCandidatesForChunk mem chunkId flow
  | some pRc => do
    let pRc := pRc.setFlowStart flow.toString seqNum
    let (i, _) ← { i with buffers := i.buffers.setChunk chunkId pRc }.fillAndSend mem chunkId flow payload
      sizePayload seqNum
    pure i

/-- `deal_with_pkt_without_chunkid`. -/
def dealWithPktWithoutChunkid (i : IdealSniffTcp) (mem : Memory) (flow : FlowId) (payload : Pointer)
    (sizePayload : ℕ) (seqNum : TcpSeq) : Traced DotChunkRes IdealSniffTcp :=
  match i.flowChunkMap flow.toString with
  | none => pure i
  | some cids =>
    match i.chunkFor flow cids seqNum with
    | some ci => Prod.fst <$> i.fillAndSend mem ci flow payload sizePayload seqNum
    | none => i.insert flow payload sizePayload seqNum

/-- The bytes before the record, of a flow that showed no chunk before. -/
def insertBefore (i : IdealSniffTcp) (flow : FlowId) (payload : Pointer) (chunkOffset : ℕ) (seqNum : TcpSeq) :
    Traced DotChunkRes IdealSniffTcp :=
  if 0 < chunkOffset then i.insert flow payload chunkOffset seqNum else pure i

/-- The bytes before the record, of a flow that did. -/
def dealBefore (i : IdealSniffTcp) (mem : Memory) (flow : FlowId) (payload : Pointer) (chunkOffset : ℕ)
    (seqNum : TcpSeq) : Traced DotChunkRes IdealSniffTcp :=
  if 0 < chunkOffset then i.dealWithPktWithoutChunkid mem flow payload chunkOffset seqNum else pure i

/-- `handle_ip` from the TCP payload on. -/
def handleIp (i : IdealSniffTcp) (gMultiChances : Bool) (mem : Memory) (flow : FlowId) (payload : Pointer)
    (sizePayload : ℕ) (seqNum : TcpSeq) : Traced DotChunkRes IdealSniffTcp :=
  if sizePayload = 0 then pure i
  else if !gMultiChances then i.insert flow payload sizePayload seqNum
  else
    match i.flowChunkMap flow.toString, getChunkId payload sizePayload with
    | none, none => i.insert flow payload sizePayload seqNum
    | none, some (chunkId, chunkOffset) => do
      let i ← i.insertBefore flow payload chunkOffset seqNum
      let i := { i with toSniffTcp := i.setInfos flow [chunkId] }
      i.announceChunk mem flow chunkId (payload.advance chunkOffset) (sizePayload - chunkOffset)
        (seqNum + UInt32.ofInt chunkOffset)
    | some _, none => i.dealWithPktWithoutChunkid mem flow payload sizePayload seqNum
    | some cids, some (chunkId, chunkOffset) => do
      let i ← i.dealBefore mem flow payload chunkOffset seqNum
      let cids := if chunkId ∈ cids then cids else cids ++ [chunkId]
      let i := { i with toSniffTcp := i.setInfos flow cids }
      i.announceChunk mem flow chunkId (payload.advance chunkOffset) (sizePayload - chunkOffset)
        (seqNum + UInt32.ofInt chunkOffset)

/-! ## The pass over the blocks -/

/-- The entry that the pass makes of a record of `held` bytes, if it reads an id there.
`getChunkId` takes the number of bytes as an `int`. -/
def markRecord (i : IdealSniffTcp) (cbData : Pointer) (held : ℕ) : IdealSniffTcp :=
  match getChunkId cbData (toInt (UInt32.ofNat held)).toNat with
  | none => i
  | some (chunkId, _) =>
    match i.buffers.chunkIdReconstructedChunkMap chunkId with
    | none => (i.newChunk chunkId (.create chunkId (getLengthFromByteStream cbData))).setDone chunkId
    | some _ => i.setDone chunkId

/-- `grep_contiguous_block_for_chunks`: the blocks put in front, and the block. -/
def grepContiguousBlockForChunks (i : IdealSniffTcp) (mem : Memory) (pcb : ContiguousBlock) :
    Traced DotChunkRes (IdealSniffTcp × List ContiguousBlock × ContiguousBlock) :=
  let cbData := mem.cStr pcb.contiguousBlock
  let size := pcb.contiguousBlock.length
  match firstRecord cbData size with
  | none =>
    if size < 2 ^ 32 then pure (i, [], { pcb with bModified := false })
    else
      -- the index starts at 0 again, for ever
      Traced.lift none
  | some (start, last) =>
    if last.toNat ≤ size then do
      let i := i.markRecord (cbData.advance start.toNat) (size - start.toNat)
      sendChunkToSnifferPlugin (cbData.advance start.toNat)
      let left := { pcb with
        startingSeqNumber := pcb.startingSeqNumber + last
        contiguousBlock := pcb.contiguousBlock.drop last.toNat }
      if start = 0 then pure (i, [], left)
      else do
        let tempPointer ← Traced.lift (mem.tempPointer pcb.contiguousBlock (toInt start))
        let pCb ← Traced.lift <|
          ContiguousBlock.create.append tempPointer (toInt start) pcb.startingSeqNumber
        pure (i, [{ pCb with bModified := false }], left)
    else
      -- waiting for more data to come
      pure (i, [], { pcb with bModified := false })

/-- The loop of `grep_flows_for_chunks` over one block, up to a number of rounds. -/
def grepBlock (mem : Memory) : ℕ → IdealSniffTcp → ContiguousBlock →
    Traced DotChunkRes (IdealSniffTcp × List ContiguousBlock)
  | 0, _, _ => Traced.lift none
  | rounds + 1, i, pcb =>
    if pcb.bModified ∧ pcb.startingSeqNumber < pcb.nextExpectedSeqNumber then do
      let (i, front, pcb) ← i.grepContiguousBlockForChunks mem pcb
      let (i, left) ← grepBlock mem rounds i pcb
      pure (i, front ++ left)
    else pure (i, if pcb.startingSeqNumber = pcb.nextExpectedSeqNumber then [] else [pcb])

/-- The loop over the blocks of a flow. -/
def grepBlocks (mem : Memory) : IdealSniffTcp → List ContiguousBlock →
    Traced DotChunkRes (IdealSniffTcp × List ContiguousBlock)
  | i, [] => pure (i, [])
  | i, pcb :: rest => do
    let (i, left) ← grepBlock mem (pcb.contiguousBlock.length + 2) i pcb
    let (i, rest) ← grepBlocks mem i rest
    pure (i, left ++ rest)

/-- The loop over the flows. -/
def grepFlows (mem : Memory) : IdealSniffTcp → List (FlowId × List ContiguousBlock) →
    Traced DotChunkRes (IdealSniffTcp × List (FlowId × List ContiguousBlock))
  | i, [] => pure (i, [])
  | i, (flow, blocks) :: rest => do
    let (i, blocks) ← grepBlocks mem i blocks
    let (i, rest) ← grepFlows mem i rest
    pure (i, (flow, blocks) :: rest)

/-- `grep_flows_for_chunks`. -/
def grepFlowsForChunks (i : IdealSniffTcp) (mem : Memory) : Traced DotChunkRes IdealSniffTcp := do
  let (i, flows) ← grepFlows mem i i.buffers.pFlowList
  pure { i with buffers := { i.buffers with pFlowList := flows } }

/-- One event. -/
def step (gMultiChances : Bool) (i : IdealSniffTcp) (event : Memory × SniffEvent) :
    Traced DotChunkRes IdealSniffTcp :=
  match event.2 with
  | .segment flow payload around seqNum =>
    i.handleIp gMultiChances event.1 flow (.ofBytes payload around) payload.length seqNum
  | .grepFlows => i.grepFlowsForChunks event.1

end IdealSniffTcp

/-- An ideal sniffer at work, with the replies whose data it has transmitted. -/
structure IdealCapture where
  sniffer : Option IdealSniffTcp
  told : List DotChunkRes

/-- A sniffer that starts. -/
def IdealCapture.start : IdealCapture where
  sniffer := some .create
  told := []

/-- One event of a sniffer that is running. -/
def IdealCapture.step (gMultiChances : Bool) (c : IdealCapture) (event : Memory × SniffEvent) :
    Option IdealCapture :=
  c.sniffer.map fun i =>
    let ran := i.step gMultiChances event
    { sniffer := ran.result, told := c.told ++ ran.calls }

end Ditto.Sniffer
