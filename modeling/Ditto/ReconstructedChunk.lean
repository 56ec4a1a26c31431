import Mathlib.Logic.Function.Basic
import Ditto.ContiguousBlock

/-! `ReconstructedChunk`, the per-chunk reassembler. Its blocks are numbered from
the chunk's first byte: every flow that carries the chunk has its own start in
`flow_seq_map`, and a payload is placed by its distance from that start. -/
namespace Ditto.Sniffer
open Words

/-- A chunk under reconstruction. The creation time is left out: nothing reads
it. -/
structure ReconstructedChunk where
  chunkId : List UInt8
  lcb : List ContiguousBlock
  length : ℕ
  flowSeqMap : String → Option TcpSeq
  uniquelyContributingFlows : List String

namespace ReconstructedChunk

/-- The constructor. -/
def create (cid : List UInt8) (len : ℕ) : ReconstructedChunk where
  chunkId := cid
  lcb := []
  length := len
  flowSeqMap := fun _ => none
  uniquelyContributingFlows := []

/-- `flow_seq_map[flow] = seq_num`, done by the sniffer when a flow announces
the chunk. -/
def setFlowStart (chunk : ReconstructedChunk) (flow : String) (seqNum : TcpSeq) :
    ReconstructedChunk :=
  { chunk with flowSeqMap := Function.update chunk.flowSeqMap flow (some seqNum) }

/-- The merging loop after an append: `li` takes over the blocks it has reached
(`li2`), up to the first one that extends it or lies beyond it. -/
def mergeFollowing (li : ContiguousBlock) :
    List ContiguousBlock → UInt64 → Option (ContiguousBlock × List ContiguousBlock × UInt64)
  | [], numDuplicateBytes => some (li, [], numDuplicateBytes)
  | li2 :: rest, numDuplicateBytes =>
    if li2.startingSeqNumber ≤ li.nextExpectedSeqNumber then
      if li.nextExpectedSeqNumber < li2.nextExpectedSeqNumber then do
        let merged ← li.overlappingAppend li2.contiguousBlock
          (li.nextExpectedSeqNumber - li2.startingSeqNumber) li2.nextExpectedSeqNumber
        some (merged, rest, numDuplicateBytes + li.nextExpectedSeqNumber.toUInt64
          - li2.startingSeqNumber.toUInt64)
      else
        -- the overlap goes beyond the block indicated by `li2`
        mergeFollowing li rest (numDuplicateBytes + li2.nextExpectedSeqNumber.toUInt64
          - li2.startingSeqNumber.toUInt64)
    else some (li, li2 :: rest, numDuplicateBytes)

/-- The walk of `fill_gaps_in_chunk` over the blocks: the new list, the updated
byte counter and `b_duplicate`. -/
def fillBlocks (payload : Pointer) (sizePayload : ℤ) (normalizedSeqNum : TcpSeq) :
    List ContiguousBlock → UInt64 → Option (List ContiguousBlock × UInt64 × Bool)
  | [], numDuplicateBytes => do
    -- packet from the future, inserted at the end of the list
    let block ← ContiguousBlock.create.append payload sizePayload normalizedSeqNum
    some ([block], numDuplicateBytes, false)
  | li :: rest, numDuplicateBytes =>
    let last := normalizedSeqNum + UInt32.ofInt sizePayload
    if normalizedSeqNum < li.startingSeqNumber then
      let before := li.startingSeqNumber - normalizedSeqNum
      if last = li.startingSeqNumber then do
        let li ← li.prepend payload sizePayload normalizedSeqNum
        some (li :: rest, numDuplicateBytes, false)
      else if last < li.startingSeqNumber then do
        let block ← ContiguousBlock.create.append payload sizePayload normalizedSeqNum
        some (block :: li :: rest, numDuplicateBytes, false)
      else if last ≤ li.nextExpectedSeqNumber then do
        let li ← li.prepend payload (toInt before) normalizedSeqNum
        some (li :: rest, numDuplicateBytes + (UInt64.ofInt sizePayload) - before.toUInt64, false)
      else do
        -- overlapping packet: what it holds past the end of `li` stays behind
        let li ← li.prepend payload (toInt before) normalizedSeqNum
        some (li :: rest, numDuplicateBytes + (UInt64.ofInt sizePayload) - before.toUInt64, false)
    else if normalizedSeqNum ≤ li.nextExpectedSeqNumber then
      if li.nextExpectedSeqNumber < last then do
        let s ← appendChars [] payload sizePayload
        let numDuplicateBytes := numDuplicateBytes + li.nextExpectedSeqNumber.toUInt64
          - normalizedSeqNum.toUInt64
        let li ← li.overlappingAppend s (li.nextExpectedSeqNumber - normalizedSeqNum) last
        let (li, rest, numDuplicateBytes) ← mergeFollowing li rest numDuplicateBytes
        some (li :: rest, numDuplicateBytes, false)
      else
        -- already known, from some other flow
        some (li :: rest, numDuplicateBytes + UInt64.ofInt sizePayload, true)
    else do
      let (rest, numDuplicateBytes, bDuplicate) ←
        fillBlocks payload sizePayload normalizedSeqNum rest numDuplicateBytes
      some (li :: rest, numDuplicateBytes, bDuplicate)

/-- `fill_gaps_in_chunk`: the chunk, the counter and whether the chunk is done. -/
def fillGapsInChunk (chunk : ReconstructedChunk) (flow : String) (payload : Pointer)
    (sizePayload : ℤ) (seqNum : TcpSeq) (numDuplicateBytes : UInt64) :
    Option (ReconstructedChunk × UInt64 × Bool) :=
  match chunk.flowSeqMap flow with
  | none => some (chunk, numDuplicateBytes, false)
  | some startingSeqNumber => do
    let (lcb, numDuplicateBytes, bDuplicate) ←
      fillBlocks payload sizePayload (seqNum - startingSeqNumber) chunk.lcb numDuplicateBytes
    if bDuplicate then
      some ({ chunk with lcb := lcb }, numDuplicateBytes, false)
    else do
      let front ← lcb.head?
      some ({ chunk with
          lcb := lcb
          uniquelyContributingFlows := chunk.uniquelyContributingFlows.insert flow },
        numDuplicateBytes, decide (chunk.length ≤ front.contiguousBlock.length))

/-- `get_data`: the string of the first block. -/
def getData (chunk : ReconstructedChunk) : Option (List UInt8) :=
  chunk.lcb.head?.map ContiguousBlock.contiguousBlock

end ReconstructedChunk
end Ditto.Sniffer
