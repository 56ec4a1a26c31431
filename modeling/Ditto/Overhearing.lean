import Ditto.InOrderCapture
import Ditto.MeshReplication
import Ditto.RecordEncoding

/-! A node that overhears a mesh. The replies of other nodes go by on the wire, encoded as
records; a sniffer takes the chunks out of the segments that it captures and puts each in
the storage of its node, where the next request for the chunk finds it. What makes a capture
lossless is said where captures in order are treated; a reply must be of a size that is taken
for a chunk. -/
namespace Ditto.GtcNode.Mesh
open XferGtc Runs Replication Sniffer SegmentHandling InOrderCapture RecordEncoding RecordHeaders
  Placement
open Downloads (Sbp)

variable {Host : Type} {hash : List UInt8 → List UInt8} {originals : Originals hash}
  {passed : Set (List UInt8 × List UInt8)} {peer : Host → ConnId → Host} {m after : Mesh Host}
  {listener : Host} {env : NodeEnv} {sbp : Sbp} {data : List UInt8}
  {stored : Host → List UInt8 → Option (List UInt8)}

/-- A reply as it is encoded, with its metadata. -/
def encoded (resok : GetChunkResOk) (md : List UInt8) : XfergtcGetChunkResOk where
  offset := resok.offset
  chunkId := resok.chunkId
  data := resok.data
  isEnd := resok.ended
  md := md

/-- A reply with all of a chunk that goes by on the wire. -/
structure Heard (m : Mesh Host) where
  server : Host
  sbp : Sbp
  arg : GetChunkArg
  resok : GetChunkResOk
  md : List UInt8
  xid : UInt32
  replied : (sbp, .ok resok) ∈ (m.nodes server).peerReplies
  asked : (m.asked server)[sbp]? = some arg
  first : arg.offset = 0
  last : resok.ended = true
  sniffable : (encoded resok md).Sniffable xid

/-- The record of the reply. -/
def Heard.record (heard : Heard m) : ChunkRecord := heard.sniffable.record

/-- What is heard is the chunk that the server has stored, or had until its storage let go of
it. -/
theorem Heard.whole (heard : Heard m) (replicating : m.Replicating originals passed peer) :
    heard.resok.data ∈ originals.chunks ∧ hash heard.resok.data = heard.arg.desc.id ∧
      (m.held heard.server heard.arg.desc.id = some heard.resok.data ∨
        (heard.server, heard.arg.desc.id) ∈ m.dropped) := by
  obtain ⟨chunk, original, hashed, _, ok, has⟩ := replicating.replied heard.replied heard.asked
  have asked : heard.arg = ⟨heard.arg.desc, heard.arg.hints, UInt64.ofNat ([] : List UInt8).length⟩ := by
    have first : heard.arg.offset = UInt64.ofNat ([] : List UInt8).length := heard.first
    rw [← first]
  rw [asked] at ok
  obtain rfl := (part_extends (originals.sized chunk original) List.nil_prefix ok).2.mp heard.last
  exact ⟨original, hashed, has⟩

/-! ## Chunks from the sniffer -/

variable [DecidableEq Host]

end Ditto.GtcNode.Mesh
