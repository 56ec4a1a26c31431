import Mathlib.Data.List.Find
import Ditto.Bookkeeping

/-! The two sniffers side by side. One tests a segment that shows no chunk against the
start and length it remembered when its flow first showed each chunk; the other
looks both up in the chunk. They do the same as long as what is remembered is what
the chunk has: a chunk is shown again at the sequence number it had, and comes to a
new flow with the length it has. -/
namespace Ditto.ChunkInfoCache
open Sniffer Buffers SniffTcp Runs Traces Traced ChunkHeadings SegmentHandling

/-- A captured segment, with the memory around it. -/
structure Packet where
  mem : Memory
  flow : FlowId
  payload : List UInt8
  around : ℤ → UInt8
  seqNum : TcpSeq

/-- A sniffer of either kind that handles packets, and the calls it has made. -/
structure Listener (κ : Type) where
  sniffer : Option (SniffTcp κ)
  calls : List Call

variable {κ : Type} [Remembers κ]

/-- A sniffer that starts. -/
def Listener.start : Listener κ where
  sniffer := some .create
  calls := []

/-- One packet; an exception ends the program. -/
def Listener.hear (l : Listener κ) (packet : Packet) : Listener κ :=
  match l.sniffer with
  | none => l
  | some s =>
    let ran := s.handleIp true packet.mem packet.flow (.ofBytes packet.payload packet.around)
      packet.payload.length packet.seqNum
    { sniffer := ran.result, calls := l.calls ++ ran.calls }

/-- Both kinds hear the same packet. -/
def hearBoth (both : Listener ChunkInfo × Listener ChunkId) (packet : Packet) :
    Option (Listener ChunkInfo × Listener ChunkId) :=
  some (both.1.hear packet, both.2.hear packet)

/-- The chunk a segment shows is where its flow had it, and as long as it was. -/
def Unmoved (s : SniffTcp ChunkInfo) (flow : FlowId) (payload : Pointer) (size : ℕ) (seq : TcpSeq) :
    Prop :=
  ∀ chunkId chunkOffset, getChunkId payload size = some (chunkId, chunkOffset) →
    (∀ ci ∈ infosOf s flow, ci.chunkId = chunkId → ci.sSeqNum = seq + UInt32.ofInt chunkOffset) ∧
    ((∀ ci ∈ infosOf s flow, ci.chunkId ≠ chunkId) → ∀ heading,
      headings s.buffers chunkId = some heading →
      heading.2 = getLengthFromByteStream (payload.advance chunkOffset))

/-- The packet moves no chunk. -/
def Steady (both : Listener ChunkInfo × Listener ChunkId) (packet : Packet) : Prop :=
  ∀ s, both.1.sniffer = some s →
    Unmoved s packet.flow (.ofBytes packet.payload packet.around) packet.payload.length packet.seqNum

/-- What is remembered of a chunk is what the chunk has. -/
def Coherent (s : SniffTcp ChunkInfo) : Prop :=
  ∀ flow infos, s.flowChunkMap flow = some infos → ∀ ci ∈ infos, ∃ heading,
    headings s.buffers ci.chunkId = some heading ∧ heading.1 flow = some ci.sSeqNum ∧
    heading.2 = ci.chunkLength

/-- The two have the same bytes and chunks, and remember the same of them. -/
structure Same (s : SniffTcp ChunkInfo) (t : SniffTcp ChunkId) : Prop where
  buffers : s.buffers = t.buffers
  infos : ∀ flow, t.flowChunkMap flow = (s.flowChunkMap flow).map (List.map ChunkInfo.chunkId)
  coherent : Coherent s

variable {s s' : SniffTcp ChunkInfo} {t t' : SniffTcp ChunkId} {b b' : Buffers} {mem : Memory}
  {flow : FlowId} {payload : Pointer} {size : ℕ} {seq : TcpSeq} {held : ℤ} {chunkId : ChunkId}

theorem Same.infos_of (same : Same s t) (flow : FlowId) :
    infosOf t flow = (infosOf s flow).map ChunkInfo.chunkId := by
  rw [infosOf, infosOf, same.infos]
  cases s.flowChunkMap flow.toString <;> rfl

theorem Coherent.infos (coherent : Coherent s) (flow : FlowId) : ∀ ci ∈ infosOf s flow,
    ∃ heading, headings s.buffers ci.chunkId = some heading ∧
      heading.1 flow.toString = some ci.sSeqNum ∧ heading.2 = ci.chunkLength := by
  intro ci member
  rw [infosOf] at member
  cases found : s.flowChunkMap flow.toString with
  | none => simp [found] at member
  | some infos =>
    rw [found, Option.getD_some] at member
    exact coherent _ _ found ci member

/-- A segment that shows no chunk is routed to the same chunk. -/
theorem Same.routed (same : Same s t) (flow : FlowId) (seq : TcpSeq) :
    routed t flow seq = (routed s flow seq).map ChunkInfo.chunkId := by
  rw [SegmentHandling.routed, SegmentHandling.routed, chunkFor, chunkFor, same.infos_of, List.find?_map]
  congr 1
  apply List.find?_congr
  intro ci member
  obtain ⟨heading, found, start, length⟩ := same.coherent.infos flow ci member
  obtain ⟨pRc, held, rfl⟩ := Option.map_eq_some_iff.mp found
  rw [same.buffers] at held
  simp only at start length
  simp [Remembers.place, held, start, length]

/-- The front of a segment is handled alike. -/
theorem Same.front (same : Same s t) (mem : Memory) (flow : FlowId) (payload : Pointer) (size : ℕ)
    (seq : TcpSeq) (held : ℤ) :
    front t mem flow payload size seq held = front s mem flow payload size seq held := by
  rw [SegmentHandling.front, SegmentHandling.front, same.routed, same.buffers]
  cases SegmentHandling.routed s flow seq <;> rfl

/-- What is remembered after a chunk was shown. -/
theorem note_chunk_map (infos : List ChunkInfo) (chunkId : ChunkId) (seq : TcpSeq) (length : ℕ) :
    noteChunk (infos.map ChunkInfo.chunkId) chunkId seq length =
      (noteChunk infos chunkId seq length).map ChunkInfo.chunkId := by
  have known : (infos.map ChunkInfo.chunkId).any (Remembers.chunkId · = chunkId) =
      infos.any (Remembers.chunkId · = chunkId) := by
    rw [List.any_map]
    rfl
  rw [noteChunk, noteChunk, known]
  split
  · rfl
  · rw [List.map_append]
    rfl

theorem Coherent.keep (coherent : Coherent s) (same : headings b = headings s.buffers) :
    Coherent { s with buffers := b } := by
  intro flow infos found ci member
  obtain ⟨heading, held, rest⟩ := coherent flow infos found ci member
  exact ⟨heading, by rw [same, held], rest⟩

/-- A chunk that is shown where it was, and as long as it was, leaves the books coherent. -/
theorem Coherent.announce (coherent : Coherent s)
    (start : ∀ ci ∈ infosOf s flow, ci.chunkId = chunkId → ci.sSeqNum = seq)
    (length : (∀ ci ∈ infosOf s flow, ci.chunkId ≠ chunkId) → ∀ heading,
      headings s.buffers chunkId = some heading → heading.2 = getLengthFromByteStream payload)
    (shown : headings b' = Function.update (headings s.buffers) chunkId
      (some (announced s.buffers chunkId flow payload seq))) :
    Coherent { s.setInfos flow (noteChunk (infosOf s flow) chunkId seq (getLengthFromByteStream payload))
      with buffers := b' } := by
  -- a chunk that was remembered before is as it was, or shown again at its start
  have old : ∀ name (ci : ChunkInfo) heading, headings s.buffers ci.chunkId = some heading →
      heading.1 name = some ci.sSeqNum → heading.2 = ci.chunkLength →
      (name = flow.toString → ci.chunkId = chunkId → ci.sSeqNum = seq) →
      ∃ heading, headings b' ci.chunkId = some heading ∧ heading.1 name = some ci.sSeqNum ∧
        heading.2 = ci.chunkLength := by
    intro name ci heading found known long again
    by_cases isIt : ci.chunkId = chunkId
    · rw [shown, isIt, Function.update_self]
      rw [isIt] at found
      refine ⟨_, rfl, ?_, by simpa [announced, found] using long⟩
      by_cases own : name = flow.toString
      · simp [announced, found, own, again own isIt]
      · simpa [announced, found, own] using known
    · exact ⟨heading, by rw [shown, Function.update_of_ne isIt, found], known, long⟩
  intro name infos found ci member
  simp only [setInfos] at found
  by_cases own : name = flow.toString
  · subst own
    rw [Function.update_self] at found
    cases found
    rw [noteChunk] at member
    split at member
    · obtain ⟨heading, found, known, long⟩ := coherent.infos flow ci member
      exact old _ ci heading found known long fun _ => start ci member
    · rename_i fresh
      rcases List.mem_append.mp member with before | new
      · obtain ⟨heading, found, known, long⟩ := coherent.infos flow ci before
        exact old _ ci heading found known long fun _ => start ci before
      · rw [List.mem_singleton.mp new]
        have unknown : ∀ ci ∈ infosOf s flow, ci.chunkId ≠ chunkId := by
          simpa [Remembers.chunkId] using fresh
        refine ⟨_, by rw [shown]; exact Function.update_self .., ?_, ?_⟩
        · cases found : headings s.buffers chunkId <;> simp [announced, found, Remembers.info]
        · cases found : headings s.buffers chunkId with
          | none => simp [announced, found, Remembers.info]
          | some heading => simpa [announced, found, Remembers.info] using length unknown heading found
  · rw [Function.update_of_ne own] at found
    obtain ⟨heading, held, known, long⟩ := coherent name infos found ci member
    exact old name ci heading held known long fun same => absurd same own

/-- **One packet.** -/
theorem handle_ip_same (mem : Memory) (same : Same s t) (unmoved : Unmoved s flow payload size seq) :
    (s.handleIp true mem flow payload size seq).calls = (t.handleIp true mem flow payload size seq).calls ∧
      Option.Rel Same (s.handleIp true mem flow payload size seq).result
        (t.handleIp true mem flow payload size seq).result := by
  by_cases empty : size = 0
  · rw [handleIp, if_pos empty, handleIp, if_pos empty]
    exact ⟨rfl, .some same⟩
  · rw [handle_ip_multi empty, handle_ip_multi empty, same.front]
    cases ran : (front s mem flow payload (headSize payload size) seq size).result with
    | none => simp [calls_bind, ran]
    | some b =>
      have kept := front_headings ran
      rw [calls_bind_some ran, calls_bind_some ran, result_bind, result_bind, ran]
      simp only [Option.bind_some]
      cases shown : getChunkId payload size with
      | none =>
        refine ⟨rfl, .some ⟨rfl, same.infos, same.coherent.keep kept⟩⟩
      | some found =>
        obtain ⟨chunkId, chunkOffset⟩ := found
        obtain ⟨start, length⟩ := unmoved chunkId chunkOffset shown
        have told : infosOf t flow = (infosOf s flow).map ChunkInfo.chunkId := same.infos_of flow
        simp only [showRecord, told]
        cases after : (b.announceChunk mem flow chunkId (payload.advance chunkOffset) (size - chunkOffset)
            (seq + UInt32.ofInt chunkOffset)).result with
        | none => simp [after]
        | some b' =>
          rw [calls_bind_some after, calls_bind_some after, result_bind, result_bind, after]
          refine ⟨rfl, .some ⟨rfl, fun name => ?_, ?_⟩⟩
          · simp only [setInfos]
            by_cases own : name = flow.toString
            · rw [own, Function.update_self, Function.update_self, note_chunk_map]
              rfl
            · rw [Function.update_of_ne own, Function.update_of_ne own, same.infos]
          · have coherent : Coherent { s with buffers := b } := same.coherent.keep kept
            rw [← kept] at length
            exact coherent.announce start length (announce_headings after)

/-! ## Runs -/

/-- Both have made the same calls, and go on from the same state or not at all. -/
structure Alike (both : Listener ChunkInfo × Listener ChunkId) : Prop where
  calls : both.1.calls = both.2.calls
  sniffers : Option.Rel Same both.1.sniffer both.2.sniffer

theorem hear_alike {both : Listener ChunkInfo × Listener ChunkId} {packet : Packet}
    (alike : Alike both) (steady : Steady both packet) :
    Alike (both.1.hear packet, both.2.hear packet) := by
  obtain ⟨⟨one, calls⟩, ⟨other, calls'⟩⟩ := both
  obtain ⟨told, sniffers⟩ := alike
  simp only at told sniffers
  subst told
  cases sniffers with
  | none => exact ⟨rfl, .none⟩
  | some same =>
    obtain ⟨made, after⟩ := handle_ip_same packet.mem same (steady _ rfl)
    exact ⟨congrArg _ made, after⟩

/-- **The cached look-up agrees with the plain one** over runs that move no chunk: the two
sniffers hand on the same calls in the same order, and have the same bytes. -/
theorem cached_lookup_agrees {both : Listener ChunkInfo × Listener ChunkId}
    (run : Reaches hearBoth Steady (.start, .start) both) :
    both.1.calls = both.2.calls ∧ both.1.sniffer.map (·.buffers) = both.2.sniffer.map (·.buffers) := by
  have alike : Alike both := by
    refine invariant ?_ (fun before packet after alike steady ran => ?_) run
    · refine ⟨rfl, .some ⟨rfl, fun _ => rfl, fun _ _ found => ?_⟩⟩
      cases found
    · cases ran
      exact hear_alike alike steady
  obtain ⟨⟨one, calls⟩, ⟨other, calls'⟩⟩ := both
  obtain ⟨told, sniffers⟩ := alike
  refine ⟨told, ?_⟩
  cases sniffers with
  | none => rfl
  | some same => exact congrArg some same.buffers

/-! ## A chunk that moves -/

/-- The header of a chunk, and three bytes. -/
def headerPacket (seqNum : TcpSeq) : Packet :=
  ⟨zeroMemory, someFlow, recordHeader (.replicate 20 7) 1100 1024, fun _ => 0, seqNum⟩
def bytesPacket (seqNum : TcpSeq) : Packet := ⟨zeroMemory, someFlow, [1, 2, 3], fun _ => 0, seqNum⟩

/-- Both kinds after the packets. -/
def heard (packets : List Packet) : Listener ChunkInfo × Listener ChunkId :=
  (packets.foldl Listener.hear .start, packets.foldl Listener.hear .start)

theorem cached_lookup_agrees_after_header :
    (heard [headerPacket 100, bytesPacket 168]).1.calls = (heard [headerPacket 100, bytesPacket 168]).2.calls := by
  have first : Steady (.start, .start) (headerPacket 100) := by
    intro s running chunkId chunkOffset shown
    cases running
    refine ⟨fun ci member => ?_, fun _ heading found => ?_⟩
    · cases member
    · cases found
  have second : Steady (heard [headerPacket 100]) (bytesPacket 168) := by
    intro s running chunkId chunkOffset shown
    have none : getChunkId (.ofBytes [1, 2, 3] fun _ => 0) 3 = none := by decide +kernel
    exact absurd (shown.symm.trans none) nofun
  exact (cached_lookup_agrees ((Reaches.refl.snoc _ first rfl).snoc _ second rfl)).1

/-- A chunk shown at 100 and again at 5000: the cached start keeps the bytes at 5100 out of
the chunk, and the chunk's own start lets them in. -/
theorem not_cached_lookup_agrees : ¬ ∀ both, Reaches hearBoth (fun _ _ => True) (.start, .start) both →
    both.1.calls = both.2.calls := by
  intro agree
  have run : Reaches hearBoth (fun _ _ => True) (.start, .start)
      (heard [headerPacket 100, headerPacket 5000, bytesPacket 5100]) :=
    ((Reaches.refl.snoc (headerPacket 100) trivial rfl).snoc (headerPacket 5000) trivial rfl).snoc
      (bytesPacket 5100) trivial rfl
  exact absurd (agree _ run) (by decide +kernel)

end Ditto.ChunkInfoCache
