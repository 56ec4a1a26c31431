import Ditto.Handovers
import Ditto.Runs

/-! The sniffer keeps a chunk in three places: the flow's list of chunks, the map of
chunks by id, and the flow's start inside the chunk. Every chunk in a flow's list is
in the map with a start for that flow, so a segment that is routed to a chunk finds
it, and no bytes are dropped because the chunk does not know the flow. -/
namespace Ditto.Bookkeeping
open Sniffer Buffers SniffTcp Runs Traces Traced ChunkHeadings SegmentHandling Handovers

/-- Every chunk in the list of a flow is in the map and knows the flow, and no chunk
is in the list twice. -/
structure Bookkept (s : SniffTcp ChunkInfo) : Prop where
  known : ∀ flow infos, s.flowChunkMap flow = some infos → ∀ ci ∈ infos,
    ∃ pRc, s.buffers.chunkIdReconstructedChunkMap ci.chunkId = some pRc ∧ (pRc.flowSeqMap flow).isSome
  distinct : ∀ flow infos, s.flowChunkMap flow = some infos → (infos.map ChunkInfo.chunkId).Nodup

/-- A call that drops no bytes. -/
def Dropless (call : Call) : Prop := ∀ flow chunkId, call ≠ .dropped flow chunkId

/-- The flows that a chunk knows. -/
def knows (b : Buffers) (chunkId : ChunkId) : Set String :=
  {flow | ∃ heading, headings b chunkId = some heading ∧ (heading.1 flow).isSome}

variable {s s' : SniffTcp ChunkInfo} {b b' : Buffers} {flow : FlowId} {chunkId : ChunkId}
  {payload : Pointer} {seq : TcpSeq} {size : ℕ} {held : ℤ} {mem : Memory} {c c' : Capture}

theorem mem_knows {name : String} : name ∈ knows b chunkId ↔
    ∃ pRc, b.chunkIdReconstructedChunkMap chunkId = some pRc ∧ (pRc.flowSeqMap name).isSome := by
  constructor
  · rintro ⟨heading, found, known⟩
    obtain ⟨pRc, held, rfl⟩ := Option.map_eq_some_iff.mp found
    exact ⟨pRc, held, known⟩
  · rintro ⟨pRc, held, known⟩
    exact ⟨(pRc.flowSeqMap, pRc.length), by simp [headings, held], known⟩

/-- The chunk has a copy in the flows it knows. -/
theorem copy_of_known (known : flow.toString ∈ knows b chunkId) : copyOf b chunkId flow ≠ none := by
  obtain ⟨heading, found, known⟩ := known
  obtain ⟨start, starts⟩ := Option.isSome_iff_exists.mp known
  simp [copyOf, found, starts]

/-- An announcement takes no flow from a chunk and adds its own to its chunk. -/
theorem announce_knows (same : headings b' =
      Function.update (headings b) chunkId (some (announced b chunkId flow payload seq))) :
    (∀ other, knows b other ⊆ knows b' other) ∧ flow.toString ∈ knows b' chunkId := by
  constructor
  · rintro other name ⟨heading, found, known⟩
    by_cases isIt : other = chunkId
    · subst isIt
      refine ⟨_, by rw [same, Function.update_self], ?_⟩
      by_cases own : name = flow.toString
      · simp [announced, found, own]
      · simpa [announced, found, own] using known
    · exact ⟨heading, by rw [same, Function.update_of_ne isIt, found], known⟩
  · refine ⟨_, by rw [same, Function.update_self], ?_⟩
    cases found : headings b chunkId <;> simp [announced, found]

/-- The chunk ids of a flow after one was shown. -/
theorem note_chunk_ids {infos : List ChunkInfo} (chunkId : ChunkId) (seq : TcpSeq) (length : ℕ)
    (distinct : (infos.map ChunkInfo.chunkId).Nodup) :
    ((noteChunk infos chunkId seq length).map ChunkInfo.chunkId).Nodup ∧
      ∀ ci ∈ noteChunk infos chunkId seq length, ci ∈ infos ∨ ci.chunkId = chunkId := by
  rw [noteChunk]
  split
  · exact ⟨distinct, fun ci member => Or.inl member⟩
  · rename_i fresh
    constructor
    · rw [List.map_append]
      refine List.nodup_append.mpr ⟨distinct, by simp, ?_⟩
      simpa [Remembers.chunkId, Remembers.info] using fresh
    · intro ci member
      rcases List.mem_append.mp member with old | new
      · exact Or.inl old
      · rw [List.mem_singleton.mp new]
        exact Or.inr rfl

/-! ## Segments -/

theorem Bookkept.keep (kept : Bookkept s) (infos : s'.flowChunkMap = s.flowChunkMap)
    (same : headings s'.buffers = headings s.buffers) : Bookkept s' := by
  refine ⟨fun flow listed found ci member => ?_, fun flow listed found => ?_⟩
  · have known : flow ∈ knows s.buffers ci.chunkId :=
      mem_knows.mpr (kept.known flow listed (infos ▸ found) ci member)
    rw [← mem_knows, knows, same]
    exact known
  · exact kept.distinct flow listed (infos ▸ found)

theorem Bookkept.infos (kept : Bookkept s) (flow : FlowId) :
    (∀ ci ∈ infosOf s flow, flow.toString ∈ knows s.buffers ci.chunkId) ∧
      ((infosOf s flow).map ChunkInfo.chunkId).Nodup := by
  cases found : s.flowChunkMap flow.toString with
  | none => simp [infosOf, found]
  | some listed =>
    rw [infosOf, found, Option.getD_some]
    exact ⟨fun ci member => mem_knows.mpr (kept.known _ _ found ci member), kept.distinct _ _ found⟩

theorem routed_known (kept : Bookkept s) {ci : ChunkInfo} (chosen : routed s flow seq = some ci) :
    flow.toString ∈ knows s.buffers ci.chunkId :=
  (kept.infos flow).1 ci (List.mem_of_find?_eq_some chosen)

theorem show_bookkept (kept : Bookkept s) (before : headings b = headings s.buffers)
    (ran : (showRecord s b mem flow chunkId payload size seq).result = some s') : Bookkept s' := by
  obtain ⟨t, shown, ran⟩ := bind_eq_some.mp ran
  cases ran
  obtain ⟨grown, own⟩ := announce_knows (announce_headings shown)
  have wider : ∀ other, knows s.buffers other ⊆ knows t other := fun other => by
    rw [knows, ← before]
    exact grown other
  obtain ⟨known, distinct⟩ := kept.infos flow
  obtain ⟨distinct', listed⟩ :=
    note_chunk_ids chunkId seq (getLengthFromByteStream payload) distinct
  refine ⟨fun name infos found ci member => mem_knows.mp ?_, fun name infos found => ?_⟩
  all_goals
    simp only [setInfos] at found
    by_cases own' : name = flow.toString
  · subst own'
    rw [Function.update_self] at found
    cases found
    rcases listed ci member with old | new
    · exact wider _ (known ci old)
    · exact new ▸ own
  · rw [Function.update_of_ne own'] at found
    exact wider _ (mem_knows.mpr (kept.known name infos found ci member))
  · subst own'
    rw [Function.update_self] at found
    cases found
    exact distinct'
  · rw [Function.update_of_ne own'] at found
    exact kept.distinct name infos found

theorem handle_ip_bookkept (kept : Bookkept s)
    (ran : (s.handleIp true mem flow payload size seq).result = some s') : Bookkept s' := by
  by_cases empty : size = 0
  · rw [handleIp, if_pos empty] at ran
    cases ran
    exact kept
  · rw [handle_ip_multi empty] at ran
    obtain ⟨t, first, ran⟩ := bind_eq_some.mp ran
    have same := front_headings first
    split at ran
    · cases ran
      exact kept.keep rfl same
    · exact show_bookkept kept same ran

/-- Wherever the flow has a copy of the chunk, no bytes are dropped. -/
theorem admits_dropless {size : ℤ} (known : copyOf b chunkId flow ≠ none) :
    Admits Dropless b chunkId flow size seq :=
  ⟨fun unknown => absurd unknown known, fun _ _ _ _ => nofun, fun _ _ _ => nofun⟩

theorem handle_ip_dropless (kept : Bookkept s) :
    Logs Dropless (s.handleIp true mem flow payload size seq) := by
  apply handle_ip_logs
  · intro _
    exact front_logs (fun ci chosen _ => admits_dropless (copy_of_known (routed_known kept chosen)))
      (fun _ => nofun) fun _ _ => nofun
  · intro t chunkId chunkOffset _ _
    refine announce_logs (fun t => copyOf t chunkId flow ≠ none) (admits_dropless ?_)
      (fun u inserted filled => ?_) (fun u li known _ _ => admits_dropless known)
      (fun u u' i li inserted place known _ _ filled _ => ?_) fun _ _ => nofun
    · rw [copy_of_announced]
      nofun
    · rw [copyOf, fill_and_send_headings filled]
      change copyOf _ _ _ ≠ none
      rw [copy_of_announced]
      nofun
    · rw [copyOf, headings_of_lists, fill_and_send_headings filled]
      exact known

/-! ## Runs -/

/-- A running sniffer's books are in order, and no bytes were dropped. -/
structure Orderly (c : Capture) : Prop where
  books : ∀ s, c.sniffer = some s → Bookkept s
  calls : ∀ call ∈ c.calls, Dropless call

theorem step_orderly {event : Memory × SniffEvent} (orderly : Orderly c)
    (ran : c.step true event = some c') : Orderly c' := by
  obtain ⟨s, running, rfl⟩ := Option.map_eq_some_iff.mp ran
  have kept := orderly.books s running
  obtain ⟨mem, event⟩ := event
  cases event with
  | segment flow bytes around seq =>
    exact ⟨fun s' after => handle_ip_bookkept kept after,
      List.forall_mem_append.mpr ⟨orderly.calls, handle_ip_dropless kept⟩⟩
  | grepFlows =>
    constructor
    · intro s' after
      obtain ⟨t, grepped, after⟩ := bind_eq_some.mp after
      obtain ⟨left, _, grepped⟩ := bind_eq_some.mp grepped
      cases grepped
      cases after
      exact kept.keep rfl rfl
    · apply List.forall_mem_append.mpr ⟨orderly.calls, ?_⟩
      have pass : Logs Dropless (grepFlows mem s.buffers.pFlowList) :=
        grep_flows_logs fun _ _ _ _ _ _ => nofun
      exact Logs.bind (pass.bind fun _ _ => logs_pure _) fun _ _ => logs_pure _

/-- **The books are in order in every state**, a segment that is routed to a chunk finds
it, and no bytes are ever dropped because a chunk does not know the flow. -/
theorem bookkeeping_sound (run : Reaches (Capture.step true) (fun _ _ => True) .start c) :
    (∀ s, c.sniffer = some s → Bookkept s ∧
      ∀ flow seq ci, routed s flow seq = some ci →
        ∃ pRc, s.buffers.chunkIdReconstructedChunkMap ci.chunkId = some pRc) ∧
    ∀ flow chunkId, Call.dropped flow chunkId ∉ c.calls := by
  have orderly : Orderly c := by
    refine invariant ⟨fun s running => ?_, by simp [Capture.start]⟩
      (fun _ _ _ orderly _ ran => step_orderly orderly ran) run
    cases running
    exact ⟨by simp [SniffTcp.create], by simp [SniffTcp.create]⟩
  constructor
  · intro s running
    have kept := orderly.books s running
    refine ⟨kept, fun flow seq ci chosen => ?_⟩
    obtain ⟨pRc, found, _⟩ := mem_knows.mp (routed_known kept chosen)
    exact ⟨pRc, found⟩
  · intro flow chunkId member
    exact orderly.calls _ member flow chunkId rfl

/-- After the header of a chunk, and its first byte again. -/
theorem bookkeeping_sound_after_header :
    ∃ c, ((Capture.step true .start (headerAt (List.replicate 20 7) 1100 1024 5)).bind
      (Capture.step true · (headerAt (List.replicate 20 7) 1100 1024 5))) = some c ∧
      c.sniffer.isSome ∧ ∀ s, c.sniffer = some s → Bookkept s :=
  have run : Reaches (Capture.step true) (fun _ _ => True) .start _ :=
    (Reaches.refl.snoc (headerAt (List.replicate 20 7) 1100 1024 5) trivial rfl).snoc
      (headerAt (List.replicate 20 7) 1100 1024 5) trivial rfl
  ⟨_, rfl, rfl, fun s running => ((bookkeeping_sound run).1 s running).1⟩

end Ditto.Bookkeeping
