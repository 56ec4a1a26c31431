import Ditto.ConnectionAnswers
import Ditto.PeerAnswers

/-! Whether a node is one of the sources that a request names. The list of hints is searched for
the node's own name, and what comes of the search goes with the read of the storage: a chunk that
is not there is refused by a source and fetched from the next hop by any other node. The search
looks at the first hint once for each hint of the list. -/
namespace Ditto.PeerServer
open XferGtc PeerHints Outcomes
open Downloads (Sbp)
open GtcNode (GetChunkArg PeerRead)

variable {s t : Server} {env : ServerEnv} {arg : GetChunkArg}

/-- The hint names this node. -/
def Names (env : ServerEnv) (hint : String) : Prop :=
  parseHint hint "gtc" = some { hostname := env.hostname, port := env.listenPort }

instance : DecidablePred (Names env) := fun hint =>
  inferInstanceAs (Decidable (parseHint hint "gtc" = _))

/-- The search ends where it began. -/
theorem gtc_in_hint_list_iff : gtcInHintList env arg = true ↔ ∃ hint ∈ arg.hints.head?, Names env hint := by
  unfold gtcInHintList Names
  cases arg.hints with
  | nil => simp
  | cons hint rest =>
    -- every round, the first of the list included, compares the first hint
    rw [List.any_eq_true]
    simp only [List.head?_cons, Option.bind_some, Option.mem_def, Option.some.injEq]
    constructor
    · rintro ⟨_, _, names⟩
      exact ⟨hint, rfl, of_decide_eq_true names⟩
    · rintro ⟨_, rfl, names⟩
      exact ⟨hint, List.mem_cons_self .., decide_eq_true names⟩

namespace Server

/-- The request is answered with the storage's error, and is not passed on. -/
def Refuses (s : Server) (env : ServerEnv) (read : PeerRead) (errmsg : String) : Prop :=
  ∃ t, s.remoteGetChunkCb env read (.error errmsg) = .ok t ∧
    t.replies = s.replies ++ [(read.sbp, .chunk (.error errmsg))]

/-- A fetch from the next hop answers nobody yet. -/
theorem settle_get_chunk_replies (s : Server) (env : ServerEnv) (req : ChunkReq GtcNode.Cont) :
    Ends (fun t => t.replies = s.replies) (fun _ => True) (s.settle (s.plugin.getChunk env.toEnv req)) := by
  apply Ends.bind (Plugin.get_chunk_answers s.plugin)
  intro p same
  rw [same, List.drop_length]
  rfl

/-- A chunk that the storage has not got is refused by those who made the last try. -/
theorem refuses_iff (read : PeerRead) (errmsg : String) :
    s.Refuses env read errmsg ↔ read.lastTry = true := by
  constructor
  · rintro ⟨t, ran, replied⟩
    by_contra first
    rw [remoteGetChunkCb, if_neg first] at ran
    have silent := (settle_get_chunk_replies s env _).of_ok ran
    rw [replied] at silent
    exact List.cons_ne_nil _ _ (List.append_right_eq_self.mp silent)
  · intro last
    refine ⟨s.reply read.sbp (.chunk (.error errmsg)), ?_, rfl⟩
    rw [remoteGetChunkCb, if_pos last]

/-- The read that a request for a chunk leads to carries what the search found. -/
theorem remote_get_chunk_read {sbp : Sbp} (ran : s.remoteGetChunk env sbp arg = .ok t) :
    t.chunkReads = s.chunkReads ++ [⟨sbp, arg, gtcInHintList env arg⟩] := by
  unfold remoteGetChunk at ran
  split at ran
  · cases ran
  · split at ran
    · cases ran
    · split at ran
      · cases ran
      · cases ran
        rfl

end Server

/-- The node knows from the list whether it is a source, and refuses or passes on accordingly. -/
structure RecognisesItself (env : ServerEnv) (arg : GetChunkArg) : Prop where
  found : gtcInHintList env arg = true ↔ ∃ hint ∈ arg.hints, Names env hint
  missed : ∀ (s t u : Server) (sbp : Sbp) (read : PeerRead) (later : ServerEnv) (errmsg : String),
    s.remoteGetChunk env sbp arg = .ok t → t.chunkReads = s.chunkReads ++ [read] →
      (u.Refuses later read errmsg ↔ ∃ hint ∈ arg.hints, Names env hint)

/-- **Where the position of a hint does not matter**: the node is in no hint, or in the first. -/
theorem recognises_itself_iff (env : ServerEnv) (arg : GetChunkArg) :
    RecognisesItself env arg ↔
      (∀ hint ∈ arg.hints, ¬ Names env hint) ∨ ∃ hint ∈ arg.hints.head?, Names env hint := by
  constructor
  · intro recognises
    by_cases named : ∃ hint ∈ arg.hints, Names env hint
    · exact .inr (gtc_in_hint_list_iff.mp (recognises.found.mpr named))
    · exact .inl fun hint member names => named ⟨hint, member, names⟩
  · intro placed
    have found : gtcInHintList env arg = true ↔ ∃ hint ∈ arg.hints, Names env hint := by
      rw [gtc_in_hint_list_iff]
      constructor
      · rintro ⟨hint, first, names⟩
        exact ⟨hint, List.mem_of_mem_head? first, names⟩
      · rintro ⟨hint, member, names⟩
        rcases placed with unnamed | first
        · exact absurd names (unnamed hint member)
        · exact first
    refine ⟨found, fun s t u sbp read later errmsg ran added => ?_⟩
    have same := List.append_cancel_left (added.symm.trans (Server.remote_get_chunk_read ran))
    cases same
    rw [Server.refuses_iff, ← found]

/-- The node is the second of two sources. -/
theorem second_source_missed :
    ¬ ∀ (env : ServerEnv) (arg : GetChunkArg), RecognisesItself env arg := by
  intro always
  have found := (always Server.smallEnv (Server.smallArg ["gtc://n:1", "gtc://me:12000"])).found
  exact absurd (found.mpr ⟨"gtc://me:12000", by simp [Server.smallArg], by rfl⟩) (by decide)

end Ditto.PeerServer
