import Ditto.Downloads
import Ditto.Runs

/-! A PUT_FD: `gtcd` reads a descriptor that the client passed, gives what it reads to
the chunker, and commits the object at the end of the file. The descriptor stays
readable while writes are pending, and an error is answered without ending either; so
the request is answered once exactly in the runs in which nothing fails after an answer
and the end of the file does not meet a failed read. -/
namespace Ditto.PutFd
open Downloads (Sbp int32)

/-- `dot_oid_md`, of an object that the chunker committed. -/
structure OidMd where
  id : List UInt8
  md : List (String × String × String)

/-- `gtc_put_commit_res`. -/
abbrev PutCommitRes := Except String (OidMd × List String)

/-- `putfd_state`. -/
structure PutfdState where
  sbp : Sbp
  sid : ℕ
  fd : ℤ
  pending : ℤ

/-- A PUT_FD with what is in flight for it: the callback set for its descriptor, the
writes and the commit that the chunker works on. Next to it what has happened so far:
the replies, the calls of `commit_object`, and how many reads and writes failed. -/
structure Request where
  st : PutfdState
  selread : Bool
  writes : List (List UInt8)
  committing : ℕ
  replies : List (Sbp × PutCommitRes)
  commits : ℕ
  failures : ℕ

namespace Request

/-- `st->sbp->replyref (res)`. -/
def reply (r : Request) (res : PutCommitRes) : Request :=
  { r with replies := r.replies ++ [(r.st.sbp, res)] }

/-- A reply that a read or a write failed. -/
def fail (r : Request) (errmsg : String) : Request :=
  { r.reply (.error errmsg) with failures := r.failures + 1 }

/-- `put_fd_main`. -/
def putFdMain (r : Request) : Request :=
  if r.st.fd ≠ -1 then { r with selread := true }
  else if r.st.pending ≤ 0 then { r with committing := r.committing + 1, commits := r.commits + 1 }
  else r

/-- `put_fd_read`, with what the descriptor gave: no bytes at its end, and none at all if
the read failed. -/
def putFdRead (r : Request) : Option (List UInt8) → Request
  | none => r.fail "Could not read from input file descriptor\n"
  | some [] => { r with selread := false, st.fd := -1 }.putFdMain
  | some inbuf => { r with st.pending := int32 (r.st.pending + 1), writes := r.writes ++ [inbuf] }

/-- `put_fd_read_cb`. -/
def putFdReadCb (r : Request) : Option String → Request
  | some s => r.fail s
  | none => { r with st.pending := int32 (r.st.pending - 1) }.putFdMain

/-- `put_fd_commit_cb`, for the default hint of the transfer plugin. -/
def putFdCommitCb (r : Request) (hint : String) : Except String OidMd → Request
  | .error s => r.reply (.error s)
  | .ok oid => r.reply (.ok (oid, [hint]))

end Request

/-- `put_fd`, for what `recvfd` returned. -/
def putFd (sbp : Sbp) (sid : ℕ) (fd : ℤ) : Request :=
  let r : Request := {
    st := { sbp := sbp, sid := sid, fd := fd, pending := 0 }
    selread := false
    writes := []
    committing := 0
    replies := []
    commits := 0
    failures := 0 }
  if fd < 0 then { r with st.fd := -1 }.fail "Could not receive FD from client\n" else r.putFdMain

/-- What a request waits for: its descriptor is readable, a write is done, named by its
place in the list, or the commit is. -/
inductive Event where
  | putFdRead (input : Option (List UInt8))
  | putFdReadCb (index : ℕ) (s : Option String)
  | putFdCommitCb (hint : String) (res : Except String OidMd)

/-- One event. What nothing waits for does nothing. -/
def Request.step (r : Request) : Event → Request
  | .putFdRead input => if r.selread then r.putFdRead input else r
  | .putFdReadCb index s =>
    if index < r.writes.length then { r with writes := r.writes.eraseIdx index }.putFdReadCb s else r
  | .putFdCommitCb hint res =>
    if 0 < r.committing then { r with committing := r.committing - 1 }.putFdCommitCb hint res else r

/-- The request is answered once when it is over and at most once before, and is committed
at most once: at the end of the file, with no write pending and nothing failed. -/
structure Answered (r : Request) : Prop where
  once : r.replies.length ≤ 1
  finished : r.selread = false → r.writes = [] → r.committing = 0 → r.replies.length = 1
  committed_once : r.commits ≤ 1
  committed : r.commits ≠ 0 → r.st.fd = -1 ∧ r.writes = [] ∧ r.failures = 0

/-- Nothing fails once the request is answered, and `put_fd_main` does not find the end of
the file and nothing pending after a failure, or with a write that is not counted. -/
def Fits (r : Request) : Event → Prop
  | .putFdRead none => r.selread → r.replies = []
  | .putFdRead (some []) => r.selread → r.st.pending ≤ 0 → r.writes = [] ∧ r.failures = 0
  | .putFdRead (some _) => True
  | .putFdReadCb index (some _) => index < r.writes.length → r.replies = []
  | .putFdReadCb index none => index < r.writes.length → r.st.fd = -1 → int32 (r.st.pending - 1) ≤ 0 →
      r.writes.length = 1 ∧ r.failures = 0
  | .putFdCommitCb .. => True

/-- What is counted of a request that has been answered at most once. -/
structure Counted (r : Request) : Prop where
  armed : r.selread = true ↔ r.st.fd ≠ -1
  pending : ∃ lost ≤ r.failures, r.st.pending = int32 (r.writes.length + lost)
  replies : r.replies.length = r.failures + (r.commits - r.committing)
  few : r.failures ≤ 1
  committing : r.committing ≤ r.commits
  committed_once : r.commits ≤ 1
  committed : r.commits ≠ 0 → r.st.fd = -1 ∧ r.writes = [] ∧ r.failures = 0
  ended : r.st.fd = -1 → r.writes = [] → r.failures = 0 → r.commits = 1

variable {r : Request}

theorem Counted.answered (counted : Counted r) : Answered r where
  once := by
    have few := counted.few
    have once := counted.committed_once
    have replies := counted.replies
    by_cases none_yet : r.commits = 0
    · omega
    · have fine := (counted.committed none_yet).2.2
      omega
  finished := by
    intro unarmed unwritten idle
    have fd : r.st.fd = -1 := by
      by_contra still
      rw [counted.armed.mpr still] at unarmed
      cases unarmed
    have replies := counted.replies
    have few := counted.few
    by_cases fine : r.failures = 0
    · have once := counted.ended fd unwritten fine
      omega
    · have none_yet : r.commits = 0 := by
        by_contra committed
        exact fine (counted.committed committed).2.2
      omega
  committed_once := counted.committed_once
  committed := counted.committed

/-! ## Steps -/

/-- Nothing was committed while there is something to read or to write. -/
theorem Counted.uncommitted (counted : Counted r) (open_yet : r.st.fd ≠ -1 ∨ r.writes ≠ []) :
    r.commits = 0 ∧ r.committing = 0 := by
  have none_yet : r.commits = 0 := by
    by_contra committed
    obtain ⟨fd, unwritten, _⟩ := counted.committed committed
    rcases open_yet with still | writing
    · exact still fd
    · exact writing unwritten
  have committing := counted.committing
  omega

/-- `put_fd_main` commits when all is written, and not before. -/
theorem put_fd_main_counted (uncommitted : r.commits = 0) (idle : r.committing = 0)
    (armed : r.selread = true → r.st.fd ≠ -1)
    (pending : ∃ lost ≤ r.failures, r.st.pending = int32 (r.writes.length + lost))
    (replies : r.replies.length = r.failures) (few : r.failures ≤ 1)
    (clean : r.st.fd = -1 → r.st.pending ≤ 0 → r.writes = [] ∧ r.failures = 0) : Counted r.putFdMain := by
  unfold Request.putFdMain
  split
  next still =>
    refine ⟨⟨fun _ => still, fun _ => rfl⟩, pending, ?_, few, ?_, ?_, ?_, ?_⟩
    · simp only [replies, uncommitted, idle, Nat.sub_self, Nat.add_zero]
    · simp only [idle, uncommitted, le_refl]
    · simp only [uncommitted, Nat.zero_le]
    · exact fun committed => absurd uncommitted committed
    · exact fun fd => absurd fd still
  next ended =>
    have fd : r.st.fd = -1 := not_not.mp ended
    have unarmed : r.selread = true ↔ r.st.fd ≠ -1 := ⟨armed, fun still => absurd fd still⟩
    split
    next done =>
      obtain ⟨unwritten, fine⟩ := clean fd done
      refine ⟨unarmed, pending, ?_, few, ?_, ?_, ?_, ?_⟩
      · simp only [replies, uncommitted, idle, Nat.sub_self, Nat.add_zero]
      · simp only [idle, uncommitted, le_refl]
      · simp only [uncommitted, Nat.zero_add, le_refl]
      · exact fun _ => ⟨fd, unwritten, fine⟩
      · exact fun _ _ _ => by simp only [uncommitted]
    next busy =>
      refine ⟨unarmed, pending, ?_, few, ?_, ?_, ?_, ?_⟩
      · simp only [replies, uncommitted, idle, Nat.sub_self, Nat.add_zero]
      · simp only [idle, uncommitted, le_refl]
      · simp only [uncommitted, Nat.zero_le]
      · exact fun committed => absurd uncommitted committed
      · intro _ unwritten fine
        obtain ⟨lost, bounded, exactly⟩ := pending
        obtain rfl : lost = 0 := by omega
        rw [unwritten] at exactly
        exact absurd (Int.le_of_eq exactly) busy

theorem put_fd_counted (sbp : Sbp) (sid : ℕ) (fd : ℤ) : Counted (putFd sbp sid fd) := by
  have nothing_pending : ∀ failures : ℕ, ∃ lost ≤ failures, (0 : ℤ) = int32 (([] : List (List UInt8)).length + lost) :=
    fun failures => ⟨0, Nat.zero_le failures, by decide⟩
  unfold putFd
  dsimp only
  split
  next refused =>
    constructor
    case pending => exact nothing_pending 1
    all_goals simp [Request.fail, Request.reply]
  next received =>
    have still : fd ≠ -1 := by omega
    apply put_fd_main_counted rfl rfl
    case armed => exact fun armed => absurd armed Bool.false_ne_true
    case pending => exact nothing_pending 0
    case replies => rfl
    case few => exact Nat.zero_le 1
    case clean => exact fun ended => absurd ended still

/-- A failure before any is answered, and it alone. -/
theorem Counted.fail (counted : Counted r) (open_yet : r.st.fd ≠ -1 ∨ r.writes ≠ []) (unanswered : r.replies = [])
    (errmsg : String) {writes : List (List UInt8)}
    (pending : ∃ lost ≤ r.failures + 1, r.st.pending = int32 (writes.length + lost)) :
    Counted ({ r with writes := writes }.fail errmsg) := by
  obtain ⟨none_yet, idle⟩ := counted.uncommitted open_yet
  have replies := counted.replies
  rw [unanswered, List.length_nil] at replies
  constructor
  case armed => exact counted.armed
  case pending => exact pending
  case replies => simp only [Request.fail, Request.reply, unanswered, List.length_append]; simp; omega
  case few => simp only [Request.fail, Request.reply]; omega
  case committing => exact counted.committing
  case committed_once => exact counted.committed_once
  case committed => exact fun committed => absurd none_yet committed
  case ended => exact fun _ _ fine => absurd fine (Nat.succ_ne_zero _)

theorem int32_add (value more : ℤ) : int32 (int32 value + more) = int32 (value + more) :=
  Int.bmod_add_bmod

theorem int32_sub (value less : ℤ) : int32 (int32 value - less) = int32 (value - less) :=
  Int.bmod_sub_bmod

theorem length_erased {index : ℕ} (inside : index < r.writes.length) :
    ((r.writes.eraseIdx index).length : ℤ) = r.writes.length - 1 := by
  rw [List.length_eraseIdx_of_lt inside]
  omega

/-- A step that fits keeps the counts. -/
theorem step_counted (counted : Counted r) {event : Event} (fits : Fits r event) : Counted (r.step event) := by
  have same_replies : r.commits = 0 → r.replies.length = r.failures := by
    intro none_yet
    rw [counted.replies, none_yet, Nat.zero_sub, Nat.add_zero]
  cases event with
  | putFdRead input =>
    simp only [Request.step]
    split
    swap
    · exact counted
    next armed =>
    have still := counted.armed.mp armed
    obtain ⟨none_yet, idle⟩ := counted.uncommitted (.inl still)
    match input with
    | none =>
      obtain ⟨lost, few, pending⟩ := counted.pending
      exact counted.fail (.inl still) (fits armed) _ ⟨lost, Nat.le_succ_of_le few, pending⟩
    | some [] =>
      rw [Request.putFdRead]
      apply put_fd_main_counted
      case uncommitted => exact none_yet
      case idle => exact idle
      case armed => exact fun rearmed => absurd rearmed Bool.false_ne_true
      case pending => exact counted.pending
      case replies => exact same_replies none_yet
      case few => exact counted.few
      case clean => exact fun _ done => fits armed done
    | some (byte :: inbuf) =>
      obtain ⟨lost, few, pending⟩ := counted.pending
      rw [Request.putFdRead.eq_3 _ _ (List.cons_ne_nil byte inbuf)]
      constructor
      case armed => exact counted.armed
      case pending =>
        refine ⟨lost, few, ?_⟩
        show int32 (r.st.pending + 1) = int32 ((r.writes ++ [byte :: inbuf]).length + lost)
        rw [pending, List.length_append, List.length_singleton, int32_add]
        congr 1
        omega
      case replies => exact counted.replies
      case few => exact counted.few
      case committing => exact counted.committing
      case committed_once => exact counted.committed_once
      case committed => exact fun committed => absurd none_yet committed
      case ended => exact fun fd => absurd fd still
  | putFdReadCb index s =>
    simp only [Request.step]
    split
    swap
    · exact counted
    next inside =>
    have writing : r.writes ≠ [] := by
      rintro empty
      rw [empty] at inside
      exact absurd inside (Nat.not_lt_zero index)
    obtain ⟨none_yet, idle⟩ := counted.uncommitted (.inr writing)
    obtain ⟨lost, few, pending⟩ := counted.pending
    cases s with
    | some s =>
      -- the count keeps the write that failed
      apply counted.fail (.inr writing) (fits inside)
      refine ⟨lost + 1, Nat.succ_le_succ few, ?_⟩
      rw [pending, length_erased inside]
      congr 1
      omega
    | none =>
      rw [Request.putFdReadCb]
      apply put_fd_main_counted
      case uncommitted => exact none_yet
      case idle => exact idle
      case armed => exact counted.armed.mp
      case pending =>
        refine ⟨lost, few, ?_⟩
        show int32 (r.st.pending - 1) = int32 ((r.writes.eraseIdx index).length + lost)
        rw [pending, length_erased inside, int32_sub]
        congr 1
        omega
      case replies => exact same_replies none_yet
      case few => exact counted.few
      case clean =>
        intro fd done
        obtain ⟨last, fine⟩ := fits inside fd done
        refine ⟨?_, fine⟩
        apply List.eq_nil_of_length_eq_zero
        rw [List.length_eraseIdx_of_lt inside, last]
  | putFdCommitCb hint res =>
    simp only [Request.step]
    split
    swap
    · exact counted
    next waiting =>
    have replies := counted.replies
    have committing := counted.committing
    have once := counted.committed_once
    have answered : ∀ res, Counted ({ r with committing := r.committing - 1 }.reply res) := by
      intro res
      refine { counted with replies := ?_, committing := ?_ }
      · simp only [Request.reply, List.length_append, List.length_singleton]
        omega
      · simp only [Request.reply]
        omega
    cases res with
    | error s => exact answered _
    | ok oid => exact answered _

/-- A failure after a reply is a second reply. -/
theorem fail_not_answered (replied : r.replies ≠ []) (errmsg : String) : ¬ Answered (r.fail errmsg) := by
  intro answered
  have once := answered.once
  have some_reply := List.length_pos_of_ne_nil replied
  simp only [Request.fail, Request.reply, List.length_append, List.length_singleton] at once
  omega

/-- A commit is not clean with a write pending or after a failure. -/
theorem put_fd_main_not_answered (ended : r.st.fd = -1) (done : r.st.pending ≤ 0)
    (unclean : ¬ (r.writes = [] ∧ r.failures = 0)) : ¬ Answered r.putFdMain := by
  intro answered
  have committed := answered.committed
  simp only [Request.putFdMain, ended, ne_eq, not_true_eq_false, if_false, if_pos done] at committed
  exact unclean (committed (Nat.succ_ne_zero _)).2

/-- A step that does not fit is one that the claim forbids. -/
theorem step_not_answered {event : Event} (misfit : ¬ Fits r event) : ¬ Answered (r.step event) := by
  match event with
  | .putFdRead none =>
    obtain ⟨armed, replied⟩ := Classical.not_imp.mp misfit
    rw [Request.step, if_pos armed]
    exact fail_not_answered replied _
  | .putFdRead (some []) =>
    obtain ⟨armed, misfit⟩ := Classical.not_imp.mp misfit
    obtain ⟨done, unclean⟩ := Classical.not_imp.mp misfit
    rw [Request.step, if_pos armed]
    exact put_fd_main_not_answered rfl done unclean
  | .putFdRead (some (_ :: _)) => exact absurd trivial misfit
  | .putFdReadCb index (some s) =>
    obtain ⟨inside, replied⟩ := Classical.not_imp.mp misfit
    rw [Request.step, if_pos inside, Request.putFdReadCb]
    exact fail_not_answered (by exact replied) _
  | .putFdReadCb index none =>
    obtain ⟨inside, misfit⟩ := Classical.not_imp.mp misfit
    obtain ⟨ended, misfit⟩ := Classical.not_imp.mp misfit
    obtain ⟨done, unclean⟩ := Classical.not_imp.mp misfit
    rw [Request.step, if_pos inside, Request.putFdReadCb]
    apply put_fd_main_not_answered (by exact ended) (by exact done)
    rintro ⟨unwritten, fine⟩
    have unwritten : r.writes.eraseIdx index = [] := unwritten
    have last := List.length_eraseIdx_of_lt inside
    rw [unwritten, List.length_nil] at last
    exact unclean ⟨by omega, fine⟩
  | .putFdCommitCb .. => exact absurd trivial misfit

/-- **A PUT_FD is answered once** exactly in the runs whose every step fits. -/
theorem put_fd_answered_iff (sbp : Sbp) (sid : ℕ) (fd : ℤ) (events : List Event) :
    Answered (putFd sbp sid fd) ∧
      (Runs.Always (fun r event => some (Request.step r event)) (fun _ _ after => Answered after)
          (putFd sbp sid fd) events ↔
        Runs.Always (fun r event => some (Request.step r event)) (fun r event _ => Fits r event)
          (putFd sbp sid fd) events) := by
  refine ⟨(put_fd_counted sbp sid fd).answered, ?_⟩
  apply @Runs.always_iff _ _ _ _ Counted _ (fun _ _ => True)
  case initial => exact put_fd_counted sbp sid fd
  case exact =>
    intro before event after counted _ ran
    obtain rfl := Option.some.inj ran
    refine ⟨fun answered => ?_, fun fits => (step_counted counted fits).answered⟩
    by_contra misfit
    exact step_not_answered misfit answered
  case kept =>
    intro before event after counted _ fits ran
    obtain rfl := Option.some.inj ran
    exact step_counted counted fits
  case within => exact Runs.Always.trivial

/-- A directory can be passed, and every read of it fails. -/
theorem put_fd_not_answered : ¬ ∀ (sbp : Sbp) (sid : ℕ) (fd : ℤ) (events : List Event),
    Runs.Always (fun r event => some (Request.step r event)) (fun _ _ after => Answered after)
      (putFd sbp sid fd) events := by
  intro always
  obtain ⟨_, rest⟩ := always 1 1 5 [.putFdRead none, .putFdRead none] _ rfl
  obtain ⟨answered, _⟩ := rest _ rfl
  exact absurd answered.once (by decide)

end Ditto.PutFd
