import Ditto.DownloadBooks

/-! The fetch, the arrivals and the requests of an out-of-order download. The
fetch gives every descriptor its status before anything is copied, and a request
sends, ends the transfer or parks. An arriving chunk keeps the books unless it
puts a descriptor that is done back on storage. -/
namespace Ditto.Downloads
open XferGtc (Descriptor)
open Outcomes

variable {stored : List UInt8 → Option (List UInt8)} {t : Transfer} {pdp : XferData}
  {descs : List Descriptor} {status : List DescStatus} {busy : ℕ} {fetched : Bool}
  {beyond : ℕ → DescStatus} {sbp : Sbp} {id : List UInt8}

/-! ## The fetch of what is missing -/

/-- Nothing is copied or read before the fetch. -/
theorem Serving.untouched (serving : Serving stored t pdp descs status busy false) :
    t.copied = [] ∧ t.reads = [] := by
  constructor
  · refine List.eq_nil_iff_forall_not_mem.mpr fun copy member => ?_
    have done := (serving.copies.done copy.1).mpr (List.mem_map_of_mem member)
    have unknown := serving.phase.1 _ (List.mem_of_getElem? done)
    cases unknown
  · refine List.eq_nil_iff_forall_not_mem.mpr fun read member => ?_
    have waiting := (serving.reads read member).2
    have unknown := serving.phase.1 _ (List.mem_of_getElem? waiting)
    cases unknown

/-- The fetch makes a status of every descriptor and is not due again. -/
theorem Serving.fetch (serving : Serving stored t pdp descs status 0 false)
    (due : t.scheduled ≠ 0) (held : Descriptor → Bool) (ops : List SpOp) :
    let pdp' := { pdp with
      descsStatus := some (descs.map fun d => if held d then DescStatus.onStorage else .requested) }
    Serving stored { t with scheduled := t.scheduled - 1, pdp := some pdp', spOps := ops } pdp' descs
      (descs.map fun d => if held d then DescStatus.onStorage else .requested) 0 true := by
  obtain ⟨uncopied, unread⟩ := serving.untouched
  obtain ⟨_, _, once, untimed⟩ := serving.phase
  constructor
  case held => rfl
  case opened => exact serving.opened
  case mode => exact serving.mode
  case fine => exact serving.fine
  case listed => exact serving.listed
  case known => rfl
  case copies =>
    have nodup := serving.copies.nodup
    have right := serving.copies.right
    refine ⟨List.length_map .., nodup, fun i => ?_, right⟩
    simp only [uncopied, List.map_nil, List.not_mem_nil, iff_false, List.getElem?_map]
    cases descs[i]? with
    | none => simp
    | some d => cases on : held d <;> simp [on]
  case xfered => exact serving.xfered
  case bytes => exact serving.bytes
  case reads =>
    rw [unread]
    exact fun _ member => absurd member List.not_mem_nil
  case owed => exact serving.owed
  case turn => exact serving.turn
  case phase =>
    refine ⟨?_, ?_⟩
    · cases fetching : pdp.fetching with
      | false => exact absurd (untimed fetching) due
      | true => rfl
    · show t.scheduled - 1 = 0
      omega

theorem Went.request {replied : ℕ} {after : Transfer} (missing : List Descriptor)
    (went : Went stored replied descs status true after) :
    Went stored replied descs status true { after with requested := missing } := by
  cases went with
  | continues pdp last serving kept unended =>
    exact .continues _ pdp last { serving with } kept unended
  | ends removed opened nodup all => exact .ends _ removed opened nodup ⟨all.bytes, all.every⟩

theorem resume_fetched_went (serving : Serving stored t pdp descs status 0 fetched) :
    Ends (Went stored t.replies.length descs status fetched) (fun _ => True)
      (t.resumeFetched beyond pdp status) := by
  unfold Transfer.resumeFetched
  split
  next => exact serving.went rfl
  next sequential => cases serving.mode.symm.trans sequential
  next sbp parked _ =>
    split_ifs
    · exact resume_xcb_went serving parked
    · exact serving.went rfl

theorem fetch_data_went (serving : Serving stored t pdp descs status 0 false)
    (due : t.scheduled ≠ 0) (held : Descriptor → Bool) :
    Ends (Went stored t.replies.length descs status true) (fun _ => True)
      ({ t with scheduled := t.scheduled - 1 }.fetchData beyond held) := by
  have undone : ∀ i : ℕ, status[i]? ≠ some .done := by
    intro i done
    have unknown := serving.phase.1 _ (List.mem_of_getElem? done)
    cases unknown
  simp only [Transfer.fetchData, Transfer.deref, serving.held, serving.deref_descs,
    serving.deref_status, Except.bind, bind]
  split
  next => exact trivial
  next after ran =>
    have resumed := (resume_fetched_went (serving.fetch due held _)).of_ok ran
    have went : Went stored t.replies.length descs status true after :=
      resumed.of_kept fun i done => absurd done (undone i)
    split_ifs
    · exact went
    · split
      next => exact trivial
      next => exact went.request _

/-! ## A chunk arrives -/

/-- No position of the chunk is done, up to the first that has it on storage. -/
def Unserved (id : List UInt8) (descs : List Descriptor) (status : List DescStatus) : Prop :=
  ∀ (i : ℕ) (d : Descriptor), descs[i]? = some d → d.id = id → status[i]? = some .done →
    ∃ (j : ℕ) (d' : Descriptor), j < i ∧ descs[j]? = some d' ∧ d'.id = id ∧
      status[j]? = some .onStorage

/-- An arrival leaves a position as it was or puts it on storage. -/
theorem arrive_get (id : List UInt8) (descs : List Descriptor) (status : List DescStatus) (i : ℕ) :
    (Transfer.arrive id descs status).1[i]? = status[i]? ∨
      (Transfer.arrive id descs status).1[i]? = some .onStorage := by
  fun_induction Transfer.arrive id descs status generalizing i with
  | case1 d descs status => exact .inl rfl
  | case2 d descs s status _ _ ih =>
    cases i with
    | zero => exact .inr rfl
    | succ i => exact ih i
  | case3 d descs s status _ ih =>
    cases i with
    | zero => exact .inl rfl
    | succ i => exact ih i
  | case4 => exact .inl rfl

theorem arrive_length (id : List UInt8) (descs : List Descriptor) (status : List DescStatus) :
    (Transfer.arrive id descs status).1.length = status.length := by
  fun_induction Transfer.arrive id descs status with
  | case1 => rfl
  | case2 d descs s status _ _ ih => rw [List.length_cons, ih, List.length_cons]
  | case3 d descs s status _ ih => rw [List.length_cons, ih, List.length_cons]
  | case4 => rfl

/-- What is unserved of a list of descriptors, by its first. -/
theorem unserved_cons {d : Descriptor} {s : DescStatus} :
    Unserved id (d :: descs) (s :: status) ↔
      (d.id = id → s ≠ .onStorage → s ≠ .done ∧ Unserved id descs status) ∧
        (d.id ≠ id → Unserved id descs status) := by
  constructor
  · intro unserved
    have later : ¬ (d.id = id ∧ s = .onStorage) → Unserved id descs status := by
      intro other i d' place same done
      obtain ⟨j, d'', before, there, matched, waiting⟩ :=
        unserved (i + 1) d' place same done
      cases j with
      | zero =>
        cases there
        cases waiting
        exact absurd ⟨matched, rfl⟩ other
      | succ j => exact ⟨j, d'', Nat.lt_of_succ_lt_succ before, there, matched, waiting⟩
    refine ⟨fun same waiting => ⟨?_, later fun both => waiting both.2⟩,
      fun other => later fun both => other both.1⟩
    rintro rfl
    obtain ⟨j, _, before, _⟩ := unserved 0 d rfl same rfl
    exact absurd before (Nat.not_lt_zero j)
  · rintro ⟨head, tail⟩ i d' place same done
    by_cases waiting : d.id = id ∧ s = .onStorage
    · cases i with
      | zero =>
        cases done
        cases waiting.2
      | succ i => exact ⟨0, d, Nat.succ_pos i, rfl, waiting.1, by rw [waiting.2]; rfl⟩
    have rest : Unserved id descs status := by
      by_cases matched : d.id = id
      · exact (head matched fun on => waiting ⟨matched, on⟩).2
      · exact tail matched
    cases i with
    | zero =>
      cases place
      cases done
      exact absurd rfl (head same (by simp)).1
    | succ i =>
      obtain ⟨j, d'', before, there, matched, on⟩ := rest i d' place same done
      exact ⟨j + 1, d'', Nat.succ_lt_succ before, there, matched, on⟩

/-- An arrival keeps what is done exactly when it meets nothing done before it stops. -/
theorem arrive_keeps_done_iff (id : List UInt8) (descs : List Descriptor) (status : List DescStatus) :
    (∀ i : ℕ, status[i]? = some .done →
      (Transfer.arrive id descs status).1[i]? = some .done) ↔ Unserved id descs status := by
  have shift : ∀ (s s' : DescStatus) (rest rest' : List DescStatus),
      (∀ i : ℕ, (s :: rest)[i]? = some .done → (s' :: rest')[i]? = some .done) ↔
        (s = .done → s' = .done) ∧ ∀ i : ℕ, rest[i]? = some .done → rest'[i]? = some .done := by
    intro s s' rest rest'
    constructor
    · intro kept
      exact ⟨fun done => by simpa using kept 0 (by simpa using done), fun i => kept (i + 1)⟩
    · rintro ⟨head, tail⟩ i
      cases i with
      | zero => simpa using head
      | succ i => exact tail i
  fun_induction Transfer.arrive id descs status with
  | case1 d descs status same => simp [unserved_cons, same]
  | case2 d descs s status same waiting ih =>
    simp only [shift, ih, unserved_cons, same]
    simp [waiting]
  | case3 d descs s status other ih =>
    simp only [shift, ih, unserved_cons]
    simp [other]
  | case4 descs status short =>
    refine ⟨fun _ i d place _ done => ?_, fun _ i done => done⟩
    cases descs with
    | nil => cases place
    | cons d descs =>
      cases status with
      | nil => cases done
      | cons s status => exact absurd rfl (short d descs s status rfl)

/-- An arrival that resets nothing leaves the books in order. -/
theorem Serving.arrive (serving : Serving stored t pdp descs status 0 true)
    (unserved : Unserved id descs status) (rest : List Descriptor) (ops : List SpOp) :
    let pdp' := { pdp with descsStatus := some (Transfer.arrive id descs status).1 }
    Serving stored { t with requested := rest, pdp := some pdp', spOps := ops } pdp' descs
      (Transfer.arrive id descs status).1 0 true := by
  have kept := (arrive_keeps_done_iff id descs status).mpr unserved
  constructor
  case held => rfl
  case opened => exact serving.opened
  case mode => exact serving.mode
  case fine => exact serving.fine
  case listed => exact serving.listed
  case known => rfl
  case copies =>
    refine ⟨(arrive_length ..).trans serving.copies.length, serving.copies.nodup, fun i => ?_,
      serving.copies.right⟩
    rw [← serving.copies.done]
    refine ⟨fun done => ?_, kept i⟩
    obtain same | on := arrive_get id descs status i
    · rw [← same, done]
    · cases on.symm.trans done
  case xfered => exact serving.xfered
  case bytes => exact serving.bytes
  case reads =>
    intro read member
    obtain ⟨place, waiting⟩ := serving.reads read member
    refine ⟨place, ?_⟩
    obtain same | on := arrive_get id descs status read.descNo
    · rw [same, waiting]
    · exact on
  case owed => exact serving.owed
  case turn => exact serving.turn
  case phase => exact serving.phase

theorem xp_fetch_data_cb_went (serving : Serving stored t pdp descs status 0 true)
    {desc : Descriptor} {data : List UInt8} (filled : data ≠ [])
    (unserved : Unserved desc.id descs status) (rest : List Descriptor) :
    Ends (Went stored t.replies.length descs status true) (fun _ => True)
      ({ t with requested := rest }.xpFetchDataCb beyond (.ok (desc, data))) := by
  have arrived := serving.arrive unserved rest
  have kept := (arrive_keeps_done_iff desc.id descs status).mpr unserved
  obtain ⟨byte, bytes, rfl⟩ := List.exists_cons_of_ne_nil filled
  simp only [Transfer.xpFetchDataCb, serving.held, serving.deref_descs, serving.deref_status,
    Except.bind, bind, Transfer.resumeArrived]
  split
  next =>
    exact ((arrived _).went rfl).of_kept kept
  next sbp parked _ =>
    exact (resume_xcb_went (arrived _) parked).imp fun _ went => went.of_kept kept
  next sequential => cases serving.mode.symm.trans sequential

/-! ## A request of the client -/

theorem sendable_out_of_order (mode : pdp.xmode = .outOfOrder) :
    t.sendable beyond pdp = .ok (decide (0 < pdp.buf.length), t) := by
  unfold Transfer.sendable
  rw [mode]
  split_ifs with left
  · rw [decide_eq_true left]
  · rw [decide_eq_false left]

theorem available_ok (serving : Serving stored t pdp descs status busy fetched) :
    ∃ found, Transfer.available pdp descs = .ok found := by
  simp only [Transfer.available, serving.mode, serving.deref_status, bind, Except.bind]
  split_ifs
  · exact ⟨false, rfl⟩
  · exact ⟨_, rfl⟩

/-- A request that is parked until a chunk arrives. -/
theorem Serving.park (serving : Serving stored t pdp descs status 1 fetched) :
    let pdp' := { pdp with xcb := some sbp }
    Serving stored { t with pdp := some pdp' } pdp' descs status 0 fetched :=
  { serving with
    held := rfl
    owed := by
      have owed := serving.owed
      simp only [Option.toList_some, List.length_singleton]
      omega }

/-- The first request that has to wait sets the fetch off. -/
theorem Serving.schedule (serving : Serving stored t pdp descs status 1 fetched)
    (idle : pdp.fetching = false) :
    let pdp' := { pdp with fetching := true, xcb := some sbp }
    Serving stored { t with pdp := some pdp', scheduled := t.scheduled + 1 } pdp' descs status 0
      fetched :=
  { serving with
    held := rfl
    owed := by
      have owed := serving.owed
      simp only [Option.toList_some, List.length_singleton]
      omega
    phase := by
      cases fetched with
      | false =>
        obtain ⟨unknown, unasked, _, untimed⟩ := serving.phase
        refine ⟨unknown, unasked, ?_, fun waiting => by cases waiting⟩
        simp only [untimed idle, Nat.zero_add, Nat.le_refl]
      | true =>
        cases idle.symm.trans serving.phase.1 }

theorem get_data_went (serving : Serving stored t pdp descs status 0 fetched)
    (answered : t.gets.length = t.replies.length) (xferId : XferId) :
    Ends (Went stored t.replies.length descs status fetched) (fun _ => True)
      ({ t with gets := t.gets ++ [sbp] }.getData beyond xferId sbp) := by
  have owed := serving.owed
  have asked : Serving stored { t with pdp := some pdp, gets := t.gets ++ [sbp] } pdp descs status 1
      fetched :=
    { serving with
      held := rfl
      owed := by
        simp only [List.length_append, List.length_singleton]
        omega
      turn := by
        simp only [List.length_append, List.length_singleton]
        omega }
  obtain ⟨found, available⟩ := available_ok serving
  simp only [Transfer.getData, serving.held, sendable_out_of_order serving.mode, serving.deref_descs,
    available, bind, Except.bind, decide_eq_true_eq]
  split_ifs with left full on fetching
  · exact transfer_data_went asked
  · refine asked.finished ?_ full
    exact (List.length_eq_zero_iff.mp (Nat.eq_zero_of_not_pos left)).symm
  · exact transfer_data_went asked
  · exact asked.park.went rfl
  · exact (asked.schedule (Bool.eq_false_iff.mpr fetching)).went rfl

end Ditto.Downloads
