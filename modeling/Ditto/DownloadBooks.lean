import Mathlib.Data.List.Count
import Mathlib.Data.Finset.Card
import Ditto.Downloads
import Ditto.Outcomes

/-! The books of an out-of-order download. A descriptor is done when it has been
copied, the copies are the stored chunks, and what was delivered followed by the
buffer is what was copied. One request at a time is in hand, so the handlers that
copy and send keep the books. -/
namespace Ditto.Downloads
open XferGtc (Descriptor)
open Outcomes

variable {stored : List UInt8 → Option (List UInt8)} {t : Transfer} {pdp : XferData}
  {descs : List Descriptor} {status : List DescStatus} {busy : ℕ} {fetched : Bool}
  {beyond : ℕ → DescStatus} {sbp : Sbp}

/-! ## The books of a transfer -/

/-- The bytes a reply carries. -/
def replyData : Except String GetDataOk → List UInt8
  | .ok res => res.data
  | .error _ => []

/-- A reply that ends its transfer. -/
def EndsTransfer (res : Except String GetDataOk) : Prop :=
  ∃ ok, res = .ok ok ∧ ok.ended = true

namespace Transfer

/-- What the client has of a transfer. -/
def delivered (t : Transfer) : List UInt8 :=
  t.replies.flatMap fun reply => replyData reply.2

/-- What has been copied into the buffer. -/
def copiedBytes (t : Transfer) : List UInt8 :=
  t.copied.flatMap Prod.snd

end Transfer

theorem Transfer.delivered_append {after : Transfer} {res : Except String GetDataOk}
    (replies : after.replies = t.replies ++ [(sbp, res)]) :
    after.delivered = t.delivered ++ replyData res := by
  simp [Transfer.delivered, replies]

/-- The descriptors that are done are the ones copied, each once and with the
chunk that is stored for it. -/
structure Copies (stored : List UInt8 → Option (List UInt8)) (copied : List (ℕ × List UInt8))
    (descs : List Descriptor) (status : List DescStatus) : Prop where
  length : status.length = descs.length
  nodup : (copied.map Prod.fst).Nodup
  done : ∀ i : ℕ, status[i]? = some .done ↔ i ∈ copied.map Prod.fst
  right : ∀ copy ∈ copied, ∃ d, descs[copy.1]? = some d ∧ stored d.id = some copy.2

/-- Before its fetch a transfer has asked for nothing; after it no other is due. -/
def Phase (t : Transfer) (pdp : XferData) (status : List DescStatus) : Bool → Prop
  | false => (∀ s ∈ status, s = .unknown) ∧ t.requested = [] ∧ t.scheduled ≤ 1 ∧
      (pdp.fetching = false → t.scheduled = 0)
  | true => pdp.fetching = true ∧ t.scheduled = 0

/-- A transfer that is being served, with the requests in hand that a handler has
yet to answer. -/
structure Serving (stored : List UInt8 → Option (List UInt8)) (t : Transfer) (pdp : XferData)
    (descs : List Descriptor) (status : List DescStatus) (busy : ℕ) (fetched : Bool) : Prop where
  held : t.pdp = some pdp
  opened : t.opening = none
  mode : pdp.xmode = .outOfOrder
  fine : pdp.err = none
  listed : pdp.descs = some descs
  known : pdp.descsStatus = some status
  copies : Copies stored t.copied descs status
  xfered : pdp.descsXfered = t.copied.length
  bytes : t.delivered ++ pdp.buf = t.copiedBytes
  reads : ∀ read ∈ t.reads, descs[read.descNo]? = some read.desc ∧
    status[read.descNo]? = some .onStorage
  owed : t.replies.length + t.reads.length + pdp.xcb.toList.length + busy ≤ t.gets.length
  turn : t.gets.length ≤ t.replies.length + 1
  phase : Phase t pdp status fetched

/-- The client has the bytes of every descriptor. -/
structure AllDelivered (stored : List UInt8 → Option (List UInt8)) (t : Transfer)
    (descs : List Descriptor) : Prop where
  bytes : t.delivered = t.copiedBytes
  every : ∀ (i : ℕ) (d : Descriptor), descs[i]? = some d →
    ∃ data, (i, data) ∈ t.copied ∧ stored d.id = some data

/-- What a handler leaves of a transfer: it is still served and what was done stays
done, or all of it has been delivered. -/
inductive Went (stored : List UInt8 → Option (List UInt8)) (replied : ℕ)
    (descs : List Descriptor) (status : List DescStatus) (fetched : Bool) : Transfer → Prop
  | continues (after : Transfer) (pdp : XferData) (status' : List DescStatus)
      (serving : Serving stored after pdp descs status' 0 fetched)
      (kept : ∀ i : ℕ, status[i]? = some .done → status'[i]? = some .done)
      (unended : ∀ reply ∈ after.replies.drop replied, ¬ EndsTransfer reply.2) :
      Went stored replied descs status fetched after
  | ends (after : Transfer) (removed : after.pdp = none) (opened : after.opening = none)
      (nodup : (after.copied.map Prod.fst).Nodup) (all : AllDelivered stored after descs) :
      Went stored replied descs status fetched after

theorem Went.of_kept {replied : ℕ} {status' : List DescStatus} {after : Transfer}
    (went : Went stored replied descs status' fetched after)
    (kept : ∀ i : ℕ, status[i]? = some .done → status'[i]? = some .done) :
    Went stored replied descs status fetched after := by
  cases went with
  | continues pdp last serving further unended =>
    exact .continues _ pdp last serving (fun i done => further i (kept i done)) unended
  | ends removed opened nodup all => exact .ends _ removed opened nodup all

section
variable {copied : List (ℕ × List UInt8)} {i : ℕ} {d : Descriptor} {data : List UInt8}

/-- As many distinct indices as there are descriptors are all of them. -/
theorem Copies.every (copies : Copies stored copied descs status)
    (full : copied.length = descs.length) (place : descs[i]? = some d) :
    ∃ data, (i, data) ∈ copied ∧ stored d.id = some data := by
  obtain ⟨inside, _⟩ := List.getElem?_eq_some_iff.mp place
  have below : (copied.map Prod.fst).toFinset ⊆ Finset.range descs.length := by
    intro j member
    obtain ⟨copy, found, rfl⟩ := List.mem_map.mp (List.mem_toFinset.mp member)
    obtain ⟨d', there, _⟩ := copies.right copy found
    exact Finset.mem_range.mpr (List.getElem?_eq_some_iff.mp there).1
  have size : (Finset.range descs.length).card ≤ (copied.map Prod.fst).toFinset.card := by
    rw [Finset.card_range, List.toFinset_card_of_nodup copies.nodup, List.length_map, full]
  have present : i ∈ copied.map Prod.fst := by
    rw [← List.mem_toFinset, Finset.eq_of_subset_of_card_le below size]
    exact Finset.mem_range.mpr inside
  obtain ⟨copy, found, rfl⟩ := List.mem_map.mp present
  obtain ⟨d', there, holds⟩ := copies.right copy found
  cases place.symm.trans there
  exact ⟨copy.2, found, holds⟩

/-- One more chunk is copied for a descriptor that was on storage. -/
theorem Copies.copy (copies : Copies stored copied descs status) (place : descs[i]? = some d)
    (waiting : status[i]? = some .onStorage) (chunk : stored d.id = some data) :
    Copies stored (copied ++ [(i, data)]) descs (status.set i .done) := by
  have inside : i < status.length := (List.getElem?_eq_some_iff.mp waiting).1
  have apart : i ∉ copied.map Prod.fst := by
    rw [← copies.done, waiting]
    simp
  have nos : (copied ++ [(i, data)]).map Prod.fst = copied.map Prod.fst ++ [i] := by
    rw [List.map_append, List.map_singleton]
  constructor
  case length => rw [List.length_set, copies.length]
  case nodup =>
    rw [nos]
    exact List.Nodup.append copies.nodup (List.nodup_singleton i)
      (List.disjoint_singleton.mpr apart)
  case done =>
    intro j
    rw [nos, List.mem_append, List.mem_singleton, ← copies.done, List.getElem?_set]
    by_cases same : i = j
    · simp [same, same ▸ inside]
    · simp [same, Ne.symm same]
  case right =>
    intro copy member
    obtain old | new := List.mem_append.mp member
    · exact copies.right copy old
    · rw [List.mem_singleton.mp new]
      exact ⟨d, place, chunk⟩

end

/-! ## The handlers -/

namespace Serving

theorem deref (serving : Serving stored t pdp descs status busy fetched) :
    t.deref = .ok pdp := by
  rw [Transfer.deref, serving.held]

theorem deref_descs (serving : Serving stored t pdp descs status busy fetched) :
    Transfer.derefMember pdp.descs = .ok descs := by
  rw [serving.listed, Transfer.derefMember]

theorem deref_status (serving : Serving stored t pdp descs status busy fetched) :
    Transfer.derefMember pdp.descsStatus = .ok status := by
  rw [serving.known, Transfer.derefMember]

theorem idle (serving : Serving stored t pdp descs status 1 fetched) :
    t.reads = [] ∧ pdp.xcb = none := by
  have owed := serving.owed
  have turn := serving.turn
  constructor
  · exact List.length_eq_zero_iff.mp (by omega)
  · cases parked : pdp.xcb with
    | none => rfl
    | some sbp =>
      simp only [parked, Option.toList_some, List.length_singleton] at owed
      omega

/-- Nothing more is said of a request that is dropped. -/
theorem drop_busy (serving : Serving stored t pdp descs status busy fetched) :
    Serving stored t pdp descs status 0 fetched :=
  { serving with owed := by have := serving.owed; omega }

theorem went (serving : Serving stored t pdp descs status 0 fetched) {replied : ℕ}
    (replies : t.replies.length = replied) : Went stored replied descs status fetched t := by
  refine .continues t pdp status serving (fun _ done => done) ?_
  rw [← replies, List.drop_length]
  exact List.forall_mem_nil _

/-- A reply that leaves the transfer in the table. -/
theorem answered (serving : Serving stored t pdp descs status 1 fetched) {ok : GetDataOk}
    {rest : List UInt8} {offset : ℤ} (unended : ok.ended = false) (cut : ok.data ++ rest = pdp.buf) :
    Went stored t.replies.length descs status fetched { t.reply sbp (.ok ok) with
      pdp := some { pdp with bufOffset := offset, buf := rest } } := by
  obtain ⟨unread, unparked⟩ := serving.idle
  refine .continues _ { pdp with bufOffset := offset, buf := rest } status ?_ (fun _ done => done) ?_
  · have owed := serving.owed
    have turn := serving.turn
    constructor
    case held => rfl
    case opened => exact serving.opened
    case mode => exact serving.mode
    case fine => exact serving.fine
    case listed => exact serving.listed
    case known => exact serving.known
    case copies => exact serving.copies
    case xfered => exact serving.xfered
    case bytes =>
      rw [Transfer.delivered_append rfl]
      calc t.delivered ++ ok.data ++ rest = t.delivered ++ pdp.buf := by
            rw [List.append_assoc, cut]
        _ = t.copiedBytes := serving.bytes
    case reads => exact serving.reads
    case owed =>
      simp only [Transfer.reply, List.length_append, List.length_singleton]
      omega
    case turn =>
      simp only [Transfer.reply, List.length_append, List.length_singleton]
      omega
    case phase => exact serving.phase
  · intro reply member ended
    simp only [Transfer.reply, List.drop_left, List.mem_singleton] at member
    obtain ⟨ok', same, last⟩ := member ▸ ended
    cases same
    simp [unended] at last

/-- A reply that takes the transfer out of the table once all is copied. -/
theorem finished (serving : Serving stored t pdp descs status busy fetched) {ok : GetDataOk}
    {ops : List SpOp} (all : ok.data = pdp.buf) (full : pdp.descsXfered = descs.length) :
    Went stored t.replies.length descs status fetched { t.reply sbp (.ok ok) with spOps := ops, pdp := none } := by
  refine .ends _ rfl serving.opened serving.copies.nodup ⟨?_, ?_⟩
  · rw [Transfer.delivered_append rfl]
    calc t.delivered ++ ok.data = t.delivered ++ pdp.buf := by rw [all]
      _ = t.copiedBytes := serving.bytes
  · exact fun i d => serving.copies.every (serving.xfered ▸ full)

end Serving

theorem actual_transfer_data_went (serving : Serving stored t pdp descs status 1 fetched) :
    Ends (Went stored t.replies.length descs status fetched) (fun _ => True) (t.actualTransferData sbp) := by
  simp only [Transfer.actualTransferData, serving.deref, serving.deref_descs, bind, Except.bind]
  split
  next err failed => cases serving.fine.symm.trans failed
  next =>
    split_ifs with short full
    · refine serving.finished ?_ full
      exact rfl
    · refine serving.answered ?_ ?_
      · exact rfl
      · exact List.append_nil _
    · refine serving.answered ?_ ?_
      · exact rfl
      · exact List.take_append_drop ..

/-- A storage read of a descriptor that is on storage, if there is one. -/
theorem get_chunk_went (serving : Serving stored t pdp descs status 1 fetched) {i : ℕ} {offset : ℤ}
    (waiting : i < descs.length → status[i]? = some .onStorage) :
    Ends (Went stored t.replies.length descs status fetched) (fun _ => True) (t.getChunk sbp descs i offset) := by
  unfold Transfer.getChunk
  cases place : descs[i]? with
  | none => exact trivial
  | some d =>
    have inside : i < descs.length := (List.getElem?_eq_some_iff.mp place).1
    have reading : Serving stored { t with reads := t.reads ++ [⟨sbp, i, offset, d⟩] } pdp descs
        status 0 fetched :=
      { serving with
        reads := by
          intro read member
          obtain old | new := List.mem_append.mp member
          · exact serving.reads read old
          · rw [List.mem_singleton.mp new]
            exact ⟨place, waiting inside⟩
        owed := by
          have owed := serving.owed
          simp only [List.length_append, List.length_singleton]
          omega }
    exact reading.went rfl

theorem first_on_storage_some {i : ℕ} (found : Transfer.firstOnStorage status = some i) :
    status[i]? = some .onStorage := by
  obtain ⟨inside, holds, _⟩ := List.findIdx?_eq_some_iff_getElem.mp found
  rw [List.getElem?_eq_getElem inside, of_decide_eq_true holds]

theorem transfer_data_went (serving : Serving stored t pdp descs status 1 fetched) :
    Ends (Went stored t.replies.length descs status fetched) (fun _ => True) (t.transferData beyond sbp) := by
  simp only [Transfer.transferData, serving.deref, serving.deref_descs, serving.deref_status,
    serving.fine, serving.mode, bind, Except.bind, Option.isSome_none, Bool.false_eq_true, if_false]
  split_ifs with left listed
  · exact actual_transfer_data_went serving
  · exact serving.drop_busy.went rfl
  · cases found : Transfer.firstOnStorage status with
    | none => exact serving.drop_busy.went rfl
    | some i => exact get_chunk_went serving fun _ => first_on_storage_some found

theorem read_status_serving (serving : Serving stored t pdp descs status busy fetched) {i : ℕ} :
    Serving stored (t.readStatus beyond status i).2 pdp descs status busy fetched := by
  unfold Transfer.readStatus
  split
  · exact serving
  · exact { serving with }

theorem read_status_replies {i : ℕ} : (t.readStatus beyond status i).2.replies = t.replies := by
  unfold Transfer.readStatus
  split
  · rfl
  · rfl

/-- A status read inside the vector is the one there. -/
theorem read_status_inside {i : ℕ} (inside : i < status.length) {s : DescStatus}
    (found : (t.readStatus beyond status i).1 = s) : status[i]? = some s := by
  unfold Transfer.readStatus at found
  rw [List.getElem?_eq_getElem inside] at found
  rw [List.getElem?_eq_getElem inside, ← found]

/-- A descriptor that is done stays so when another is set to done. -/
theorem set_done_keeps {no i : ℕ} (done : status[i]? = some .done) :
    (status.set no .done)[i]? = some .done := by
  rw [List.getElem?_set]
  split_ifs with same inside
  · rfl
  · exact absurd (List.getElem?_eq_some_iff.mp done).1 (same ▸ inside)
  · exact done

/-- The one read in flight is copied. -/
theorem Serving.copied (serving : Serving stored t pdp descs status 0 fetched) {index : ℕ}
    {read : SpRead} (inFlight : t.reads[index]? = some read) {data : List UInt8}
    (chunk : stored read.desc.id = some data) (offset : ℤ) :
    let pdp' := { pdp with
      buf := pdp.buf ++ data
      descsStatus := some (status.set read.descNo .done)
      descsXfered := pdp.descsXfered + 1
      bufOffset := offset }
    Serving stored
      { t with
        reads := t.reads.eraseIdx index
        copied := t.copied ++ [(read.descNo, data)]
        pdp := some pdp' }
      pdp' descs (status.set read.descNo .done) 1 fetched := by
  obtain ⟨place, waiting⟩ := serving.reads read (List.mem_of_getElem? inFlight)
  have inside : index < t.reads.length := (List.getElem?_eq_some_iff.mp inFlight).1
  have counted : (t.reads.eraseIdx index).length + 1 = t.reads.length := by
    rw [List.length_eraseIdx_of_lt inside]
    omega
  have owed := serving.owed
  have turn := serving.turn
  have emptied : t.reads.eraseIdx index = [] := List.length_eq_zero_iff.mp (by omega)
  constructor
  case held => rfl
  case opened => exact serving.opened
  case mode => exact serving.mode
  case fine => exact serving.fine
  case listed => exact serving.listed
  case known => rfl
  case copies => exact serving.copies.copy place waiting chunk
  case xfered => simp only [serving.xfered, List.length_append, List.length_singleton]
  case bytes =>
    have bytes : t.delivered ++ pdp.buf = t.copiedBytes := serving.bytes
    simp only [Transfer.copiedBytes, List.flatMap_append, List.flatMap_singleton] at bytes ⊢
    rw [← bytes, List.append_assoc]
    rfl
  case reads =>
    rw [emptied]
    exact fun _ member => absurd member List.not_mem_nil
  case owed =>
    rw [← counted] at owed
    simpa only [Nat.add_assoc, Nat.add_comm 1, Nat.add_zero] using owed
  case turn => exact serving.turn
  case phase =>
    cases fetched with
    | false =>
      have unknown := serving.phase.1 _ (List.mem_of_getElem? waiting)
      cases unknown
    | true => exact serving.phase

/-- A storage read in flight comes back with the stored chunk. -/
theorem get_chunk_cb_went (serving : Serving stored t pdp descs status 0 fetched) {index : ℕ}
    {read : SpRead} (inFlight : t.reads[index]? = some read) {data : List UInt8}
    (chunk : stored read.desc.id = some data) :
    Ends (Went stored t.replies.length descs status fetched) (fun _ => True)
      ({ t with reads := t.reads.eraseIdx index }.getChunkCb beyond read (.ok data)) := by
  have copied := serving.copied inFlight chunk
  simp only [Transfer.getChunkCb, Transfer.deref, serving.held, serving.deref_descs,
    serving.deref_status, bind, Except.bind]
  generalize (if 0 ≤ read.offset then int32 read.offset else pdp.bufOffset) = offset
  split
  next outside => exact trivial
  split
  next short =>
    split
    next next =>
      split
      next sequential => cases serving.mode.symm.trans sequential
      next =>
        refine (get_chunk_went (read_status_serving (copied _)) fun small => ?_).imp fun _ went => ?_
        · refine read_status_inside ?_ next
          rw [(copied 0).copies.length]
          exact small
        · rw [read_status_replies] at went
          exact went.of_kept fun _ => set_done_keeps
    next =>
      refine (actual_transfer_data_went (read_status_serving (copied _))).imp fun _ went => ?_
      rw [read_status_replies] at went
      exact went.of_kept fun _ => set_done_keeps
  next =>
    refine (actual_transfer_data_went (copied _)).imp fun _ went => ?_
    exact went.of_kept fun _ => set_done_keeps

theorem resume_xcb_went (serving : Serving stored t pdp descs status 0 fetched)
    (parked : pdp.xcb = some sbp) :
    Ends (Went stored t.replies.length descs status fetched) (fun _ => True)
      (t.resumeXcb beyond pdp sbp) := by
  have resumed : Serving stored { t with pdp := some { pdp with xcb := none } }
      { pdp with xcb := none } descs status 1 fetched :=
    { serving with
      held := rfl
      owed := by
        have owed := serving.owed
        simp only [parked, Option.toList_some, List.length_singleton] at owed
        simp only [Option.toList_none, List.length_nil]
        omega }
  exact transfer_data_went resumed

end Ditto.Downloads
