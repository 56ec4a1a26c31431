import Ditto.Downloads
import Ditto.Sequences
import Ditto.Outcomes

/-! What a download stores. Its handlers take references to chunks and give them
back; the one chunk a handler stores is the one that arrives from the transfer
plugin. -/
namespace Ditto.Downloads
open XferGtc (Descriptor)
open Outcomes Logs

variable {t : Transfer} {pdp : XferData} {status : List DescStatus} {beyond : ℕ → DescStatus}
  {sbp : Sbp}

/-- The transfer stores nothing. -/
def StoresNothing (t after : Transfer) : Prop :=
  Grows (fun op => op.put = none) t.spOps after.spOps

theorem StoresNothing.of_ops {before after : Transfer} (same : before.spOps = t.spOps)
    (nothing : StoresNothing before after) : StoresNothing t after := by
  unfold StoresNothing at nothing ⊢
  rw [← same]
  exact nothing

theorem deref_ends (t : Transfer) :
    Ends (fun _ => True) (fun _ => True) t.deref := by
  unfold Transfer.deref
  split <;> trivial

theorem deref_member_ends (member : Option α) :
    Ends (fun _ => True) (fun _ => True) (Transfer.derefMember member) := by
  unfold Transfer.derefMember
  split <;> trivial

theorem read_status_ops (status : List DescStatus) (i : ℕ) :
    (t.readStatus beyond status i).2.spOps = t.spOps := by
  unfold Transfer.readStatus
  split
  · rfl
  · rfl

theorem get_chunk_ops (descs : List Descriptor) (descNo : ℕ) (offset : ℤ) :
    Ends (fun after => after.spOps = t.spOps) (fun _ => True) (t.getChunk sbp descs descNo offset) := by
  unfold Transfer.getChunk
  split
  · rfl
  · trivial

theorem actual_transfer_data_stores_nothing :
    Ends (StoresNothing t) (fun _ => True) (t.actualTransferData sbp) := by
  unfold Transfer.actualTransferData
  refine (deref_ends t).bind fun pdp _ => ?_
  split
  · exact Grows.same rfl
  split
  · refine (deref_member_ends pdp.descs).bind fun descs _ => ?_
    dsimp only
    split
    · refine ⟨descs.map .releaseIchunk, rfl, fun op member => ?_⟩
      obtain ⟨d, _, rfl⟩ := List.mem_map.mp member
      rfl
    · exact Grows.same rfl
  · exact Grows.same rfl

/-- A storage read, from a transfer with the same storage calls. -/
theorem get_chunk_stores_nothing {before : Transfer} (same : before.spOps = t.spOps)
    (descs : List Descriptor) (descNo : ℕ) (offset : ℤ) :
    Ends (StoresNothing t) (fun _ => True) (before.getChunk sbp descs descNo offset) :=
  (get_chunk_ops descs descNo offset).imp fun _ ops => Grows.same (ops.trans same)

theorem transfer_data_stores_nothing :
    Ends (StoresNothing t) (fun _ => True) (t.transferData beyond sbp) := by
  unfold Transfer.transferData
  refine (deref_ends t).bind fun pdp _ => ?_
  split
  · exact actual_transfer_data_stores_nothing
  split
  next sequential =>
    split
    · refine (deref_member_ends pdp.descs).bind fun descs _ => ?_
      split
      · refine (deref_member_ends pdp.descsStatus).bind fun status _ => ?_
        dsimp only
        split
        · refine get_chunk_stores_nothing ?_ descs _ _
          exact read_status_ops status _
        · exact actual_transfer_data_stores_nothing.imp
            fun _ nothing => nothing.of_ops (read_status_ops status _)
      · exact actual_transfer_data_stores_nothing
    · exact actual_transfer_data_stores_nothing
  next outOfOrder =>
    split
    · exact actual_transfer_data_stores_nothing
    · refine (deref_member_ends pdp.descs).bind fun descs _ => ?_
      split
      · exact Grows.same rfl
      · refine (deref_member_ends pdp.descsStatus).bind fun status _ => ?_
        split
        · exact get_chunk_stores_nothing rfl descs _ _
        · exact Grows.same rfl

theorem resume_xcb_stores_nothing :
    Ends (StoresNothing t) (fun _ => True) (t.resumeXcb beyond pdp sbp) :=
  transfer_data_stores_nothing.imp fun _ nothing => nothing.of_ops rfl

theorem get_chunk_cb_stores_nothing (read : SpRead) (res : Except String (List UInt8)) :
    Ends (StoresNothing t) (fun _ => True) (t.getChunkCb beyond read res) := by
  unfold Transfer.getChunkCb
  refine (deref_ends t).bind fun pdp _ => ?_
  split
  next s => exact actual_transfer_data_stores_nothing.imp fun _ nothing => nothing.of_ops rfl
  next data =>
    refine (deref_member_ends pdp.descsStatus).bind fun status _ => ?_
    refine (deref_member_ends pdp.descs).bind fun descs _ => ?_
    split
    · trivial
    dsimp only
    generalize (if 0 ≤ read.offset then int32 read.offset else pdp.bufOffset) = offset
    split
    · split
      · split
        · split
          · trivial
          · refine get_chunk_stores_nothing ?_ descs _ _
            exact read_status_ops _ _
        · refine get_chunk_stores_nothing ?_ descs _ _
          exact read_status_ops _ _
      · refine actual_transfer_data_stores_nothing.imp fun _ nothing => nothing.of_ops ?_
        exact read_status_ops _ _
    · exact actual_transfer_data_stores_nothing.imp fun _ nothing => nothing.of_ops rfl

theorem get_data_stores_nothing (xferId : XferId) :
    Ends (StoresNothing t) (fun _ => True) (t.getData beyond xferId sbp) := by
  have sendable : ∀ pdp, Ends (fun ready : Bool × Transfer => ready.2.spOps = t.spOps)
      (fun _ => True) (t.sendable beyond pdp) := by
    intro pdp
    unfold Transfer.sendable
    split
    · rfl
    split
    · rfl
    · refine (deref_member_ends pdp.descsStatus).bind fun status _ => ?_
      exact read_status_ops status _
  unfold Transfer.getData
  split
  next => exact Grows.same rfl
  next pdp held =>
    refine (sendable pdp).bind fun ready same => ?_
    obtain ⟨ready, before⟩ := ready
    have same : before.spOps = t.spOps := same
    have sends : Ends (StoresNothing t) (fun _ => True) (before.transferData beyond sbp) :=
      transfer_data_stores_nothing.imp fun _ nothing => nothing.of_ops same
    dsimp only
    split
    · exact sends
    · refine (deref_member_ends pdp.descs).bind fun descs _ => ?_
      split
      · exact Grows.same same
      · have available : Ends (fun _ => True) (fun _ => True)
            (Transfer.available pdp descs) := by
          unfold Transfer.available
          split
          · trivial
          split
          · trivial
          · exact (deref_member_ends pdp.descsStatus).bind fun _ _ => trivial
        refine available.bind fun found _ => ?_
        split
        · exact sends
        split
        · exact Grows.same same
        · exact Grows.same same

theorem resume_fetched_stores_nothing :
    Ends (StoresNothing t) (fun _ => True) (t.resumeFetched beyond pdp status) := by
  unfold Transfer.resumeFetched
  split
  · exact Grows.same rfl
  · dsimp only
    split
    · exact resume_xcb_stores_nothing.imp fun _ more => more.of_ops (read_status_ops _ _)
    · exact Grows.same (read_status_ops _ _)
  · split
    · exact resume_xcb_stores_nothing
    · exact Grows.same rfl

theorem resume_arrived_stores_nothing :
    Ends (StoresNothing t) (fun _ => True) (t.resumeArrived beyond pdp status) := by
  unfold Transfer.resumeArrived
  split
  · exact Grows.same rfl
  · exact resume_xcb_stores_nothing
  · dsimp only
    split
    · exact resume_xcb_stores_nothing.imp fun _ more => more.of_ops (read_status_ops _ _)
    · exact Grows.same (read_status_ops _ _)

theorem fetch_data_stores_nothing (held : Descriptor → Bool) :
    Ends (StoresNothing t) (fun _ => True) (t.fetchData beyond held) := by
  unfold Transfer.fetchData
  refine (deref_ends t).bind fun pdp _ => ?_
  refine (deref_member_ends pdp.descsStatus).bind fun _ _ => ?_
  refine (deref_member_ends pdp.descs).bind fun descs _ => ?_
  dsimp only
  have counted : ∀ pdp' : XferData, StoresNothing t { t with
      pdp := some pdp'
      spOps := t.spOps ++ (descs.filter held).map SpOp.incChunkRefcount } := by
    intro pdp'
    refine ⟨_, rfl, fun op member => ?_⟩
    obtain ⟨d, _, rfl⟩ := List.mem_map.mp member
    rfl
  have resumed : ∀ before pdp' status, StoresNothing t before →
      Ends (StoresNothing t) (fun _ => True)
        (Transfer.resumeFetched before beyond pdp' status) :=
    fun _ _ _ nothing => resume_fetched_stores_nothing.imp fun _ more => nothing.trans more
  refine (resumed _ _ _ (counted _)).bind fun after nothing => ?_
  split
  · exact nothing
  · exact (deref_member_ends pdp.hints).bind fun _ _ => nothing

/-- An arriving chunk is all that a transfer stores. -/
theorem xp_fetch_data_cb_stores (res : Except String (Descriptor × List UInt8)) :
    Ends (fun after => Grows (fun op => ∀ put, op.put = some put → res = .ok put) t.spOps after.spOps)
      (fun _ => True) (t.xpFetchDataCb beyond res) := by
  have nothing : ∀ {before after : Transfer}, before.spOps = t.spOps →
      StoresNothing before after →
      Grows (fun op => ∀ put, op.put = some put → res = .ok put) t.spOps after.spOps := by
    intro before after same nothing
    refine (nothing.of_ops same).imp fun op none_put put stored => ?_
    cases none_put.symm.trans stored
  unfold Transfer.xpFetchDataCb
  split
  · exact Grows.same rfl
  next pdp held =>
    dsimp only
    split
    · split
      · exact resume_xcb_stores_nothing.imp fun _ more => nothing rfl more
      · exact Grows.same rfl
    · split
      · exact resume_xcb_stores_nothing.imp fun _ more => nothing rfl more
      · exact Grows.same rfl
    next desc data _ =>
      refine (deref_member_ends pdp.descsStatus).bind fun status _ => ?_
      refine (deref_member_ends pdp.descs).bind fun descs _ => ?_
      have stored : Grows (fun op => ∀ put, op.put = some put →
          (Except.ok (desc, data) : Except String (Descriptor × List UInt8)) = .ok put) t.spOps
          (if (Transfer.arrive desc.id descs status).2 then
            t.spOps ++ [.putIchunk desc data] else t.spOps) := by
        split
        · refine Grows.snoc fun put stored => ?_
          cases stored
          rfl
        · exact Grows.same rfl
      have silent : ∀ {op : SpOp}, op.put = none → ∀ put, op.put = some put →
          (Except.ok (desc, data) : Except String (Descriptor × List UInt8)) = .ok put :=
        fun none_put put some_put => by cases none_put.symm.trans some_put
      exact resume_arrived_stores_nothing.imp fun _ more => stored.trans (more.imp fun _ => silent)

end Ditto.Downloads
