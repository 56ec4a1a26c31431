import Ditto.GtcNode
import Ditto.Sequences

/-! The descriptors of an object asked of a peer for a GET_INIT: the server's reply to one
call, what the client does with it, and the loop the two make with `get_init_cb`, which
appends each part to the descriptors of the transfer. The parts are the pages of the
server's list. -/
namespace Ditto.DescriptorExchange
open Words Paging Downloads
open XferGtc (Descriptor DescriptorsResOk Plugin Reply ConnId Env Answer)

/-- `remote_get_descriptors_cb`: `s` is the storage's error, `descs` its answer, and
`maxd` the most descriptors that one reply carries. -/
def remoteGetDescriptorsCb (maxd offset : UInt32) (s : Option String) (descs : List Descriptor) :
    Except String DescriptorsResOk :=
  match s with
  | some s => .error s
  | none =>
    if 0 < offset ∧ descs.length ≤ offset.toNat then .error "Too large offset for GET_DESCRIPTORS"
    else
      let left := descs.length - offset.toNat
      let numd := min (UInt32.ofNat left) maxd
      .ok {
        offset := offset.toUInt64
        count := numd
        descriptors := (descs.drop offset.toNat).take numd.toNat
        ended := decide (left ≤ maxd.toNat) }

/-- What the client does with a reply: the offset it calls the peer from again, if it does,
and what its callback is called with. -/
structure DescriptorsNext where
  again : Option ℤ
  res : Except String (List Descriptor × Bool)

/-- `get_desc_internal_cb` on a call that was answered. The function's name stands for
`__PRETTY_FUNCTION__` in its message. -/
def getDescInternalCb : Except String DescriptorsResOk → Option DescriptorsNext
  | .error errmsg => some ⟨none, .error ("xferPlugin_gtc::get_desc_internal_cb" ++
      " XFERGTC_PROC_GET_DESCRIPTORS returned:\n`" ++ errmsg ++ "'\n")⟩
  | .ok resok =>
    if resok.descriptors.length < resok.count.toNat then none
    else
      let next := toInt (resok.count.toUInt64 + resok.offset).toUInt32
      some ⟨if resok.ended then none else some next,
        .ok (resok.descriptors.take resok.count.toNat, resok.ended)⟩

/-- The reply as the client's plugin reads it. -/
def wire : Except String DescriptorsResOk → Reply DescriptorsResOk
  | .error errmsg => .notOk errmsg
  | .ok resok => .ok resok

/-- It is what the plugin does, next to its book-keeping for the connection. -/
theorem plugin_descriptors_reply {κ : Type} (p : Plugin κ) (env : Env) (oid : List UInt8)
    (hints : List String) (cb : κ) (conn : ConnId) (res : Except String DescriptorsResOk) :
    p.getDescInternalCb env oid hints cb conn (wire res) =
      match res, getDescInternalCb res with
      | .error _, some next => .ok (p.answer (.descriptors cb next.res))
      | .ok _, some next => do
        let p ← match next.again with
          | none => p.releaseConn conn
          | some offset => p.getDescriptorsInt oid offset cb hints conn
        .ok (p.answer (.descriptors cb next.res))
      | _, none => .error .outOfRange := by
  cases res with
  | error errmsg => rfl
  | ok resok =>
    simp only [wire, Plugin.getDescInternalCb, getDescInternalCb]
    split
    · rfl
    · cases resok.ended <;> rfl

/-- `get_descriptors_int` for a transfer whose GET_INIT waits, with its replies: the states
after each, in at most `fuel` calls. The `int` offset travels as a `dot_offset` and is cut
to an `unsigned int` again. -/
def getDescriptorsInt (maxd : UInt32) (stored : List Descriptor) (beyond : ℕ → DescStatus)
    (xferId : XferId) [SendSize] : ℕ → ℤ → Gtcd → Option (List Gtcd)
  | 0, _, _ => none
  | fuel + 1, offset, g => do
    let next ← getDescInternalCb (remoteGetDescriptorsCb maxd (UInt64.ofInt offset).toUInt32 none stored)
    let g ← (g.step beyond (.getInitCb xferId next.res)).toOption
    match next.again with
    | none => some [g]
    | some offset => do
      let rest ← getDescriptorsInt maxd stored beyond xferId fuel offset g
      some (g :: rest)

/-- A `vec<dot_descriptor>`, whose elements the code counts in an `unsigned int`. -/
structure DescVec where
  elems : List Descriptor
  counted : elems.length < 2 ^ 32

variable {maxd : UInt32} {first fuel : ℕ} {descs : DescVec} {g : Gtcd} {xferId : XferId} {pdp : XferData}
  {call : InitCall} {beyond : ℕ → DescStatus}

/-! ## Parts -/

/-- How many descriptors a reply carries. -/
theorem numd_toNat (short : first < 2 ^ 32) :
    (min (UInt32.ofNat first) maxd).toNat = min first maxd.toNat := by
  have small : (UInt32.ofNat first).toNat = first := by
    rw [UInt32.toNat_ofNat']
    omega
  show (if UInt32.ofNat first ≤ maxd then UInt32.ofNat first else maxd).toNat = min first maxd.toNat
  split
  next fits =>
    rw [UInt32.le_iff_toNat_le] at fits
    omega
  next more =>
    rw [UInt32.le_iff_toNat_le] at more
    omega

/-- The server's reply is a page. -/
theorem remote_page (inside : first < descs.elems.length ∨ first = 0) :
    remoteGetDescriptorsCb maxd (UInt64.ofInt (toInt (UInt32.ofNat first))).toUInt32 none descs.elems = .ok {
      offset := (UInt32.ofNat first).toUInt64
      count := min (UInt32.ofNat (descs.elems.length - first)) maxd
      descriptors := page maxd.toNat descs.elems first
      ended := decide (descs.elems.length - first ≤ maxd.toNat) } := by
  have counted := descs.counted
  have offset : (UInt32.ofNat first).toNat = first := by
    rw [UInt32.toNat_ofNat']
    omega
  have few : ¬ (0 < UInt32.ofNat first ∧ descs.elems.length ≤ first) := by
    rintro ⟨later, past⟩
    rw [UInt32.lt_iff_toNat_lt, offset] at later
    have zero : (0 : UInt32).toNat = 0 := rfl
    omega
  rw [toUInt32_ofInt, ofInt_toInt, remoteGetDescriptorsCb]
  simp only [offset, if_neg few, page]
  congr 2
  rw [numd_toNat (by omega), List.take_eq_take_iff, List.length_drop]
  omega

/-- The client's callback gets the page, and the client calls again unless it is the last. -/
theorem client_page (inside : first < descs.elems.length ∨ first = 0) :
    (remoteGetDescriptorsCb maxd (UInt64.ofInt (toInt (UInt32.ofNat first))).toUInt32 none descs.elems |>
      getDescInternalCb) = some ⟨
        if descs.elems.length - first ≤ maxd.toNat then none else some (toInt (UInt32.ofNat (first + maxd.toNat))),
        .ok (page maxd.toNat descs.elems first, decide (descs.elems.length - first ≤ maxd.toNat))⟩ := by
  have counted := descs.counted
  have size : (page maxd.toNat descs.elems first).length = min (descs.elems.length - first) maxd.toNat := by
    rw [page, List.length_take, List.length_drop, Nat.min_comm]
  have count : (min (UInt32.ofNat (descs.elems.length - first)) maxd).toNat =
      (page maxd.toNat descs.elems first).length := by
    rw [size, numd_toNat (by omega)]
  rw [remote_page inside]
  simp only [getDescInternalCb, count, lt_irrefl, if_false, List.take_length, decide_eq_true_eq]
  congr 2
  split
  · rfl
  next more =>
    congr 2
    have all : min (UInt32.ofNat (descs.elems.length - first)) maxd = maxd := by
      rw [← UInt32.toNat_inj, numd_toNat (by omega)]
      omega
    rw [all, UInt64.toUInt32_add, UInt32.toUInt32_toUInt64, UInt32.toUInt32_toUInt64, UInt32.ofNat_add,
      UInt32.ofNat_toNat, UInt32.add_comm]

/-! ## Rounds -/

/-- The transfer with the descriptors before an offset. -/
def collected (g : Gtcd) (xferId : XferId) (pdp : XferData) (descs : List Descriptor) (first : ℕ) : Gtcd :=
  let t := { g.transfers xferId with
    pdp := some { pdp with descs := if first = 0 then none else some (descs.take first) } }
  { g with transfers := Function.update g.transfers xferId t }

/-- The transfer with all of them, and the reply to its GET_INIT. -/
def arrived (g : Gtcd) (xferId : XferId) (pdp : XferData) (sbp : Sbp) (descs : List Descriptor) : Gtcd :=
  let t := { g.transfers xferId with
    pdp := some { pdp with
      descs := some descs
      descsStatus := some (List.replicate descs.length .unknown) }
    opening := none }
  { g with
    transfers := Function.update g.transfers xferId t
    initReplies := g.initReplies ++ [(sbp, .ok xferId)] }

theorem collected_none (held : (g.transfers xferId).pdp = some pdp) (unlisted : pdp.descs = none) :
    collected g xferId pdp descs.elems 0 = g := by
  have same : { pdp with descs := none } = pdp := by rw [← unlisted]
  simp only [collected, if_true, same, ← held, Function.update_eq_self]

section

variable [SendSize]

/-- A part: the first is taken as it is, another is put after what came before. -/
theorem part_round (opening : (g.transfers xferId).opening = some call) (positive : 0 < maxd.toNat) :
    (collected g xferId pdp descs.elems first).step beyond
      (.getInitCb xferId (.ok (page maxd.toNat descs.elems first, false))) =
        .ok (collected g xferId pdp descs.elems (first + maxd.toNat)) := by
  have later : first + maxd.toNat ≠ 0 := by omega
  simp only [Gtcd.step, collected, Function.update_self, opening, Gtcd.getInitCb, Transfer.deref, bind, Except.bind,
    Function.update_idem, Bool.false_eq_true, if_false, if_neg later]
  rcases Nat.eq_zero_or_pos first with rfl | before
  · simp only [if_true, Nat.zero_add, page, List.drop_zero]
  · simp only [if_neg (Nat.ne_of_gt before), take_page]

/-- The last part. -/
theorem last_part_round (opening : (g.transfers xferId).opening = some call)
    (last : descs.elems.length - first ≤ maxd.toNat) :
    (collected g xferId pdp descs.elems first).step beyond
      (.getInitCb xferId (.ok (page maxd.toNat descs.elems first, true))) =
        .ok (arrived g xferId pdp call.sbp descs.elems) := by
  simp only [Gtcd.step, collected, arrived, Function.update_self, opening, Gtcd.getInitCb, Transfer.deref, bind,
    Except.bind, Function.update_idem, if_true, List.map_const', page_last last]
  rcases Nat.eq_zero_or_pos first with rfl | before
  · simp only [if_true, List.drop_zero]
  · simp only [if_neg (Nat.ne_of_gt before), List.take_append_drop]

/-- **The descriptors arrive** complete and in order, and GET_INIT is answered with the last
part and not before. -/
theorem descriptors_arrive (descs : DescVec) (positive : 0 < maxd)
    (held : (g.transfers xferId).pdp = some pdp) (unlisted : pdp.descs = none)
    (opening : (g.transfers xferId).opening = some call) (enough : pageCount maxd.toNat descs.elems.length ≤ fuel) :
    ∃ states final pdp', getDescriptorsInt maxd descs.elems beyond xferId fuel 0 g = some (states ++ [final]) ∧
      (∀ state ∈ states, state.initReplies = g.initReplies) ∧
      final.initReplies = g.initReplies ++ [(call.sbp, .ok xferId)] ∧
      (final.transfers xferId).pdp = some pdp' ∧ pdp'.descs = some descs.elems ∧
      pdp'.descsStatus = some (List.replicate descs.elems.length .unknown) := by
  have rounds : ∀ fuel, (offsets maxd.toNat descs.elems.length).length ≤ fuel → ∃ states,
      getDescriptorsInt maxd descs.elems beyond xferId fuel (toInt (UInt32.ofNat 0))
        (collected g xferId pdp descs.elems 0) =
          some (states ++ [arrived g xferId pdp call.sbp descs.elems]) ∧
        ∀ state ∈ states, state.initReplies = g.initReplies := by
    apply @paged_induction maxd.toNat descs.elems.length fun first asked => ∀ fuel, asked.length ≤ fuel →
      ∃ states, getDescriptorsInt maxd descs.elems beyond xferId fuel (toInt (UInt32.ofNat first))
        (collected g xferId pdp descs.elems first) =
          some (states ++ [arrived g xferId pdp call.sbp descs.elems]) ∧
        ∀ state ∈ states, state.initReplies = g.initReplies
    case positive => exact UInt32.lt_iff_toNat_lt.mp positive
    case last =>
      intro first inside last fuel enough
      obtain ⟨fuel, rfl⟩ := Nat.exists_eq_succ_of_ne_zero (Nat.ne_of_gt enough)
      refine ⟨[], ?_, nofun⟩
      rw [getDescriptorsInt, client_page inside]
      simp [last, last_part_round opening last, Except.toOption]
    case more =>
      intro first rest more ih fuel enough
      obtain ⟨fuel, rfl⟩ := Nat.exists_eq_succ_of_ne_zero (Nat.ne_of_gt (Nat.lt_of_lt_of_le (Nat.succ_pos _) enough))
      obtain ⟨states, ran, unanswered⟩ := ih fuel (Nat.le_of_succ_le_succ enough)
      refine ⟨collected g xferId pdp descs.elems (first + maxd.toNat) :: states, ?_, ?_⟩
      · rw [getDescriptorsInt, client_page (by omega)]
        simp only [Nat.not_le.mpr more, decide_false, if_false, Option.bind_eq_bind, Option.bind_some,
          part_round opening (UInt32.lt_iff_toNat_lt.mp positive), Except.toOption, ran, List.cons_append]
      · intro state member
        rcases List.mem_cons.mp member with rfl | member
        · rfl
        · exact unanswered state member
  rw [length_offsets, collected_none held unlisted] at rounds
  obtain ⟨states, ran, unanswered⟩ := rounds fuel enough
  have final : ((arrived g xferId pdp call.sbp descs.elems).transfers xferId).pdp = some { pdp with
      descs := some descs.elems
      descsStatus := some (List.replicate descs.elems.length .unknown) } := by
    simp only [arrived, Function.update_self]
  exact ⟨states, _, _, ran, unanswered, rfl, final, rfl, rfl⟩

end

/-- Three descriptors, two in a reply, for the first GET_INIT of a client. -/
def threeDescs : DescVec := ⟨[⟨[1], 5⟩, ⟨[2], 5⟩, ⟨[3], 5⟩], by decide⟩

theorem descriptors_arrive_three : ∃ states final pdp',
    getDescriptorsInt 2 threeDescs.elems (fun _ => .unknown) 1 2 0
        ((Gtcd.init fun _ => none).getInit 7 [1] ["gtc:1"] (some .sequential)) = some (states ++ [final]) ∧
      (∀ state ∈ states, state.initReplies = []) ∧ final.initReplies = [(7, .ok 1)] ∧
      (final.transfers 1).pdp = some pdp' ∧ pdp'.descs = some threeDescs.elems ∧
      pdp'.descsStatus = some (List.replicate 3 .unknown) :=
  @descriptors_arrive 2 2 _ 1 _ ⟨7, false⟩ _ _ threeDescs (by decide) rfl rfl rfl (by decide)

end Ditto.DescriptorExchange
