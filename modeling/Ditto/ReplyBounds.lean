import Ditto.ConnectionShape

/-! What the client touches while it unpacks a reply. Three loops run up to the
count the peer wrote into the reply, over an array of the peer's and over vectors
sized by the peer's numbers, and nothing compares the count with the array. The
loops are given here by the indices they use, next to the length of what is
indexed, so that the bound is a property of the reply alone. -/
namespace Ditto.XferGtc
open Words Runs Outcomes

/-- An index into an array, with the array's length. -/
structure Access where
  index : ℕ
  size : ℕ
  deriving DecidableEq, Repr

def Access.Inside (a : Access) : Prop := a.index < a.size

instance : DecidablePred Access.Inside := fun a => inferInstanceAs (Decidable (a.index < a.size))

/-- The loop of `get_desc_internal_cb`, from the reply's array to a vector. -/
def descAccesses (resok : DescriptorsResOk) : List Access :=
  (List.range resok.count.toNat).flatMap fun i =>
    [⟨i, resok.count.toNat⟩, ⟨i, resok.descriptors.length⟩]

/-- The length of a bit vector that is given an `int`. -/
def bitvecSize (descCount : UInt32) : ℕ := (UInt64.ofInt (toInt descCount)).toNat

/-- The loop of `convert_to_bitvec`. -/
def convertAccesses (bmp : List UInt8) (descCount : UInt32) : List Access :=
  (List.range descCount.toNat).flatMap fun i => [⟨i, bitvecSize descCount⟩, ⟨i / 8, bmp.length⟩]

/-- `get_bitmap_internal_cb`: the conversion, and the loop that stores its bits at
the reply's offset. The sums are of 64 bits, as the offset is. -/
def bitmapAccesses (resok : BitmapResOk) : List Access :=
  convertAccesses resok.bmp resok.count ++
    (List.range resok.count.toNat).flatMap fun i =>
      [⟨(UInt64.ofNat i + resok.offset).toNat, (resok.count.toUInt64 + resok.offset).toNat⟩,
        ⟨i, bitvecSize resok.count⟩]

/-- The reply brings every descriptor it counts. -/
def DescriptorsResOk.Covered (resok : DescriptorsResOk) : Prop :=
  resok.count.toNat ≤ resok.descriptors.length

/-- The reply brings every bit it counts, and its last bit has a number. -/
def BitmapResOk.Covered (resok : BitmapResOk) : Prop :=
  resok.count.toNat ≤ 8 * resok.bmp.length ∧
    (resok.count = 0 ∨ resok.offset.toNat + resok.count.toNat < 2 ^ 64)

theorem desc_inside_iff (resok : DescriptorsResOk) :
    (∀ a ∈ descAccesses resok, a.Inside) ↔ resok.Covered := by
  simp only [descAccesses, List.mem_flatMap, List.mem_range, List.mem_cons, List.not_mem_nil, or_false]
  constructor
  · intro inside
    by_contra short
    unfold DescriptorsResOk.Covered at short
    have last := inside ⟨resok.descriptors.length, resok.descriptors.length⟩
      ⟨_, by omega, .inr rfl⟩
    exact Nat.lt_irrefl _ last
  · rintro covered a ⟨i, counted, rfl | rfl⟩
    · exact counted
    · exact Nat.lt_of_lt_of_le counted covered

/-- The vector a count is unpacked to is long enough, a negative one even longer. -/
theorem count_le_bitvec_size (descCount : UInt32) : descCount.toNat ≤ bitvecSize descCount := by
  have bound := descCount.toNat_lt
  rw [bitvecSize, UInt64.ofInt, UInt64.toNat_ofNat', toInt]
  split <;> omega

theorem convert_inside_iff (bmp : List UInt8) (descCount : UInt32) :
    (∀ a ∈ convertAccesses bmp descCount, a.Inside) ↔ descCount.toNat ≤ 8 * bmp.length := by
  simp only [convertAccesses, List.mem_flatMap, List.mem_range, List.mem_cons, List.not_mem_nil,
    or_false]
  constructor
  · intro inside
    by_contra short
    have last : 8 * bmp.length / 8 < bmp.length :=
      inside ⟨8 * bmp.length / 8, bmp.length⟩ ⟨8 * bmp.length, by omega, .inr rfl⟩
    omega
  · rintro covered a ⟨i, counted, rfl | rfl⟩
    · exact Nat.lt_of_lt_of_le counted (count_le_bitvec_size descCount)
    · show i / 8 < bmp.length
      omega

/-- The sum that sizes the vector wraps. -/
theorem store_wraps_iff (resok : BitmapResOk) :
    resok.count.toUInt64 + resok.offset < resok.offset ↔
      ¬ (resok.count = 0 ∨ resok.offset.toNat + resok.count.toNat < 2 ^ 64) := by
  have counts := resok.count.toNat_lt
  have offsets := resok.offset.toNat_lt
  rw [UInt64.lt_iff_toNat_lt, UInt64.toNat_add, UInt32.toNat_toUInt64, ← UInt32.toNat_inj,
    UInt32.toNat_zero]
  omega

/-- The bits go into the vector exactly if the sum that sizes it does not wrap. -/
theorem store_inside_iff (resok : BitmapResOk) :
    (∀ i < resok.count.toNat,
      (UInt64.ofNat i + resok.offset).toNat < (resok.count.toUInt64 + resok.offset).toNat) ↔
      resok.count = 0 ∨ resok.offset.toNat + resok.count.toNat < 2 ^ 64 := by
  have counts := resok.count.toNat_lt
  have offsets := resok.offset.toNat_lt
  simp only [UInt64.toNat_add, UInt64.toNat_ofNat', UInt32.toNat_toUInt64, ← UInt32.toNat_inj,
    UInt32.toNat_zero]
  constructor
  · intro inside
    by_contra! beyond
    obtain ⟨counted, wraps⟩ := beyond
    have first := inside 0 (Nat.pos_of_ne_zero counted)
    omega
  · rintro (zero | fits) i counted
    · omega
    · omega

theorem bitmap_inside_iff (resok : BitmapResOk) :
    (∀ a ∈ bitmapAccesses resok, a.Inside) ↔ resok.Covered := by
  rw [bitmapAccesses, List.forall_mem_append, convert_inside_iff, BitmapResOk.Covered,
    ← store_inside_iff]
  refine and_congr_right fun covered => ?_
  simp only [List.mem_flatMap, List.mem_range, List.mem_cons, List.not_mem_nil, or_false]
  constructor
  · intro inside i counted
    exact inside ⟨_, _⟩ ⟨i, counted, .inl rfl⟩
  · rintro inside a ⟨i, counted, rfl | rfl⟩
    · exact inside i counted
    · exact Nat.lt_of_lt_of_le counted (count_le_bitvec_size resok.count)

/-! ## The callbacks -/

variable {κ : Type}

/-- Only a reply that is not covered is read past its end. -/
theorem get_desc_internal_cb_overreads_iff (p : Plugin κ) (env : Env) (oid : List UInt8)
    (hints : List String) (cb : κ) (conn : ConnId) (resok : DescriptorsResOk) :
    p.getDescInternalCb env oid hints cb conn (.ok resok) = .error .outOfRange ↔
      ¬ ∀ a ∈ descAccesses resok, a.Inside := by
  rw [desc_inside_iff, DescriptorsResOk.Covered, Nat.not_le]
  by_cases short : resok.descriptors.length < resok.count.toNat
  · refine ⟨fun _ => short, fun _ => ?_⟩
    simp only [Plugin.getDescInternalCb]
    exact if_pos short
  · refine ⟨fun failed => ?_, fun beyond => absurd beyond short⟩
    -- what is left of the callback can only find its connection gone
    have gone : Ends (fun _ => True) (fun f => f = Fault.useAfterDelete)
        (p.getDescInternalCb env oid hints cb conn (.ok resok)) := by
      simp only [Plugin.getDescInternalCb]
      rw [if_neg short]
      split
      · exact Ends.bind (Plugin.release_conn_ends fun _ => rfl) fun _ _ => True.intro
      · exact Ends.bind (Plugin.call_ends fun _ => rfl) fun _ _ => True.intro
    cases gone.of_error failed

/-- The unpacking ends without a bit vector where it would touch something outside, or
where the count is a size no vector can be given. -/
theorem get_bitmap_internal_cb_overreads_iff (resok : BitmapResOk) (bmp : List Bool) :
    getBitmapInternalCb (.ok resok) bmp = none ↔
      toInt resok.count < 0 ∨ ¬ ∀ a ∈ bitmapAccesses resok, a.Inside := by
  rw [bitmap_inside_iff, BitmapResOk.Covered]
  simp only [getBitmapInternalCb, convertToBitvec, Option.bind_eq_bind]
  by_cases negative : toInt resok.count < 0
  · rw [if_pos (Or.inl negative)]
    exact iff_of_true rfl (.inl negative)
  by_cases short : 8 * resok.bmp.length < resok.count.toNat
  · rw [if_pos (Or.inr short)]
    exact iff_of_true rfl (.inr fun covered => Nat.not_le.mpr short covered.1)
  rw [if_neg (not_or.mpr ⟨negative, short⟩), Option.bind_some]
  have wraps_iff := store_wraps_iff resok
  by_cases wraps : resok.count.toUInt64 + resok.offset < resok.offset
  · rw [if_pos wraps]
    exact iff_of_true rfl (.inr fun covered => wraps_iff.mp wraps covered.2)
  · rw [if_neg wraps]
    refine iff_of_false (Option.some_ne_none _) (not_or.mpr ⟨negative, not_not.mpr ⟨Nat.not_lt.mp short, ?_⟩⟩)
    exact not_not.mp (mt wraps_iff.mpr wraps)

/-! ## Runs -/

namespace Plugin

/-- What the plugin touches when the event completes a call. -/
def accesses (p : Plugin κ) : Event κ → List Access
  | .descriptorsReply index (.ok resok) =>
    match p.calls[index]? with
    | some ⟨_, .descriptors ..⟩ => descAccesses resok
    | _ => []
  | .bitmapReply index (.ok resok) =>
    match p.calls[index]? with
    | some ⟨_, .bitmap ..⟩ => bitmapAccesses resok
    | _ => []
  | _ => []

/-- The event completes no call with a reply that claims more than it brings. -/
def Covered (p : Plugin κ) : Event κ → Prop
  | .descriptorsReply index (.ok resok) =>
    match p.calls[index]? with
    | some ⟨_, .descriptors ..⟩ => resok.Covered
    | _ => True
  | .bitmapReply index (.ok resok) =>
    match p.calls[index]? with
    | some ⟨_, .bitmap ..⟩ => resok.Covered
    | _ => True
  | _ => True

theorem step_inside_iff (p : Plugin κ) (event : Event κ) :
    (∀ a ∈ p.accesses event, a.Inside) ↔ p.Covered event := by
  have untouched : (∀ a ∈ ([] : List Access), a.Inside) ↔ True :=
    iff_true_intro (List.forall_mem_nil _)
  cases event with
  | descriptorsReply index res =>
    cases res with
    | ok resok =>
      simp only [accesses, Covered]
      split
      · exact desc_inside_iff resok
      · exact untouched
    | err | notOk => exact untouched
  | bitmapReply index res =>
    cases res with
    | ok resok =>
      simp only [accesses, Covered]
      split
      · exact bitmap_inside_iff resok
      · exact untouched
    | err | notOk => exact untouched
  | getChunk | getDescriptors | getBitmap | connect | chunkReply | reap => exact untouched

/-- Over any run, the replies are read inside their bounds exactly if each of them
brings what it counts. -/
theorem run_inside_iff (hash : List UInt8 → List UInt8) (events : List (Env × Event κ)) :
    Meets (next hash) (fun p e => ∀ a ∈ p.accesses e.2, a.Inside) (init κ) events ↔
      Meets (next hash) (fun p e => p.Covered e.2) (init κ) events :=
  meets_iff fun p e => p.step_inside_iff e.2

/-- A peer counts a descriptor that it does not send. -/
theorem counted_descriptor_overread :
    ¬ Meets (next id) (fun p e => ∀ a ∈ p.accesses e.2, a.Inside) (init Unit)
      [(smallEnv, .getDescriptors [] ["a"] ()), (smallEnv, .connect 0 true),
        (smallEnv, .descriptorsReply 0
          (.ok { offset := 0, count := 1, descriptors := [], ended := true }))] := by
  rintro ⟨_, inside⟩
  obtain ⟨_, inside⟩ := inside _ rfl
  obtain ⟨inside, _⟩ := inside _ rfl
  exact absurd (inside ⟨0, 0⟩ (by decide)) (by decide)

end Plugin
end Ditto.XferGtc
