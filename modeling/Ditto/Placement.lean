import Mathlib.Order.Interval.Set.LinearOrder
import Ditto.Spans

/-! Items that carry bytes, one after the other: the segments of a stream, or the
records in it. Their ranges come in order and cover the stream, and the bytes of each
are the stream's window over its range. -/
namespace Ditto.Placement
open Spans Windows

variable {α : Type*} {bytesOf : α → List UInt8} {first : ℕ} {items : List α} {bytes before : List UInt8}

/-- Consecutive items, with the positions where they start. -/
def placed (bytesOf : α → List UInt8) (first : ℕ) : List α → List (ℕ × α)
  | [] => []
  | item :: rest => (first, item) :: placed bytesOf (first + (bytesOf item).length) rest

/-- A stream that starts at a position. -/
def streamFrom (first : ℕ) (bytes : List UInt8) (i : ℕ) : UInt8 := bytes.getD (i - first) 0

/-- The bytes of all items. -/
abbrev joined (bytesOf : α → List UInt8) (items : List α) : List UInt8 := (items.map bytesOf).flatten

/-- The positions that placed items cover. -/
abbrev positions (bytesOf : α → List UInt8) (items : List (ℕ × α)) : Set ℕ :=
  coverage Prod.fst (fun item => item.1 + (bytesOf item.2).length) items

@[simp] theorem joined_id (pieces : List (List UInt8)) : joined id pieces = pieces.flatten := by
  rw [joined, List.map_id]

theorem window_stream {start last : ℕ} (inside : last ≤ bytes.length) :
    window (streamFrom first bytes) (first + start) (first + last) = (bytes.drop start).take (last - start) := by
  have shifted : (fun i => streamFrom first bytes (first + i)) = fun i => bytes.getD i 0 := by
    funext i
    simp [streamFrom]
  rw [← window_shift, shifted, take_drop_eq_window bytes 0 inside]

/-- Every item is a part of the stream, where it is placed. -/
theorem placed_part (cut : bytes = before ++ joined bytesOf items) {item : ℕ × α}
    (member : item ∈ placed bytesOf (first + before.length) items) :
    first + before.length ≤ item.1 ∧ item.1 + (bytesOf item.2).length ≤ first + bytes.length ∧
      bytesOf item.2 = window (streamFrom first bytes) item.1 (item.1 + (bytesOf item.2).length) := by
  induction items generalizing before with
  | nil => cases member
  | cons head rest ih =>
    rw [joined, List.map_cons, List.flatten_cons] at cut
    have size := congrArg List.length cut
    simp only [List.length_append] at size
    rw [placed] at member
    rcases List.mem_cons.mp member with rfl | later
    · have ends : first + before.length + (bytesOf head).length ≤ first + bytes.length := by omega
      refine ⟨Nat.le_refl _, ends, ?_⟩
      show bytesOf head = window (streamFrom first bytes) (first + before.length)
        (first + before.length + (bytesOf head).length)
      rw [Nat.add_assoc, window_stream (by omega), Nat.add_sub_cancel_left, cut, List.drop_left, List.take_left]
    · rw [← List.append_assoc] at cut
      obtain ⟨lower, upper, part⟩ := @ih (before ++ bytesOf head) cut
        (by rwa [List.length_append, ← Nat.add_assoc])
      rw [List.length_append] at lower
      exact ⟨by omega, upper, part⟩

/-- Items come one after the other. -/
theorem placed_ordered (bytesOf : α → List UInt8) (first : ℕ) (items : List α) :
    (∀ item ∈ placed bytesOf first items, first ≤ item.1) ∧
      (placed bytesOf first items).Pairwise fun one other => one.1 + (bytesOf one.2).length ≤ other.1 := by
  induction items generalizing first with
  | nil => simp [placed]
  | cons head rest ih =>
    obtain ⟨later, ordered⟩ := ih (first + (bytesOf head).length)
    refine ⟨fun item member => ?_, List.pairwise_cons.mpr ⟨later, ordered⟩⟩
    rcases List.mem_cons.mp member with rfl | tail
    · exact Nat.le_refl _
    · have := later item tail
      omega

theorem map_placed (bytesOf : α → List UInt8) (first : ℕ) (items : List α) :
    (placed bytesOf first items).map Prod.snd = items := by
  induction items generalizing first with
  | nil => rfl
  | cons head rest ih => rw [placed, List.map_cons, ih]

theorem mem_of_placed {item : ℕ × α} (member : item ∈ placed bytesOf first items) : item.2 ∈ items := by
  rw [← map_placed bytesOf first items]
  exact List.mem_map_of_mem member

theorem positions_placed (bytesOf : α → List UInt8) (first : ℕ) (items : List α) :
    positions bytesOf (placed bytesOf first items) = Set.Ico first (first + (joined bytesOf items).length) := by
  induction items generalizing first with
  | nil => simp [placed]
  | cons head rest ih =>
    rw [placed, positions, coverage_cons]
    change _ ∪ positions bytesOf (placed bytesOf (first + (bytesOf head).length) rest) = _
    rw [ih, Set.Ico_union_Ico_eq_Ico (Nat.le_add_right ..) (Nat.le_add_right ..), joined, joined, List.map_cons,
      List.flatten_cons, List.length_append, Nat.add_assoc]

theorem positions_perm {one other : List (ℕ × α)} (perm : one.Perm other) :
    positions bytesOf one = positions bytesOf other := by
  ext i
  simp [coverage, perm.mem_iff]

end Ditto.Placement
