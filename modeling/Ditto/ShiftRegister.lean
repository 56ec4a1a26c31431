import Mathlib.Algebra.Polynomial.Div
import Mathlib.Algebra.Field.ZMod
import Mathlib.Data.ZMod.Basic
import Mathlib.Tactic.LinearCombination

/-! Shift registers with feedback, which take bits at their low end and shift them out
there. What they do is linear; a register whose feedback sets the top bit forgets nothing,
so it tells apart what differs in few places that are close together. Over the field of
two elements a register holds the remainder of what it was fed, by a polynomial. -/
namespace Ditto.ShiftRegister

variable {w n : ℕ} {poly x y : BitVec w} {bits other : List Bool}

/-- One shift: a bit that is shifted out is fed back. -/
def shift (poly x : BitVec w) : BitVec w :=
  if x.getLsbD 0 then (x >>> 1) ^^^ poly else x >>> 1

/-- A bit at the low end. -/
def low (w : ℕ) (bit : Bool) : BitVec w := if bit then 1#w else 0#w

/-- A bit is taken in, and a shift. -/
def feed (poly x : BitVec w) (bit : Bool) : BitVec w := shift poly (x ^^^ low w bit)

/-- Bits are taken in one after the other. -/
def run (poly x : BitVec w) (bits : List Bool) : BitVec w := bits.foldl (feed poly) x

@[simp] theorem run_nil : run poly x [] = x := rfl

@[simp] theorem run_cons (bit : Bool) : run poly x (bit :: bits) = run poly (feed poly x bit) bits := rfl

theorem run_append : run poly x (bits ++ other) = run poly (run poly x bits) other :=
  List.foldl_append

/-! ## Linearity -/

theorem shift_eq : shift poly x = (x >>> 1) ^^^ if x.getLsbD 0 then poly else 0#w := by
  unfold shift
  split
  · rfl
  · rw [BitVec.xor_zero]

/-- Sums of four can be taken in either order. -/
theorem xor_pairs (a b c d : BitVec w) : (a ^^^ b) ^^^ (c ^^^ d) = (a ^^^ c) ^^^ (b ^^^ d) := by
  rw [BitVec.xor_assoc, BitVec.xor_assoc, ← BitVec.xor_assoc b, ← BitVec.xor_assoc c, BitVec.xor_comm b]

theorem shift_xor (x y : BitVec w) : shift poly (x ^^^ y) = shift poly x ^^^ shift poly y := by
  have back : (if (x ^^^ y).getLsbD 0 then poly else 0#w) =
      (if x.getLsbD 0 then poly else 0#w) ^^^ if y.getLsbD 0 then poly else 0#w := by
    rw [BitVec.getLsbD_xor]
    cases x.getLsbD 0 <;> cases y.getLsbD 0 <;> simp
  rw [shift_eq, shift_eq, shift_eq, BitVec.ushiftRight_xor_distrib, back, xor_pairs]

theorem shift_zero : shift poly (0#w) = 0#w := by simp [shift]

theorem iterate_shift_xor (n : ℕ) (x y : BitVec w) :
    (shift poly)^[n] (x ^^^ y) = (shift poly)^[n] x ^^^ (shift poly)^[n] y := by
  induction n generalizing x y with
  | zero => rfl
  | succ n ih => rw [Function.iterate_succ_apply, Function.iterate_succ_apply, Function.iterate_succ_apply,
      shift_xor, ih]

theorem low_xor (bit bit' : Bool) : low w (bit ^^ bit') = low w bit ^^^ low w bit' := by
  cases bit <;> cases bit' <;> simp [low]

/-- What two registers are fed adds up. -/
theorem run_xor (same : bits.length = other.length) :
    run poly (x ^^^ y) (List.zipWith xor bits other) = run poly x bits ^^^ run poly y other := by
  induction bits generalizing x y other with
  | nil =>
    cases other with
    | nil => rfl
    | cons bit rest => cases same
  | cons bit rest ih =>
    cases other with
    | nil => cases same
    | cons bit' rest' =>
      have one : feed poly (x ^^^ y) (bit ^^ bit') = feed poly x bit ^^^ feed poly y bit' := by
        rw [feed, low_xor, xor_pairs, shift_xor, feed, feed]
      rw [List.zipWith_cons_cons, run_cons, one, ih (Nat.succ.inj same), run_cons, run_cons]

/-! ## Nothing is forgotten -/

/-- A register that shifts to nothing had nothing in it, if what is fed back sets the top bit. -/
theorem eq_zero_of_shift (top : poly.msb = true) (empty : shift poly x = 0#w) : x = 0#w := by
  have wide : 0 < w := by
    rcases Nat.eq_zero_or_pos w with rfl | positive
    · rw [BitVec.eq_nil poly] at top
      cases top
    · exact positive
  unfold shift at empty
  split at empty
  next back =>
    have same : x >>> 1 = poly := by
      rw [← BitVec.xor_left_inj poly, BitVec.xor_self, empty]
    rw [← same, BitVec.msb_ushiftRight] at top
    cases top
  next none =>
    apply BitVec.eq_of_getLsbD_eq
    intro i inside
    rw [BitVec.getLsbD_zero]
    cases i with
    | zero => exact Bool.eq_false_of_not_eq_true none
    | succ i =>
      have shifted := congrArg (fun v => v.getLsbD i) empty
      simp only [BitVec.getLsbD_ushiftRight, BitVec.getLsbD_zero] at shifted
      rwa [Nat.add_comm] at shifted

theorem eq_zero_of_iterate (top : poly.msb = true) (empty : (shift poly)^[n] x = 0#w) : x = 0#w := by
  induction n generalizing x with
  | zero => exact empty
  | succ n ih => exact eq_zero_of_shift top (ih (by rwa [Function.iterate_succ_apply] at empty))

theorem iterate_shift_injective (top : poly.msb = true) : Function.Injective (shift poly)^[n] := by
  intro x y same
  have none : (shift poly)^[n] (x ^^^ y) = 0#w := by
    rw [iterate_shift_xor, same, BitVec.xor_self]
  rw [← BitVec.xor_left_inj y, eq_zero_of_iterate top none, BitVec.xor_self]

/-! ## Words -/

/-- The register with these bits, the first of them at the low end. -/
def word (w : ℕ) : List Bool → BitVec w
  | [] => 0#w
  | bit :: rest => low w bit ^^^ (word w rest <<< 1)

theorem getLsbD_low (bit : Bool) (i : ℕ) : (low w bit).getLsbD i = (decide (i < w ∧ i = 0) && bit) := by
  cases bit with
  | false => simp [low]
  | true =>
    rw [low, if_pos rfl, BitVec.getLsbD_one, Bool.and_true]
    by_cases first : i = 0 <;> by_cases inside : i < w <;> simp [first, inside]

theorem getLsbD_word (bits : List Bool) (i : ℕ) : (word w bits).getLsbD i = (decide (i < w) && bits.getD i false) := by
  induction bits generalizing i with
  | nil => simp [word]
  | cons bit rest ih =>
    rw [word, BitVec.getLsbD_xor, getLsbD_low, BitVec.getLsbD_shiftLeft, ih]
    cases i with
    | zero => simp
    | succ i =>
      by_cases inside : i + 1 < w
      · have before : i < w := by omega
        simp [inside, before]
      · simp [inside]

/-- A register whose low end is empty only shifts. -/
theorem iterate_shift_of_low (n : ℕ) (x : BitVec w) (empty : ∀ i < n, x.getLsbD i = false) :
    (shift poly)^[n] x = x >>> n := by
  induction n generalizing x with
  | zero => rw [Function.iterate_zero, id, BitVec.ushiftRight_zero]
  | succ n ih =>
    have first : shift poly x = x >>> 1 := by rw [shift, empty 0 (Nat.succ_pos n), if_neg Bool.false_ne_true]
    rw [Function.iterate_succ_apply, first, ih, ← BitVec.shiftRight_add, Nat.add_comm]
    intro i inside
    rw [BitVec.getLsbD_ushiftRight, Nat.add_comm]
    exact empty (i + 1) (by omega)

/-- As many bits as fit are taken in at once. -/
theorem run_word (fits : bits.length ≤ w) : run poly x bits = (shift poly)^[bits.length] (x ^^^ word w bits) := by
  induction bits generalizing x with
  | nil => rw [run_nil, List.length_nil, Function.iterate_zero, word, BitVec.xor_zero, id]
  | cons bit rest ih =>
    have fits' : rest.length < w := fits
    have rises : shift poly (word w rest <<< 1) = word w rest := by
      rw [← Function.iterate_one (shift poly), iterate_shift_of_low]
      · apply BitVec.eq_of_getLsbD_eq
        intro i inside
        rw [BitVec.getLsbD_ushiftRight, BitVec.getLsbD_shiftLeft, Nat.add_comm 1 i, Nat.add_sub_cancel, getLsbD_word]
        by_cases last : i + 1 < w
        · simp [last]
        · have past : rest.length ≤ i := by omega
          simp [List.getD_eq_getElem?_getD, List.getElem?_eq_none past]
      · intro i inside
        obtain rfl : i = 0 := by omega
        simp
    rw [run_cons, ih (Nat.le_of_lt fits'), List.length_cons, Function.iterate_succ_apply, word, ← BitVec.xor_assoc,
      shift_xor, rises, feed]

/-- The low end of a register, and the rest of it. -/
theorem iterate_shift_split (n : ℕ) (x : BitVec w) :
    (shift poly)^[n] x = (shift poly)^[n] ((x.setWidth n).setWidth w) ^^^ (x >>> n) := by
  have parts : x = (x.setWidth n).setWidth w ^^^ ((x >>> n) <<< n) := by
    apply BitVec.eq_of_getLsbD_eq
    intro i inside
    rw [BitVec.getLsbD_xor, BitVec.getLsbD_setWidth, BitVec.getLsbD_setWidth, BitVec.getLsbD_shiftLeft,
      BitVec.getLsbD_ushiftRight]
    by_cases lower : i < n
    · simp [inside, lower]
    · simp [inside, lower, Nat.add_sub_cancel' (Nat.le_of_not_lt lower)]
  have rises : (shift poly)^[n] ((x >>> n) <<< n) = x >>> n := by
    rw [iterate_shift_of_low]
    · apply BitVec.eq_of_getLsbD_eq
      intro i inside
      rw [BitVec.getLsbD_ushiftRight, BitVec.getLsbD_shiftLeft, BitVec.getLsbD_ushiftRight, BitVec.getLsbD_ushiftRight]
      by_cases last : n + i < w
      · simp [last]
      · have past : x.getLsbD (n + i) = false := BitVec.getLsbD_of_ge x _ (Nat.le_of_not_lt last)
        simp [last, past]
    · intro i inside
      rw [BitVec.getLsbD_shiftLeft]
      simp [inside]
  conv_lhs => rw [parts]
  rw [iterate_shift_xor, rises]

/-! ## Bursts -/

theorem run_quiet (count : ℕ) : run poly x (List.replicate count false) = (shift poly)^[count] x := by
  induction count generalizing x with
  | zero => rfl
  | succ count ih =>
    rw [List.replicate_succ, run_cons, ih, feed, low, if_neg Bool.false_ne_true, BitVec.xor_zero,
      Function.iterate_succ_apply]

theorem iterate_shift_zero (n : ℕ) : (shift poly)^[n] (0#w) = 0#w := by
  induction n with
  | zero => rfl
  | succ n ih => rw [Function.iterate_succ_apply, shift_zero, ih]

/-- **A burst that fits the register leaves something in it**, whatever silence is around it. -/
theorem run_burst (top : poly.msb = true) {burst : List Bool} (fits : burst.length ≤ w) (loud : true ∈ burst)
    (before after : ℕ) : run poly (0#w) (List.replicate before false ++ burst ++ List.replicate after false) ≠ 0#w := by
  intro silent
  rw [run_append, run_append, run_quiet, run_quiet, iterate_shift_zero, run_word fits, BitVec.zero_xor] at silent
  have none := eq_zero_of_iterate top (eq_zero_of_iterate top silent)
  obtain ⟨i, found⟩ := List.getElem?_of_mem loud
  have inside := (List.getElem?_eq_some_iff.mp found).1
  have bit := congrArg (fun v => v.getLsbD i) none
  simp only [getLsbD_word, List.getD_eq_getElem?_getD, found, Option.getD_some, BitVec.getLsbD_zero, Bool.and_true,
    decide_eq_false_iff_not] at bit
  exact bit (Nat.lt_of_lt_of_le inside fits)

/-! ## Remainders -/

section Remainders
open Polynomial Finset

/-- A register as a polynomial, its top bit the constant. -/
noncomputable def value (x : BitVec w) : (ZMod 2)[X] := ∑ i ∈ range w, if x.getLsbD i then X ^ (w - 1 - i) else 0

/-- Bits as a polynomial, the last of them the constant. -/
noncomputable def message : List Bool → (ZMod 2)[X]
  | [] => 0
  | bit :: rest => (if bit then X ^ rest.length else 0) + message rest

/-- What a register divides by. -/
noncomputable def divisor (poly : BitVec w) : (ZMod 2)[X] := X ^ w + value poly

theorem add_self_two (p : (ZMod 2)[X]) : p + p = 0 := CharTwo.add_self_eq_zero p

theorem value_xor (x y : BitVec w) : value (x ^^^ y) = value x + value y := by
  unfold value
  rw [← sum_add_distrib]
  refine sum_congr rfl fun i _ => ?_
  rw [BitVec.getLsbD_xor]
  cases x.getLsbD i <;> cases y.getLsbD i <;> simp [add_self_two]

theorem value_zero : value (0#w) = 0 := by simp [value]

theorem degree_value (x : BitVec w) : (value x).degree < w := by
  unfold value
  refine (degree_sum_le _ _).trans_lt ((Finset.sup_lt_iff (WithBot.bot_lt_coe w)).mpr fun i inside => ?_)
  have inside := mem_range.mp inside
  split
  · rw [degree_X_pow]
    exact Nat.cast_lt.mpr (by omega)
  · rw [degree_zero]
    exact WithBot.bot_lt_coe w

theorem monic_divisor (poly : BitVec w) : (divisor poly).Monic :=
  monic_X_pow_add (degree_value poly)

theorem degree_divisor (poly : BitVec w) : (divisor poly).degree = w := by
  rw [divisor, degree_add_eq_left_of_degree_lt, degree_X_pow]
  rw [degree_X_pow]
  exact degree_value poly

/-- A shift to the right, times the variable, is the register without its low bit. -/
theorem X_mul_value (x : BitVec w) : X * value x = value (x >>> 1) + if x.getLsbD 0 then X ^ w else 0 := by
  cases w with
  | zero =>
    simp [value]
  | succ w =>
    have top : (if (x >>> 1).getLsbD w then (X : (ZMod 2)[X]) ^ (w + 1 - 1 - w) else 0) = 0 := by
      rw [BitVec.getLsbD_ushiftRight, BitVec.getLsbD_of_ge x (1 + w) (by omega), if_neg Bool.false_ne_true]
    rw [value, value, sum_range_succ', sum_range_succ, top, add_zero, mul_add, mul_sum]
    congr 1
    · refine sum_congr rfl fun i inside => ?_
      have inside := mem_range.mp inside
      rw [BitVec.getLsbD_ushiftRight, Nat.add_comm 1 i]
      split
      · rw [← pow_succ']
        congr 1
        omega
      · rw [mul_zero]
    · split
      · rw [← pow_succ']
        rfl
      · rw [mul_zero]

/-- A shift multiplies by the variable, up to the divisor. -/
theorem value_shift (x : BitVec w) :
    value (shift poly x) = X * value x + if x.getLsbD 0 then divisor poly else 0 := by
  rw [X_mul_value, shift_eq, value_xor]
  cases x.getLsbD 0 with
  | true =>
    rw [if_pos rfl, if_pos rfl, if_pos rfl, divisor, add_assoc, ← add_assoc (X ^ w), add_self_two, zero_add]
  | false => simp [value_zero]

theorem value_low (bit : Bool) (wide : 0 < w) : X * value (low w bit) = if bit then X ^ w else 0 := by
  rw [X_mul_value, getLsbD_low]
  have empty : low w bit >>> 1 = 0#w := by
    apply BitVec.eq_of_getLsbD_eq
    intro i inside
    rw [BitVec.getLsbD_ushiftRight, getLsbD_low]
    simp
  cases bit <;> simp [empty, value_zero, wide]

/-- What a register holds differs by a multiple of the divisor from what it was fed. -/
theorem run_divides (wide : 0 < w) (bits : List Bool) (x : BitVec w) : ∃ q : (ZMod 2)[X],
    value (run poly x bits) + divisor poly * q = X ^ bits.length * value x + X ^ w * message bits := by
  induction bits generalizing x with
  | nil => exact ⟨0, by simp [message]⟩
  | cons bit rest ih =>
    obtain ⟨q, held⟩ := ih (feed poly x bit)
    have fed : value (feed poly x bit) = X * value x + (if bit then X ^ w else 0) +
        if (x ^^^ low w bit).getLsbD 0 then divisor poly else 0 := by
      rw [feed, value_shift, value_xor, mul_add, value_low bit wide]
    refine ⟨q + X ^ rest.length * if (x ^^^ low w bit).getLsbD 0 then 1 else 0, ?_⟩
    rw [run_cons, mul_add, ← add_assoc, held, fed, message, List.length_cons]
    have back : divisor poly * (X ^ rest.length * if (x ^^^ low w bit).getLsbD 0 then 1 else 0) =
        X ^ rest.length * if (x ^^^ low w bit).getLsbD 0 then divisor poly else 0 := by
      split
      · ring
      · simp
    have taken : X ^ rest.length * (if bit then X ^ w else 0) =
        X ^ w * if bit then (X : (ZMod 2)[X]) ^ rest.length else 0 := by
      split
      · ring
      · simp
    rw [back, mul_add, mul_add, taken]
    linear_combination add_self_two (X ^ rest.length * if (x ^^^ low w bit).getLsbD 0 then divisor poly else 0)

/-- **A register holds a remainder**: that of what was in it, moved up by as many places as it
was fed bits, and of the bits, moved up by its width. -/
theorem value_run (wide : 0 < w) (bits : List Bool) (x : BitVec w) :
    value (run poly x bits) = (X ^ bits.length * value x + X ^ w * message bits) %ₘ divisor poly := by
  obtain ⟨q, held⟩ := @run_divides _ poly wide bits x
  have small : (value (run poly x bits)).degree < (divisor poly).degree := by
    rw [degree_divisor]
    exact degree_value _
  exact (div_modByMonic_unique q _ (monic_divisor poly) ⟨held, small⟩).2.symm

end Remainders

end Ditto.ShiftRegister
