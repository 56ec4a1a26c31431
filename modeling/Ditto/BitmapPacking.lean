import Ditto.BitmapRoundTrip

/-! The two loops that pack a bit vector and unpack it, on the `char`s of the source. A
`char` is promoted to `int` before a bit of it is tested or set, and cut to a `char`
again; the bits that the sign fills in are never the ones that are looked at. -/
namespace Ditto.XferGtc
open PackedBits Words

/-- `1 << ((i % 8) & 0x07)`, an `int`. -/
def intMask (i : ℕ) : Int32 := 1 <<< Int32.ofNat (i % 8 &&& 0x07)

/-- The test of a bit of a `char`. -/
def charBit (c : Int8) (i : ℕ) : Bool := c.toInt32 &&& intMask i != 0

/-- `c |= 1 << ((i % 8) & 0x07)`. -/
def setCharBit (c : Int8) (i : ℕ) : Int8 := (c.toInt32 ||| intMask i).toInt8

/-- `convert_from_bitvec`. -/
def convertFromBitvecChars (descCount : UInt32) (bmp : List Bool) : List Int8 :=
  (List.range descCount.toNat).foldl
    (fun tmp i => if bmp.getD i false then tmp.modify (i / 8) (setCharBit · i) else tmp)
    (List.replicate (bytesFor descCount).toNat 0)

/-- `convert_to_bitvec`: the vector is cleared and then written bit by bit. -/
def convertToBitvecChars (bmp : List Int8) (descCount : UInt32) : Option (List Bool) :=
  if toInt descCount < 0 ∨ 8 * bmp.length < descCount.toNat then none
  else some ((List.range descCount.toNat).foldl
    (fun bmpRet i => bmpRet.set i (charBit (bmp.getD (i / 8) 0) i)) (List.replicate descCount.toNat false))

variable {chars : List Int8} {bmp : List Bool}

/-! ## Promotion -/

theorem int_mask_eq (i : ℕ) : (intMask i).toBitVec = BitVec.twoPow 32 (i % 8) := by
  have each : ∀ bit : Fin 8, (1 <<< Int32.ofNat (bit.val &&& 0x07) : Int32).toBitVec = BitVec.twoPow 32 bit.val := by
    decide
  exact each ⟨i % 8, by omega⟩

theorem int_mask_cut (i : ℕ) : (intMask i).toInt8.toUInt8 = mask (i % 8) := by
  have each : ∀ bit : Fin 8, (1 <<< Int32.ofNat (bit.val &&& 0x07) : Int32).toInt8.toUInt8 = mask bit.val := by
    decide
  exact each ⟨i % 8, by omega⟩

/-- The sign that a promotion fills in is above every bit that is tested. -/
theorem char_bit_eq (c : Int8) (i : ℕ) : charBit c i = bitAt c.toUInt8 (i % 8) := by
  have small : i % 8 < 8 := by omega
  have tested : (c.toInt32 &&& intMask i).toBitVec =
      if c.toBitVec.getLsbD (i % 8) then BitVec.twoPow 32 (i % 8) else 0 := by
    rw [Int32.toBitVec_and, Int8.toBitVec_toInt32, int_mask_eq, BitVec.and_twoPow, BitVec.getLsbD_signExtend,
      decide_eq_true (by omega), Bool.true_and, if_pos small]
    rfl
  have value : c.toUInt8.toNat.testBit (i % 8) = c.toBitVec.getLsbD (i % 8) := rfl
  rw [bit_at_eq_test_bit _ small, value, charBit, Bool.eq_iff_iff, bne_iff_ne, ne_eq, ← Int32.toBitVec_inj, tested]
  cases c.toBitVec.getLsbD (i % 8) with
  | true =>
    have nonzero : BitVec.twoPow 32 (i % 8) ≠ 0 := by
      intro zero
      have bit := congrArg (·.getLsbD (i % 8)) zero
      simp [show i % 8 < 32 by omega] at bit
    simpa using nonzero
  | false => simp

/-- What is cut off again after a bit was set is the sign. -/
theorem set_char_bit_eq (c : Int8) (i : ℕ) : (setCharBit c i).toUInt8 = c.toUInt8 ||| mask (i % 8) := by
  rw [setCharBit, Int32.toInt8_or, Int8.toInt8_toInt32, Int8.toUInt8_or, int_mask_cut]

/-! ## The loops -/

theorem map_modify {α β : Type} {f : α → β} {g : α → α} {h : β → β} (agree : ∀ x, f (g x) = h (f x)) (l : List α)
    (place : ℕ) : (l.modify place g).map f = (l.map f).modify place h := by
  refine List.ext_getElem? fun i => ?_
  rw [List.getElem?_map, List.getElem?_modify, List.getElem?_modify, List.getElem?_map]
  cases l[i]? with
  | none => rfl
  | some x =>
    by_cases here : place = i
    · simp [here, agree]
    · simp [here]

/-- Packing `char`s is packing bytes. -/
theorem convert_from_chars (descCount : UInt32) (bmp : List Bool) :
    (convertFromBitvecChars descCount bmp).map Int8.toUInt8 = convertFromBitvec descCount bmp := by
  have zeros : List.replicate (bytesFor descCount).toNat (0 : UInt8) =
      (List.replicate (bytesFor descCount).toNat (0 : Int8)).map Int8.toUInt8 := by
    rw [List.map_replicate]
    rfl
  rw [convertFromBitvec, zeros, convertFromBitvecChars]
  refine (List.foldl_hom (List.map Int8.toUInt8) fun tmp i => ?_).symm
  cases bmp.getD i false with
  | true => exact (map_modify (fun c => set_char_bit_eq c i) tmp (i / 8)).symm
  | false => rfl

theorem read_chars (chars : List Int8) (i : ℕ) :
    readBit (chars.map Int8.toUInt8) i = charBit (chars.getD (i / 8) 0) i := by
  have byte : (chars.map Int8.toUInt8).getD (i / 8) 0 = (chars.getD (i / 8) 0).toUInt8 :=
    List.getD_map (l := chars) (d := 0) Int8.toUInt8
  rw [char_bit_eq, readBit, byte]

/-- Every bit of the cleared vector is written. -/
theorem write_all (bit : ℕ → Bool) (count : ℕ) :
    (List.range count).foldl (fun bmpRet i => bmpRet.set i (bit i)) (List.replicate count false) =
      (List.range count).map bit := by
  have loop := store_bits_append [] ((List.range count).map bit)
  simp only [storeBits, zsetsize, List.take_nil, List.nil_append, List.length_nil, List.length_map, List.length_range,
    Nat.add_zero, Nat.sub_zero] at loop
  rw [← loop]
  refine List.foldl_ext _ _ _ fun bmpRet i member => ?_
  have inside : i < count := List.mem_range.mp member
  simp [List.getD_eq_getElem?_getD, inside]

/-- Unpacking `char`s is unpacking bytes. -/
theorem convert_to_chars (chars : List Int8) (descCount : UInt32) :
    convertToBitvecChars chars descCount = convertToBitvec (chars.map Int8.toUInt8) descCount := by
  rw [convertToBitvecChars, convertToBitvec, List.length_map, write_all]
  simp only [← read_chars]

/-! ## Both inverses -/

/-- The bits of a string from a position on are zero. -/
def ClearFrom (n : ℕ) (chars : List Int8) : Prop :=
  ∀ i, n ≤ i → i < 8 * chars.length → (chars.getD (i / 8) 0).toUInt8.toNat.testBit (i % 8) = false

/-- Packing vectors of `n` bits and unpacking `n` bits are inverse to each other, on
the strings without bits that are not used. -/
structure PackingInverse (n : ℕ) : Prop where
  size : ∀ bmp : List Bool, bmp.length = n →
    (convertFromBitvecChars (UInt32.ofNat n) bmp).length = (n + 7) / 8
  unused : ∀ bmp : List Bool, bmp.length = n → ClearFrom n (convertFromBitvecChars (UInt32.ofNat n) bmp)
  unpacked : ∀ bmp : List Bool, bmp.length = n →
    convertToBitvecChars (convertFromBitvecChars (UInt32.ofNat n) bmp) (UInt32.ofNat n) = some bmp
  repacked : ∀ chars : List Int8, chars.length = (n + 7) / 8 → ClearFrom n chars →
    ∃ bmp, bmp.length = n ∧ convertToBitvecChars chars (UInt32.ofNat n) = some bmp ∧
      convertFromBitvecChars (UInt32.ofNat n) bmp = chars

variable {n : ℕ} {descCount : UInt32} {bytes : List UInt8}

theorem clear_from_iff : ClearFrom n chars ↔
    ∀ i, n ≤ i → i < 8 * chars.length → readBit (chars.map Int8.toUInt8) i = false := by
  have tested (i : ℕ) : (chars.getD (i / 8) 0).toUInt8.toNat.testBit (i % 8) = readBit (chars.map Int8.toUInt8) i := by
    rw [read_chars, char_bit_eq, bit_at_eq_test_bit _ (by omega)]
  simp only [ClearFrom, tested]

theorem length_chars (descCount : UInt32) (bmp : List Bool) :
    (convertFromBitvecChars descCount bmp).length = (descCount.toNat + 7) / 8 := by
  rw [← length_convert_from descCount bmp, ← convert_from_chars, List.length_map]

/-- A count that an `int` holds, of bits that are there. -/
theorem convert_to_some (small : descCount.toNat < 2 ^ 31) (room : descCount.toNat ≤ 8 * bytes.length) :
    convertToBitvec bytes descCount = some ((List.range descCount.toNat).map (readBit bytes)) := by
  have whole := toInt_of_small small
  rw [convertToBitvec, if_neg (by omega)]

/-- What was packed comes back. -/
theorem unpack_pack (small : descCount.toNat < 2 ^ 31) (bmp : List Bool) (size : bmp.length = descCount.toNat) :
    convertToBitvec (convertFromBitvec descCount bmp) descCount = some bmp := by
  rw [convert_to_some small (by rw [length_convert_from]; omega)]
  refine congrArg some (List.ext_getElem (by simp [size]) fun i inside inside' => ?_)
  rw [List.getElem_map, List.getElem_range, read_convert_from]
  simp [List.getD_eq_getElem?_getD, inside', ← size]

/-- What is packed of unpacked bits is the string they came from, if it has no others. -/
theorem pack_unpack (size : bytes.length = (descCount.toNat + 7) / 8)
    (clear : ∀ i, descCount.toNat ≤ i → i < 8 * bytes.length → readBit bytes i = false) :
    convertFromBitvec descCount ((List.range descCount.toNat).map (readBit bytes)) = bytes := by
  refine eq_of_read_bit (by rw [length_convert_from, size]) fun i inside => ?_
  rw [length_convert_from, ← size] at inside
  rw [read_convert_from]
  by_cases used : i < descCount.toNat
  · simp [List.getD_eq_getElem?_getD, used]
  · rw [clear i (by omega) inside, decide_eq_false used, Bool.false_and]

theorem to_uint8_injective : Function.Injective Int8.toUInt8 :=
  Function.LeftInverse.injective Int8.toInt8_toUInt8

theorem packing_inverse (small : n < 2 ^ 31) : PackingInverse n := by
  have count : (UInt32.ofNat n).toNat = n := by
    rw [UInt32.toNat_ofNat', Nat.mod_eq_of_lt (by omega)]
  have word : (UInt32.ofNat n).toNat < 2 ^ 31 := by rwa [count]
  refine ⟨fun bmp _ => ?_, fun bmp _ => ?_, fun bmp size => ?_, fun chars size clear => ?_⟩
  · rw [length_chars, count]
  · refine clear_from_iff.mpr fun i beyond _ => ?_
    rw [convert_from_chars, read_convert_from, count, decide_eq_false (by omega), Bool.false_and]
  · rw [convert_to_chars, convert_from_chars]
    exact unpack_pack word bmp (by rw [size, count])
  · have sized : (chars.map Int8.toUInt8).length = (n + 7) / 8 := by rw [List.length_map, size]
    have read : convertToBitvecChars chars (UInt32.ofNat n) =
        some ((List.range n).map (readBit (chars.map Int8.toUInt8))) := by
      rw [convert_to_chars, convert_to_some word (by omega), count]
    have packed : convertFromBitvec (UInt32.ofNat n) ((List.range (UInt32.ofNat n).toNat).map
        (readBit (chars.map Int8.toUInt8))) = chars.map Int8.toUInt8 := by
      refine pack_unpack (by rw [sized, count]) fun i beyond inside => ?_
      exact clear_from_iff.mp clear i (by omega) (by rwa [List.length_map] at inside)
    rw [count] at packed
    refine ⟨_, by simp, read, List.map_injective_iff.mpr to_uint8_injective ?_⟩
    rw [convert_from_chars, packed]

/-- A count beyond `int` is negative, or is cut to fewer bits. -/
theorem packing_not_inverse (large : 2 ^ 31 ≤ n) : ¬ PackingInverse n := by
  intro inverse
  have count : (UInt32.ofNat n).toNat = n % 2 ^ 32 := UInt32.toNat_ofNat'
  have length : (List.replicate n false).length = n := List.length_replicate
  by_cases held : n < 2 ^ 32
  · have unpacked := inverse.unpacked (List.replicate n false) length
    have negative : toInt (UInt32.ofNat n) < 0 := by
      rw [toInt, count]
      split <;> omega
    rw [convertToBitvecChars, if_pos (.inl negative)] at unpacked
    cases unpacked
  · have size := inverse.size (List.replicate n false) length
    rw [length_chars, count] at size
    omega

/-- **Packing is inverse on its image for the counts that an `int` holds.** -/
theorem packing_inverse_iff (n : ℕ) : PackingInverse n ↔ n < 2 ^ 31 := by
  refine ⟨fun inverse => ?_, packing_inverse⟩
  by_contra large
  exact packing_not_inverse (Nat.le_of_not_lt large) inverse

/-- The first count that is negative, and the first that is cut to none. -/
theorem large_count_not_inverse : ¬ PackingInverse (2 ^ 31) ∧ ¬ PackingInverse (2 ^ 32) :=
  ⟨packing_not_inverse (Nat.le_refl _), packing_not_inverse (by decide)⟩

end Ditto.XferGtc
