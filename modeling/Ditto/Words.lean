import Mathlib.Algebra.Ring.Int.Defs
import Mathlib.Algebra.Ring.Nat
import Mathlib.Tactic.Common
import Mathlib.Data.List.Basic
import Mathlib.Data.Nat.Bitwise

/-! 32-bit machine words as C++ computes with them: an unsigned word read as an
`int`, an `int` added to an unsigned word, and the exact value of both when
nothing wraps. -/
namespace Ditto.Words

/-- An unsigned word converted to `int`, in two's complement. -/
def toInt (word : UInt32) : ℤ :=
  if word.toNat < 2 ^ 31 then word.toNat else word.toNat - 2 ^ 32

theorem toInt_of_small {word : UInt32} (small : word.toNat < 2 ^ 31) : toInt word = word.toNat := by
  simp only [toInt, if_pos small]

/-- A word read as an `int` is the same word again. -/
theorem ofInt_toInt (word : UInt32) : UInt32.ofInt (toInt word) = word := by
  have bound := word.toNat_lt
  have exactly : (toInt word % 2 ^ 32).toNat = word.toNat := by
    rw [toInt]
    omega
  rw [UInt32.ofInt, exactly, UInt32.ofNat_toNat]

/-- An `int` that travels in 64 bits and is cut to 32 again. -/
theorem toUInt32_ofInt (value : ℤ) : (UInt64.ofInt value).toUInt32 = UInt32.ofInt value := by
  rw [← UInt32.toNat_inj, UInt64.ofInt, UInt32.ofInt, UInt64.toNat_toUInt32, UInt64.toNat_ofNat',
    UInt32.toNat_ofNat']
  omega

theorem toNat_ofInt (value : ℕ) : (UInt32.ofInt value).toNat = value % 2 ^ 32 := by
  have cast : ((value : ℤ) % 2 ^ 32).toNat = value % 2 ^ 32 := by omega
  rw [UInt32.ofInt, cast, UInt32.toNat_ofNat', Nat.mod_mod]

theorem ofInt_natCast (value : ℕ) : UInt32.ofInt value = UInt32.ofNat value := by
  rw [← UInt32.toNat_inj, toNat_ofInt, UInt32.toNat_ofNat']

/-- Adding a size to a word is exact while the sum fits. -/
theorem toNat_add_ofInt (word : UInt32) (size : ℕ) (fits : word.toNat + size < 2 ^ 32) :
    (word + UInt32.ofInt size).toNat = word.toNat + size := by
  rw [UInt32.toNat_add, toNat_ofInt]
  omega

theorem toNat_sub_eq {word other : UInt32} (ordered : other.toNat ≤ word.toNat) :
    (word - other).toNat = word.toNat - other.toNat := by
  have bound := word.toNat_lt
  rw [UInt32.toNat_sub]
  omega

/-- The difference of two small words, read as an `int`. -/
theorem toInt_sub {word other : UInt32} (small : word.toNat < 2 ^ 31) (small' : other.toNat < 2 ^ 31) :
    toInt (word - other) = word.toNat - other.toNat := by
  rw [toInt, UInt32.toNat_sub]
  split <;> omega

end Ditto.Words

/-! Bit strings packed into bytes, low bit first. A packed string is read and
written one bit at a time, and what a write does is said by what every later
read returns. -/
namespace Ditto.PackedBits

/-- The byte with the one bit `bit` set. -/
def mask (bit : ℕ) : UInt8 := 1 <<< UInt8.ofNat bit

/-- Bit `bit` of a byte. -/
def bitAt (byte : UInt8) (bit : ℕ) : Bool := byte &&& mask bit != 0

/-- The bit at a position of a byte string; there are none past its end. -/
def readBit (bytes : List UInt8) (position : ℕ) : Bool :=
  bitAt (bytes.getD (position / 8) 0) (position % 8)

/-- Setting the bit at a position. -/
def setBit (bytes : List UInt8) (position : ℕ) : List UInt8 :=
  bytes.modify (position / 8) (· ||| mask (position % 8))

variable {bytes : List UInt8} {position other : ℕ}

theorem to_nat_mask (small : bit < 8) : (mask bit).toNat = 2 ^ bit := by
  have power : 2 ^ bit < 256 := Nat.pow_lt_pow_right (n := 8) (by decide) small
  simpa [mask, Nat.mod_eq_of_lt small, Nat.mod_eq_of_lt (show bit < 256 by omega),
    Nat.shiftLeft_eq] using power

theorem bit_at_eq_test_bit (byte : UInt8) (small : bit < 8) :
    bitAt byte bit = byte.toNat.testBit bit := by
  have positive : 2 ^ bit ≠ 0 := (Nat.two_pow_pos bit).ne'
  have shown : (byte &&& mask bit).toNat = (byte.toNat.testBit bit).toNat * 2 ^ bit := by
    rw [UInt8.toNat_and, to_nat_mask small, Nat.and_two_pow]
  rw [bitAt, Bool.eq_iff_iff, bne_iff_ne, ne_eq, ← UInt8.toNat_inj, shown]
  cases byte.toNat.testBit bit with
  | true => simp
  | false => simp

theorem bit_at_or_mask (byte : UInt8) (small : bit < 8) (small' : other < 8) :
    bitAt (byte ||| mask bit) other = (bitAt byte other || decide (bit = other)) := by
  rw [bit_at_eq_test_bit _ small', bit_at_eq_test_bit _ small', UInt8.toNat_or, Nat.testBit_or,
    to_nat_mask small, Nat.testBit_two_pow]

@[simp] theorem length_set_bit (bytes : List UInt8) (position : ℕ) :
    (setBit bytes position).length = bytes.length := by
  simp [setBit]

/-- A write inside the string is seen at its own position and nowhere else. -/
theorem read_bit_set_bit (inside : position < 8 * bytes.length) :
    readBit (setBit bytes position) other = (readBit bytes other || decide (position = other)) := by
  have within : position / 8 < bytes.length := by omega
  by_cases same : position / 8 = other / 8
  · have here : (setBit bytes position).getD (other / 8) 0 =
        bytes.getD (other / 8) 0 ||| mask (position % 8) := by
      rw [← same]
      simp [setBit, List.getD_eq_getElem?_getD, within]
    rw [readBit, here, bit_at_or_mask _ (by omega) (by omega)]
    congr 2
    simp only [eq_iff_iff]
    omega
  · have elsewhere : (setBit bytes position).getD (other / 8) 0 = bytes.getD (other / 8) 0 := by
      simp [setBit, List.getD_eq_getElem?_getD, same]
    have different : position ≠ other := fun equal => same (by rw [equal])
    rw [readBit, elsewhere, readBit, decide_eq_false different, Bool.or_false]

@[simp] theorem read_bit_zeros (count position : ℕ) :
    readBit (List.replicate count 0) position = false := by
  simp [readBit, bitAt]

/-- A byte is its eight bits. -/
theorem eq_of_bit_at {byte byte' : UInt8} (same : ∀ bit < 8, bitAt byte bit = bitAt byte' bit) : byte = byte' := by
  apply UInt8.toNat_inj.mp
  refine Nat.eq_of_testBit_eq fun bit => ?_
  by_cases small : bit < 8
  · rw [← bit_at_eq_test_bit _ small, ← bit_at_eq_test_bit _ small]
    exact same bit small
  · have large : 2 ^ 8 ≤ 2 ^ bit := Nat.pow_le_pow_right (by decide) (by omega)
    rw [Nat.testBit_lt_two_pow (Nat.lt_of_lt_of_le byte.toNat_lt large),
      Nat.testBit_lt_two_pow (Nat.lt_of_lt_of_le byte'.toNat_lt large)]

/-- A string of bytes is what is read from it. -/
theorem eq_of_read_bit {bytes' : List UInt8} (size : bytes.length = bytes'.length)
    (same : ∀ position < 8 * bytes.length, readBit bytes position = readBit bytes' position) : bytes = bytes' := by
  refine List.ext_getElem size fun index inside inside' => eq_of_bit_at fun bit small => ?_
  have read := same (8 * index + bit) (by omega)
  have byte : (8 * index + bit) / 8 = index := by omega
  have place : (8 * index + bit) % 8 = bit := by omega
  simpa [readBit, byte, place, List.getD_eq_getElem?_getD, inside, inside'] using read

end Ditto.PackedBits

/-! The wire formats of remote procedure calls: XDR for data, record marks and
replies for messages over a stream. Numbers are words of four bytes, most
significant byte first, and every item takes a multiple of four bytes. -/
namespace Ditto.Xdr

/-- A number modulo `2 ^ 32`. -/
def word (n : ℕ) : List UInt8 :=
  [.ofNat (n / 2 ^ 24), .ofNat (n / 2 ^ 16), .ofNat (n / 2 ^ 8), .ofNat n]

/-- The number that bytes are, most significant first. -/
def number (bytes : List UInt8) : ℕ := bytes.foldl (fun value byte => 256 * value + byte.toNat) 0

/-- A hyper: a number modulo `2 ^ 64`. -/
def hyper (n : ℕ) : List UInt8 := word (n / 2 ^ 32) ++ word n

def bool (value : Bool) : List UInt8 := word value.toNat

/-- Variable-length data: its length, its bytes, and zeros up to a multiple of four. -/
def counted (bytes : List UInt8) : List UInt8 :=
  word bytes.length ++ bytes ++ List.replicate ((4 - bytes.length % 4) % 4) 0

/-- The last fragment of a record: the mark has the top bit set, and the length. -/
def lastFragment (body : List UInt8) : List UInt8 := word (2 ^ 31 + body.length) ++ body

/-- A reply (1) that is accepted (0) with an empty verifier (flavor 0, length 0) and
success (0), with its results. -/
def successReply (xid : ℕ) (results : List UInt8) : List UInt8 :=
  word xid ++ word 1 ++ word 0 ++ word 0 ++ word 0 ++ word 0 ++ results

@[simp] theorem length_word (n : ℕ) : (word n).length = 4 := rfl

@[simp] theorem length_hyper (n : ℕ) : (hyper n).length = 8 := rfl

@[simp] theorem length_bool (value : Bool) : (bool value).length = 4 := rfl

theorem length_counted (bytes : List UInt8) :
    (counted bytes).length = 4 + bytes.length + (4 - bytes.length % 4) % 4 := by
  simp [counted, Nat.add_assoc]

@[simp] theorem length_last_fragment (body : List UInt8) :
    (lastFragment body).length = 4 + body.length := by
  simp [lastFragment]

@[simp] theorem length_success_reply (xid : ℕ) (results : List UInt8) :
    (successReply xid results).length = 24 + results.length := by
  simp [successReply]
  omega

@[simp] theorem take_word {n count : ℕ} (whole : 4 ≤ count) : (word n).take count = word n :=
  List.take_of_length_le whole

@[simp] theorem drop_word {n count : ℕ} (whole : 4 ≤ count) : (word n).drop count = [] :=
  List.drop_of_length_le whole

@[simp] theorem drop_hyper {n count : ℕ} (whole : 8 ≤ count) : (hyper n).drop count = [] :=
  List.drop_of_length_le whole

/-- A word reads back as its number. -/
theorem number_word {n : ℕ} (small : n < 2 ^ 32) : number (word n) = n := by
  simp only [number, word, List.foldl_cons, List.foldl_nil, UInt8.toNat_ofNat']
  omega

end Ditto.Xdr
