import Ditto.ShiftRegister
import Mathlib.Tactic.IntervalCases

/-! The check sequence of an 802.11 frame, a byte at a time from a table of 256 words. The
table is that of a shift register, eight shifts for each byte; so the check sequence is the
remainder of the frame by the polynomial over which the table was made. -/
namespace Ditto.Crc32
open ShiftRegister Polynomial

/-- `crc32_ccitt_table`. -/
def crc32CcittTable : List UInt32 :=
  [0x00000000, 0x77073096, 0xee0e612c, 0x990951ba, 0x076dc419, 0x706af48f, 0xe963a535, 0x9e6495a3,
    0x0edb8832, 0x79dcb8a4, 0xe0d5e91e, 0x97d2d988, 0x09b64c2b, 0x7eb17cbd, 0xe7b82d07, 0x90bf1d91,
    0x1db71064, 0x6ab020f2, 0xf3b97148, 0x84be41de, 0x1adad47d, 0x6ddde4eb, 0xf4d4b551, 0x83d385c7,
    0x136c9856, 0x646ba8c0, 0xfd62f97a, 0x8a65c9ec, 0x14015c4f, 0x63066cd9, 0xfa0f3d63, 0x8d080df5,
    0x3b6e20c8, 0x4c69105e, 0xd56041e4, 0xa2677172, 0x3c03e4d1, 0x4b04d447, 0xd20d85fd, 0xa50ab56b,
    0x35b5a8fa, 0x42b2986c, 0xdbbbc9d6, 0xacbcf940, 0x32d86ce3, 0x45df5c75, 0xdcd60dcf, 0xabd13d59,
    0x26d930ac, 0x51de003a, 0xc8d75180, 0xbfd06116, 0x21b4f4b5, 0x56b3c423, 0xcfba9599, 0xb8bda50f,
    0x2802b89e, 0x5f058808, 0xc60cd9b2, 0xb10be924, 0x2f6f7c87, 0x58684c11, 0xc1611dab, 0xb6662d3d,
    0x76dc4190, 0x01db7106, 0x98d220bc, 0xefd5102a, 0x71b18589, 0x06b6b51f, 0x9fbfe4a5, 0xe8b8d433,
    0x7807c9a2, 0x0f00f934, 0x9609a88e, 0xe10e9818, 0x7f6a0dbb, 0x086d3d2d, 0x91646c97, 0xe6635c01,
    0x6b6b51f4, 0x1c6c6162, 0x856530d8, 0xf262004e, 0x6c0695ed, 0x1b01a57b, 0x8208f4c1, 0xf50fc457,
    0x65b0d9c6, 0x12b7e950, 0x8bbeb8ea, 0xfcb9887c, 0x62dd1ddf, 0x15da2d49, 0x8cd37cf3, 0xfbd44c65,
    0x4db26158, 0x3ab551ce, 0xa3bc0074, 0xd4bb30e2, 0x4adfa541, 0x3dd895d7, 0xa4d1c46d, 0xd3d6f4fb,
    0x4369e96a, 0x346ed9fc, 0xad678846, 0xda60b8d0, 0x44042d73, 0x33031de5, 0xaa0a4c5f, 0xdd0d7cc9,
    0x5005713c, 0x270241aa, 0xbe0b1010, 0xc90c2086, 0x5768b525, 0x206f85b3, 0xb966d409, 0xce61e49f,
    0x5edef90e, 0x29d9c998, 0xb0d09822, 0xc7d7a8b4, 0x59b33d17, 0x2eb40d81, 0xb7bd5c3b, 0xc0ba6cad,
    0xedb88320, 0x9abfb3b6, 0x03b6e20c, 0x74b1d29a, 0xead54739, 0x9dd277af, 0x04db2615, 0x73dc1683,
    0xe3630b12, 0x94643b84, 0x0d6d6a3e, 0x7a6a5aa8, 0xe40ecf0b, 0x9309ff9d, 0x0a00ae27, 0x7d079eb1,
    0xf00f9344, 0x8708a3d2, 0x1e01f268, 0x6906c2fe, 0xf762575d, 0x806567cb, 0x196c3671, 0x6e6b06e7,
    0xfed41b76, 0x89d32be0, 0x10da7a5a, 0x67dd4acc, 0xf9b9df6f, 0x8ebeeff9, 0x17b7be43, 0x60b08ed5,
    0xd6d6a3e8, 0xa1d1937e, 0x38d8c2c4, 0x4fdff252, 0xd1bb67f1, 0xa6bc5767, 0x3fb506dd, 0x48b2364b,
    0xd80d2bda, 0xaf0a1b4c, 0x36034af6, 0x41047a60, 0xdf60efc3, 0xa867df55, 0x316e8eef, 0x4669be79,
    0xcb61b38c, 0xbc66831a, 0x256fd2a0, 0x5268e236, 0xcc0c7795, 0xbb0b4703, 0x220216b9, 0x5505262f,
    0xc5ba3bbe, 0xb2bd0b28, 0x2bb45a92, 0x5cb36a04, 0xc2d7ffa7, 0xb5d0cf31, 0x2cd99e8b, 0x5bdeae1d,
    0x9b64c2b0, 0xec63f226, 0x756aa39c, 0x026d930a, 0x9c0906a9, 0xeb0e363f, 0x72076785, 0x05005713,
    0x95bf4a82, 0xe2b87a14, 0x7bb12bae, 0x0cb61b38, 0x92d28e9b, 0xe5d5be0d, 0x7cdcefb7, 0x0bdbdf21,
    0x86d3d2d4, 0xf1d4e242, 0x68ddb3f8, 0x1fda836e, 0x81be16cd, 0xf6b9265b, 0x6fb077e1, 0x18b74777,
    0x88085ae6, 0xff0f6a70, 0x66063bca, 0x11010b5c, 0x8f659eff, 0xf862ae69, 0x616bffd3, 0x166ccf45,
    0xa00ae278, 0xd70dd2ee, 0x4e048354, 0x3903b3c2, 0xa7672661, 0xd06016f7, 0x4969474d, 0x3e6e77db,
    0xaed16a4a, 0xd9d65adc, 0x40df0b66, 0x37d83bf0, 0xa9bcae53, 0xdebb9ec5, 0x47b2cf7f, 0x30b5ffe9,
    0xbdbdf21c, 0xcabac28a, 0x53b39330, 0x24b4a3a6, 0xbad03605, 0xcdd70693, 0x54de5729, 0x23d967bf,
    0xb3667a2e, 0xc4614ab8, 0x5d681b02, 0x2a6f2b94, 0xb40bbe37, 0xc30c8ea1, 0x5a05df1b, 0x2d02ef8d]

/-- `CRC32_CCITT_SEED`. -/
def crc32CcittSeedWord : UInt32 := 0xFFFFFFFF

/-- A round of `crc32_ccitt_seed`. -/
def crcByte (crc32 : UInt32) (byte : UInt8) : UInt32 :=
  crc32CcittTable.getD ((crc32 ^^^ byte.toUInt32) &&& 0xff).toNat 0 ^^^ (crc32 >>> 8)

/-- `crc32_ccitt_seed`. -/
def crc32CcittSeed (buf : List UInt8) (seed : UInt32) : UInt32 := ~~~ buf.foldl crcByte seed

/-- `crc32_ccitt`. -/
def crc32Ccitt (buf : List UInt8) : UInt32 := crc32CcittSeed buf crc32CcittSeedWord

/-- The bytes of a word the other way round. -/
def byteReverse (c : UInt32) : UInt32 :=
  ((c &&& 0xff) <<< 24) ||| (((c >>> 8) &&& 0xff) <<< 16) ||| (((c >>> 16) &&& 0xff) <<< 8) ||| ((c >>> 24) &&& 0xff)

/-- `crc32_802`. -/
def crc32802 (buf : List UInt8) : UInt32 := byteReverse (crc32Ccitt buf)

/-! ## The register -/

/-- The table's word for the byte 128, which is one bit short of being shifted out. -/
def poly : BitVec 32 := 0xedb88320#32

/-- The bits of a byte as they are sent, the low one first. -/
def bitsOf (byte : UInt8) : List Bool := (List.range 8).map byte.toBitVec.getLsbD

/-- The bits of a frame. -/
def bits (buf : List UInt8) : List Bool := buf.flatMap bitsOf

theorem length_bits_of (byte : UInt8) : (bitsOf byte).length = 8 := by
  rw [bitsOf, List.length_map, List.length_range]

theorem length_bits (buf : List UInt8) : (bits buf).length = 8 * buf.length := by
  induction buf with
  | nil => rfl
  | cons byte rest ih =>
    rw [bits, List.flatMap_cons, List.length_append, length_bits_of, ← bits, ih, List.length_cons]
    omega

theorem word_bits_of (byte : UInt8) : word 32 (bitsOf byte) = byte.toBitVec.setWidth 32 := by
  apply BitVec.eq_of_getLsbD_eq
  intro i inside
  rw [getLsbD_word, BitVec.getLsbD_setWidth, bitsOf, List.getD_eq_getElem?_getD, List.getElem?_map]
  by_cases small : i < 8
  · simp [small, inside]
  · simp [small, BitVec.getLsbD_of_ge byte.toBitVec i (by omega)]

/-- Every word of the table is eight shifts of its place. -/
theorem table_word (i : ℕ) (inside : i < 256) :
    (crc32CcittTable.getD i 0).toBitVec = (shift poly)^[8] (BitVec.ofNat 32 i) := by
  have all : (List.range 256).all (fun i =>
      (crc32CcittTable.getD i 0).toBitVec == (shift poly)^[8] (BitVec.ofNat 32 i)) = true := by decide +kernel
  exact eq_of_beq (List.all_eq_true.mp all i (List.mem_range.mpr inside))

/-- A round takes in the bits of a byte. -/
theorem crc_byte_run (crc32 : UInt32) (byte : UInt8) :
    (crcByte crc32 byte).toBitVec = run poly crc32.toBitVec (bitsOf byte) := by
  obtain ⟨y, mixed⟩ : ∃ y, crc32.toBitVec ^^^ byte.toBitVec.setWidth 32 = y := ⟨_, rfl⟩
  have place : ((crc32 ^^^ byte.toUInt32) &&& 0xff).toNat = (y.setWidth 8).toNat := by
    rw [UInt32.toNat_and, show (0xff : UInt32).toNat = 2 ^ 8 - 1 from rfl, Nat.and_two_pow_sub_one_eq_mod,
      BitVec.toNat_setWidth, ← mixed]
    rfl
  have above : y >>> 8 = crc32.toBitVec >>> 8 := by
    have gone : byte.toBitVec.setWidth 32 >>> 8 = 0#32 := by
      apply BitVec.eq_of_getLsbD_eq
      intro i _
      rw [BitVec.getLsbD_ushiftRight, BitVec.getLsbD_setWidth, BitVec.getLsbD_of_ge byte.toBitVec (8 + i) (by omega)]
      simp
    rw [← mixed, BitVec.ushiftRight_xor_distrib, gone, BitVec.xor_zero]
  have shifted : (crc32 >>> 8).toBitVec = crc32.toBitVec >>> 8 := by simp
  rw [run_word (by rw [length_bits_of]; decide), length_bits_of, word_bits_of, mixed,
    iterate_shift_split, above, crcByte,
    place, UInt32.toBitVec_xor, table_word _ (y.setWidth 8).isLt, BitVec.ofNat_toNat, shifted]

theorem foldl_run (buf : List UInt8) (seed : UInt32) :
    (buf.foldl crcByte seed).toBitVec = run poly seed.toBitVec (bits buf) := by
  induction buf generalizing seed with
  | nil => rfl
  | cons byte rest ih => rw [List.foldl_cons, ih, crc_byte_run, bits, bits, List.flatMap_cons, run_append]

/-- The polynomial of the table. It is the one that the comment over the table names, with
the tenth power, which the comment leaves out. -/
theorem divisor_poly : divisor poly = X ^ 32 + X ^ 26 + X ^ 23 + X ^ 22 + X ^ 16 + X ^ 12 + X ^ 11 + X ^ 10 + X ^ 8 +
    X ^ 7 + X ^ 5 + X ^ 4 + X ^ 2 + X + 1 := by
  simp [divisor, value, poly, Finset.sum_range_succ]
  ring

/-- **The check sequence is a remainder.** Before it is complemented, what
`crc32_ccitt_seed` computes is the remainder, by the polynomial of the table, of the seed
followed by the frame, bit by bit. -/
theorem crc32_remainder (buf : List UInt8) (seed : UInt32) :
    value (~~~ crc32CcittSeed buf seed).toBitVec =
      (X ^ (8 * buf.length) * value seed.toBitVec + X ^ 32 * message (bits buf)) %ₘ
        (X ^ 32 + X ^ 26 + X ^ 23 + X ^ 22 + X ^ 16 + X ^ 12 + X ^ 11 + X ^ 10 + X ^ 8 + X ^ 7 + X ^ 5 + X ^ 4 + X ^ 2 +
          X + 1) := by
  rw [crc32CcittSeed, UInt32.not_not, foldl_run, value_run (by decide), length_bits, divisor_poly]

/-! ## The residue -/

/-- Where a bit of a word goes when the bytes are turned round. -/
def turned (i : ℕ) : ℕ := 8 * (3 - i / 8) + i % 8

theorem turned_lt (i : ℕ) : turned i < 32 := by
  unfold turned
  omega

theorem turned_turned (i : ℕ) (inside : i < 32) : turned (turned i) = i := by
  unfold turned
  omega

theorem getLsbD_byte_reverse (c : UInt32) (i : ℕ) (inside : i < 32) :
    (byteReverse c).toBitVec.getLsbD i = c.toBitVec.getLsbD (turned i) := by
  simp [byteReverse, turned]
  interval_cases i <;> simp

theorem getLsbD_sent (a b c d : UInt8) (i : ℕ) (inside : i < 32) :
    (a.toUInt32 <<< 24 ||| b.toUInt32 <<< 16 ||| c.toUInt32 <<< 8 ||| d.toUInt32).toBitVec.getLsbD i =
      (bits [a, b, c, d]).getD (turned i) false := by
  simp [turned, bits, bitsOf, List.range_succ]
  interval_cases i <;> simp

/-- Two words with their bytes turned round. -/
theorem byte_reverse_eq_iff (a b c d : UInt8) (crc : UInt32) :
    byteReverse crc = (a.toUInt32 <<< 24 ||| b.toUInt32 <<< 16 ||| c.toUInt32 <<< 8 ||| d.toUInt32) ↔
      crc.toBitVec = word 32 (bits [a, b, c, d]) := by
  constructor
  · intro same
    apply BitVec.eq_of_getLsbD_eq
    intro i inside
    have there := congrArg (fun v : UInt32 => v.toBitVec.getLsbD (turned i)) same
    simp only [getLsbD_byte_reverse _ _ (turned_lt i), getLsbD_sent _ _ _ _ _ (turned_lt i),
      turned_turned i inside] at there
    rw [there, getLsbD_word, decide_eq_true inside, Bool.true_and]
  · intro same
    rw [← UInt32.toBitVec_inj]
    apply BitVec.eq_of_getLsbD_eq
    intro i inside
    rw [getLsbD_byte_reverse _ _ inside, getLsbD_sent _ _ _ _ _ inside, same, getLsbD_word,
      decide_eq_true (turned_lt i), Bool.true_and]

theorem crc32_ccitt_run (buf : List UInt8) :
    (crc32Ccitt buf).toBitVec = ~~~ run poly (BitVec.allOnes 32) (bits buf) := by
  rw [crc32Ccitt, crc32CcittSeed, UInt32.toBitVec_not, foldl_run]
  rfl

/-- What the register holds of every frame that ends in its own check sequence. -/
theorem shift_all_ones : (shift poly)^[32] (BitVec.allOnes 32) = ~~~ (0x2144df1c#32) := by decide +kernel

/-- **The check sequence leaves a residue**, whatever the frame is: the sequence over the frame with
four bytes behind it is always one word if they are the sequence over the frame, and never if they are not. -/
theorem crc32_residue (body : List UInt8) (a b c d : UInt8) :
    crc32Ccitt (body ++ [a, b, c, d]) = 0x2144df1c ↔ (crc32Ccitt body).toBitVec = word 32 (bits [a, b, c, d]) := by
  have sequence : (bits [a, b, c, d]).length = 32 := by rw [length_bits]; rfl
  obtain ⟨held, running⟩ : ∃ held, run poly (BitVec.allOnes 32) (bits body) = held := ⟨_, rfl⟩
  have whole : run poly (BitVec.allOnes 32) (bits (body ++ [a, b, c, d])) =
      (shift poly)^[32] (held ^^^ word 32 (bits [a, b, c, d])) := by
    rw [bits, List.flatMap_append, run_append, ← bits, running, ← bits, run_word (Nat.le_of_eq sequence), sequence]
  rw [← UInt32.toBitVec_inj, crc32_ccitt_run, crc32_ccitt_run, running, whole]
  calc ~~~ (shift poly)^[32] (held ^^^ word 32 (bits [a, b, c, d])) = 0x2144df1c#32
      ↔ (shift poly)^[32] (held ^^^ word 32 (bits [a, b, c, d])) = (shift poly)^[32] (BitVec.allOnes 32) := by
        rw [shift_all_ones, ← BitVec.not_inj, BitVec.not_not]
    _ ↔ held ^^^ word 32 (bits [a, b, c, d]) = BitVec.allOnes 32 :=
        (iterate_shift_injective (by decide)).eq_iff
    _ ↔ ~~~ held = word 32 (bits [a, b, c, d]) := by
        rw [← BitVec.xor_allOnes, ← BitVec.xor_right_inj held, ← BitVec.xor_assoc, BitVec.xor_self,
          BitVec.zero_xor, eq_comm]

/-- Two frames of one length that differ, but only inside 32 bits, do not have one sequence. -/
theorem crc32_burst {buf other : List UInt8} {burst : List Bool} {before after : ℕ} (same : buf.length = other.length)
    (differ : List.zipWith xor (bits buf) (bits other) =
      List.replicate before false ++ burst ++ List.replicate after false)
    (fits : burst.length ≤ 32) (loud : true ∈ burst) : crc32Ccitt buf ≠ crc32Ccitt other := by
  intro one
  have held : run poly (BitVec.allOnes 32) (bits buf) = run poly (BitVec.allOnes 32) (bits other) := by
    rw [← BitVec.not_inj, ← crc32_ccitt_run, ← crc32_ccitt_run, one]
  have long : (bits buf).length = (bits other).length := by rw [length_bits, length_bits, same]
  apply @run_burst 32 poly (by decide) burst fits loud before after
  rw [← differ, ← @BitVec.xor_self 32 (BitVec.allOnes 32), run_xor long, held, BitVec.xor_self, BitVec.xor_self]

end Ditto.Crc32
