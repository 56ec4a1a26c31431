import Ditto.BitmapTransfer

/-! The bitmap transfer round-trips for vectors of one reply only. Every round
from an aligned offset is exact as far as it goes; but the server compares the
offset, which counts bits, with the size of the packed string, which counts
bytes, so the check that is never made in the first round fails before the last
of several. -/
namespace Ditto.XferGtc
open PackedBits Words

variable {bmp stored : List Bool} {offset : UInt32}

theorem to_nat_bytes_for (bits : UInt32) : (bytesFor bits).toNat = (bits.toNat + 7) / 8 := by
  have bound := bits.toNat_lt
  have whole : bits % 8 = 0 ↔ bits.toNat % 8 = 0 := by
    rw [← UInt32.toNat_inj, UInt32.toNat_mod]
    rfl
  rw [bytesFor]
  split
  · rename_i aligned
    have := whole.mp aligned
    rw [UInt32.toNat_div, show (8 : UInt32).toNat = 8 from rfl]
    omega
  · rename_i ragged
    have : bits.toNat % 8 ≠ 0 := fun aligned => ragged (whole.mpr aligned)
    rw [UInt32.toNat_add, UInt32.toNat_div, show (8 : UInt32).toNat = 8 from rfl,
      show (1 : UInt32).toNat = 1 from rfl]
    omega

/-! ## Packing -/

/-- The packing loop sets the bits of the prefix it has gone through. -/
theorem pack_loop (bmp : List Bool) (bytes : List UInt8) (room : count ≤ 8 * bytes.length) :
    let packed := (List.range count).foldl
      (fun tmp i => if bmp.getD i false then setBit tmp i else tmp) bytes
    packed.length = bytes.length ∧
      ∀ i, readBit packed i = (readBit bytes i || (decide (i < count) && bmp.getD i false)) := by
  induction count with
  | zero => simp
  | succ count ih =>
    obtain ⟨same, read⟩ := ih (by omega)
    simp only [List.range_succ, List.foldl_append, List.foldl_cons, List.foldl_nil]
    cases held : bmp.getD count false with
    | true =>
      refine ⟨by simpa using same, fun i => ?_⟩
      simp only [if_true]
      rw [read_bit_set_bit (by omega), read i, Bool.or_assoc]
      congr 1
      by_cases here : count = i
      · subst here
        simpa using held
      · simp [here, show i < count + 1 ↔ i < count by omega]
    | false =>
      refine ⟨by simpa using same, fun i => ?_⟩
      simp only [Bool.false_eq_true, if_false]
      rw [read i]
      congr 1
      by_cases here : count = i
      · subst here
        simpa using held
      · simp [show i < count + 1 ↔ i < count by omega]

theorem length_convert_from (descCount : UInt32) (bmp : List Bool) :
    (convertFromBitvec descCount bmp).length = (descCount.toNat + 7) / 8 := by
  have room : descCount.toNat ≤ 8 * (List.replicate (bytesFor descCount).toNat (0 : UInt8)).length := by
    rw [List.length_replicate, to_nat_bytes_for]
    omega
  rw [convertFromBitvec, (pack_loop bmp _ room).1, List.length_replicate, to_nat_bytes_for]

theorem read_convert_from (descCount : UInt32) (bmp : List Bool) (i : ℕ) :
    readBit (convertFromBitvec descCount bmp) i =
      (decide (i < descCount.toNat) && bmp.getD i false) := by
  have room : descCount.toNat ≤ 8 * (List.replicate (bytesFor descCount).toNat (0 : UInt8)).length := by
    rw [List.length_replicate, to_nat_bytes_for]
    omega
  rw [convertFromBitvec, (pack_loop bmp _ room).2, read_bit_zeros, Bool.false_or]

theorem read_bit_drop (bytes : List UInt8) (skipped i : ℕ) :
    readBit (bytes.drop skipped) i = readBit bytes (8 * skipped + i) := by
  have byte : (8 * skipped + i) / 8 = skipped + i / 8 := by omega
  have bit : (8 * skipped + i) % 8 = i % 8 := by omega
  simp [readBit, byte, bit, List.getD_eq_getElem?_getD]

theorem read_bit_take (bytes : List UInt8) (inside : i < 8 * kept) :
    readBit (bytes.take kept) i = readBit bytes i := by
  have within : i / 8 < kept := by omega
  simp [readBit, List.getD_eq_getElem?_getD, List.getElem?_take_of_lt within]

/-! ## One round -/

/-- Of a bit vector too long to count in an `unsigned int` the server sees the
part the count wraps to. -/
theorem remote_wraps (offset : UInt32) (stored : List Bool) :
    remoteGetBitmapCb offset none stored =
      remoteGetBitmapCb offset none (stored.take (stored.length % 2 ^ 32)) := by
  have seen : (stored.take (stored.length % 2 ^ 32)).length = stored.length % 2 ^ 32 := by
    simp [Nat.mod_le]
  have count : UInt32.ofNat (stored.take (stored.length % 2 ^ 32)).length =
      UInt32.ofNat stored.length := by
    rw [seen, ← UInt32.toNat_inj]
    simp
  have packed : convertFromBitvec (UInt32.ofNat stored.length) stored =
      convertFromBitvec (UInt32.ofNat stored.length) (stored.take (stored.length % 2 ^ 32)) := by
    refine List.foldl_ext _ _ _ fun tmp i member => ?_
    have inside : i < stored.length % 2 ^ 32 := by simpa using member
    rw [List.getD_eq_getElem?_getD, List.getD_eq_getElem?_getD, List.getElem?_take_of_lt inside]
  simp only [remoteGetBitmapCb, count, packed]

/-- The bits the server cuts out of the packed string are the stored ones. -/
theorem reply_bits (counted : bmp.length < 2 ^ 32) (aligned : offset.toNat % 8 = 0)
    {sendbits : UInt32} (small : sendbits.toNat < 2 ^ 31)
    (within : offset.toNat + sendbits.toNat ≤ bmp.length) :
    convertToBitvec (((convertFromBitvec (UInt32.ofNat bmp.length) bmp).drop (offset / 8).toNat).take
        (bytesFor sendbits).toNat) sendbits =
      some ((bmp.drop offset.toNat).take sendbits.toNat) := by
  have count : (UInt32.ofNat bmp.length).toNat = bmp.length := by
    rw [UInt32.toNat_ofNat', Nat.mod_eq_of_lt counted]
  have skipped : (offset / 8).toNat = offset.toNat / 8 := UInt32.toNat_div ..
  have room : sendbits.toNat ≤ 8 * (((convertFromBitvec (UInt32.ofNat bmp.length) bmp).drop
      (offset / 8).toNat).take (bytesFor sendbits).toNat).length := by
    rw [List.length_take, List.length_drop, length_convert_from, to_nat_bytes_for, count, skipped]
    omega
  have whole : 0 ≤ toInt sendbits := by
    rw [toInt_of_small small]
    exact Int.natCast_nonneg _
  rw [convertToBitvec, if_neg (by omega)]
  refine congrArg some (List.ext_getElem (by simp; omega) fun i inside _ => ?_)
  have bound : i < sendbits.toNat := by simpa using inside
  rw [List.getElem_map, List.getElem_range, read_bit_take _ (by rw [to_nat_bytes_for]; omega),
    read_bit_drop, read_convert_from, skipped, count]
  have position : 8 * (offset.toNat / 8) + i = offset.toNat + i := by omega
  have inner : offset.toNat + i < bmp.length := by omega
  rw [position, List.getElem_take, List.getElem_drop]
  simp [List.getD_eq_getElem?_getD, inner]

/-- The client's loop appends the reply's bits to what it has. -/
theorem store_bits_append (bmp bmpTmp : List Bool) :
    storeBits (zsetsize bmp (bmpTmp.length + bmp.length)) bmpTmp bmp.length bmpTmp.length =
      bmp ++ bmpTmp := by
  have loop : ∀ count, count ≤ bmpTmp.length →
      storeBits (zsetsize bmp (bmpTmp.length + bmp.length)) bmpTmp bmp.length count =
        bmp ++ bmpTmp.take count ++ List.replicate (bmpTmp.length - count) false := by
    intro count
    induction count with
    | zero =>
      intro _
      simp [storeBits, zsetsize, List.take_of_length_le]
    | succ count ih =>
      intro inside
      have room : bmpTmp.length - count = bmpTmp.length - (count + 1) + 1 := by omega
      have known : bmpTmp[count]? = some bmpTmp[count] := List.getElem?_eq_getElem _
      rw [storeBits, List.range_succ, List.foldl_append, ← storeBits, ih (by omega)]
      simp only [List.foldl_cons, List.foldl_nil]
      have place : count + bmp.length - (bmp ++ bmpTmp.take count).length = 0 := by simp; omega
      rw [List.set_append_right _ _ (by simp; omega), place, room, List.replicate_succ,
        List.set_cons_zero, List.getD_eq_getElem?_getD, known, List.take_add_one, known]
      simp only [Option.getD_some, Option.toList_some, List.append_assoc, List.singleton_append]
  have done := loop bmpTmp.length le_rfl
  simpa using done

theorem maxbits_eq : maxbits.toNat = 249856 := by decide

/-- What the server's reply from an aligned offset makes of a client that holds
the bits before it. -/
theorem round_eq (counted : stored.length < 2 ^ 32) (aligned : offset.toNat % 8 = 0)
    (reached : offset.toNat ≤ stored.length) :
    getBitmapInternalCb (remoteGetBitmapCb offset none stored) (stored.take offset.toNat) = some (
      if 0 < offset.toNat ∧ (stored.length + 7) / 8 ≤ offset.toNat then
        .failed (bitmapReturned "Too large offset for GET_BITMAP")
      else if maxbits.toNat < stored.length - offset.toNat then
        .again ((offset.toNat + maxbits.toNat : ℕ) : ℤ) (stored.take (offset.toNat + maxbits.toNat))
      else .finished stored) := by
  have count : (UInt32.ofNat stored.length).toNat = stored.length := by
    rw [UInt32.toNat_ofNat', Nat.mod_eq_of_lt counted]
  have asked : 0 < offset ↔ 0 < offset.toNat := UInt32.lt_iff_toNat_lt
  have total : (UInt32.ofNat stored.length - offset).toNat = stored.length - offset.toNat := by
    rw [toNat_sub_eq (by omega), count]
  have exceeds : maxbits < UInt32.ofNat stored.length - offset ↔
      maxbits.toNat < stored.length - offset.toNat := by
    rw [UInt32.lt_iff_toNat_lt, total]
  have limit := maxbits_eq
  simp only [remoteGetBitmapCb, length_convert_from, count, asked, exceeds]
  split
  · rfl
  · rename_i near
    -- the reply's bits extend the prefix the client holds by `sendbits`
    have reply {sendbits : UInt32} (small : sendbits.toNat < 2 ^ 31)
        (within : offset.toNat + sendbits.toNat ≤ stored.length) (ended : Bool) :
        getBitmapInternalCb (.ok {
          offset := offset.toUInt64
          count := sendbits
          numDescs := UInt32.ofNat stored.length
          bmp := ((convertFromBitvec (UInt32.ofNat stored.length) stored).drop
            (offset / 8).toNat).take (bytesFor sendbits).toNat
          ended := ended }) (stored.take offset.toNat) =
        some (if ended then .finished (stored.take (offset.toNat + sendbits.toNat))
          else .again (toInt (sendbits.toUInt64 + offset.toUInt64).toUInt32)
            (stored.take (offset.toNat + sendbits.toNat))) := by
      have next : (sendbits.toUInt64 + offset.toUInt64).toNat = sendbits.toNat + offset.toNat := by
        have bound := offset.toNat_lt
        rw [UInt64.toNat_add, UInt32.toNat_toUInt64, UInt32.toNat_toUInt64]
        omega
      have forward : ¬ sendbits.toUInt64 + offset.toUInt64 < offset.toUInt64 := by
        rw [UInt64.lt_iff_toNat_lt, next, UInt32.toNat_toUInt64]
        omega
      have held : (stored.take offset.toNat).length = offset.toNat :=
        List.length_take_of_le reached
      have come : ((stored.drop offset.toNat).take sendbits.toNat).length = sendbits.toNat := by
        simp
        omega
      have joined := store_bits_append (stored.take offset.toNat)
        ((stored.drop offset.toNat).take sendbits.toNat)
      rw [held, come, ← List.take_add] at joined
      simp only [getBitmapInternalCb, reply_bits counted aligned small within, if_neg forward, next,
        UInt32.toNat_toUInt64, joined, Option.bind_eq_bind, Option.bind_some]
    split
    · rename_i more
      have word : (maxbits.toUInt64 + offset.toUInt64).toUInt32.toNat =
          offset.toNat + maxbits.toNat := by
        rw [UInt64.toNat_toUInt32, UInt64.toNat_add, UInt32.toNat_toUInt64, UInt32.toNat_toUInt64]
        omega
      rw [reply (by omega) (by omega), toInt_of_small (by omega), word]
      simp [more]
    · rename_i last
      rw [reply (by omega) (by omega), total, Nat.add_sub_cancel' reached, List.take_length]
      simp [last]

/-! ## The loop -/

/-- The offset the server gets is the one the client asked from. -/
theorem sent_offset {n : ℕ} (small : n < 2 ^ 32) : (UInt64.ofInt (n : ℤ)).toUInt32.toNat = n := by
  have cast : ((n : ℤ) % 2 ^ 64).toNat = n := by omega
  rw [UInt64.ofInt, cast, UInt64.toNat_toUInt32, UInt64.toNat_ofNat']
  omega

/-- One call of the loop from an aligned offset. -/
theorem run_round {n : ℕ} (counted : stored.length < 2 ^ 32) (aligned : n % 8 = 0)
    (reached : n ≤ stored.length) (fuel : ℕ) :
    getBitmapInt stored (fuel + 1) n (stored.take n) =
      if 0 < n ∧ (stored.length + 7) / 8 ≤ n then
        some (.error (bitmapReturned "Too large offset for GET_BITMAP"))
      else if maxbits.toNat < stored.length - n then
        getBitmapInt stored fuel (n + maxbits.toNat : ℕ) (stored.take (n + maxbits.toNat))
      else some (.ok stored) := by
  have offset : (UInt64.ofInt (n : ℤ)).toUInt32.toNat = n := sent_offset (by omega)
  have round := round_eq counted (offset.symm ▸ aligned) (offset.symm ▸ reached)
  simp only [offset] at round
  rw [getBitmapInt, round]
  split
  · rfl
  · split
    · rfl
    · rfl

/-- Past the first round the server's check fails before the last round. -/
theorem later_rounds_fail {n : ℕ} (counted : stored.length < 2 ^ 32) (aligned : n % 8 = 0)
    (reached : n ≤ stored.length) (later : maxbits.toNat ≤ n) (fuel : ℕ) (result : List Bool) :
    getBitmapInt stored fuel n (stored.take n) ≠ some (.ok result) := by
  have limit := maxbits_eq
  induction fuel generalizing n with
  | zero => simp [getBitmapInt]
  | succ fuel ih =>
    rw [run_round counted aligned reached]
    split
    · simp
    · rename_i near
      rw [if_pos (by omega)]
      exact ih (by omega) (by omega) (by omega)

theorem first_round (counted : stored.length < 2 ^ 32) (fuel : ℕ) :
    getBitmapInt stored (fuel + 1) 0 [] =
      if maxbits.toNat < stored.length then
        getBitmapInt stored fuel (maxbits.toNat : ℤ) (stored.take maxbits.toNat)
      else some (.ok stored) := by
  have first := run_round (n := 0) counted (by decide) (Nat.zero_le _) fuel
  simpa using first

/-- A vector of more than one reply never comes back, in however many calls. -/
theorem long_vector_fails (counted : stored.length < 2 ^ 32) (long : maxbits.toNat < stored.length)
    (fuel : ℕ) (result : List Bool) : getBitmapInt stored fuel 0 [] ≠ some (.ok result) := by
  have limit := maxbits_eq
  cases fuel with
  | zero => simp [getBitmapInt]
  | succ fuel =>
    rw [first_round counted, if_pos long]
    exact later_rounds_fail counted (by omega) (by omega) (by omega) fuel result

/-- What one reply holds comes back whole. -/
theorem short_vector_result (short : stored.length ≤ maxbits.toNat)
    (ran : getBitmapInt stored fuel 0 [] = some (.ok result)) : result = stored := by
  have limit := maxbits_eq
  cases fuel with
  | zero => simp [getBitmapInt] at ran
  | succ fuel =>
    rw [first_round (by omega), if_neg (by omega)] at ran
    exact (Except.ok.inj (Option.some_inj.mp ran)).symm

theorem run_wraps (stored : List Bool) (fuel : ℕ) (offset : ℤ) (bmp : List Bool) :
    getBitmapInt stored fuel offset bmp =
      getBitmapInt (stored.take (stored.length % 2 ^ 32)) fuel offset bmp := by
  induction fuel generalizing offset bmp with
  | zero => rfl
  | succ fuel ih => simp only [getBitmapInt, ← remote_wraps, ih]

/-- **A bitmap transfer round-trips exactly when one reply holds the bitmap.** -/
theorem bitmap_round_trip_iff (stored : List Bool) :
    (∃ fuel, getBitmapInt stored fuel 0 [] = some (.ok stored)) ↔
      stored.length ≤ maxbits.toNat := by
  constructor
  · rintro ⟨fuel, ran⟩
    by_contra long
    have limit := maxbits_eq
    have seen : (stored.take (stored.length % 2 ^ 32)).length = stored.length % 2 ^ 32 := by
      simp [Nat.mod_le]
    have counted := Nat.mod_lt stored.length (show 0 < 2 ^ 32 by decide)
    rw [run_wraps] at ran
    by_cases wrapped : stored.length % 2 ^ 32 ≤ maxbits.toNat
    · -- the count wraps to a short vector, and that is what comes back
      have same := congrArg List.length (short_vector_result (by omega) ran)
      omega
    · exact long_vector_fails (by omega) (by omega) fuel stored ran
  · intro short
    have limit := maxbits_eq
    exact ⟨1, by rw [first_round (by omega), if_neg (by omega)]⟩

/-- One bit more than a reply holds ends in an error. -/
theorem bitmap_of_two_replies_fails :
    ¬ ∃ fuel, getBitmapInt (List.replicate 249857 true) fuel 0 [] =
      some (.ok (List.replicate 249857 true)) := by
  have limit := maxbits_eq
  have size : (List.replicate 249857 true).length = 249857 := List.length_replicate
  rintro ⟨fuel, ran⟩
  exact long_vector_fails (by omega) (by omega) fuel _ ran

end Ditto.XferGtc
