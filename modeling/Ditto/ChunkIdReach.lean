import Mathlib.Data.Nat.Find
import Ditto.RecordHeaders

/-! How far the search for a chunk id looks. The mask and the reply are compared without
asking whether the payload has so many bytes, so the answer may depend on what is behind
it in memory. What the payload itself has to show for the answer to be its own is said
here, offset by offset. -/
namespace Ditto.ChunkIdReach
open Sniffer Windows Words RecordHeaders

/-- What the payload has of a field at an offset agrees with these bytes. -/
def Agrees (p : List UInt8) (offset : ℕ) (field : List UInt8) : Prop :=
  ∀ j b m, p[offset + j]? = some b → field[j]? = some m → b = m

/-- As far as the payload goes, it shows the header of a record at an offset. -/
def MayShow (p : List UInt8) (i : ℕ) : Prop := p[i]? = some rpcHeader ∧ Agrees p (i + 8) mask

/-- The payload from an offset on, with the same byte for all it does not have. -/
def padded (fill : UInt8) (p : List UInt8) (offset : ℕ) : Pointer :=
  (Pointer.ofBytes p fun _ => fill).advance offset

/-- The length field of a chunk id. -/
def idLengthField : List UInt8 := [0, 0, 0, 20]

/-- What the payload has of the three length fields rules a reply out. -/
def Refused (p : List UInt8) (i : ℕ) : Prop :=
  getLengthFromByteStream (padded 0xff p i) < minPayloadLength ∨ ¬ Agrees p (i + 40) idLengthField ∨
    ntohl (padded 0xff p (i + 64)) < minChunkSize

/-- The payload has the chunk id, and what it has of the three length fields is enough
for a reply. -/
def Accepted (p : List UInt8) (i : ℕ) : Prop :=
  i + 64 ≤ p.length ∧ minPayloadLength ≤ getLengthFromByteStream (padded 0 p i) ∧
    Agrees p (i + 40) idLengthField ∧ minChunkSize ≤ ntohl (padded 0 p (i + 64))

/-- An earlier offset shows a header whenever this one does: its mask is in the payload,
or this header completes it. -/
def Shadowed (p : List UInt8) (i : ℕ) : Prop :=
  ∃ j < i, MayShow p j ∧ (j + 32 ≤ p.length ∨ j + 20 = i ∧ i + 8 ≤ p.length)

/-- The payload alone says what its chunk id is. -/
def SelfContained (p : List UInt8) : Prop :=
  ∀ i, MayShow p i → Shadowed p i ∨ Refused p i ∨ Accepted p i

variable {p : List UInt8} {around other : ℤ → UInt8} {q : Pointer} {i n len : ℕ} {field : List UInt8}

/-! ## Bytes -/

theorem of_bytes_inside {b : UInt8} (held : p[n]? = some b) : Pointer.ofBytes p around n = b := by
  obtain ⟨inside, rfl⟩ := List.getElem?_eq_some_iff.mp held
  rw [Pointer.ofBytes, if_pos ⟨by omega, by omega⟩, Int.toNat_natCast, List.getD_eq_getElem?_getD, held,
    Option.getD_some]

theorem of_bytes_beyond (past : p.length ≤ n) : Pointer.ofBytes p around n = around n := by
  rw [Pointer.ofBytes, if_neg (by omega)]

/-- A field is there when each of its bytes is. -/
theorem bytes_eq_iff : (q.advance n).bytes field.length = field ↔
    ∀ j m, field[j]? = some m → q (n + j : ℕ) = m := by
  have shown : ∀ j < field.length, ((q.advance n).bytes field.length)[j]? = some (q (n + j : ℕ)) := fun j inside => by
    rw [Pointer.bytes, getElem?_window _ (by omega), Nat.zero_add, Pointer.advance, Int.natCast_add]
  constructor
  · intro same j m held
    obtain ⟨inside, _⟩ := List.getElem?_eq_some_iff.mp held
    have at_j := shown j inside
    rw [same, held] at at_j
    exact (Option.some_inj.mp at_j).symm
  · intro each
    apply List.ext_getElem?
    intro j
    by_cases inside : j < field.length
    · rw [shown j inside, each j _ (List.getElem?_eq_getElem inside), List.getElem?_eq_getElem inside]
    · rw [List.getElem?_eq_none (by simpa using inside), List.getElem?_eq_none (by simpa using inside)]

/-- A field that memory shows agrees with what the payload has of it. -/
theorem agrees_of_shown (shown : ((Pointer.ofBytes p around).advance n).bytes field.length = field) :
    Agrees p n field := by
  intro j b m held wanted
  rw [← of_bytes_inside held]
  exact bytes_eq_iff.mp shown j m wanted

/-- A field that the payload agrees with is shown when the memory behind has the rest. -/
theorem shown_of_agrees (agrees : Agrees p n field)
    (rest : ∀ j m, field[j]? = some m → p.length ≤ n + j → around (n + j : ℕ) = m) :
    ((Pointer.ofBytes p around).advance n).bytes field.length = field := by
  refine bytes_eq_iff.mpr fun j m wanted => ?_
  by_cases inside : n + j < p.length
  · rw [of_bytes_inside (List.getElem?_eq_getElem inside)]
    exact agrees j _ m (List.getElem?_eq_getElem inside) wanted
  · rw [of_bytes_beyond (by omega)]
    exact rest j m wanted (by omega)

/-! ## Headers -/

/-- Memory shows the header of a record at an offset. -/
def Shows (q : Pointer) (i : ℕ) : Prop := q i = rpcHeader ∧ (q.advance (i + 8 : ℕ)).bytes maskSizeInBytes = mask

theorem may_show_of_shows (inside : i < p.length) (shows : Shows (.ofBytes p around) i) : MayShow p i := by
  obtain ⟨mark, masked⟩ := shows
  refine ⟨?_, agrees_of_shown masked⟩
  rw [List.getElem?_eq_getElem inside, ← mark, of_bytes_inside (List.getElem?_eq_getElem inside)]

/-- A header whose mask is in the payload is shown whatever is behind it. -/
theorem shows_of_whole (may : MayShow p i) (whole : i + 32 ≤ p.length) : Shows (.ofBytes p around) i := by
  refine ⟨of_bytes_inside may.1, shown_of_agrees may.2 fun j m wanted past => ?_⟩
  obtain ⟨inside, _⟩ := List.getElem?_eq_some_iff.mp wanted
  have size : mask.length = 24 := rfl
  omega

/-- The search stops at the first header. -/
theorem get_chunk_id_first (inside : i < len) (shows : Shows q i) (before : ∀ j < i, ¬ Shows q j) :
    getChunkId q len = (extractChunkResponse (q.advance i)).map fun reply => (reply.chunkId, i) := by
  have searched : rpcHeaderInStream q len = some i := by
    rw [rpcHeaderInStream, List.find?_range_eq_some]
    refine ⟨by simpa [Shows] using shows, List.mem_range.mpr inside, fun j earlier => ?_⟩
    simpa [Shows, not_and_or, imp_iff_not_or] using before j earlier
  rw [getChunkId, searched, Option.bind_eq_bind, Option.bind_some]
  cases extractChunkResponse (q.advance i) <;> rfl

theorem get_chunk_id_none (without : ∀ j < len, ¬ Shows q j) : getChunkId q len = none := by
  have searched : rpcHeaderInStream q len = none := by
    rw [rpcHeaderInStream, List.find?_eq_none]
    exact fun j member => by simpa [Shows, not_and_or, imp_iff_not_or] using without j (List.mem_range.mp member)
  rw [getChunkId, searched]
  rfl

theorem first_or_none (q : Pointer) (len : ℕ) :
    (∃ i < len, Shows q i ∧ ∀ j < i, ¬ Shows q j) ∨ ∀ j < len, ¬ Shows q j := by
  classical
  by_cases some : ∃ i, i < len ∧ Shows q i
  · refine Or.inl ⟨Nat.find some, (Nat.find_spec some).1, (Nat.find_spec some).2, fun j earlier shows => ?_⟩
    exact Nat.find_min some earlier ⟨Nat.lt_trans earlier (Nat.find_spec some).1, shows⟩
  · exact Or.inr fun j inside shows => some ⟨j, inside, shows⟩

/-- What shows a header after all is not preceded by one that would show with it. -/
theorem not_shadowed (shows : Shows (.ofBytes p around) i) (before : ∀ j < i, ¬ Shows (.ofBytes p around) j) :
    ¬ Shadowed p i := by
  rintro ⟨j, earlier, may, whole | ⟨behind, room⟩⟩
  · exact before j earlier (shows_of_whole may whole)
  · -- the end of the first mask is the start of the second
    refine before j earlier ⟨of_bytes_inside may.1, shown_of_agrees may.2 fun k m wanted past => ?_⟩
    obtain ⟨inside, _⟩ := List.getElem?_eq_some_iff.mp wanted
    have size : mask.length = 24 := rfl
    obtain ⟨l, rfl⟩ := Nat.exists_eq_add_of_le (show 20 ≤ k by omega)
    have same : mask[l]? = mask[20 + l]? :=
      match l, (show l < 4 by omega) with
      | 0, _ | 1, _ | 2, _ | 3, _ => rfl
    have shown := bytes_eq_iff.mp shows.2 l m (same.trans wanted)
    have place : i + 8 + l = j + 8 + (20 + l) := by omega
    rw [place, of_bytes_beyond past] at shown
    exact shown

/-! ## Replies -/

theorem ntohl_mono {q q' : Pointer} (each : ∀ k : ℕ, (q k).toNat ≤ (q' k).toNat) : ntohl q ≤ ntohl q' := by
  have := each 0
  have := each 1
  have := each 2
  have := each 3
  simp only [ntohl]
  push_cast at *
  omega

theorem get_length_mono {q q' : Pointer} (first : q 0 = q' 0) (each : ∀ k : ℕ, (q k).toNat ≤ (q' k).toNat) :
    getLengthFromByteStream q ≤ getLengthFromByteStream q' := by
  have := each 1
  have := each 2
  have := each 3
  simp only [getLengthFromByteStream, first]
  push_cast at *
  omega

/-- Any bytes behind the payload are between the least and the greatest. -/
theorem between_padded (p : List UInt8) (around : ℤ → UInt8) (n k : ℕ) :
    (padded 0 p n k).toNat ≤ ((Pointer.ofBytes p around).advance n k).toNat ∧
      ((Pointer.ofBytes p around).advance n k).toNat ≤ (padded 0xff p n k).toNat := by
  have place : (n : ℤ) + k = (n + k : ℕ) := by omega
  simp only [padded, Pointer.advance, place]
  by_cases inside : n + k < p.length
  · simp only [of_bytes_inside (List.getElem?_eq_getElem inside), Nat.le_refl, and_self]
  · have bound := (around (n + k : ℕ)).toNat_lt
    simp only [of_bytes_beyond (Nat.le_of_not_lt inside)]
    exact ⟨Nat.zero_le _, Nat.le_of_lt_succ bound⟩

theorem id_length_iff : ntohl (q.advance n) = 20 ↔ (q.advance n).bytes idLengthField.length = idLengthField := by
  constructor
  · intro total
    have first := (q.advance n 0).toNat_lt
    have second := (q.advance n 1).toNat_lt
    have third := (q.advance n 2).toNat_lt
    have fourth := (q.advance n 3).toNat_lt
    rw [ntohl] at total
    have shown : (q.advance n).bytes idLengthField.length =
        [q.advance n 0, q.advance n 1, q.advance n 2, q.advance n 3] := rfl
    have zero : (0 : UInt8).toNat = 0 := rfl
    have twenty : (20 : UInt8).toNat = 20 := rfl
    rw [shown, idLengthField]
    simp only [List.cons.injEq, ← UInt8.toNat_inj, zero, twenty, and_true]
    omega
  · intro shown
    rw [ntohl_eq]
    exact congrArg Xdr.number shown

theorem extract_none (refused : getLengthFromByteStream q < minPayloadLength ∨ ntohl (q.advance 40) ≠ 20 ∨
    ntohl (q.advance 64) < minChunkSize) : extractChunkResponse q = none := by
  rw [extractChunkResponse]
  simp only [Pointer.advance_advance, Int.reduceAdd]
  by_cases short : getLengthFromByteStream q < minPayloadLength
  · rw [if_pos short]
  · rw [if_neg short]
    by_cases same : ntohl (q.advance 40) = 20
    · rw [if_neg (fun other => other same), if_pos (by omega)]
    · rw [if_pos same]

/-- What the payload rules out is not extracted, -/
theorem extract_refused (inside : i < p.length) (refused : Refused p i) :
    extractChunkResponse ((Pointer.ofBytes p around).advance i) = none := by
  have first : (Pointer.ofBytes p around).advance i 0 = padded 0xff p i 0 := by
    rw [padded, Pointer.advance, Pointer.advance, Int.add_zero, of_bytes_inside (List.getElem?_eq_getElem inside),
      of_bytes_inside (List.getElem?_eq_getElem inside)]
  apply extract_none
  rcases refused with short | other | small
  · left
    exact Nat.lt_of_le_of_lt (get_length_mono first fun k => (between_padded p around i k).2) short
  · right; left
    rw [Pointer.advance_advance]
    exact fun total => other (agrees_of_shown (id_length_iff.mp total))
  · right; right
    rw [Pointer.advance_advance]
    exact Nat.lt_of_le_of_lt (ntohl_mono fun k => (between_padded p around (i + 64) k).2) small

/-- and what it accepts is, with the chunk id it has. -/
theorem extract_accepted (inside : i < p.length) (accepted : Accepted p i) :
    ∃ data, extractChunkResponse ((Pointer.ofBytes p around).advance i) =
      some ⟨(p.drop (i + 44)).take 20, data⟩ := by
  obtain ⟨held, long, agrees, large⟩ := accepted
  have first : padded 0 p i 0 = (Pointer.ofBytes p around).advance i 0 := by
    rw [padded, Pointer.advance, Pointer.advance, Int.add_zero, of_bytes_inside (List.getElem?_eq_getElem inside),
      of_bytes_inside (List.getElem?_eq_getElem inside)]
  have idLength : ntohl (((Pointer.ofBytes p around).advance i).advance 40) = 20 := by
    rw [Pointer.advance_advance]
    refine (id_length_iff (n := i + 40)).mpr (shown_of_agrees agrees fun j m wanted past => ?_)
    obtain ⟨few, _⟩ := List.getElem?_eq_some_iff.mp wanted
    have size : idLengthField.length = 4 := rfl
    omega
  have dataLength : minChunkSize ≤ ntohl (((Pointer.ofBytes p around).advance i).advance 64) := by
    rw [Pointer.advance_advance]
    exact Nat.le_trans large (ntohl_mono fun k => (between_padded p around (i + 64) k).1)
  have payloadLength := Nat.le_trans long (get_length_mono first fun k => (between_padded p around i k).1)
  have whole : (Pointer.ofBytes p around).bytes p.length = p.take p.length := by
    rw [Pointer.bytes_ofBytes, List.take_length]
  have chunkId : (((Pointer.ofBytes p around).advance i).advance 44).bytes 20 = (p.drop (i + 44)).take 20 := by
    rw [Pointer.advance_advance]
    exact slice_eq (i + 44) 20 whole (by omega)
  rw [extract_eq payloadLength idLength dataLength, chunkId]
  exact ⟨_, rfl⟩

/-! ## Memory that completes a reply -/

/-- Memory that goes on as a reply whose record is at an offset would, with a byte to
fill up the chunk id. -/
def completing (i : ℕ) (idByte : UInt8) : ℤ → UInt8 := fun n =>
  if i + 8 ≤ n ∧ n < i + 32 then mask.getD (n - (i + 8)).toNat 0
  else if i + 40 ≤ n ∧ n < i + 44 then idLengthField.getD (n - (i + 40)).toNat 0
  else if i + 44 ≤ n ∧ n < i + 64 then idByte
  else 0xff

variable {idByte : UInt8}

theorem completing_mask {j : ℕ} {m : UInt8} (wanted : mask[j]? = some m) :
    completing i idByte (i + 8 + j : ℕ) = m := by
  obtain ⟨inside, _⟩ := List.getElem?_eq_some_iff.mp wanted
  have size : mask.length = 24 := rfl
  have place : (((i + 8 + j : ℕ) : ℤ) - (i + 8)).toNat = j := by omega
  rw [completing, if_pos (by omega), place, List.getD_eq_getElem?_getD, wanted, Option.getD_some]

theorem completing_id_length {j : ℕ} {m : UInt8} (wanted : idLengthField[j]? = some m) :
    completing i idByte (i + 40 + j : ℕ) = m := by
  obtain ⟨inside, _⟩ := List.getElem?_eq_some_iff.mp wanted
  have size : idLengthField.length = 4 := rfl
  have place : (((i + 40 + j : ℕ) : ℤ) - (i + 40)).toNat = j := by omega
  rw [completing, if_neg (by omega), if_pos (by omega), place, List.getD_eq_getElem?_getD, wanted,
    Option.getD_some]

theorem completing_id (lower : i + 44 ≤ n) (upper : n < i + 64) : completing i idByte n = idByte := by
  rw [completing, if_neg (by omega), if_neg (by omega), if_pos (by omega)]

theorem completing_outside (outside : n < i + 8 ∨ i + 64 ≤ n) : completing i idByte n = 0xff := by
  rw [completing, if_neg (by omega), if_neg (by omega), if_neg (by omega)]

theorem completing_shows (may : MayShow p i) : Shows (.ofBytes p (completing i idByte)) i :=
  ⟨of_bytes_inside may.1, shown_of_agrees may.2 fun _ _ wanted _ => completing_mask wanted⟩

/-- Nothing earlier shows with it, unless it must. -/
theorem completing_first (inside : i < p.length) (clear : ¬ Shadowed p i) :
    ∀ j < i, ¬ Shows (.ofBytes p (completing i idByte)) j := by
  intro j earlier shows
  have may := may_show_of_shows (by omega) shows
  have open_end : p.length < j + 32 := by
    by_contra whole
    exact clear ⟨j, earlier, may, Or.inl (by omega)⟩
  have shown : ∀ k m, mask[k]? = some m → p.length ≤ j + 8 + k → completing i idByte (j + 8 + k : ℕ) = m := by
    intro k m wanted past
    have held := bytes_eq_iff.mp shows.2 k m wanted
    rw [of_bytes_beyond past] at held
    exact held
  -- the last byte of the mask is behind the payload
  have last := shown 23 1 rfl (by omega)
  by_cases near : j + 31 < i + 8
  · rw [completing_outside (Or.inl (by omega))] at last
    cases last
  · obtain ⟨l, place⟩ := Nat.exists_eq_add_of_le (Nat.le_of_not_lt near)
    have few : l < 23 := by omega
    have byte : mask[l]? = some (mask.getD l 0) := by
      rw [List.getD_eq_getElem?_getD, List.getElem?_eq_getElem
        (show l < mask.length from Nat.lt_of_lt_of_le few (by decide)),
        Option.getD_some]
    have spot : j + 8 + 23 = i + 8 + l := by omega
    rw [spot, completing_mask byte] at last
    have third : l = 3 := by
      by_contra other
      have zero : ∀ l < 23, l ≠ 3 → mask.getD l 0 = 0 := by decide
      rw [zero l few other] at last
      cases last
    -- so the headers are 20 bytes apart, and the byte before the second mask is behind it too
    have short : ¬ i + 8 ≤ p.length := fun room => clear ⟨j, earlier, may, Or.inr ⟨by omega, room⟩⟩
    have before := shown 19 0 rfl (by omega)
    rw [completing_outside (Or.inl (by omega))] at before
    cases before

theorem ntohl_congr {q q' : Pointer} (each : ∀ k : ℕ, k < 4 → q k = q' k) : ntohl q = ntohl q' := by
  have first := each 0 (by omega)
  have second := each 1 (by omega)
  have third := each 2 (by omega)
  have fourth := each 3 (by omega)
  push_cast at first second third fourth
  rw [ntohl, ntohl, first, second, third, fourth]

theorem get_length_congr {q q' : Pointer} (each : ∀ k : ℕ, k < 4 → q k = q' k) :
    getLengthFromByteStream q = getLengthFromByteStream q' := by
  rw [get_length_eq, get_length_eq, ntohl_congr each]

/-- Two memories show the same byte where they are the same. -/
theorem advance_congr {k : ℕ} (same : p.length ≤ n + k → around (n + k : ℕ) = other (n + k : ℕ)) :
    (Pointer.ofBytes p around).advance n k = (Pointer.ofBytes p other).advance n k := by
  have place : (n : ℤ) + k = (n + k : ℕ) := by omega
  simp only [Pointer.advance, place]
  by_cases inside : n + k < p.length
  · rw [of_bytes_inside (List.getElem?_eq_getElem inside), of_bytes_inside (List.getElem?_eq_getElem inside)]
  · rw [of_bytes_beyond (by omega), of_bytes_beyond (by omega), same (by omega)]

/-- A header that is not shadowed and not refused gives a reply in that memory. -/
theorem get_chunk_id_completing (may : MayShow p i) (clear : ¬ Shadowed p i) (allowed : ¬ Refused p i) :
    getChunkId (.ofBytes p (completing i idByte)) p.length =
      some (((Pointer.ofBytes p (completing i idByte)).advance (i + 44 : ℕ)).bytes 20, i) := by
  have inside : i < p.length := (List.getElem?_eq_some_iff.mp may.1).1
  rw [Refused, not_or, not_or, not_not] at allowed
  obtain ⟨long, agrees, large⟩ := allowed
  have payloadLength : getLengthFromByteStream ((Pointer.ofBytes p (completing i idByte)).advance i) =
      getLengthFromByteStream (padded 0xff p i) :=
    get_length_congr fun k few => advance_congr fun _ => completing_outside (Or.inl (by omega))
  have dataLength : ntohl ((Pointer.ofBytes p (completing i idByte)).advance (i + 64 : ℕ)) =
      ntohl (padded 0xff p (i + 64)) :=
    ntohl_congr fun k few => advance_congr fun _ => completing_outside (Or.inr (by omega))
  have idLength : ntohl ((Pointer.ofBytes p (completing i idByte)).advance (i + 40 : ℕ)) = 20 :=
    id_length_iff.mpr (shown_of_agrees agrees fun j m wanted _ => completing_id_length wanted)
  have data_place : ((i + 64 : ℕ) : ℤ) = i + 64 := by omega
  have id_place : ((i + 40 : ℕ) : ℤ) = i + 40 := by omega
  rw [data_place] at dataLength
  rw [id_place] at idLength
  rw [get_chunk_id_first inside (completing_shows may) (completing_first inside clear),
    extract_eq (by rw [payloadLength]; omega) (by rw [Pointer.advance_advance]; exact idLength)
      (by rw [Pointer.advance_advance, dataLength]; omega), Pointer.advance_advance]
  rfl

/-! ## The answer -/

/-- A payload that is enough answers the same in every memory. -/
theorem get_chunk_id_contained (contained : SelfContained p) (around : ℤ → UInt8) :
    getChunkId (.ofBytes p around) p.length = none ∨
      ∃ reply, ∀ other, getChunkId (.ofBytes p other) p.length = some reply := by
  rcases first_or_none (.ofBytes p around) p.length with ⟨i, inside, shows, before⟩ | without
  · have may := may_show_of_shows inside shows
    rcases contained i may with shadowed | refused | accepted
    · exact absurd shadowed (not_shadowed shows before)
    · left
      rw [get_chunk_id_first inside shows before, extract_refused inside refused]
      rfl
    · right
      have room := accepted.1
      refine ⟨((p.drop (i + 44)).take 20, i), fun other => ?_⟩
      have first : ∀ j < i, ¬ Shows (.ofBytes p other) j := fun j earlier shown =>
        before j earlier (shows_of_whole (may_show_of_shows (by omega) shown) (by omega))
      obtain ⟨data, extracted⟩ := @extract_accepted p other i inside accepted
      rw [get_chunk_id_first inside (shows_of_whole may (by omega)) first, extracted]
      rfl
  · exact Or.inl (get_chunk_id_none without)

/-- **The chunk id is the payload's own** exactly if the payload is self-contained: only
then do any two memories that agree on it give the same answer. -/
theorem get_chunk_id_determined (p : List UInt8) :
    (∀ around other : ℤ → UInt8,
      getChunkId (.ofBytes p around) p.length = getChunkId (.ofBytes p other) p.length) ↔
    SelfContained p := by
  constructor
  · intro same i may
    by_contra neither
    rw [not_or, not_or] at neither
    obtain ⟨clear, allowed, rejected⟩ := neither
    have inside : i < p.length := (List.getElem?_eq_some_iff.mp may.1).1
    by_cases held : i + 64 ≤ p.length
    · -- only the length of the data can be missing, and zeros make it too small
      have shown : getChunkId (.ofBytes p (completing i 0)) p.length ≠ none := by
        rw [get_chunk_id_completing may clear allowed]
        exact nofun
      rw [Refused, not_or, not_or, not_not] at allowed
      obtain ⟨long, agrees, _⟩ := allowed
      have payloadLength : getLengthFromByteStream (padded 0 p i) = getLengthFromByteStream (padded 0xff p i) :=
        get_length_congr fun k few => advance_congr fun past => by omega
      have small : ntohl (padded 0 p (i + 64)) < minChunkSize := by
        by_contra large
        exact rejected ⟨held, by omega, agrees, by omega⟩
      have first : ∀ j < i, ¬ Shows (.ofBytes p fun _ => 0) j := fun j earlier shows =>
        clear ⟨j, earlier, may_show_of_shows (by omega) shows, Or.inl (by omega)⟩
      refine shown ((same _ fun _ => 0).trans ?_)
      rw [get_chunk_id_first inside (shows_of_whole may (by omega)) first, extract_none]
      · rfl
      · right; right
        rw [Pointer.advance_advance]
        exact small
    · -- the last byte of the chunk id is not the payload's
      have both := same (completing i 0) (completing i 1)
      rw [get_chunk_id_completing may clear allowed, get_chunk_id_completing may clear allowed] at both
      have ids := congrArg (fun bytes => bytes[19]?) (Prod.mk.inj (Option.some_inj.mp both)).1
      have last : ∀ idByte, (((Pointer.ofBytes p (completing i idByte)).advance (i + 44 : ℕ)).bytes 20)[19]? =
          some idByte := fun idByte => by
        rw [Pointer.bytes, getElem?_window _ (by omega), Pointer.advance]
        have place : ((i + 44 : ℕ) : ℤ) + (0 + 19 : ℕ) = (i + 63 : ℕ) := by omega
        rw [place, of_bytes_beyond (by omega), completing_id (by omega) (by omega)]
      rw [last, last] at ids
      cases ids
  · intro contained around other
    rcases get_chunk_id_contained contained around with none | ⟨reply, always⟩
    · rcases get_chunk_id_contained contained other with none' | ⟨reply, always⟩
      · rw [none, none']
      · rw [always around, always other]
    · rw [always around, always other]

/-- A payload of one byte, with zeros or a reply behind it. -/
theorem header_behind_payload : ¬ ∀ (p : List UInt8) (around other : ℤ → UInt8),
    getChunkId (.ofBytes p around) p.length = getChunkId (.ofBytes p other) p.length := by
  intro same
  have both := same [0x80] (fun _ => 0) (completing 0 7)
  exact absurd both (by decide)

end Ditto.ChunkIdReach
