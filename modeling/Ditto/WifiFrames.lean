import Ditto.Crc32

/-! Frames of 802.11, as a sniffer that listens to the air would take them: what the frame
control says of the header, the check sequence at the end, and the header that the data of
a frame starts with. A frame is the bytes that were captured, and a read past them is a
read that fails. -/
namespace Ditto.WifiFrames
open Crc32 ShiftRegister

/-! ## Fields -/

/-- `FC_TYPE`, `FC_SUBTYPE`, and the flags of the frame control. -/
def fcType (fc : UInt16) : UInt16 := (fc >>> 2) &&& 0x3
def fcSubtype (fc : UInt16) : UInt16 := (fc >>> 4) &&& 0xF
def fcToDs (fc : UInt16) : Bool := (fc &&& 0x0100) ≠ 0
def fcFromDs (fc : UInt16) : Bool := (fc &&& 0x0200) ≠ 0
def fcWep (fc : UInt16) : Bool := (fc &&& 0x4000) ≠ 0

/-- `T_MGMT`, `T_CTRL` and `T_DATA`. -/
def tMgmt : UInt16 := 0
def tCtrl : UInt16 := 1
def tData : UInt16 := 2

/-- `EXTRACT_LE_16BITS`, and `pletohs`. -/
def extractLe16Bits (packet : List UInt8) (at' : ℕ) : Option UInt16 := do
  some ((← packet[at' + 1]?).toUInt16 <<< 8 ||| (← packet[at']?).toUInt16)

/-- `EXTRACT_16BITS`. -/
def extract16Bits (packet : List UInt8) (at' : ℕ) : Option UInt16 := do
  some ((← packet[at']?).toUInt16 <<< 8 ||| (← packet[at' + 1]?).toUInt16)

/-- `EXTRACT_24BITS`. -/
def extract24Bits (packet : List UInt8) (at' : ℕ) : Option UInt32 := do
  some ((← packet[at']?).toUInt32 <<< 16 ||| (← packet[at' + 1]?).toUInt32 <<< 8 ||| (← packet[at' + 2]?).toUInt32)

/-- `EXTRACT_32BITS`. -/
def extract32Bits (packet : List UInt8) (at' : ℕ) : Option UInt32 := do
  some ((← packet[at']?).toUInt32 <<< 24 ||| (← packet[at' + 1]?).toUInt32 <<< 16 |||
    (← packet[at' + 2]?).toUInt32 <<< 8 ||| (← packet[at' + 3]?).toUInt32)

/-- `ether2MAC`. -/
def ether2Mac (packet : List UInt8) (at' : ℕ) : Option (List UInt8) :=
  (List.range 6).mapM fun i => packet[at' + i]?

/-- `SniffTcp::extract_header_length`. -/
def extractHeaderLength (fc : UInt16) : ℕ :=
  if fcType fc = tMgmt then 24
  else if fcType fc = tCtrl then
    if fcSubtype fc = 0xA then 16
    else if fcSubtype fc = 0xB then 16
    else if fcSubtype fc = 0xC then 10
    else if fcSubtype fc = 0xD then 10
    else if fcSubtype fc = 0xE then 16
    else if fcSubtype fc = 0xF then 16
    else 0
  else if fcType fc = tData then
    if fcToDs fc && fcFromDs fc then 30 else 24
  else 0

/-! ## Handlers -/

/-- `SniffTcp::handle_llc`: what is printed. The header's `oui` has sixteen bits, and `len` is
the length without the check sequence. -/
def handleLlc (packet : List UInt8) (ptr : ℕ) (len : ℤ) : Option (List String) :=
  if len < 7 then some []
  else do
    let _ ← packet[ptr]?
    let _ ← packet[ptr + 1]?
    let _ ← packet[ptr + 2]?
    let oui := (← extract24Bits packet (ptr + 3)).toUInt16
    let type ← extract16Bits packet (ptr + 6)
    if oui ≠ 0x0000 ∧ oui ≠ 0x00f8 then some ["Not encapsulated Ethernet and not Cisco protocols."]
    else if type = 0x0800 then some ["DATA!"]
    else some []

/-- `SniffTcp::handle_data_frame`: what is printed. -/
def handleDataFrame (packet : List UInt8) (len : ℤ) (fc : UInt16) : Option (List String) := do
  let _ ← extractLe16Bits packet 2
  let _ ← extractLe16Bits packet 22
  let body (kind : String) (hdrlen : ℕ) : Option (List String) :=
    if fcWep fc then some [kind, "who need wep?"]
    else do some (kind :: "lls finally!" :: (← handleLlc packet hdrlen (len - hdrlen - 4)))
  match fcToDs fc, fcFromDs fc with
  | false, false => some ["ad hoc IBSS"]
  | false, true => do
    let _ ← ether2Mac packet 16
    let _ ← ether2Mac packet 4
    let _ ← ether2Mac packet 10
    body "frame from AP to STA" 24
  | true, false => do
    let _ ← ether2Mac packet 10
    let _ ← ether2Mac packet 16
    let _ ← ether2Mac packet 4
    body "frame from STA to AP" 24
  | true, true => do
    let _ ← ether2Mac packet 4
    let _ ← ether2Mac packet 10
    let _ ← ether2Mac packet 16
    let _ ← ether2Mac packet 24
    body "WDS" 30

/-- The check of the frame check sequence: the last four bytes against `crc32_802` of the rest. -/
def checkFcs (packet : List UInt8) : Option Bool := do
  let fcsSent ← extract32Bits packet (packet.length - 4)
  some (crc32802 (packet.take (packet.length - 4)) = fcsSent)

/-- `fcs_ok`: a frame too short to have a check sequence does not pass. -/
def fcsOk (packet : List UInt8) (hdrlen : ℕ) : Option Bool :=
  if packet.length < hdrlen + 4 then some false else checkFcs packet

/-- `SniffTcp::handle_80211`, with `Check80211FCS` on: `fcs_ok`, which nothing reads, and what
is printed. The length is an `int` from `handle_data_frame` on. -/
def handle80211 (packet : List UInt8) : Option (Bool × List String) :=
  if packet.length < 2 then some (false, [])
  else do
    let fc ← extractLe16Bits packet 0
    let hdrlen := extractHeaderLength fc
    if packet.length < 2 ∨ packet.length < hdrlen then some (false, [])
    else do
      let fcsOk ← fcsOk packet hdrlen
      if fcType fc = tData then do
        let printed ← handleDataFrame packet ((packet.length : ℤ).bmod (2 ^ 32)) fc
        some (fcsOk, "data frame" :: printed)
      else some (fcsOk, [])

/-! ## Reads -/

variable {packet : List UInt8} {at' : ℕ}

theorem byte_inside (inside : at' < packet.length) : ∃ byte, packet[at']? = some byte :=
  ⟨packet[at'], List.getElem?_eq_getElem inside⟩

theorem le_16_inside (inside : at' + 1 < packet.length) : ∃ field, extractLe16Bits packet at' = some field := by
  obtain ⟨low, found⟩ := byte_inside (Nat.lt_of_succ_lt inside)
  obtain ⟨high, found'⟩ := byte_inside inside
  simp [extractLe16Bits, found, found']

theorem be_16_inside (inside : at' + 1 < packet.length) : ∃ field, extract16Bits packet at' = some field := by
  obtain ⟨low, found⟩ := byte_inside (Nat.lt_of_succ_lt inside)
  obtain ⟨high, found'⟩ := byte_inside inside
  simp [extract16Bits, found, found']

theorem be_24_inside (inside : at' + 2 < packet.length) : ∃ field, extract24Bits packet at' = some field := by
  obtain ⟨a, found⟩ := @byte_inside packet at' (by omega)
  obtain ⟨b, found'⟩ := @byte_inside packet (at' + 1) (by omega)
  obtain ⟨c, found''⟩ := byte_inside inside
  simp [extract24Bits, found, found', found'']

theorem mac_inside (inside : at' + 5 < packet.length) : ∃ mac, ether2Mac packet at' = some mac := by
  have each : ∀ i ∈ List.range 6, (packet[at' + i]?).isSome := by
    intro i member
    obtain ⟨byte, found⟩ := @byte_inside packet (at' + i) (by have := List.mem_range.mp member; omega)
    rw [found]
    rfl
  obtain ⟨a, first⟩ := @byte_inside packet at' (by omega)
  obtain ⟨b, second⟩ := @byte_inside packet (at' + 1) (by omega)
  obtain ⟨c, third⟩ := @byte_inside packet (at' + 2) (by omega)
  obtain ⟨d, fourth⟩ := @byte_inside packet (at' + 3) (by omega)
  obtain ⟨e, fifth⟩ := @byte_inside packet (at' + 4) (by omega)
  obtain ⟨f, sixth⟩ := byte_inside inside
  simp [ether2Mac, List.range_succ, first, second, third, fourth, fifth, sixth]

theorem be_32_inside (inside : at' + 3 < packet.length) : ∃ field, extract32Bits packet at' = some field := by
  obtain ⟨a, first⟩ := @byte_inside packet at' (by omega)
  obtain ⟨b, second⟩ := @byte_inside packet (at' + 1) (by omega)
  obtain ⟨c, third⟩ := @byte_inside packet (at' + 2) (by omega)
  obtain ⟨d, fourth⟩ := byte_inside inside
  simp [extract32Bits, first, second, third, fourth]

variable {fc : UInt16} {ptr : ℕ} {len : ℤ}

/-- A header of seven bytes passes the check of `handle_llc`, which reads eight: so there
must be a byte behind what it takes for the data. -/
theorem llc_inside (inside : len + ptr + 1 ≤ packet.length) : ∃ printed, handleLlc packet ptr len = some printed := by
  unfold handleLlc
  split
  · exact ⟨_, rfl⟩
  next long =>
    obtain ⟨a, dsap⟩ := @byte_inside packet ptr (by omega)
    obtain ⟨b, ssap⟩ := @byte_inside packet (ptr + 1) (by omega)
    obtain ⟨c, control⟩ := @byte_inside packet (ptr + 2) (by omega)
    obtain ⟨d, oui⟩ := @be_24_inside packet (ptr + 3) (by omega)
    obtain ⟨e, type⟩ := @be_16_inside packet (ptr + 6) (by omega)
    simp only [dsap, ssap, control, oui, type, bind, Option.bind]
    split_ifs <;> exact ⟨_, rfl⟩

/-- A frame of data is read as far as the header that its flags promise, and four bytes less
than it has in the rest. -/
theorem data_frame_inside (short : len ≤ packet.length) (header : 24 ≤ packet.length)
    (wide : fcToDs fc = true → fcFromDs fc = true → 30 ≤ packet.length) :
    ∃ printed, handleDataFrame packet len fc = some printed := by
  obtain ⟨duration, found⟩ := @le_16_inside packet 2 (by omega)
  obtain ⟨control, found'⟩ := @le_16_inside packet 22 (by omega)
  obtain ⟨first, address⟩ := @mac_inside packet 4 (by omega)
  obtain ⟨second, address'⟩ := @mac_inside packet 10 (by omega)
  obtain ⟨third, address''⟩ := @mac_inside packet 16 (by omega)
  obtain ⟨printed, read⟩ := @llc_inside packet 24 (len - (24 : ℕ) - 4) (by omega)
  obtain ⟨printed', read'⟩ := @llc_inside packet 30 (len - (30 : ℕ) - 4) (by omega)
  unfold handleDataFrame
  simp only [found, found', bind, Option.bind]
  cases toDs : fcToDs fc <;> cases fromDs : fcFromDs fc
  · exact ⟨_, rfl⟩
  · simp only [address, address', address'', read]
    split_ifs <;> exact ⟨_, rfl⟩
  · simp only [address, address', address'', read]
    split_ifs <;> exact ⟨_, rfl⟩
  · obtain ⟨fourth, more⟩ := @mac_inside packet 24 (by have := wide toDs fromDs; omega)
    simp only [address, address', address'', more, read']
    split_ifs <;> exact ⟨_, rfl⟩

/-- What `extract_header_length` says of a frame of data. -/
theorem header_of_data (data : fcType fc = tData) :
    extractHeaderLength fc = if fcToDs fc && fcFromDs fc then 30 else 24 := by
  rw [extractHeaderLength, data]
  rfl

theorem fcs_inside (hdrlen : ℕ) : ∃ ok, fcsOk packet hdrlen = some ok := by
  unfold fcsOk
  split
  · exact ⟨_, rfl⟩
  next long =>
    obtain ⟨sent, found⟩ := @be_32_inside packet (packet.length - 4) (by omega)
    simp [checkFcs, found]

/-- **No read goes past the capture**, whatever bytes are captured. -/
theorem reads_inside (packet : List UInt8) : ∃ taken, handle80211 packet = some taken := by
  unfold handle80211
  split
  · exact ⟨_, rfl⟩
  next two =>
    obtain ⟨fc, control⟩ := @le_16_inside packet 0 (by omega)
    simp only [control, bind, Option.bind]
    split
    · exact ⟨_, rfl⟩
    next long =>
      obtain ⟨ok, checked⟩ := @fcs_inside packet (extractHeaderLength fc)
      simp only [checked]
      split
      next data =>
        rw [header_of_data data] at long
        obtain ⟨printed, read⟩ := @data_frame_inside packet fc ((packet.length : ℤ).bmod (2 ^ 32))
          (by rw [Int.bmod_def]; split <;> omega)
          (by split at long <;> omega) (by intro toDs fromDs; rw [toDs, fromDs] at long; simp at long; omega)
        simp only [read]
        exact ⟨_, rfl⟩
      · exact ⟨_, rfl⟩

/-! ## The check -/

/-- The check of a frame is of the residue that its sequence leaves. -/
theorem check_fcs_residue (long : 4 ≤ packet.length) :
    checkFcs packet = some (decide (crc32Ccitt packet = 0x2144df1c)) := by
  obtain ⟨a, b, c, d, sent⟩ : ∃ a b c d, packet.drop (packet.length - 4) = [a, b, c, d] :=
    List.length_eq_four.mp (by rw [List.length_drop]; omega)
  have split : packet = packet.take (packet.length - 4) ++ [a, b, c, d] := by
    rw [← sent, List.take_append_drop]
  have place (i : ℕ) : packet[packet.length - 4 + i]? = [a, b, c, d][i]? := by
    rw [← sent, List.getElem?_drop]
  have sequence : extract32Bits packet (packet.length - 4) =
      some (a.toUInt32 <<< 24 ||| b.toUInt32 <<< 16 ||| c.toUInt32 <<< 8 ||| d.toUInt32) := by
    rw [extract32Bits, place 1, place 2, place 3, ← Nat.add_zero (packet.length - 4), place 0]
    rfl
  have residue : crc32802 (packet.take (packet.length - 4)) =
      (a.toUInt32 <<< 24 ||| b.toUInt32 <<< 16 ||| c.toUInt32 <<< 8 ||| d.toUInt32) ↔
          crc32Ccitt packet = 0x2144df1c := by
    conv_rhs => rw [split]
    rw [crc32802, byte_reverse_eq_iff, crc32_residue]
  simp only [checkFcs, sequence, bind, Option.bind, residue]

/-- What passes the check is long enough to have a sequence, and leaves the residue. -/
theorem residue_of_passed {printed : List String} (passed : handle80211 packet = some (true, printed)) :
    4 ≤ packet.length ∧ crc32Ccitt packet = 0x2144df1c := by
  have read {header : ℕ} (ok : fcsOk packet header = some true) :
      4 ≤ packet.length ∧ crc32Ccitt packet = 0x2144df1c := by
    unfold fcsOk at ok
    split at ok
    · cases ok
    next long =>
      have long : 4 ≤ packet.length := by omega
      rw [check_fcs_residue long, Option.some.injEq, decide_eq_true_eq] at ok
      exact ⟨long, ok⟩
  unfold handle80211 at passed
  split at passed
  · cases passed
  next two =>
    obtain ⟨fc, control⟩ := @le_16_inside packet 0 (by omega)
    simp only [control, bind, Option.bind] at passed
    split at passed
    · cases passed
    next long =>
      obtain ⟨ok, checked⟩ := @fcs_inside packet (extractHeaderLength fc)
      simp only [checked] at passed
      cases ok with
      | true => exact read checked
      | false =>
        split at passed
        · split at passed <;> simp at passed
        · cases passed

/-- **A burst of errors never passes**: a frame that passed the check, some of whose bits were
turned over on the air with no more than 32 bits from the first to the last of them, does not
pass it, whether or not the frame control is among them. -/
theorem burst_refused {packet received : List UInt8} {printed : List String} {burst : List Bool} {before after : ℕ}
    (passed : handle80211 packet = some (true, printed)) (same : packet.length = received.length)
    (turned : List.zipWith xor (bits packet) (bits received) =
      List.replicate before false ++ burst ++ List.replicate after false)
    (fits : burst.length ≤ 32) (loud : true ∈ burst) : ∃ printed', handle80211 received = some (false, printed') := by
  obtain ⟨taken, heard⟩ := reads_inside received
  obtain ⟨ok, printed'⟩ := taken
  cases ok with
  | false => exact ⟨printed', heard⟩
  | true =>
    have one : crc32Ccitt packet = crc32Ccitt received := by
      rw [(residue_of_passed passed).2, (residue_of_passed heard).2]
    exact absurd one (crc32_burst same turned fits loud)

/-- An acknowledgement one byte of whose address is turned over. -/
theorem burst_refused_in_acknowledgement :
    ∃ printed, handle80211 [0xd4, 0x0, 0x0, 0x0, 0xfd, 0x11, 0x22, 0x33, 0x44, 0x55, 0x7a, 0x4b, 0x3a, 0x6] =
      some (false, printed) := by
  have passed : handle80211 [0xd4, 0x0, 0x0, 0x0, 0x2, 0x11, 0x22, 0x33, 0x44, 0x55, 0x7a, 0x4b, 0x3a, 0x6] =
      some (true, []) := by decide +kernel
  exact @burst_refused _ _ _ (List.replicate 8 true) 32 72 passed rfl (by decide +kernel) (by decide) (by decide)

end Ditto.WifiFrames
