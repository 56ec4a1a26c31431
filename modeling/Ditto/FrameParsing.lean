import Ditto.SniffTcp

/-! Captured frames. The lengths in the headers of a frame say where its segment is: the
captured length, the IP packet's own length and the two header lengths. The TCP header is
read before it is known to be there; but a packet without one has fewer bytes than the two
headers, whatever is read. -/
namespace Ditto.FrameParsing
open Sniffer Windows Words

/-- `ntohs` of the half-word at a pointer. -/
def ntohs (b : Pointer) : UInt16 := UInt16.ofNat (2 ^ 8 * (b 0).toNat + (b 1).toNat)

/-- `ETHER_HDRLEN` and `ETHERTYPE_IP`. -/
def etherHdrlen : UInt32 := 14
def ethertypeIp : UInt16 := 0x0800

/-- `IP_V`. -/
def ipV (ip : Pointer) : UInt8 := (ip 0 &&& 0xf0) >>> 4

/-- `ip_hlen`, from `IP_HL`. -/
def ipHlen (ip : Pointer) : UInt32 := (ip 0 &&& 0x0f).toUInt32 * 4

/-- `ip_len`. -/
def ipLen (ip : Pointer) : UInt16 := ntohs (ip.advance 2)

/-- `ip_p`, and `IPPROTO_TCP`. -/
def ipP (ip : Pointer) : UInt8 := ip 9
def ipprotoTcp : UInt8 := 6

/-- The `struct sniff_tcp` of a packet. -/
def tcpOf (ip : Pointer) : Pointer := ip.advance (ipHlen ip).toNat

/-- `size_tcp_header`, from `TH_OFF`. -/
def sizeTcpHeader (tcp : Pointer) : UInt32 := ((tcp 12 &&& 0xf0) >>> 4).toUInt32 * 4

/-- `inet_ntoa`. -/
def inetNtoa (addr : Pointer) : String := ".".intercalate ((addr.bytes 4).map fun b => toString b.toNat)

/-- What `handle_ip` goes on with: the flow, the sequence number and the payload. -/
structure Segment where
  flow : FlowId
  seqNum : TcpSeq
  payload : Pointer
  sizePayload : ℤ

/-- The segment of a packet that has one. -/
def segmentOf (ip : Pointer) : Segment where
  flow := ⟨inetNtoa (ip.advance 12), inetNtoa (ip.advance 16), ntohs (tcpOf ip), ntohs ((tcpOf ip).advance 2)⟩
  seqNum := UInt32.ofNat (ntohl ((tcpOf ip).advance 4))
  payload := ip.advance (ipHlen ip + sizeTcpHeader (tcpOf ip)).toNat
  sizePayload := toInt ((ipLen ip).toUInt32 - (ipHlen ip + sizeTcpHeader (tcpOf ip)))

/-- `handle_ip` up to the TCP payload. Fragments are taken for whole packets. -/
def handleIp (length : UInt32) (ip : Pointer) : Option Segment :=
  if length < 20 then none
  else if ipV ip ≠ 4 then none
  else if ipHlen ip < 20 then none
  else if length < (ipLen ip).toUInt32 then none
  else if ipP ip ≠ ipprotoTcp then none
  else if sizeTcpHeader (tcpOf ip) < 20 then none
  else if 0 < (segmentOf ip).sizePayload then some (segmentOf ip)
  else none

/-- `handle_ethernet`: the type of the frame, or `~0` of one that is too short. -/
def handleEthernet (caplen : UInt32) (packet : Pointer) : UInt16 :=
  if caplen < etherHdrlen then 0xffff else ntohs (packet.advance 12)

/-- `my_callback_ethernet`. -/
def myCallbackEthernet (caplen : UInt32) (packet : Pointer) : Option Segment :=
  if handleEthernet caplen packet = ethertypeIp then handleIp (caplen - etherHdrlen) (packet.advance 14) else none

/-- What is delivered of a frame. -/
def Segment.delivered (segment : Segment) : FlowId × TcpSeq × List UInt8 :=
  (segment.flow, segment.seqNum, segment.payload.bytes segment.sizePayload.toNat)

/-- What the sniffer is called with. -/
def Segment.event (segment : Segment) : SniffEvent :=
  .segment segment.flow (segment.payload.bytes segment.sizePayload.toNat) segment.payload segment.seqNum

variable {length caplen : UInt32} {ip frame other : Pointer} {segment : Segment}

/-! ## Lengths -/

theorem ip_hlen_small (ip : Pointer) : (ipHlen ip).toNat ≤ 60 := by
  have masked : (ip 0 &&& 0x0f).toNat ≤ 15 := by
    rw [UInt8.toNat_and]
    exact Nat.and_le_right
  simp only [ipHlen, UInt32.toNat_mul, UInt8.toNat_toUInt32, UInt32.reduceToNat]
  omega

theorem size_tcp_header_small (tcp : Pointer) : (sizeTcpHeader tcp).toNat ≤ 60 := by
  have masked : (tcp 12 &&& 0xf0).toNat ≤ 240 := by
    rw [UInt8.toNat_and]
    exact Nat.and_le_right
  simp only [sizeTcpHeader, UInt32.toNat_mul, UInt8.toNat_toUInt32, UInt8.toNat_shiftRight, UInt32.reduceToNat,
    UInt8.reduceToNat, Nat.shiftRight_eq_div_pow, Nat.reduceMod, Nat.reducePow]
  omega

theorem headers_size (ip : Pointer) : (ipHlen ip + sizeTcpHeader (tcpOf ip)).toNat =
    (ipHlen ip).toNat + (sizeTcpHeader (tcpOf ip)).toNat := by
  have first := ip_hlen_small ip
  have second := size_tcp_header_small (tcpOf ip)
  rw [UInt32.toNat_add]
  omega

/-- The payload's size is the exact difference, which may be negative. -/
theorem size_payload_eq (ip : Pointer) : (segmentOf ip).sizePayload =
    (ipLen ip).toNat - ((ipHlen ip).toNat + (sizeTcpHeader (tcpOf ip)).toNat : ℕ) := by
  have first := ip_hlen_small ip
  have second := size_tcp_header_small (tcpOf ip)
  have whole := (ipLen ip).toNat_lt
  have sum := headers_size ip
  show toInt _ = _
  rw [toInt_sub (by rw [UInt16.toNat_toUInt32]; omega) (by omega), UInt16.toNat_toUInt32, sum]

/-! ## Packets -/

/-- A packet with a segment that is not empty. -/
structure Carries (length : UInt32) (ip : Pointer) : Prop where
  header : 20 ≤ length.toNat
  version : ipV ip = 4
  ipHeader : 20 ≤ (ipHlen ip).toNat
  whole : (ipLen ip).toNat ≤ length.toNat
  protocol : ipP ip = ipprotoTcp
  tcpHeader : 20 ≤ (sizeTcpHeader (tcpOf ip)).toNat
  payload : (ipHlen ip).toNat + (sizeTcpHeader (tcpOf ip)).toNat < (ipLen ip).toNat

theorem not_lt_twenty {word : UInt32} : ¬ word < 20 ↔ 20 ≤ word.toNat := by
  rw [UInt32.lt_iff_toNat_lt, Nat.not_lt]
  rfl

theorem handle_ip_some_iff : handleIp length ip = some segment ↔ Carries length ip ∧ segment = segmentOf ip := by
  have sized := size_payload_eq ip
  constructor
  · intro ran
    rw [handleIp] at ran
    split_ifs at ran with short version header cut protocol tcpHeader positive
    cases ran
    rw [UInt32.lt_iff_toNat_lt, UInt16.toNat_toUInt32] at cut
    exact ⟨⟨not_lt_twenty.mp short, not_not.mp version, not_lt_twenty.mp header, by omega, not_not.mp protocol,
      not_lt_twenty.mp tcpHeader, by omega⟩, rfl⟩
  · rintro ⟨⟨header, version, ipHeader, whole, protocol, tcpHeader, payload⟩, rfl⟩
    have held : ¬ length < (ipLen ip).toUInt32 := by
      rw [UInt32.lt_iff_toNat_lt, UInt16.toNat_toUInt32]
      omega
    rw [handleIp, if_neg (not_lt_twenty.mpr header), if_neg (not_not.mpr version), if_neg (not_lt_twenty.mpr ipHeader),
      if_neg held, if_neg (not_not.mpr protocol), if_neg (not_lt_twenty.mpr tcpHeader), if_pos (by omega)]

/-- The two pointers show the same bytes up to a length. -/
def Agree (length : ℕ) (p q : Pointer) : Prop := ∀ i : ℤ, 0 ≤ i → i < length → p i = q i

theorem Agree.advance {length : ℕ} {p q : Pointer} (agree : Agree length p q) (offset : ℕ) :
    Agree (length - offset) (p.advance offset) (q.advance offset) := by
  intro i lower upper
  exact agree _ (by omega) (by omega)

theorem Agree.bytes {length : ℕ} {p q : Pointer} (agree : Agree length p q) {size : ℕ} (inside : size ≤ length) :
    p.bytes size = q.bytes size :=
  window_congr fun i _ below => agree i (by omega) (by omega)

theorem Agree.ntohs {length : ℕ} {p q : Pointer} (agree : Agree length p q) (inside : 2 ≤ length) :
    ntohs p = ntohs q := by
  rw [FrameParsing.ntohs, FrameParsing.ntohs, agree 0 (by omega) (by omega), agree 1 (by omega) (by omega)]

theorem Agree.ntohl {length : ℕ} {p q : Pointer} (agree : Agree length p q) (inside : 4 ≤ length) :
    ntohl p = ntohl q := by
  rw [Sniffer.ntohl, Sniffer.ntohl, agree 0 (by omega) (by omega), agree 1 (by omega) (by omega),
    agree 2 (by omega) (by omega), agree 3 (by omega) (by omega)]

theorem Agree.inetNtoa {length : ℕ} {p q : Pointer} (agree : Agree length p q) (inside : 4 ≤ length) :
    inetNtoa p = inetNtoa q := by
  rw [FrameParsing.inetNtoa, FrameParsing.inetNtoa, agree.bytes inside]

/-- A packet with a segment is read no further than its length. -/
theorem Carries.congr (carries : Carries length ip) (agree : Agree length.toNat ip other) :
    Carries length other ∧ (segmentOf other).delivered = (segmentOf ip).delivered := by
  obtain ⟨header, version, ipHeader, whole, protocol, tcpHeader, payload⟩ := carries
  have first := agree 0 (by omega) (by omega)
  have sameHlen : ipHlen ip = ipHlen other := by rw [ipHlen, ipHlen, first]
  have sameLen : ipLen ip = ipLen other := (agree.advance 2).ntohs (by omega)
  have sameP : ipP ip = ipP other := agree 9 (by omega) (by omega)
  have tcp : Agree (length.toNat - (ipHlen ip).toNat) (tcpOf ip) (tcpOf other) := by
    rw [tcpOf, tcpOf, ← sameHlen]
    exact agree.advance _
  have sameTcp : sizeTcpHeader (tcpOf ip) = sizeTcpHeader (tcpOf other) := by
    rw [sizeTcpHeader, sizeTcpHeader, tcp 12 (by omega) (by omega)]
  have sum := headers_size ip
  have size := size_payload_eq ip
  refine ⟨⟨header, ?_, sameHlen ▸ ipHeader, sameLen ▸ whole, sameP ▸ protocol, sameTcp ▸ tcpHeader,
    sameHlen ▸ sameTcp ▸ sameLen ▸ payload⟩, ?_⟩
  · rw [ipV, ← first]
    exact version
  · have source : inetNtoa (ip.advance 12) = inetNtoa (other.advance 12) :=
      (agree.advance 12).inetNtoa (by omega)
    have target : inetNtoa (ip.advance 16) = inetNtoa (other.advance 16) :=
      (agree.advance 16).inetNtoa (by omega)
    have sourcePort : ntohs (tcpOf ip) = ntohs (tcpOf other) := tcp.ntohs (by omega)
    have targetPort : ntohs ((tcpOf ip).advance 2) = ntohs ((tcpOf other).advance 2) :=
      (tcp.advance 2).ntohs (by omega)
    have seqNum : ntohl ((tcpOf ip).advance 4) = ntohl ((tcpOf other).advance 4) := (tcp.advance 4).ntohl (by omega)
    have sameSize : (segmentOf other).sizePayload = (segmentOf ip).sizePayload := by
      rw [segmentOf, segmentOf, sameLen, sameHlen, sameTcp]
    have content : (segmentOf ip).payload.bytes (segmentOf ip).sizePayload.toNat =
        (segmentOf other).payload.bytes (segmentOf ip).sizePayload.toNat := by
      show Pointer.bytes (ip.advance _) _ = Pointer.bytes (other.advance _) _
      rw [← sameHlen, ← sameTcp]
      exact (agree.advance _).bytes (by omega)
    rw [Segment.delivered, Segment.delivered, sameSize, content]
    simp only [segmentOf, source, target, sourcePort, targetPort, seqNum]

/-! ## Frames -/

/-- The bytes of a frame that are its segment, from the lengths in its headers. -/
def payloadStart (frame : Pointer) : ℕ :=
  14 + (ipHlen (frame.advance 14)).toNat + (sizeTcpHeader (tcpOf (frame.advance 14))).toNat
def payloadEnd (frame : Pointer) : ℕ := 14 + (ipLen (frame.advance 14)).toNat

/-- The frame is long enough, is an IP packet and has a segment. -/
theorem my_callback_some_iff : myCallbackEthernet caplen frame = some segment ↔
    14 ≤ caplen.toNat ∧ ntohs (frame.advance 12) = ethertypeIp ∧
      Carries (caplen - etherHdrlen) (frame.advance 14) ∧ segment = segmentOf (frame.advance 14) := by
  rw [myCallbackEthernet, handleEthernet]
  have short : caplen < etherHdrlen ↔ caplen.toNat < 14 := UInt32.lt_iff_toNat_lt
  by_cases long : caplen < etherHdrlen
  · rw [if_pos long, if_neg (by decide)]
    have below := short.mp long
    exact ⟨nofun, fun ⟨above, _⟩ => by omega⟩
  · rw [if_neg long]
    have above : 14 ≤ caplen.toNat := Nat.le_of_not_lt fun below => long (short.mpr below)
    by_cases isIp : ntohs (frame.advance 12) = ethertypeIp
    · rw [if_pos isIp, handle_ip_some_iff]
      exact ⟨fun carries => ⟨above, isIp, carries⟩, fun ⟨_, _, carries⟩ => carries⟩
    · rw [if_neg isIp]
      exact ⟨nofun, fun ⟨_, same, _⟩ => absurd same isIp⟩

theorem captured_length (long : 14 ≤ caplen.toNat) : (caplen - etherHdrlen).toNat = caplen.toNat - 14 :=
  toNat_sub_eq long

theorem my_callback_congr (agree : Agree caplen.toNat frame other)
    (delivers : myCallbackEthernet caplen frame = some segment) :
    (myCallbackEthernet caplen other).map Segment.delivered = some segment.delivered := by
  obtain ⟨long, isIp, carries, rfl⟩ := my_callback_some_iff.mp delivers
  have inner : Agree (caplen - etherHdrlen).toNat (frame.advance 14) (other.advance 14) := by
    rw [captured_length long]
    exact agree.advance 14
  have header := carries.header
  have length := captured_length long
  have sameType : ntohs (frame.advance 12) = ntohs (other.advance 12) := (agree.advance 12).ntohs (by omega)
  obtain ⟨carries', same⟩ := carries.congr inner
  rw [my_callback_some_iff.mpr ⟨long, sameType ▸ isIp, carries', rfl⟩, Option.map_some, same]

/-- **Only captured bytes are delivered**, those that the lengths in the headers say, and
nothing past them has a part in it. -/
theorem frame_delivers (caplen : UInt32) (frame : Pointer) :
    (∀ segment, myCallbackEthernet caplen frame = some segment →
      payloadStart frame < payloadEnd frame ∧ payloadEnd frame ≤ caplen.toNat ∧
        segment.delivered.2.2 = window (fun i => frame i) (payloadStart frame) (payloadEnd frame)) ∧
    ∀ other, Agree caplen.toNat frame other →
      (myCallbackEthernet caplen other).map Segment.delivered =
        (myCallbackEthernet caplen frame).map Segment.delivered := by
  constructor
  · intro segment delivers
    obtain ⟨long, _, carries, rfl⟩ := my_callback_some_iff.mp delivers
    have length := captured_length long
    have whole := carries.whole
    have payload := carries.payload
    have size := size_payload_eq (frame.advance 14)
    have sum := headers_size (frame.advance 14)
    refine ⟨by rw [payloadStart, payloadEnd]; omega, by rw [payloadEnd]; omega, ?_⟩
    have start : (segmentOf (frame.advance 14)).payload = frame.advance (payloadStart frame) := by
      show (frame.advance 14).advance _ = _
      rw [Pointer.advance_advance, payloadStart, sum]
      congr 1
      omega
    have stop : payloadStart frame + (segmentOf (frame.advance 14)).sizePayload.toNat = payloadEnd frame := by
      rw [payloadStart, payloadEnd, size]
      omega
    rw [Segment.delivered, start, Pointer.bytes_advance, stop]
  · intro other agree
    have back : Agree caplen.toNat other frame := fun i lower upper => (agree i lower upper).symm
    cases delivers : myCallbackEthernet caplen frame with
    | some segment => exact my_callback_congr agree delivers
    | none =>
      cases delivers' : myCallbackEthernet caplen other with
      | none => rfl
      | some segment =>
        have same := my_callback_congr back delivers'
        rw [delivers] at same
        cases same

theorem of_bytes_bytes (p : Pointer) (size : ℕ) : Pointer.ofBytes (p.bytes size) p = p := by
  funext i
  rw [Pointer.ofBytes]
  split
  · rename_i inside
    obtain ⟨index, rfl⟩ := Int.eq_ofNat_of_zero_le inside.1
    rw [Pointer.length_bytes] at inside
    rw [Int.toNat_natCast, List.getD_eq_getElem?_getD, Pointer.bytes, getElem?_window _ (by omega), Option.getD_some,
      Nat.zero_add]
  · rfl

/-- The sniffer goes on with the segment where it is in memory. -/
theorem step_delivered (s : SniffTcp ChunkInfo) (gMultiChances : Bool) (mem : Memory) (segment : Segment) :
    s.step gMultiChances (mem, segment.event) = s.handleIp gMultiChances mem segment.flow segment.payload
      segment.sizePayload.toNat segment.seqNum := by
  rw [SniffTcp.step, Segment.event]
  simp only [of_bytes_bytes, Pointer.length_bytes]

/-- A frame of 60 bytes with a segment of 4: the bytes behind it are the link's padding. -/
def shortFrame : List UInt8 :=
  .replicate 12 0 ++ [8, 0, 0x45, 0, 0, 44, 0, 0, 0, 0, 64, 6, 0, 0, 10, 0, 0, 1, 10, 0, 0, 2] ++
    [0, 80, 15, 160, 0, 0, 0, 7] ++ .replicate 4 0 ++ [0x50] ++ .replicate 7 0 ++ [1, 2, 3, 4, 0, 0]

example : (myCallbackEthernet 60 (.ofBytes shortFrame fun _ => 0)).map Segment.delivered =
    some (⟨"10.0.0.1", "10.0.0.2", 80, 4000⟩, 7, [1, 2, 3, 4]) := by decide +kernel

end Ditto.FrameParsing
