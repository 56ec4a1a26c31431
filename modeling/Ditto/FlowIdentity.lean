import Ditto.FrameParsing
import Ditto.HintParsing

/-! The two identities of a flow. A list of flows is searched with `==`, which compares
addresses and ports; a map has the text of a flow as its key. The text of a flow whose
addresses have no colon and whose ports have 16 bits can be read back: the first colon
ends the address, the first blank behind it the port. -/
namespace Ditto.FlowIdentity
open Sniffer FrameParsing Words
open PeerHints (cstr cstr_terminated digit_of_port atoi_port)

/-- `FlowId`, with two C strings for the addresses and an `unsigned int` for each port. -/
structure FlowId where
  srcIp : String
  dstIp : String
  srcPort : UInt32
  dstPort : UInt32

namespace FlowId

/-- `operator==`. `strcmp` finds no difference between two strings when they have the
same characters up to their ends. -/
instance : BEq FlowId where
  beq := fun this fid2 =>
    cstr this.srcIp = cstr fid2.srcIp ∧ cstr this.dstIp = cstr fid2.dstIp ∧
      this.srcPort = fid2.srcPort ∧ this.dstPort = fid2.dstPort

/-- `sprintf` of a port with `"%d"`, which prints an `int`. -/
def printed (port : UInt32) : String := toString (toInt port)

/-- `toString`. -/
def toString (fid : FlowId) : String :=
  String.ofList (cstr fid.srcIp) ++ ":" ++ printed fid.srcPort ++ " => " ++
    String.ofList (cstr fid.dstIp) ++ ":" ++ printed fid.dstPort

/-- No colon in the addresses, and ports of 16 bits. -/
structure Plain (fid : FlowId) : Prop where
  srcIp : ':' ∉ cstr fid.srcIp
  dstIp : ':' ∉ cstr fid.dstIp
  srcPort : fid.srcPort.toNat < 2 ^ 16
  dstPort : fid.dstPort.toNat < 2 ^ 16

end FlowId

/-- What `get_flow_offset` returns for the first flow with a property. -/
def offsetOf (isIt : FlowId → Bool) (pFlowList : List (FlowId × List ContiguousBlock)) : ℤ :=
  match pFlowList.findIdx? fun entry => isIt entry.1 with
  | none => -1
  | some i => toInt (UInt32.ofNat i)

/-- `get_flow_offset`. -/
def getFlowOffset (pFlowList : List (FlowId × List ContiguousBlock)) (pFid : Option FlowId) : ℤ :=
  match pFid with
  | none => -1
  | some fid => offsetOf (· == fid) pFlowList

variable {a b : FlowId}

/-! ## Reading a text back -/

/-- Two texts with the same mark are cut at the same place when it is in neither front. -/
theorem append_mark_inj {α : Type} {mark : α} {before before' after after' : List α} (absent : mark ∉ before)
    (absent' : mark ∉ before') (same : before ++ mark :: after = before' ++ mark :: after') :
    before = before' ∧ after = after' := by
  induction before generalizing before' with
  | nil =>
    cases before' with
    | nil => exact ⟨rfl, (List.cons.inj same).2⟩
    | cons c before' => exact absurd ((List.cons.inj same).1 ▸ List.mem_cons_self ..) absent'
  | cons c before ih =>
    cases before' with
    | nil => exact absurd ((List.cons.inj same).1 ▸ List.mem_cons_self ..) absent
    | cons d before' =>
      obtain ⟨rfl, rest⟩ := List.cons.inj same
      obtain ⟨front, back⟩ := ih (mt (List.mem_cons_of_mem _) absent) (mt (List.mem_cons_of_mem _) absent') rest
      exact ⟨congrArg _ front, back⟩

/-- A port of 16 bits is printed as its number. -/
theorem printed_eq {port : UInt32} (small : port.toNat < 2 ^ 16) :
    FlowId.printed port = toString port.toNat := by
  rw [FlowId.printed, toInt_of_small (by omega)]
  rfl

theorem printed_inj {port port' : UInt32} (small : port.toNat < 2 ^ 16) (small' : port'.toNat < 2 ^ 16)
    (same : (FlowId.printed port).toList = (FlowId.printed port').toList) : port = port' := by
  rw [printed_eq small, printed_eq small'] at same
  rw [← atoi_port port, ← atoi_port port', same]

theorem blank_not_printed {port : UInt32} (small : port.toNat < 2 ^ 16) :
    ' ' ∉ (FlowId.printed port).toList := by
  rw [printed_eq small]
  exact fun member => absurd (digit_of_port member) (by decide)

theorem to_list_to_string (fid : FlowId) : fid.toString.toList =
    cstr fid.srcIp ++ ':' :: ((FlowId.printed fid.srcPort).toList ++
      ' ' :: (['=', '>', ' '] ++ (cstr fid.dstIp ++ ':' :: (FlowId.printed fid.dstPort).toList))) := by
  simp [FlowId.toString]

theorem beq_iff : (a == b) = true ↔ cstr a.srcIp = cstr b.srcIp ∧ cstr a.dstIp = cstr b.dstIp ∧
    a.srcPort = b.srcPort ∧ a.dstPort = b.dstPort :=
  decide_eq_true_iff

/-- Equal flows have the same text, whatever their addresses and ports are. -/
theorem to_string_of_beq (same : (a == b) = true) : a.toString = b.toString := by
  obtain ⟨srcIp, dstIp, srcPort, dstPort⟩ := beq_iff.mp same
  rw [FlowId.toString, FlowId.toString, srcIp, dstIp, srcPort, dstPort]

/-- The text of a plain flow says which flow it is. -/
theorem beq_of_to_string (plain : a.Plain) (plain' : b.Plain) (same : a.toString = b.toString) :
    (a == b) = true := by
  have texts := congrArg String.toList same
  rw [to_list_to_string, to_list_to_string] at texts
  obtain ⟨srcIp, texts⟩ := append_mark_inj plain.srcIp plain'.srcIp texts
  obtain ⟨srcPort, texts⟩ :=
    append_mark_inj (blank_not_printed plain.srcPort) (blank_not_printed plain'.srcPort) texts
  obtain ⟨dstIp, dstPort⟩ := append_mark_inj plain.dstIp plain'.dstIp (List.append_cancel_left texts)
  exact beq_iff.mpr ⟨srcIp, dstIp, printed_inj plain.srcPort plain'.srcPort srcPort,
    printed_inj plain.dstPort plain'.dstPort dstPort⟩

/-- The text of a plain flow identifies it. -/
theorem beq_iff_to_string (plain : a.Plain) (plain' : b.Plain) : (a == b) = true ↔ a.toString = b.toString :=
  ⟨to_string_of_beq, beq_of_to_string plain plain'⟩

/-- With a colon in an address the text can be read in two ways. -/
example : (⟨"a", "b:1 => c", 1, 2⟩ : FlowId).toString = (⟨"a:1 => b", "c", 1, 2⟩ : FlowId).toString := by decide +kernel

theorem offset_of_congr {isIt isIt' : FlowId → Bool} {pFlowList : List (FlowId × List ContiguousBlock)}
    (agree : ∀ entry ∈ pFlowList, isIt entry.1 = isIt' entry.1) :
    offsetOf isIt pFlowList = offsetOf isIt' pFlowList := by
  have found : (pFlowList.findIdx? fun entry => isIt entry.1) = pFlowList.findIdx? fun entry => isIt' entry.1 := by
    induction pFlowList with
    | nil => rfl
    | cons entry rest ih =>
      obtain ⟨head, tail⟩ := List.forall_mem_cons.mp agree
      rw [List.findIdx?_cons, List.findIdx?_cons, head, ih tail]
  rw [offsetOf, offsetOf, found]

/-- A search with `==` among plain flows is a search for the text. -/
theorem get_flow_offset_eq {pFlowList : List (FlowId × List ContiguousBlock)} {fid : FlowId}
    (listed : ∀ entry ∈ pFlowList, entry.1.Plain) (plain : fid.Plain) :
    getFlowOffset pFlowList (some fid) = offsetOf (fun other => other.toString = fid.toString) pFlowList := by
  show offsetOf (· == fid) pFlowList = _
  apply offset_of_congr
  intro entry member
  rw [Bool.eq_iff_iff, decide_eq_true_iff]
  exact beq_iff_to_string (listed entry member) plain

/-! ## Captured flows -/

/-- The object `handle_ip` makes for the flow of a segment. -/
def ofSegment (flow : Sniffer.FlowId) : FlowId where
  srcIp := flow.srcIp
  dstIp := flow.dstIp
  srcPort := flow.srcPort.toUInt32
  dstPort := flow.dstPort.toUInt32

/-- A flow with addresses that `inet_ntoa` wrote. -/
def Captured (flow : Sniffer.FlowId) : Prop :=
  (∃ ipSrc, flow.srcIp = inetNtoa ipSrc) ∧ ∃ ipDst, flow.dstIp = inetNtoa ipDst

variable {flow other : Sniffer.FlowId}

theorem captured_segment (ip : Pointer) : Captured (segmentOf ip).flow :=
  ⟨⟨_, rfl⟩, ⟨_, rfl⟩⟩

/-- `inet_ntoa` writes digits and points. -/
theorem inet_ntoa_chars {c : Char} {addr : Pointer} (member : c ∈ (inetNtoa addr).toList) :
    c.isDigit = true ∨ c = '.' := by
  have bytes : addr.bytes 4 = [addr 0, addr 1, addr 2, addr 3] := rfl
  rw [inetNtoa, String.toList_intercalate, bytes] at member
  simp only [List.map_cons, List.map_nil, List.intercalate, List.intersperse, List.flatten_cons, List.flatten_nil,
    List.mem_append, List.not_mem_nil, or_false] at member
  have digit {byte : UInt8} (member : c ∈ (toString byte.toNat).toList) : c.isDigit = true ∨ c = '.' :=
    .inl (digit_of_port member)
  have point (member : c ∈ ".".toList) : c.isDigit = true ∨ c = '.' := .inr (List.mem_singleton.mp member)
  rcases member with first | dot | second | dot | third | dot | fourth
  · exact digit first
  · exact point dot
  · exact digit second
  · exact point dot
  · exact digit third
  · exact point dot
  · exact digit fourth

theorem inet_ntoa_absent {mark : Char} (noDigit : mark.isDigit = false) (noPoint : mark ≠ '.') (addr : Pointer) :
    mark ∉ (inetNtoa addr).toList := by
  intro member
  rcases inet_ntoa_chars member with digit | point
  · rw [noDigit] at digit
    cases digit
  · exact noPoint point

theorem cstr_inet_ntoa (addr : Pointer) : cstr (inetNtoa addr) = (inetNtoa addr).toList :=
  cstr_terminated (inet_ntoa_absent rfl (by decide) addr)

theorem to_nat_to_uint32_small (port : UInt16) : port.toUInt32.toNat < 2 ^ 16 := by
  rw [UInt16.toNat_toUInt32]
  exact port.toNat_lt

theorem Captured.plain (captured : Captured flow) : (ofSegment flow).Plain := by
  obtain ⟨⟨ipSrc, srcIp⟩, ⟨ipDst, dstIp⟩⟩ := captured
  refine ⟨?_, ?_, to_nat_to_uint32_small _, to_nat_to_uint32_small _⟩
  · rw [ofSegment, srcIp, cstr_inet_ntoa]
    exact inet_ntoa_absent rfl (by decide) ipSrc
  · rw [ofSegment, dstIp, cstr_inet_ntoa]
    exact inet_ntoa_absent rfl (by decide) ipDst

/-- The address of a captured flow is the C string it is printed as. -/
theorem Captured.cstr_eq (captured : Captured flow) :
    cstr flow.srcIp = flow.srcIp.toList ∧ cstr flow.dstIp = flow.dstIp.toList := by
  obtain ⟨⟨ipSrc, srcIp⟩, ⟨ipDst, dstIp⟩⟩ := captured
  rw [srcIp, dstIp]
  exact ⟨cstr_inet_ntoa ipSrc, cstr_inet_ntoa ipDst⟩

/-- The object has the text that the maps of the flow's chunks are looked up with. -/
theorem Captured.to_string_eq (captured : Captured flow) : (ofSegment flow).toString = flow.toString := by
  obtain ⟨srcIp, dstIp⟩ := captured.cstr_eq
  have plain := captured.plain
  rw [FlowId.toString, printed_eq plain.srcPort, printed_eq plain.dstPort]
  simp only [ofSegment, srcIp, dstIp, String.ofList_toList, UInt16.toNat_toUInt32]
  rfl

/-- Two captured flows are the same flow when `==` says so of their objects. -/
theorem Captured.beq_iff (captured : Captured flow) (captured' : Captured other) :
    (ofSegment flow == ofSegment other) = true ↔ flow = other := by
  obtain ⟨srcIp, dstIp⟩ := captured.cstr_eq
  obtain ⟨srcIp', dstIp'⟩ := captured'.cstr_eq
  constructor
  · intro same
    obtain ⟨source, dest, sourcePort, destPort⟩ := FlowIdentity.beq_iff.mp same
    simp only [ofSegment, srcIp, srcIp', dstIp, dstIp', String.toList_inj,
      UInt16.toUInt32_inj] at source dest sourcePort destPort
    obtain ⟨_, _, _, _⟩ := flow
    obtain ⟨_, _, _, _⟩ := other
    rw [Sniffer.FlowId.mk.injEq]
    exact ⟨source, dest, sourcePort, destPort⟩
  · rintro rfl
    exact FlowIdentity.beq_iff.mpr ⟨rfl, rfl, rfl, rfl⟩

end Ditto.FlowIdentity
