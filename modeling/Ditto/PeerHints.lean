import Mathlib.Data.List.Basic
import Mathlib.Algebra.Ring.Int.Defs
import Mathlib.Algebra.Ring.Nat

/-! The hints of a request: text that names a peer as `gtc://host:port`. `parse_hint` takes the
text apart and `get_next_hop` looks the host up in the routing table. A hint can be parsed
exactly when it begins with the protocol and has a colon after it. -/
namespace Ditto.PeerHints

/-- `hint_res`. -/
structure HintRes where
  hostname : String
  port : UInt32
  deriving DecidableEq, Repr

/-- The `host:port` that a peer has in the tables of connections. -/
def HintRes.key (res : HintRes) : String := res.hostname ++ ":" ++ toString res.port.toNat

/-- The text of a `str` as a C string. -/
def cstr (s : String) : List Char := s.toList.takeWhile (· != '\x00')

/-- `strstr`: what stands before the first occurrence of a text and what follows it. -/
def strstr (text : List Char) : List Char → Option (List Char × List Char)
  | [] => if text.isEmpty then some ([], []) else none
  | c :: rest =>
    if text.isPrefixOf (c :: rest) then some ([], (c :: rest).drop text.length)
    else (strstr text rest).map fun found => (c :: found.1, found.2)

def isspace (c : Char) : Bool := c == ' ' || (9 ≤ c.toNat && c.toNat ≤ 13)

/-- `atoi` into an `unsigned int`: `strtol`, which stays within a `long`, cut to 32 bits. -/
def atoi (s : List Char) : UInt32 :=
  let s := s.dropWhile isspace
  let signed := s.head? = some '-' ∨ s.head? = some '+'
  let digits := (if signed then s.tail else s).takeWhile Char.isDigit
  let n : ℤ := digits.foldl (fun n c => 10 * n + (c.toNat - '0'.toNat : ℕ)) 0
  UInt32.ofInt (if s.head? = some '-' then max (-2 ^ 63) (-n) else min (2 ^ 63 - 1) n)

/-- `parse_hint`, without a result where it returns `-1`. -/
def parseHint (hint protocol : String) : Option HintRes := do
  let (curProtocol, rest) ← strstr [':', '/', '/'] (cstr hint)
  if String.ofList curProtocol ≠ protocol then none
  else if protocol = "gtc" then do
    let (hostname, rest) ← strstr [':'] rest
    let port := match strstr [':'] rest with
      | some (port, _) => atoi port
      | none => atoi rest
    some { hostname := String.ofList hostname, port := port }
  else none

example : parseHint "gtc://node1:12000:x" "gtc" = some { hostname := "node1", port := 12000 } := rfl

/-- A routing table, by host, or what `setup_routing_info` stops the daemon with. -/
abbrev RoutingTable := Except String (String → Option String)

/-- `get_next_hop`. -/
def getNextHop (routingTable : RoutingTable) (hint : String) : Except String (Option HintRes) :=
  match parseHint hint "gtc" with
  | none => .ok none
  | some res => do
    let table ← routingTable
    match table res.hostname with
    | none => .error ("No routing entry for " ++ res.key ++ "\n")
    | some nextHop => .ok (some { res with hostname := nextHop })

variable {text s before after : List Char} {hint : String}

theorem strstr_some {found : List Char × List Char} (occurs : strstr text s = some found) :
    s = found.1 ++ text ++ found.2 := by
  induction s generalizing found with
  | nil =>
    rw [strstr] at occurs
    split at occurs
    next empty =>
      cases occurs
      rw [List.isEmpty_iff.mp empty]
      rfl
    next => cases occurs
  | cons c rest ih =>
    rw [strstr] at occurs
    split at occurs
    next front =>
      cases occurs
      exact (List.prefix_iff_eq_append.mp (List.isPrefixOf_iff_prefix.mp front)).symm
    next =>
      obtain ⟨later, below, rfl⟩ := Option.map_eq_some_iff.mp occurs
      rw [ih below]
      rfl

theorem strstr_isSome (before : List Char) : (strstr text (before ++ text ++ after)).isSome := by
  induction before with
  | nil =>
    rw [List.nil_append]
    cases whole : text ++ after with
    | nil =>
      rw [strstr, if_pos (List.isEmpty_iff.mpr (List.append_eq_nil_iff.mp whole).1)]
      rfl
    | cons c rest =>
      have front : text.isPrefixOf (c :: rest) = true := by
        rw [← whole]
        exact List.isPrefixOf_iff_prefix.mpr (List.prefix_append ..)
      rw [strstr, if_pos front]
      rfl
  | cons c before ih =>
    rw [List.cons_append, List.cons_append, strstr]
    split
    · rfl
    · rw [Option.isSome_map]
      exact ih

/-- The text of a hint that names a peer. -/
def WellFormed (hint : String) : Prop :=
  ∃ hostname rest, cstr hint = ['g', 't', 'c', ':', '/', '/'] ++ hostname ++ ':' :: rest

/-- **The hints that can be parsed.** -/
theorem parse_hint_isSome_iff : (parseHint hint "gtc").isSome ↔ WellFormed hint := by
  constructor
  · intro parsed
    unfold parseHint at parsed
    cases first : strstr [':', '/', '/'] (cstr hint) with
    | none =>
      rw [first] at parsed
      cases parsed
    | some found =>
      rw [first] at parsed
      dsimp only [Option.bind_eq_bind, Option.bind_some] at parsed
      split at parsed
      · cases parsed
      next named =>
        rw [if_pos rfl] at parsed
        cases second : strstr [':'] found.2 with
        | none =>
          rw [second] at parsed
          cases parsed
        | some found' =>
          have protocol : found.1 = ['g', 't', 'c'] := String.ofList_injective (not_not.mp named)
          refine ⟨found'.1, found'.2, ?_⟩
          rw [strstr_some first, strstr_some second, protocol]
          simp only [List.append_assoc, List.cons_append, List.nil_append]
  · rintro ⟨hostname, rest, text⟩
    have protocol : strstr [':', '/', '/'] (cstr hint) = some (['g', 't', 'c'], hostname ++ ':' :: rest) := by
      rw [text]
      rfl
    have colon : (strstr [':'] (hostname ++ ':' :: rest)).isSome := by
      have occurs : (strstr [':'] (hostname ++ [':'] ++ rest)).isSome := strstr_isSome hostname
      rwa [List.append_assoc] at occurs
    obtain ⟨found, occurs⟩ := Option.isSome_iff_exists.mp colon
    unfold parseHint
    rw [protocol]
    dsimp only [Option.bind_eq_bind, Option.bind_some]
    rw [if_neg (not_not.mpr rfl), if_pos rfl, occurs]
    rfl

end Ditto.PeerHints
