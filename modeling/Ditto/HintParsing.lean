import Mathlib.Data.List.TakeWhile
import Ditto.PeerHints
import Ditto.Words

/-! Writing hints and reading them byte by byte. `make_hint` prints what `parse_hint` takes apart
again. The parser walks over the text with pointers, into a block of memory that ends with the
text's terminator: every byte it reads is checked here to be one of the block. -/
namespace Ditto.PeerHints

/-- `make_hint`: the name of the hint, or none where it returns `-1`. -/
def makeHint (ip : HintRes) (protocol : String) : Option String :=
  if protocol = "gtc" then some ("gtc://" ++ ip.hostname ++ ":" ++ toString ip.port.toNat) else none

/-! ## Pointers -/

/-- A pointer into a block of memory: the bytes from there to the end of the block. -/
abbrev Ptr := List Char

def nul : Char := '\x00'

/-- `ptr + n`, within the block. -/
def advance (ptr : Ptr) (n : ℕ) : Option Ptr := if n ≤ ptr.length then some (ptr.drop n) else none

/-- `str (ptr, n)`. -/
def copy (ptr : Ptr) (n : ℕ) : Option (List Char) := if n ≤ ptr.length then some (ptr.take n) else none

/-- Whether the text stands at a pointer, read up to the first byte that differs. -/
def standsAt : List Char → Ptr → Option Bool
  | [], _ => some true
  | _ :: _, [] => none
  | c :: text, d :: ptr => if c = d then standsAt text ptr else some false

/-- `strstr`: a byte past the block has no value, and the terminator ends the search. -/
def strstrAt (text : List Char) : Ptr → Option (Option Ptr)
  | [] => none
  | d :: ptr => do
    if ← standsAt text (d :: ptr) then some (some (d :: ptr))
    else if d = nul then some none
    else strstrAt text ptr

/-- The digits of a number, behind its sign. -/
def unsigned (s : List Char) : List Char :=
  if s.head? = some '-' ∨ s.head? = some '+' then s.tail else s

/-- `atoi`, which stops at the first byte that is no digit. -/
def atoiAt (ptr : Ptr) : Option UInt32 :=
  if ((unsigned (ptr.dropWhile isspace)).dropWhile Char.isDigit).isEmpty then none else some (atoi ptr)

/-- `parse_hint` on the bytes of the hint: no value where it reads past the block, and no result
where it returns `-1`. -/
def parseHintAt (ddata : Ptr) (protocol : String) : Option (Option HintRes) := do
  match ← strstrAt [':', '/', '/'] ddata with
  | none => some none
  | some ptr =>
    let curProtocol ← copy ddata (ddata.length - ptr.length)
    if String.ofList curProtocol ≠ protocol then some none
    else if protocol = "gtc" then do
      let oldPtr ← advance ptr 2
      let start ← advance oldPtr 1
      match ← strstrAt [':'] start with
      | none => some none
      | some oldPtr =>
        let hostname ← copy start (start.length - oldPtr.length)
        let start ← advance oldPtr 1
        match ← strstrAt [':'] start with
        | some ptr =>
          let digits ← copy start (start.length - ptr.length)
          let port ← atoiAt (digits ++ [nul])
          some (some { hostname := String.ofList hostname, port := port })
        | none =>
          let port ← atoiAt start
          some (some { hostname := String.ofList hostname, port := port })
    else some none

variable {text s before after : List Char} {c : Char}

theorem copy_append (before after : List Char) :
    copy (before ++ after) ((before ++ after).length - after.length) = some before := by
  have length : (before ++ after).length - after.length = before.length := by
    rw [List.length_append, Nat.add_sub_cancel]
  rw [length, copy, if_pos (by simp), List.take_left']
  rfl

/-- A text is looked for up to the terminator and no further. -/
theorem stands_at_terminated (named : nul ∉ text) (s : List Char) :
    standsAt text (s ++ [nul]) = some (text.isPrefixOf s) := by
  induction text generalizing s with
  | nil => simp [standsAt]
  | cons c text ih =>
    obtain ⟨here, later⟩ := not_or.mp (mt List.mem_cons.mpr named)
    cases s with
    | nil => simp [standsAt, Ne.symm here]
    | cons d s =>
      rw [List.cons_append, standsAt, List.isPrefixOf, ih later]
      by_cases same : c = d
      · simp [same]
      · simp [same]

theorem strstr_at_terminated (named : nul ∉ text) (nonempty : text ≠ []) (terminated : nul ∉ s) :
    strstrAt text (s ++ [nul]) = some ((strstr text s).map fun found => text ++ found.2 ++ [nul]) := by
  induction s with
  | nil =>
    have stands := stands_at_terminated named []
    have absent : text.isPrefixOf [] = false := by
      cases text with
      | nil => exact absurd rfl nonempty
      | cons c text => rfl
    have unfound : strstr text [] = none := if_neg (by simpa using nonempty)
    rw [List.nil_append] at stands
    rw [List.nil_append, strstrAt, stands, absent, unfound]
    rfl
  | cons d s ih =>
    obtain ⟨here, later⟩ := not_or.mp (mt List.mem_cons.mpr terminated)
    have stands := stands_at_terminated named (d :: s)
    rw [List.cons_append] at stands
    rw [List.cons_append, strstrAt, stands, strstr]
    cases front : text.isPrefixOf (d :: s) with
    | true =>
      have whole : text ++ (d :: s).drop text.length = d :: s :=
        (List.prefix_iff_eq_append.mp (List.isPrefixOf_iff_prefix.mp front))
      rw [if_pos rfl, Option.map_some, whole]
      rfl
    | false =>
      simp [Ne.symm here, ih later, Option.map_map, Function.comp_def]

/-! ## The port -/

theorem take_while_terminated {p : Char → Bool} (stops : p nul = false) (s : List Char) :
    (s ++ [nul]).takeWhile p = s.takeWhile p := by
  induction s with
  | nil => simp [stops]
  | cons c s ih =>
    rw [List.cons_append, List.takeWhile_cons, List.takeWhile_cons, ih]

theorem drop_while_terminated {p : Char → Bool} (stops : p nul = false) (s : List Char) :
    (s ++ [nul]).dropWhile p = s.dropWhile p ++ [nul] := by
  induction s with
  | nil => simp [stops]
  | cons c s ih =>
    rw [List.cons_append, List.dropWhile_cons, List.dropWhile_cons, ih]
    split
    · rfl
    · rfl

theorem head_terminated {c : Char} (stops : c ≠ nul) (s : List Char) :
    (s ++ [nul]).head? = some c ↔ s.head? = some c := by
  cases s with
  | nil => simp [Ne.symm stops]
  | cons d s => simp

theorem unsigned_terminated (s : List Char) : unsigned (s ++ [nul]) = unsigned s ++ [nul] := by
  unfold unsigned
  simp only [head_terminated (by decide : '-' ≠ nul), head_terminated (by decide : '+' ≠ nul)]
  split
  next signed =>
    cases s with
    | nil => rcases signed with minus | plus <;> contradiction
    | cons c s => rfl
  next => rfl

theorem atoi_terminated (s : List Char) : atoi (s ++ [nul]) = atoi s := by
  have digits := unsigned_terminated (s.dropWhile isspace)
  unfold unsigned at digits
  unfold atoi
  simp only [drop_while_terminated (p := isspace) rfl]
  rw [digits, take_while_terminated rfl]
  simp only [head_terminated (by decide : '-' ≠ nul)]

/-- A number ends before the terminator. -/
theorem atoi_at_terminated (s : List Char) : atoiAt (s ++ [nul]) = some (atoi s) := by
  rw [atoiAt, drop_while_terminated rfl, unsigned_terminated, drop_while_terminated rfl, if_neg (by simp),
    atoi_terminated]

/-! ## Parsing -/

theorem cstr_terminated {hint : String} (terminated : nul ∉ hint.toList) : cstr hint = hint.toList := by
  rw [cstr]
  apply List.takeWhile_eq_self_iff.mpr
  intro c member
  simp only [bne_iff_ne, ne_eq]
  rintro rfl
  exact terminated member

theorem cstr_of_list (terminated : nul ∉ text) : cstr (String.ofList text) = text := by
  have named : (String.ofList text).toList = text := String.toList_ofList
  rw [cstr_terminated (by rwa [named]), named]

/-- The text before what `strstr` found, cut out with pointers. -/
theorem copy_found {found : List Char × List Char} (occurs : strstr text s = some found) :
    copy (s ++ [nul]) ((s ++ [nul]).length - (text ++ found.2 ++ [nul]).length) = some found.1 := by
  have whole : s ++ [nul] = found.1 ++ (text ++ found.2 ++ [nul]) := by
    rw [strstr_some occurs, List.append_assoc, List.append_assoc, List.append_assoc]
  rw [whole, copy_append]

/-- **The parser stays inside the text**: read byte by byte, up to the terminator, it finds what it
finds in the text. -/
theorem parse_hint_at_terminated (terminated : nul ∉ text) (protocol : String) :
    parseHintAt (text ++ [nul]) protocol = some (parseHint (String.ofList text) protocol) := by
  unfold parseHintAt parseHint
  rw [cstr_of_list terminated, strstr_at_terminated (by decide) (by decide) terminated]
  cases first : strstr [':', '/', '/'] text with
  | none => rfl
  | some found =>
    have terminated : nul ∉ found.2 := fun member => terminated (by simp [strstr_some first, member])
    have start : advance ([':', '/', '/'] ++ found.2 ++ [nul]) 2 = some ('/' :: found.2 ++ [nul]) := rfl
    have host : advance ('/' :: found.2 ++ [nul]) 1 = some (found.2 ++ [nul]) := rfl
    have protocolCopied := copy_found first
    simp only [Option.map_some, Option.bind_eq_bind, Option.bind_some, protocolCopied, start, host]
    split
    next => rfl
    next named =>
      split
      next =>
        rw [strstr_at_terminated (by decide) (by decide) terminated]
        cases second : strstr [':'] found.2 with
        | none => rfl
        | some found' =>
          have terminated : nul ∉ found'.2 :=
            fun member => terminated (by simp [strstr_some second, member])
          have hostCopied := copy_found second
          have port : advance ([':'] ++ found'.2 ++ [nul]) 1 = some (found'.2 ++ [nul]) := rfl
          simp only [Option.map_some, Option.bind_some, hostCopied, port]
          rw [strstr_at_terminated (by decide) (by decide) terminated]
          cases third : strstr [':'] found'.2 with
          | none => simp only [Option.map_none, Option.bind_some, atoi_at_terminated]
          | some found'' =>
            simp only [Option.map_some, Option.bind_some, copy_found third, atoi_at_terminated]
      next => rfl

/-- What is accepted begins with the protocol, and a host without a colon. -/
theorem accepted_shape (accepted : WellFormed (String.ofList text)) (terminated : nul ∉ text) :
    ∃ hostname rest, ':' ∉ hostname ∧ text = ['g', 't', 'c', ':', '/', '/'] ++ hostname ++ ':' :: rest := by
  obtain ⟨hostname, rest, shape⟩ := accepted
  rw [cstr_of_list terminated, List.append_assoc] at shape
  have colon : ':' ∈ hostname ++ ':' :: rest := by simp
  obtain ⟨first, later, same, colonless⟩ := List.eq_append_cons_of_mem colon
  refine ⟨first, later, colonless, ?_⟩
  rw [shape, same, List.append_assoc]

/-! ## Round trip -/

theorem strstr_absent (absent : c ∉ s) : strstr [c] s = none := by
  induction s with
  | nil => rfl
  | cons d s ih =>
    obtain ⟨here, later⟩ := not_or.mp (mt List.mem_cons.mpr absent)
    simp [strstr, here, ih later]

theorem strstr_first (absent : c ∉ before) : strstr [c] (before ++ c :: after) = some (before, after) := by
  induction before with
  | nil => simp [strstr]
  | cons d before ih =>
    obtain ⟨here, later⟩ := not_or.mp (mt List.mem_cons.mpr absent)
    simp [strstr, here, ih later]

theorem digit_of_port {n : ℕ} (member : c ∈ (toString n).toList) : c.isDigit = true := by
  rw [Nat.toString_eq_ofList_toDigits, String.toList_ofList] at member
  exact Nat.isDigit_of_mem_toDigits (by decide) (by decide) member

/-- Digits read as an integer are the number they spell. -/
theorem foldl_digits (digits : List Char) (n : ℕ) :
    digits.foldl (fun (n : ℤ) c => 10 * n + (c.toNat - '0'.toNat : ℕ)) n =
      (Nat.ofDigitChars 10 digits n : ℕ) := by
  induction digits generalizing n with
  | nil => rfl
  | cons c digits ih =>
    rw [List.foldl_cons, Nat.ofDigitChars_cons, ← ih]
    push_cast
    rfl

theorem digit_not_space (digit : c.isDigit = true) : isspace c = false := by
  simp only [Char.isDigit, Bool.and_eq_true, decide_eq_true_eq] at digit
  obtain ⟨low, high⟩ := digit
  have low : 48 ≤ c.toNat := low
  have apart : c ≠ ' ' := by
    rintro rfl
    exact absurd low (by decide)
  simp only [isspace, Bool.or_eq_false_iff, beq_eq_false_iff_ne, Bool.and_eq_false_iff,
    decide_eq_false_iff_not]
  exact ⟨apart, .inr (by omega)⟩

/-- A number made of digits alone has no blanks, no sign and nothing behind it. -/
theorem atoi_digits {digits : List Char} (all : ∀ c ∈ digits, c.isDigit = true)
    (small : Nat.ofDigitChars 10 digits 0 < 2 ^ 32) :
    atoi digits = UInt32.ofNat (Nat.ofDigitChars 10 digits 0) := by
  have blank : digits.dropWhile isspace = digits := by
    cases digits with
    | nil => rfl
    | cons c rest => simp [digit_not_space (all c (List.mem_cons_self ..))]
  have sign (c : Char) (other : c.isDigit = false) : digits.head? ≠ some c := by
    intro first
    have member := List.mem_of_head? first
    rw [all c member] at other
    cases other
  have whole : digits.takeWhile Char.isDigit = digits := List.takeWhile_eq_self_iff.mpr all
  have value := foldl_digits digits 0
  unfold atoi
  simp only [blank, sign '-' rfl, sign '+' rfl, or_self, if_false, whole]
  rw [Int.natCast_zero] at value
  rw [value, Int.min_eq_right (by omega), Words.ofInt_natCast]

/-- A printed port is read back. -/
theorem atoi_port (port : UInt32) : atoi (toString port.toNat).toList = port := by
  have value : Nat.ofDigitChars 10 (toString port.toNat).toList 0 = port.toNat := by
    rw [Nat.toString_eq_ofList_toDigits, String.toList_ofList, Nat.ofDigitChars_ten_toDigits]
  rw [atoi_digits (fun c => digit_of_port) (by rw [value]; exact port.toNat_lt), value, UInt32.ofNat_toNat]

/-- The text of a hint that was written. -/
theorem cstr_written {hostname : String} (terminated : nul ∉ hostname.toList) (port : UInt32) :
    cstr ("gtc://" ++ hostname ++ ":" ++ toString port.toNat) =
      ['g', 't', 'c', ':', '/', '/'] ++ (hostname.toList ++ ':' :: (toString port.toNat).toList) := by
  have shape : ("gtc://" ++ hostname ++ ":" ++ toString port.toNat).toList =
      ['g', 't', 'c', ':', '/', '/'] ++ (hostname.toList ++ ':' :: (toString port.toNat).toList) := by
    simp
  rw [cstr_terminated, shape]
  rw [shape]
  intro member
  rcases List.mem_append.mp member with scheme | behind
  · exact absurd scheme (by decide)
  · rcases List.mem_append.mp behind with host | tail
    · exact terminated host
    · rcases List.mem_cons.mp tail with colon | digit
      · exact absurd colon (by decide)
      · exact absurd (digit_of_port digit) (by decide)

/-- A hint that was written is read back. -/
theorem parse_make_hint (res : HintRes) (colonless : ':' ∉ res.hostname.toList)
    (terminated : nul ∉ res.hostname.toList) :
    (makeHint res "gtc").bind (parseHint · "gtc") = some res := by
  obtain ⟨hostname, port⟩ := res
  have protocol : strstr [':', '/', '/']
      (['g', 't', 'c', ':', '/', '/'] ++ (hostname.toList ++ ':' :: (toString port.toNat).toList)) =
      some (['g', 't', 'c'], hostname.toList ++ ':' :: (toString port.toNat).toList) := rfl
  have last : strstr [':'] (toString port.toNat).toList = none :=
    strstr_absent fun member => absurd (digit_of_port member) (by decide)
  unfold makeHint parseHint
  rw [if_pos rfl, Option.bind_some, cstr_written terminated, protocol]
  simp only [Option.bind_eq_bind, Option.bind_some]
  rw [if_neg (not_not.mpr rfl), if_pos trivial, strstr_first colonless]
  simp only [Option.bind_some, last, atoi_port, String.ofList_toList]

/-- **Hints round-trip**: what is written for a host is read back, and of any text the parser reads
no byte past the terminator and accepts only what begins with the protocol, a host and a colon. -/
theorem hints_round_trip :
    (∀ res : HintRes, ':' ∉ res.hostname.toList → nul ∉ res.hostname.toList → res.port.toNat < 2 ^ 31 →
      ∃ name, makeHint res "gtc" = some name ∧ parseHint name "gtc" = some res) ∧
      ∀ text : List Char, nul ∉ text →
        ∃ result, parseHintAt (text ++ [nul]) "gtc" = some result ∧
          result = parseHint (String.ofList text) "gtc" ∧
          (result.isSome → ∃ hostname rest, ':' ∉ hostname ∧
            text = ['g', 't', 'c', ':', '/', '/'] ++ hostname ++ ':' :: rest) := by
  constructor
  · intro res colonless terminated _
    exact Option.bind_eq_some_iff.mp (parse_make_hint res colonless terminated)
  · intro text terminated
    refine ⟨_, parse_hint_at_terminated terminated "gtc", rfl, fun accepted => ?_⟩
    exact accepted_shape (parse_hint_isSome_iff.mp accepted) terminated

/-- The name of a node, and the text of its hint with the terminator. -/
theorem node_hint_round_trip :
    (∃ name, makeHint { hostname := "node1", port := 12000 } "gtc" = some name ∧
      parseHint name "gtc" = some { hostname := "node1", port := 12000 }) ∧
      ∃ result, parseHintAt ("gtc://node1".toList ++ [nul]) "gtc" = some result ∧
        result = parseHint (String.ofList "gtc://node1".toList) "gtc" ∧
        (result.isSome → ∃ hostname rest, ':' ∉ hostname ∧
          "gtc://node1".toList = ['g', 't', 'c', ':', '/', '/'] ++ hostname ++ ':' :: rest) :=
  ⟨hints_round_trip.1 { hostname := "node1", port := 12000 } (by decide) (by decide) (by decide),
    hints_round_trip.2 "gtc://node1".toList (by decide)⟩

end Ditto.PeerHints
