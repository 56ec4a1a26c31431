import Mathlib.Logic.Function.Basic
import Ditto.PeerHints
import Ditto.XferPlugin

/-! The routing table of `get_next_hop`. Before every lookup the routing file is read anew:
the tokens of all lines below its heading make one list, which is cut again every eight tokens,
as wide as the rows of the kernel's table are printed. Each row puts its host into the table,
and a later row for a host replaces an earlier one. -/
namespace Ditto.RoutingInfo
open PeerHints
open XferGtc (Fault)

/-- `NUM_TABLE_COLUMNS`. -/
def numTableColumns : ℕ := 8

/-- `routing_table`. -/
abbrev Table := String → Option String

/-- `!strcasecmp (av[0], routing_info_header)`. -/
def IsHeader (av : List String) : Prop :=
  av.head?.map (fun token => (cstr token).map Char.toLower) = some "destination".toList

instance : DecidablePred IsHeader := fun av =>
  inferInstanceAs (Decidable (av.head?.map (fun token => (cstr token).map Char.toLower) = _))

/-- The variables of `parse_config_routing_info`: whether `state` is `CONFIG_ROUTING`,
`saw_routing`, `errors` and the list. -/
structure Parse where
  inRouting : Bool
  sawRouting : Bool
  errors : Bool
  routingList : List String
  deriving DecidableEq, Repr

/-- One line, as `getline` splits it into tokens. -/
def Parse.line (s : Parse) (av : List String) : Parse :=
  if IsHeader av then
    if s.sawRouting then { s with errors := true }
    else { s with inRouting := true, sawRouting := true }
  else if s.inRouting then { s with routingList := s.routingList ++ av }
  else s

/-- `parse_config_routing_info`: whether there were errors, and the list. -/
def parseConfigRoutingInfo (lines : List (List String)) : Bool × List String :=
  let s := lines.foldl Parse.line ⟨false, false, false, []⟩
  (s.errors || !s.sawRouting, s.routingList)

/-- What a key leads to: itself where the table has no gateway, or where proxies are not
used. -/
def hop (noDotProxy : Bool) (key value : String) : String :=
  if noDotProxy = true ∨ value = "*" ∨ value = "0.0.0.0" then key else value

/-- The body of the loop of `setup_routing_info`, at the row's first token. A list that ends
with a key is read past its end. -/
def insertRoute (noDotProxy : Bool) (routeList : List String) (table : Table) (i : ℕ) :
    Except Fault Table :=
  match routeList[i]?, routeList[i + 1]? with
  | some key, some value => .ok (Function.update table key (some (hop noDotProxy key value)))
  | _, _ => .error .outOfRange

/-- The loop, over every eighth token. -/
def insertRoutes (noDotProxy : Bool) (routeList : List String) (table : Table) :
    Except Fault Table :=
  (List.range ((routeList.length + (numTableColumns - 1)) / numTableColumns)).foldlM
    (fun table n => insertRoute noDotProxy routeList table (numTableColumns * n)) table

/-- `setup_routing_info`, on the lines of the file that the script has just written. -/
def setupRoutingInfo (noDotProxy : Bool) (table : Table) (lines : List (List String)) :
    Except Fault Table :=
  let (errors, routeList) := parseConfigRoutingInfo lines
  if errors then .error (.fatal "Cannot parse routing info from config file \n")
  else insertRoutes noDotProxy routeList table

/-- Successive calls, from the empty table. -/
def setups (noDotProxy : Bool) (files : List (List (List String))) : Except Fault Table :=
  files.foldlM (setupRoutingInfo noDotProxy) fun _ => none

/-! ## Files and rows -/

/-- A routing file: any lines, one heading, and rows of at least two tokens. -/
structure RoutingFile where
  preface : List (List String)
  heading : List String
  rows : List (List String)
  headed : IsHeader heading
  plain : ∀ line ∈ preface ++ rows, ¬ IsHeader line
  wide : ∀ row ∈ rows, 2 ≤ row.length

def RoutingFile.lines (file : RoutingFile) : List (List String) :=
  file.preface ++ file.heading :: file.rows

/-- The last row for a host. -/
def lastRow (rows : List (List String)) (host : String) : Option (List String) :=
  rows.reverse.find? fun row => row.head? = some host

/-- Where the rows of a file lead a host. -/
def nextHop (noDotProxy : Bool) (rows : List (List String)) (host : String) : Option String :=
  (lastRow rows host).map fun row => hop noDotProxy host (row.getD 1 "")

variable {noDotProxy : Bool} {table : Table} {rows : List (List String)} {host : String}

theorem next_hop_snoc (rows : List (List String)) (row : List String) (host : String) :
    nextHop noDotProxy (rows ++ [row]) host =
      if row.head? = some host then some (hop noDotProxy host (row.getD 1 ""))
      else nextHop noDotProxy rows host := by
  rw [nextHop, lastRow, List.reverse_append, List.reverse_singleton, List.singleton_append,
    List.find?_cons]
  by_cases named : row.head? = some host
  · simp [named]
  · simp [named, nextHop, lastRow]

/-- A host that has a row has a next hop. -/
theorem next_hop_isSome_iff :
    (nextHop noDotProxy rows host).isSome ↔ ∃ row ∈ rows, row.head? = some host := by
  simp [nextHop, lastRow]

/-! ## Reading a file -/

/-- Lines that are not the heading are skipped before it. -/
theorem parse_preface {lines : List (List String)} (plain : ∀ line ∈ lines, ¬ IsHeader line)
    (s : Parse) (outside : s.inRouting = false) : lines.foldl Parse.line s = s := by
  induction lines with
  | nil => rfl
  | cons line rest ih =>
    obtain ⟨here, later⟩ := List.forall_mem_cons.mp plain
    rw [List.foldl_cons, Parse.line, if_neg here, outside]
    exact ih later

/-- Below it their tokens are collected. -/
theorem parse_rows {lines : List (List String)} (plain : ∀ line ∈ lines, ¬ IsHeader line)
    (s : Parse) (inside : s.inRouting = true) :
    lines.foldl Parse.line s = { s with routingList := s.routingList ++ lines.flatten } := by
  induction lines generalizing s with
  | nil => simp
  | cons line rest ih =>
    obtain ⟨here, later⟩ := List.forall_mem_cons.mp plain
    have collected : s.line line = { s with routingList := s.routingList ++ line } := by
      rw [Parse.line, if_neg here, if_pos inside]
    rw [List.foldl_cons, collected, ih later { s with routingList := s.routingList ++ line } inside,
      List.flatten_cons, List.append_assoc]

/-- A routing file is read as the tokens of its rows. -/
theorem parse_routing_file (file : RoutingFile) :
    parseConfigRoutingInfo file.lines = (false, file.rows.flatten) := by
  obtain ⟨before, below⟩ := List.forall_mem_append.mp file.plain
  have start : (⟨false, false, false, []⟩ : Parse).line file.heading = ⟨true, true, false, []⟩ := by
    rw [Parse.line, if_pos file.headed]
    rfl
  rw [parseConfigRoutingInfo, RoutingFile.lines, List.foldl_append, parse_preface before _ rfl,
    List.foldl_cons, start, parse_rows below _ rfl]
  rfl

/-! ## Rows of eight tokens -/

theorem length_flatten_rows (full : ∀ row ∈ rows, row.length = numTableColumns) :
    rows.flatten.length = numTableColumns * rows.length := by
  induction rows with
  | nil => rfl
  | cons row rest ih =>
    obtain ⟨here, later⟩ := List.forall_mem_cons.mp full
    rw [List.flatten_cons, List.length_append, here, ih later, List.length_cons, Nat.mul_succ,
      Nat.add_comm]

/-- The tokens of a row, found in the list of all tokens. -/
theorem flatten_row (full : ∀ row ∈ rows, row.length = numTableColumns) (n j : ℕ)
    (inside : j < numTableColumns) :
    rows.flatten[numTableColumns * n + j]? = rows[n]?.bind (·[j]?) := by
  induction rows generalizing n with
  | nil => simp
  | cons row rest ih =>
    obtain ⟨here, later⟩ := List.forall_mem_cons.mp full
    rw [List.flatten_cons]
    cases n with
    | zero =>
      rw [Nat.mul_zero, Nat.zero_add, List.getElem?_append_left (here ▸ inside)]
      rfl
    | succ n =>
      have beyond : row.length ≤ numTableColumns * (n + 1) + j := by
        rw [here, Nat.mul_succ]
        omega
      have shifted : numTableColumns * (n + 1) + j - row.length = numTableColumns * n + j := by
        rw [here, Nat.mul_succ]
        omega
      rw [List.getElem?_append_right beyond, shifted, ih later]
      rfl

/-- What the rows leave of a table. -/
def refreshed (noDotProxy : Bool) (table : Table) (rows : List (List String)) : Table :=
  fun host => (nextHop noDotProxy rows host).or (table host)

/-- One more row puts its host into the table. -/
theorem insert_route_row (full : ∀ row ∈ rows, row.length = numTableColumns) {n : ℕ}
    (within : n < rows.length) :
    insertRoute noDotProxy rows.flatten (refreshed noDotProxy table (rows.take n)) (numTableColumns * n) =
      .ok (refreshed noDotProxy table (rows.take (n + 1))) := by
  have wide : rows[n].length = numTableColumns := full _ (List.getElem_mem within)
  have key := flatten_row full n 0 (by decide)
  have value := flatten_row full n 1 (by decide)
  rw [List.getElem?_eq_getElem within, Option.bind_some] at key value
  obtain ⟨first, rest, row⟩ : ∃ first rest, rows[n] = first :: rest :=
    List.exists_cons_of_length_eq_add_one wide
  obtain ⟨second, rest, rfl⟩ : ∃ second rest', rest = second :: rest' := by
    rw [row] at wide
    exact List.exists_cons_of_length_eq_add_one (Nat.succ.inj wide)
  rw [row] at key value
  rw [Nat.add_zero] at key
  simp only [insertRoute, key, value, List.getElem?_cons_zero, List.getElem?_cons_succ]
  refine congrArg Except.ok (funext fun host => ?_)
  rw [List.take_succ_eq_append_getElem within, refreshed, next_hop_snoc, row]
  by_cases same : host = first
  · subst same
    simp
  · rw [Function.update_of_ne same]
    simp [Ne.symm same, refreshed]

/-- The loop goes through the rows. -/
theorem insert_routes_rows (full : ∀ row ∈ rows, row.length = numTableColumns) (table : Table) :
    insertRoutes noDotProxy rows.flatten table = .ok (refreshed noDotProxy table rows) := by
  have count : (rows.flatten.length + (numTableColumns - 1)) / numTableColumns = rows.length := by
    rw [length_flatten_rows full, numTableColumns]
    omega
  have walked (n : ℕ) (within : n ≤ rows.length) :
      (List.range n).foldlM (fun table n =>
        insertRoute noDotProxy rows.flatten table (numTableColumns * n)) table =
        .ok (refreshed noDotProxy table (rows.take n)) := by
    induction n with
    | zero => rfl
    | succ n ih =>
      rw [List.range_succ, List.foldlM_append, ih (Nat.le_of_succ_le within)]
      show (insertRoute noDotProxy rows.flatten (refreshed noDotProxy table (rows.take n))
        (numTableColumns * n)).bind .ok = _
      rw [insert_route_row full within]
      rfl
  rw [insertRoutes, count, walked _ (Nat.le_refl _), List.take_length]

/-- Reading a file of full rows. -/
theorem setup_routing_file (file : RoutingFile)
    (full : ∀ row ∈ file.rows, row.length = numTableColumns) (table : Table) :
    setupRoutingInfo noDotProxy table file.lines = .ok (refreshed noDotProxy table file.rows) := by
  rw [setupRoutingInfo, parse_routing_file]
  exact insert_routes_rows full table

/-! ## Successive calls -/

/-- The tables that files of full rows leave one after the other. -/
theorem setup_routing_files (files : List RoutingFile)
    (full : ∀ file ∈ files, ∀ row ∈ file.rows, row.length = numTableColumns) (table : Table) :
    (files.map RoutingFile.lines).foldlM (setupRoutingInfo noDotProxy) table =
      .ok (files.foldl (fun table file => refreshed noDotProxy table file.rows) table) := by
  induction files generalizing table with
  | nil => rfl
  | cons file rest ih =>
    obtain ⟨here, later⟩ := List.forall_mem_cons.mp full
    rw [List.map_cons, List.foldlM_cons, setup_routing_file file here, List.foldl_cons, ← ih later]
    rfl

/-- A host without a row is left as it is. -/
theorem refreshed_unnamed (unnamed : ∀ row ∈ rows, row.head? ≠ some host) :
    refreshed noDotProxy table rows host = table host := by
  have absent : nextHop noDotProxy rows host = none := by
    rw [← Option.not_isSome_iff_eq_none, next_hop_isSome_iff]
    rintro ⟨row, member, named⟩
    exact unnamed row member named
  rw [refreshed, absent, Option.none_or]

/-- A host with a row goes where its last row says. -/
theorem refreshed_named (named : ∃ row ∈ rows, row.head? = some host) :
    refreshed noDotProxy table rows host = nextHop noDotProxy rows host := by
  obtain ⟨next, found⟩ := Option.isSome_iff_exists.mp (next_hop_isSome_iff.mpr named)
  rw [refreshed, found, Option.some_or]

/-- A host that no file names is in no table. -/
theorem unnamed_throughout (files : List RoutingFile)
    (unnamed : ∀ file ∈ files, ∀ row ∈ file.rows, row.head? ≠ some host) (table : Table) :
    files.foldl (fun table file => refreshed noDotProxy table file.rows) table host = table host := by
  induction files generalizing table with
  | nil => rfl
  | cons file rest ih =>
    obtain ⟨here, later⟩ := List.forall_mem_cons.mp unnamed
    rw [List.foldl_cons, ih later, refreshed_unnamed here]

/-- After any number of calls, on files whose rows are as wide as the loop takes them, the hosts
of the last file go where its rows say, and a host that was in no file has no entry. -/
theorem routing_reflects_last_file (noDotProxy : Bool) (earlier : List RoutingFile) (last : RoutingFile)
    (full : ∀ file ∈ earlier ++ [last], ∀ row ∈ file.rows, row.length = numTableColumns) :
    ∃ table, setups noDotProxy ((earlier ++ [last]).map RoutingFile.lines) = .ok table ∧
      ∀ host,
        ((∃ row ∈ last.rows, row.head? = some host) →
          table host = nextHop noDotProxy last.rows host) ∧
        ((∀ file ∈ earlier ++ [last], ∀ row ∈ file.rows, row.head? ≠ some host) →
          table host = none) := by
  refine ⟨_, setup_routing_files _ full _, fun host => ⟨fun named => ?_, fun unnamed => ?_⟩⟩
  · rw [List.foldl_append, List.foldl_cons, List.foldl_nil]
    exact refreshed_named named
  · exact unnamed_throughout _ unnamed _

/-- A kernel table with one route, and one with none. -/
def routedFile : RoutingFile where
  preface := [["Kernel", "IP", "routing", "table"]]
  heading := ["Destination", "Gateway", "Genmask", "Flags", "Metric", "Ref", "Use", "Iface"]
  rows := [["10.0.0.1", "10.0.0.9", "255.255.255.255", "UGH", "0", "0", "0", "eth0"]]
  headed := by decide
  plain := by decide
  wide := by decide

def emptyFile : RoutingFile where
  preface := []
  heading := ["Destination"]
  rows := []
  headed := by decide
  plain := by decide
  wide := by decide

/-- Two routes of four tokens each. -/
def narrowFile : RoutingFile where
  preface := []
  heading := ["Destination"]
  rows := [["10.0.0.1", "10.0.0.9", "0", "eth0"], ["10.0.0.2", "10.0.0.9", "0", "eth0"]]
  headed := by decide
  plain := by decide
  wide := by decide

theorem route_added_later :
    ∃ table, setups false ([emptyFile, routedFile].map RoutingFile.lines) = .ok table ∧
      table "10.0.0.1" = some "10.0.0.9" := by
  obtain ⟨table, ran, reflects⟩ := routing_reflects_last_file false [emptyFile] routedFile (by decide)
  exact ⟨table, ran, (reflects "10.0.0.1").1 ⟨_, List.mem_singleton_self _, rfl⟩⟩

/-- The lookups after the last call are those of the last file. -/
def Reflects (noDotProxy : Bool) (files : List RoutingFile) (host : String) : Prop :=
  ∀ last ∈ files.getLast?, ∃ table, setups noDotProxy (files.map RoutingFile.lines) = .ok table ∧
    table host = nextHop noDotProxy last.rows host

/-- The second of two narrow rows is cut off, and a route that is gone from the file is not gone
from the table. -/
theorem narrow_row_lost :
    ¬ Reflects false [narrowFile] "10.0.0.2" ∧ ¬ Reflects false [routedFile, emptyFile] "10.0.0.1" := by
  constructor
  · intro reflects
    obtain ⟨table, ran, found⟩ := reflects narrowFile rfl
    cases ran
    cases found
  · intro reflects
    obtain ⟨table, ran, found⟩ := reflects emptyFile rfl
    cases ran
    cases found

/-- What a lookup makes of it: a hint leads to the next hop of its host. -/
theorem get_next_hop_reflects {hint : String} {res : HintRes} {value : String}
    (parsed : parseHint hint "gtc" = some res)
    (named : nextHop noDotProxy rows res.hostname = some value) :
    getNextHop (.ok (refreshed noDotProxy table rows)) hint = .ok (some { res with hostname := value }) := by
  have here : refreshed noDotProxy table rows res.hostname = some value := by
    rw [refreshed, named, Option.some_or]
  simp only [getNextHop, parsed, bind, Except.bind, here]

end Ditto.RoutingInfo
