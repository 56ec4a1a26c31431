import Mathlib.Data.List.Induction
import Mathlib.Data.List.Nodup
import Mathlib.Logic.Function.Basic
import Ditto.PluginWiring

/-! The configuration file. `parse_config` goes over the lines once and takes them for the section
whose heading it saw last; a heading that is there twice, a line in front of the first heading
and a section that is missing are errors, but do not stop it. So a file that is accepted is a
list of sections, in any order, and their lines are what the lists are made of. -/
namespace Ditto.ConfigSections
open PeerHints (cstr)
open PluginWiring (xferEntry)

/-- The sections; `config_state_t` is one of these, or none. -/
inductive Section where
  | storage
  | transfer
  | routing
  | sniffer
  deriving DecidableEq, Repr

def Section.heading : Section → String
  | .storage => "[storage]"
  | .transfer => "[transfer]"
  | .routing => "[routing]"
  | .sniffer => "[sniffer]"

/-- `!strcasecmp`. -/
def SameCase (s t : String) : Prop := (cstr s).map Char.toLower = (cstr t).map Char.toLower

instance (s t : String) : Decidable (SameCase s t) := inferInstanceAs (Decidable (_ = _))

/-- A line as `getline` splits it: its number and its tokens, of which there is one at least. -/
structure Line where
  number : ℕ
  first : String
  rest : List String
  deriving DecidableEq, Repr

def Line.tokens (l : Line) : List String := l.first :: l.rest

/-- The section that a token is the heading of. -/
def sectionOf (token : String) : Option Section :=
  if SameCase token Section.storage.heading then some .storage
  else if SameCase token Section.transfer.heading then some .transfer
  else if SameCase token Section.routing.heading then some .routing
  else if SameCase token Section.sniffer.heading then some .sniffer
  else none

/-- The variables of `parse_config`, with what it has warned of. -/
structure Parse where
  state : Option Section
  saw : Section → Bool
  errors : Bool
  warnings : List String
  spList : List String
  xpList : List String

def Parse.start : Parse where
  state := none
  saw := fun _ => false
  errors := false
  warnings := []
  spList := []
  xpList := []

def Parse.warn (p : Parse) (text : String) : Parse := { p with errors := true, warnings := p.warnings ++ [text] }

/-- A line of the file. -/
def Parse.line (file : String) (p : Parse) (l : Line) : Parse :=
  match sectionOf l.first with
  | some s =>
    if p.saw s then p.warn (file ++ ":" ++ toString l.number ++ ": Duplicate " ++ s.heading ++ " section\n")
    else { p with state := some s, saw := Function.update p.saw s true }
  | none =>
    match p.state with
    | none => p.warn (file ++ ":" ++ toString l.number ++ ": Not inside a plugin section\n")
    | some .storage => { p with spList := p.spList ++ xferEntry l.tokens }
    | some .transfer => { p with xpList := p.xpList ++ xferEntry l.tokens }
    | some _ => p

/-- A section that has to be there. -/
def Parse.require (file : String) (p : Parse) (s : Section) : Parse :=
  if p.saw s then p else p.warn (file ++ ": Missing " ++ s.heading ++ " section\n")

/-- `parse_config`; it returns `errors`. -/
def parseConfig (file : Option String) (lines : List Line) : Parse :=
  match file with
  | none => Parse.start.warn "No config file specified!\n"
  | some file =>
    let p := ((lines.foldl (Parse.line file) .start).require file .storage).require file .transfer
    if p.errors then { p with warnings := p.warnings ++ ["Errors processing file: " ++ file ++ "\n"] } else p

/-! ## Files -/

/-- A section as it stands in a file. -/
structure Block where
  kind : Section
  heading : Line
  body : List Line
  headed : sectionOf heading.first = some kind
  plain : ∀ l ∈ body, sectionOf l.first = none

def Block.lines (b : Block) : List Line := b.heading :: b.body

/-- The lines of the blocks for a section, by their tokens. -/
def tokensOf (s : Section) (blocks : List Block) : List (List String) :=
  blocks.flatMap fun b => if b.kind = s then b.body.map Line.tokens else []

/-- What these lines push. -/
def entries (s : Section) (blocks : List Block) : List String := PluginWiring.parseConfig (tokensOf s blocks)

/-- A configuration: its sections, each of them there once, in some order. -/
structure Config where
  blocks : List Block
  once : (blocks.map Block.kind).Nodup
  storage : .storage ∈ blocks.map Block.kind
  transfer : .transfer ∈ blocks.map Block.kind

/-- The lines that a configuration is written as. -/
def Config.lines (c : Config) : List Line := c.blocks.flatMap Block.lines

/-- The lines of a section. -/
def Config.tokens (c : Config) (s : Section) : List (List String) := tokensOf s c.blocks

variable {file : String} {p q : Parse} {l : Line} {s : Section} {blocks : List Block} {lines : List Line}

/-! ## Reading -/

/-- What has been read, when the lines so far are those of some blocks. -/
structure Reads (blocks : List Block) (p : Parse) : Prop where
  once : (blocks.map Block.kind).Nodup
  state : p.state = blocks.getLast?.map Block.kind
  saw : ∀ s, p.saw s = true ↔ s ∈ blocks.map Block.kind
  fine : p.errors = false
  silent : p.warnings = []
  spList : p.spList = entries .storage blocks
  xpList : p.xpList = entries .transfer blocks

theorem entries_snoc (s : Section) (blocks : List Block) (b : Block) : entries s (blocks ++ [b]) =
    entries s blocks ++ if b.kind = s then b.body.flatMap (fun l => xferEntry l.tokens) else [] := by
  rw [entries, tokensOf, List.flatMap_append, List.flatMap_singleton, PluginWiring.parseConfig, List.flatMap_append]
  congr 1
  split
  · rw [List.flatMap_map]
  · rfl

/-- A heading that was not seen begins a block. -/
theorem Reads.heading (reads : Reads blocks p) (headed : sectionOf l.first = some s) (fresh : p.saw s = false) :
    Reads (blocks ++ [⟨s, l, [], headed, fun _ none => absurd none List.not_mem_nil⟩]) (p.line file l) := by
  have line : p.line file l = { p with state := some s, saw := Function.update p.saw s true } := by
    rw [Parse.line, headed]
    simp only [fresh]
    rfl
  have unseen : s ∉ blocks.map Block.kind := fun seen => by
    rw [(reads.saw s).mpr seen] at fresh
    cases fresh
  rw [line]
  refine ⟨?_, ?_, ?_, reads.fine, reads.silent, ?_, ?_⟩
  · rw [List.map_append]
    refine List.nodup_append'.mpr ⟨reads.once, List.nodup_singleton _, fun t member same => unseen ?_⟩
    rwa [← show t = s from List.mem_singleton.mp same]
  · rw [List.getLast?_append]
    rfl
  · intro t
    rw [List.map_append, List.mem_append, List.map_singleton, List.mem_singleton, ← reads.saw t]
    by_cases same : t = s
    · subst same
      simp
    · simp [same]
  · rw [entries_snoc]
    simpa using reads.spList
  · rw [entries_snoc]
    simpa using reads.xpList

/-- A block with one more line. -/
def Block.push (b : Block) (l : Line) (plain : sectionOf l.first = none) : Block where
  kind := b.kind
  heading := b.heading
  body := b.body ++ [l]
  headed := b.headed
  plain l' member := by
    rcases List.mem_append.mp member with before | last
    · exact b.plain l' before
    · rwa [List.mem_singleton.mp last]

theorem entries_push (s : Section) (b : Block) (plain : sectionOf l.first = none) :
    entries s (blocks ++ [b.push l plain]) =
    entries s (blocks ++ [b]) ++ if b.kind = s then xferEntry l.tokens else [] := by
  rw [entries_snoc, entries_snoc, List.append_assoc]
  by_cases same : b.kind = s <;> simp [Block.push, same]

/-- A line of a section goes to the section's list, if it has one. -/
theorem line_plain (plain : sectionOf l.first = none) (inside : p.state = some s) : p.line file l =
    { p with
      spList := p.spList ++ if s = .storage then xferEntry l.tokens else []
      xpList := p.xpList ++ if s = .transfer then xferEntry l.tokens else [] } := by
  cases p with
  | mk state saw errors warnings spList xpList =>
    cases inside
    rw [Parse.line, plain]
    cases s <;> simp

/-- A line inside of a block is one more of the block. -/
theorem Reads.inside {b : Block} (reads : Reads (blocks ++ [b]) p) (plain : sectionOf l.first = none) :
    Reads (blocks ++ [b.push l plain]) (p.line file l) := by
  have state : p.state = some b.kind := by
    rw [reads.state, List.getLast?_append]
    rfl
  have kinds : (blocks ++ [b.push l plain]).map Block.kind = (blocks ++ [b]).map Block.kind := by
    rw [List.map_append, List.map_append]
    rfl
  rw [line_plain plain state]
  refine ⟨by rw [kinds]; exact reads.once, ?_, by rw [kinds]; exact reads.saw, reads.fine, reads.silent, ?_, ?_⟩
  · rw [List.getLast?_append]
    exact state
  · rw [entries_push, ← reads.spList]
  · rw [entries_push, ← reads.xpList]

/-- Errors stay. -/
theorem errors_line (held : p.errors = true) : (p.line file l).errors = true := by
  unfold Parse.line Parse.warn
  split
  · split
    · rfl
    · exact held
  · split
    · rfl
    all_goals exact held

/-- Lines that are read without an error are those of blocks. -/
theorem reads_of_fine (lines : List Line) (fine : (lines.foldl (Parse.line file) .start).errors = false) :
    ∃ blocks, lines = blocks.flatMap Block.lines ∧ Reads blocks (lines.foldl (Parse.line file) .start) := by
  induction lines using List.reverseRecOn with
  | nil => exact ⟨[], rfl, List.nodup_nil, rfl, fun s => by simp [Parse.start], rfl, rfl, rfl, rfl⟩
  | append_singleton lines l ih =>
    rw [List.foldl_append] at fine ⊢
    generalize read : lines.foldl (Parse.line file) .start = p at ih fine ⊢
    have before : p.errors = false := by
      by_contra held
      rw [show (List.foldl (Parse.line file) p [l]).errors = true from errors_line (Bool.not_eq_false _ ▸ held)] at fine
      cases fine
    obtain ⟨blocks, rfl, reads⟩ := ih before
    cases headed : sectionOf l.first with
    | some s =>
      have fresh : p.saw s = false := by
        by_contra seen
        rw [List.foldl_cons, List.foldl_nil, Parse.line, headed] at fine
        simp [Bool.not_eq_false _ ▸ seen, Parse.warn] at fine
      refine ⟨_, ?_, reads.heading headed fresh⟩
      rw [List.flatMap_append]
      rfl
    | none =>
      cases blocks using List.reverseRecOn with
      | nil =>
        have state : p.state = none := reads.state
        rw [List.foldl_cons, List.foldl_nil, Parse.line, headed, state] at fine
        cases fine
      | append_singleton blocks b =>
        refine ⟨_, ?_, reads.inside headed⟩
        rw [List.flatMap_append, List.flatMap_append, List.append_assoc]
        simp [Block.lines, Block.push]

/-! ## Reading what was written -/

/-- A block with a fresh heading is read. -/
theorem reads_block (b : Block) (reads : Reads blocks p) (fresh : b.kind ∉ blocks.map Block.kind) :
    Reads (blocks ++ [b]) (b.lines.foldl (Parse.line file) p) := by
  obtain ⟨kind, heading, body, headed, plain⟩ := b
  have unseen : p.saw kind = false := by
    by_contra seen
    exact fresh ((reads.saw kind).mp (Bool.not_eq_false _ ▸ seen))
  show Reads _ (body.foldl (Parse.line file) (p.line file heading))
  induction body using List.reverseRecOn with
  | nil => exact reads.heading headed unseen
  | append_singleton body l ih =>
    rw [List.foldl_append]
    exact (ih (fun l' member => plain l' (List.mem_append_left _ member)) fresh).inside
      (plain l (List.mem_append_right _ (List.mem_singleton_self _)))

theorem reads_blocks (blocks : List Block) (once : (blocks.map Block.kind).Nodup) :
    Reads blocks ((blocks.flatMap Block.lines).foldl (Parse.line file) .start) := by
  induction blocks using List.reverseRecOn with
  | nil => exact ⟨List.nodup_nil, rfl, fun s => by simp [Parse.start], rfl, rfl, rfl, rfl⟩
  | append_singleton blocks b ih =>
    rw [List.map_append, List.map_singleton] at once
    obtain ⟨once', -, apart⟩ := List.nodup_append'.mp once
    rw [List.flatMap_append, List.foldl_append, List.flatMap_singleton]
    exact reads_block b (ih once') fun member => apart member (List.mem_singleton_self _)

/-! ## The end of the file -/

@[simp] theorem errors_require : (p.require file s).errors = false ↔ p.errors = false ∧ p.saw s = true := by
  unfold Parse.require
  split
  next seen => simp [seen]
  next missing => simp [Parse.warn, missing]

@[simp] theorem saw_require (t : Section) : (p.require file s).saw t = p.saw t := by
  unfold Parse.require
  split <;> rfl

theorem require_of_saw (seen : p.saw s = true) : p.require file s = p := if_pos seen

/-- There are errors where something was warned of. -/
def Parse.Warned (p : Parse) : Prop := p.errors = true ↔ p.warnings ≠ []

theorem warned_warn (text : String) : (p.warn text).Warned := by simp [Parse.Warned, Parse.warn]

theorem Parse.Warned.line (warned : p.Warned) : (p.line file l).Warned := by
  unfold Parse.line
  split
  · split
    · exact warned_warn _
    · exact warned
  · split
    · exact warned_warn _
    all_goals exact warned

theorem Parse.Warned.require (warned : p.Warned) : (p.require file s).Warned := by
  unfold Parse.require
  split
  · exact warned
  · exact warned_warn _

/-- A file is refused if and only if something is warned of. -/
theorem warned_of_parse_config (file : Option String) (lines : List Line) : (parseConfig file lines).Warned := by
  cases file with
  | none => exact warned_warn _
  | some file =>
    have read : ((lines.foldl (Parse.line file) .start).require file .storage).Warned := by
      refine Parse.Warned.require ?_
      exact List.foldlRecOn lines (Parse.line file) (by simp [Parse.Warned, Parse.start]) fun p warned l _ => warned.line
    have ends := @Parse.Warned.require file _ .transfer read
    simp only [parseConfig]
    split
    next wrong => simp [Parse.Warned, wrong]
    next => exact ends

/-- **What `parse_config` accepts is just what is written as a configuration**: sections in some order,
each of them once, the two for plugins among them; and what it takes from the file is what the
lines of these two sections push. -/
theorem parse_config_iff (file : String) (lines : List Line) (spList xpList : List String) :
    ((parseConfig (some file) lines).errors = false ∧ (parseConfig (some file) lines).spList = spList ∧
        (parseConfig (some file) lines).xpList = xpList) ↔
      ∃ c : Config, lines = c.lines ∧ spList = PluginWiring.parseConfig (c.tokens .storage) ∧
        xpList = PluginWiring.parseConfig (c.tokens .transfer) := by
  constructor
  · rintro ⟨fine, rfl, rfl⟩
    simp only [parseConfig] at fine ⊢
    split at fine
    next wrong =>
      rw [wrong] at fine
      cases fine
    next right =>
      rw [if_neg right]
      obtain ⟨⟨fine', storage⟩, transfer⟩ := by simpa only [errors_require, saw_require] using fine
      obtain ⟨blocks, written, reads⟩ := reads_of_fine lines fine'
      rw [require_of_saw storage, require_of_saw transfer]
      exact ⟨⟨blocks, reads.once, (reads.saw _).mp storage, (reads.saw _).mp transfer⟩, written,
        reads.spList, reads.xpList⟩
  · rintro ⟨c, rfl, rfl, rfl⟩
    have reads : Reads c.blocks (c.lines.foldl (Parse.line file) .start) := reads_blocks c.blocks c.once
    simp only [parseConfig]
    rw [require_of_saw ((reads.saw _).mpr c.storage), require_of_saw ((reads.saw _).mpr c.transfer),
      if_neg (by simp [reads.fine])]
    exact ⟨reads.fine, reads.spList, reads.xpList⟩

end Ditto.ConfigSections
