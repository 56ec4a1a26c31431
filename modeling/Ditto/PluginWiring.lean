import Mathlib.Logic.Function.Basic
import Ditto.PeerHints

/-! The chain of transfer plugins. `instantiate_plugins` takes the lines of the configuration from
the back, so that a line finds the plugins it is chained to, and makes one plugin for each. Its
variables live as long as the loop: the vector of a line that names several plugins is still there
when the lines before it are wired. -/
namespace Ditto.PluginWiring
open PeerHints (cstr)

/-- What a line of the section pushes: the plugin, its chain and its parameters. -/
def xferEntry : List String → List String
  | [] => []
  | [plugin] => [plugin, "", ""]
  | plugin :: plgList :: av => [plugin, plgList, " ".intercalate av]

/-- `parse_config` on the lines below `[transfer]`, as `getline` splits them into tokens. -/
def parseConfig (lines : List (List String)) : List String := lines.flatMap xferEntry

/-- A pointer to a plugin: its place among those that were made. -/
abbrev PluginId := ℕ

/-- A plugin as it was made: what it was given as the next plugin, what `set_more_plugins` gave it,
and what it was configured with. -/
structure XferPlugin where
  plugin : String
  xp : Option PluginId
  more : List PluginId
  conf : String
  deriving DecidableEq, Repr

/-- What stops the daemon. -/
inductive Stop where
  | exit
  | nullPointer
  | emptyVec
  | fatal (msg : String)
  deriving DecidableEq, Repr

/-- What the loop reads of the world: `xPluginTab` and what `configure` returns. -/
structure PluginEnv where
  xPluginTab : String → Bool
  configure : String → String → Bool

/-- The variables of the loop, and the plugins made so far. -/
structure Wiring where
  made : List XferPlugin
  xPluginPtr : String → Option PluginId
  xpvec : List PluginId
  xp : Option PluginId

/-- A row of the configuration. -/
structure XferLine where
  plugin : String
  plgList : String
  conf : String
  deriving DecidableEq, Repr

/-- The three ways to be chained. -/
inductive Chain where
  | null
  | several (names : List String)
  | single (name : String)
  deriving DecidableEq, Repr

/-- `strtok (name, ",")` until there are no more. -/
def strtok (text : List Char) : List String :=
  ((text.splitOn ',').filter (· ≠ [])).map String.ofList

def XferLine.chain (line : XferLine) : Chain :=
  if line.plgList = "" ∨ line.plgList = "null" then .null
  else if ',' ∈ cstr line.plgList then .several (strtok (cstr line.plgList))
  else .single line.plgList

namespace Wiring

def start : Wiring where
  made := []
  xPluginPtr := fun _ => none
  xpvec := []
  xp := none

/-- `*xPluginPtr[name]`. -/
def named (w : Wiring) (name : String) : Except Stop PluginId :=
  match w.xPluginPtr name with
  | some xp => .ok xp
  | none => .error .nullPointer

/-- The loop over the names of a list. -/
def collect (w : Wiring) (names : List String) : Except Stop Wiring :=
  names.foldlM (fun w name => do
    let xp ← w.named name
    .ok { w with xp := some xp, xpvec := w.xpvec ++ [xp] }) w

/-- The chain of a line. -/
def follow (w : Wiring) : Chain → Except Stop Wiring
  | .null => .ok { w with xp := none }
  | .several names => w.collect names
  | .single name => do
    let xp ← w.named name
    .ok { w with xp := some xp }

/-- `(*xPluginTab[plugin]) (m, xp)`, with `set_more_plugins` where there is a vector. -/
def construct (w : Wiring) (line : XferLine) : Wiring :=
  { w with
    made := w.made ++ [{
      plugin := line.plugin
      xp := if w.xpvec = [] then w.xp else none
      more := w.xpvec
      conf := line.conf }]
    xp := some w.made.length
    xPluginPtr := Function.update w.xPluginPtr line.plugin (some w.made.length) }

/-- The body of the loop. -/
def addPlugin (env : PluginEnv) (w : Wiring) (line : XferLine) : Except Stop Wiring :=
  if env.xPluginTab line.plugin = false then .error .exit
  else do
    let w ← w.follow line.chain
    if env.configure line.plugin line.conf then .ok (w.construct line)
    else .error (.fatal ("Transfer plugin (" ++ line.plugin ++ ") configuration failed\n"))

/-- The loop, over the list from its back. -/
def addPlugins (env : PluginEnv) : List String → Wiring → Except Stop Wiring
  | [], w => .ok w
  | conf :: plgList :: plugin :: rest, w => do
    let w ← w.addPlugin env { plugin := plugin, plgList := plgList, conf := conf }
    addPlugins env rest w
  | _, _ => .error .emptyVec

end Wiring

/-- `instantiate_plugins`, the part for the transfer plugins. -/
def instantiatePlugins (env : PluginEnv) (lines : List (List String)) : Except Stop Wiring :=
  Wiring.addPlugins env (parseConfig lines).reverse .start

/-! ## What the configuration says -/

/-- A line's row. -/
def XferLine.ofTokens (av : List String) : XferLine where
  plugin := av.getD 0 ""
  plgList := av.getD 1 ""
  conf := " ".intercalate (av.drop 2)

/-- The names in a line's chain. -/
def XferLine.names (line : XferLine) : List String :=
  match line.chain with
  | .null => []
  | .several names => names
  | .single name => [name]

/-- The plugin that a name stands for: that of the nearest of the lines below. -/
def instanceOf (later : List XferLine) (name : String) : Option PluginId :=
  match later with
  | [] => none
  | line :: later => if line.plugin = name then some later.length else instanceOf later name

/-- The plugin of a line with what its own chain names. -/
def XferLine.configured (line : XferLine) (later : List XferLine) : XferPlugin where
  plugin := line.plugin
  xp := match line.chain with
    | .single name => instanceOf later name
    | _ => none
  more := match line.chain with
    | .several names => names.filterMap (instanceOf later)
    | _ => []
  conf := line.conf

/-- The plugins in the order they are made in, from the last line to the first. -/
def configured : List XferLine → List XferPlugin
  | [] => []
  | line :: later => configured later ++ [line.configured later]

/-- Every name in a chain is that of a plugin on a later line. -/
def Resolvable : List XferLine → Prop
  | [] => True
  | line :: later => (∀ name ∈ line.names, ∃ other ∈ later, other.plugin = name) ∧ Resolvable later

/-- The plugins that a line's comma list names. -/
def XferLine.several (line : XferLine) : List String :=
  match line.chain with
  | .several names => names
  | _ => []

/-- Only the first line names plugins in a list, and a list that names none stands on the last. -/
structure Alone (lines : List XferLine) : Prop where
  first : ∀ line ∈ lines.tail, line.several = []
  last : ∀ line ∈ lines.dropLast, line.chain ≠ .several []

variable {env : PluginEnv} {w : Wiring} {line : XferLine} {later lines : List XferLine}

theorem entry_of_tokens {av : List String} (token : av ≠ []) : xferEntry av =
    [(XferLine.ofTokens av).plugin, (XferLine.ofTokens av).plgList, (XferLine.ofTokens av).conf] := by
  cases av with
  | nil => exact absurd rfl token
  | cons plugin av => cases av with
    | nil => rfl
    | cons plgList av => rfl

/-- The names of a chain are those of its list, or its single name. -/
theorem several_names : ∀ name ∈ line.several, name ∈ line.names := by
  intro name member
  unfold XferLine.several at member
  unfold XferLine.names
  cases chain : line.chain with
  | null => simp [chain] at member
  | several names => simpa [chain] using member
  | single name => simp [chain] at member

theorem instance_of_isSome_iff {name : String} :
    (instanceOf later name).isSome ↔ ∃ other ∈ later, other.plugin = name := by
  induction later with
  | nil => simp [instanceOf]
  | cons line later ih =>
    rw [instanceOf]
    split
    next same => simp [same]
    next different => simp [different, ih]

/-- Names that all stand for a plugin stand for none only if there are none. -/
theorem filter_map_nil_iff {names : List String} {ptr : String → Option PluginId}
    (found : ∀ name ∈ names, (ptr name).isSome) : names.filterMap ptr = [] ↔ names = [] := by
  rw [List.filterMap_eq_nil_iff]
  constructor
  · intro none
    cases names with
    | nil => rfl
    | cons name rest =>
      have some := found name (List.mem_cons_self ..)
      rw [none name (List.mem_cons_self ..)] at some
      cases some
  · rintro rfl name ⟨⟩

/-! ## One line -/

namespace Wiring

/-- The plugins of a list are found one after the other. -/
theorem collect_found (names : List String) (w : Wiring)
    (found : ∀ name ∈ names, (w.xPluginPtr name).isSome) :
    ∃ xp, w.collect names = .ok { w with xp := xp, xpvec := w.xpvec ++ names.filterMap w.xPluginPtr } ∧
      (names = [] → xp = w.xp) := by
  induction names generalizing w with
  | nil => exact ⟨w.xp, by simp [collect, pure, Except.pure], fun _ => rfl⟩
  | cons name rest ih =>
    obtain ⟨here, later⟩ := List.forall_mem_cons.mp found
    obtain ⟨id, at_name⟩ := Option.isSome_iff_exists.mp here
    obtain ⟨xp, collected, _⟩ := ih { w with xp := some id, xpvec := w.xpvec ++ [id] } later
    refine ⟨xp, ?_, nofun⟩
    have first : w.named name = .ok id := by rw [named, at_name]
    unfold collect at collected ⊢
    rw [List.foldlM_cons, first]
    refine collected.trans ?_
    rw [List.filterMap_cons_some at_name, List.append_assoc, List.singleton_append]

/-- What the chain of a line leaves in the variables. -/
theorem follow_found (w : Wiring) (line : XferLine)
    (found : ∀ name ∈ line.names, (w.xPluginPtr name).isSome) :
    ∃ xp, w.follow line.chain =
        .ok { w with xp := xp, xpvec := w.xpvec ++ line.several.filterMap w.xPluginPtr } ∧
      xp = match line.chain with
        | .null => none
        | .several [] => w.xp
        | .several (_ :: _) => xp
        | .single name => w.xPluginPtr name := by
  unfold XferLine.names at found
  unfold XferLine.several
  cases chain : line.chain with
  | null => exact ⟨none, by simp [follow], rfl⟩
  | several names =>
    rw [chain] at found
    obtain ⟨xp, collected, unchanged⟩ := collect_found names w found
    refine ⟨xp, collected, ?_⟩
    cases names with
    | nil => exact unchanged rfl
    | cons name rest => rfl
  | single name =>
    rw [chain] at found
    obtain ⟨id, at_name⟩ := Option.isSome_iff_exists.mp (found name (List.mem_singleton_self _))
    refine ⟨some id, ?_, at_name.symm⟩
    simp [follow, named, at_name, bind, Except.bind]

/-- What the variables are after the lines from the last one up to some line. -/
structure Keeps (w : Wiring) (later : List XferLine) : Prop where
  count : w.made.length = later.length
  table : w.xPluginPtr = instanceOf later
  vec : w.xpvec = [] ↔ ∀ line ∈ later, line.several = []
  xp : w.xp = none ↔ later = []

theorem Keeps.start : Keeps start [] where
  count := rfl
  table := rfl
  vec := by simp [Wiring.start]
  xp := by simp [Wiring.start]

theorem configured_more : (line.configured later).more = line.several.filterMap (instanceOf later) := by
  unfold XferLine.configured XferLine.several
  cases line.chain with
  | null | single => rfl
  | several names => rfl

/-- The next plugin of a line, where the vector is its own. -/
theorem next_configured {xp : Option PluginId}
    (shape : xp = match line.chain with
      | .null => none
      | .several [] => w.xp
      | .several (_ :: _) => xp
      | .single name => w.xPluginPtr name)
    (table : w.xPluginPtr = instanceOf later) (nameless : line.chain = .several [] → w.xp = none) :
    (if line.several = [] then xp else none) = (line.configured later).xp := by
  unfold XferLine.several XferLine.configured
  cases chain : line.chain with
  | null =>
    rw [chain] at shape
    simp [shape]
  | single name =>
    rw [chain] at shape
    simp [shape, table]
  | several names =>
    cases names with
    | nil =>
      rw [chain] at shape
      simp [shape, nameless chain]
    | cons name rest => simp

/-- The variables behind a line that has found its names. -/
theorem Keeps.construct (keeps : Keeps w later) {next : Option PluginId}
    (own_nil : line.several.filterMap w.xPluginPtr = [] ↔ line.several = []) :
    Keeps (Wiring.construct
      { w with xp := next, xpvec := w.xpvec ++ line.several.filterMap w.xPluginPtr } line)
      (line :: later) where
  count := by simp [Wiring.construct, keeps.count]
  table := by
    funext name
    rw [Wiring.construct, instanceOf]
    by_cases same : name = line.plugin
    · subst same
      simp [keeps.count]
    · simp [Function.update_of_ne same, Ne.symm same, keeps.table]
  vec := by
    show w.xpvec ++ _ = [] ↔ _
    rw [List.append_eq_nil_iff, own_nil, keeps.vec, List.forall_mem_cons, and_comm]
  xp := by simp [Wiring.construct]

/-- A line is wired as its chain says if nothing is left of the lines below it. -/
theorem construct_configured_iff (keeps : Keeps w later)
    (resolvable : ∀ name ∈ line.names, ∃ other ∈ later, other.plugin = name) :
    ∃ w', w.follow line.chain = .ok w' ∧ Keeps (w'.construct line) (line :: later) ∧
      ∃ plugin, (w'.construct line).made = w.made ++ [plugin] ∧
        (plugin = line.configured later ↔ w.xpvec = [] ∧ (line.chain = .several [] → later = [])) := by
  have found : ∀ name ∈ line.names, (w.xPluginPtr name).isSome := by
    intro name member
    rw [keeps.table]
    exact instance_of_isSome_iff.mpr (resolvable name member)
  have own_nil : line.several.filterMap w.xPluginPtr = [] ↔ line.several = [] :=
    filter_map_nil_iff fun name member => found name (several_names name member)
  have more_eq : (line.configured later).more = line.several.filterMap w.xPluginPtr := by
    rw [configured_more, keeps.table]
  obtain ⟨xp, followed, shape⟩ := follow_found w line found
  refine ⟨_, followed, keeps.construct own_nil, _, rfl, ?_⟩
  constructor
  · intro same
    have more := (congrArg XferPlugin.more same).trans more_eq
    have clear : w.xpvec = [] := List.append_left_eq_self.mp more
    refine ⟨clear, fun nameless => ?_⟩
    have unnamed : line.several = [] := by rw [XferLine.several, nameless]
    have given : (if w.xpvec ++ line.several.filterMap w.xPluginPtr = [] then xp else none) = none := by
      refine (congrArg XferPlugin.xp same).trans ?_
      rw [XferLine.configured, nameless]
    rw [if_pos (List.append_eq_nil_iff.mpr ⟨clear, own_nil.mpr unnamed⟩)] at given
    rw [nameless] at shape
    exact keeps.xp.mp (shape.symm.trans given)
  · rintro ⟨clear, nameless⟩
    have given : (if w.xpvec ++ line.several.filterMap w.xPluginPtr = [] then xp else none) =
        (line.configured later).xp := by
      simp only [clear, List.nil_append, own_nil]
      exact next_configured shape keeps.table fun chain => keeps.xp.mpr (nameless chain)
    have more : w.xpvec ++ line.several.filterMap w.xPluginPtr = (line.configured later).more := by
      rw [more_eq, clear, List.nil_append]
    show XferPlugin.mk _ _ _ _ = XferPlugin.mk _ (line.configured later).xp (line.configured later).more _
    rw [XferPlugin.mk.injEq]
    exact ⟨rfl, given, more, rfl⟩

/-- One more line, from the last one up. -/
theorem add_plugin_line (keeps : Keeps w later)
    (resolvable : ∀ name ∈ line.names, ∃ other ∈ later, other.plugin = name)
    (exists_plugin : env.xPluginTab line.plugin = true)
    (configures : env.configure line.plugin line.conf = true) :
    ∃ w', w.addPlugin env line = .ok w' ∧ Keeps w' (line :: later) ∧
      ∃ plugin, w'.made = w.made ++ [plugin] ∧
        (plugin = line.configured later ↔ w.xpvec = [] ∧ (line.chain = .several [] → later = [])) := by
  obtain ⟨w', followed, kept, wired⟩ := construct_configured_iff keeps resolvable
  refine ⟨w'.construct line, ?_, kept, wired⟩
  rw [addPlugin, if_neg (by simp [exists_plugin]), followed]
  simp [bind, Except.bind, configures]

/-! ## The lines -/

/-- The list is taken from its back in threes, a row at a time. -/
theorem add_plugins_rows (rows : List XferLine) (w : Wiring) :
    addPlugins env (rows.flatMap fun row => [row.conf, row.plgList, row.plugin]) w =
      rows.foldlM (addPlugin env) w := by
  induction rows generalizing w with
  | nil => rfl
  | cons row rest ih =>
    rw [List.flatMap_cons, List.foldlM_cons]
    show (w.addPlugin env row >>= _) = _
    exact congrArg _ (funext fun w => ih w)

end Wiring

theorem alone_cons_iff : Alone (line :: later) ↔ Alone later ∧ (∀ other ∈ later, other.several = []) ∧
    (line.chain = .several [] → later = []) := by
  cases later with
  | nil =>
    refine iff_of_true ⟨by simp, by simp⟩ ⟨⟨by simp, by simp⟩, by simp, fun _ => rfl⟩
  | cons next rest =>
    constructor
    · rintro ⟨first, last⟩
      rw [List.dropLast_cons_cons, List.forall_mem_cons] at last
      refine ⟨⟨fun other member => first other (List.mem_cons_of_mem _ member), last.2⟩, first, ?_⟩
      exact fun nameless => absurd nameless last.1
    · rintro ⟨⟨_, last⟩, first, nameless⟩
      refine ⟨first, ?_⟩
      rw [List.dropLast_cons_cons, List.forall_mem_cons]
      exact ⟨fun chain => List.cons_ne_nil _ _ (nameless chain), last⟩

/-- All lines, from the last one up. -/
theorem add_plugins_wired (resolvable : Resolvable lines)
    (exist : ∀ line ∈ lines, env.xPluginTab line.plugin = true)
    (configures : ∀ line ∈ lines, env.configure line.plugin line.conf = true) :
    ∃ w, lines.reverse.foldlM (Wiring.addPlugin env) .start = .ok w ∧ w.Keeps lines ∧
      (w.made = configured lines ↔ Alone lines) := by
  induction lines with
  | nil => exact ⟨.start, rfl, .start, iff_of_true rfl ⟨by simp, by simp⟩⟩
  | cons line later ih =>
    obtain ⟨names, resolvable⟩ := resolvable
    obtain ⟨exists_plugin, exist⟩ := List.forall_mem_cons.mp exist
    obtain ⟨here, configures⟩ := List.forall_mem_cons.mp configures
    obtain ⟨w, ran, keeps, wired⟩ := ih resolvable exist configures
    obtain ⟨w', added, keeps', plugin, made, made_iff⟩ :=
      Wiring.add_plugin_line keeps names exists_plugin here
    refine ⟨w', ?_, keeps', ?_⟩
    · rw [List.reverse_cons, List.foldlM_append, ran]
      show (List.foldlM _ w [line] : Except Stop Wiring) = _
      rw [List.foldlM_cons, added]
      rfl
    · rw [made, configured, List.append_singleton_inj, wired, made_iff, keeps.vec, alone_cons_iff]

/-- **Where the plugins are wired as configured**: no line but the first names plugins in a comma
list, and a list of commas alone stands on the last line. -/
theorem instantiate_plugins_wired_iff (env : PluginEnv) (lines : List (List String))
    (tokens : ∀ av ∈ lines, av ≠ [])
    (exist : ∀ line ∈ lines.map .ofTokens, env.xPluginTab (XferLine.plugin line) = true)
    (configures : ∀ line ∈ lines.map .ofTokens, env.configure (XferLine.plugin line) line.conf = true)
    (resolvable : Resolvable (lines.map .ofTokens)) :
    ∃ w, instantiatePlugins env lines = .ok w ∧
      (w.made = configured (lines.map .ofTokens) ↔ Alone (lines.map .ofTokens)) := by
  obtain ⟨w, ran, _, wired⟩ := add_plugins_wired resolvable exist configures
  refine ⟨w, ?_, wired⟩
  have rows : (parseConfig lines).reverse =
      (lines.map XferLine.ofTokens).reverse.flatMap fun row => [row.conf, row.plgList, row.plugin] := by
    have entries : parseConfig lines =
        (lines.map XferLine.ofTokens).flatMap fun row => [row.plugin, row.plgList, row.conf] := by
      rw [parseConfig, List.flatMap_map]
      exact List.flatMap_congr fun av member => entry_of_tokens (tokens av member)
    rw [entries, List.reverse_flatMap]
    rfl
  rw [instantiatePlugins, rows, Wiring.add_plugins_rows, ran]

/-- A world in which every plugin exists and accepts its parameters. -/
def anyPlugin : PluginEnv where
  xPluginTab := fun _ => true
  configure := fun _ _ => true

/-- A list of two plugins on the first line. -/
theorem first_line_list : ∃ w, instantiatePlugins anyPlugin [["opt", "a,b"], ["a"], ["b"]] = .ok w ∧
    (w.made = configured ([["opt", "a,b"], ["a"], ["b"]].map .ofTokens) ↔
      Alone ([["opt", "a,b"], ["a"], ["b"]].map .ofTokens)) :=
  instantiate_plugins_wired_iff anyPlugin [["opt", "a,b"], ["a"], ["b"]] (by decide)
    (fun _ _ => rfl) (fun _ _ => rfl) ⟨by decide, by decide, by decide, trivial⟩

/-- The same list on the second line: the first line, which is chained to nothing, is given its
plugins. -/
theorem stale_vector_wired : ¬ ∀ (env : PluginEnv) (lines : List (List String)),
    (∀ av ∈ lines, av ≠ []) →
    (∀ line ∈ lines.map .ofTokens, env.xPluginTab (XferLine.plugin line) = true) →
    (∀ line ∈ lines.map .ofTokens, env.configure (XferLine.plugin line) line.conf = true) →
    Resolvable (lines.map .ofTokens) →
    ∃ w, instantiatePlugins env lines = .ok w ∧ w.made = configured (lines.map .ofTokens) := by
  intro always
  obtain ⟨w, ran, wired⟩ := always anyPlugin [["top"], ["opt", "a,b"], ["a"], ["b"]] (by decide)
    (fun _ _ => rfl) (fun _ _ => rfl) ⟨by decide, by decide, by decide, by decide, trivial⟩
  cases ran
  exact absurd wired (by decide)

end Ditto.PluginWiring
