import Mathlib.Data.Set.Insert
import Mathlib.Logic.Function.Basic
import Mathlib.Logic.Relation

/-! Hosts that hold values under keys and pass them on. A host comes to hold a value because
it is given it or because a host that held it has passed it on, and it may forget what it
holds. So every value was given to some host, and where values under one key are one, the
hosts agree. -/
namespace Ditto.Replication

universe u v w

variable {Host : Type u} {Key : Type v} {Value : Type w}

/-- What each host holds, and the values that were passed on. -/
structure World (Host : Type u) (Key : Type v) (Value : Type w) where
  holds : Host → Key → Option Value
  passed : Set (Key × Value)

variable [DecidableEq Host] [DecidableEq Key] {given more : Host → Key → Value → Prop}
  {before middle after : World Host Key Value} {host : Host} {key : Key} {value : Value}

/-- A host holds something else, or nothing, under a key. -/
def World.set (before : World Host Key Value) (host : Host) (key : Key) (found : Option Value) :
    World Host Key Value :=
  { before with holds := Function.update before.holds host (Function.update (before.holds host) key found) }

/-- A host that holds nothing under a key comes to hold what it is given or what was passed
on; a host passes on what it holds; and a host forgets. -/
inductive Step (given : Host → Key → Value → Prop) (before : World Host Key Value) : World Host Key Value → Prop
  | originate {host : Host} {key : Key} {value : Value} (absent : before.holds host key = none)
      (offered : given host key value) : Step given before (before.set host key (some value))
  | receive {host : Host} {key : Key} {value : Value} (absent : before.holds host key = none)
      (arrived : (key, value) ∈ before.passed) : Step given before (before.set host key (some value))
  | pass {host : Host} {key : Key} {value : Value} (held : before.holds host key = some value) :
      Step given before { before with passed := insert (key, value) before.passed }
  | forget (host : Host) (key : Key) : Step given before (before.set host key none)

/-- Any number of such steps. -/
def Copies (given : Host → Key → Value → Prop) : World Host Key Value → World Host Key Value → Prop :=
  Relation.ReflTransGen (Step given)

theorem Copies.refl : Copies given before before :=
  Relation.ReflTransGen.refl

theorem Copies.trans (first : Copies given before middle) (second : Copies given middle after) :
    Copies given before after :=
  Relation.ReflTransGen.trans first second

theorem Copies.mono (copies : Copies given before after)
    (implied : ∀ host key value, given host key value → more host key value) : Copies more before after := by
  refine Relation.ReflTransGen.mono (fun world next step => ?_) _ _ copies
  cases step with
  | originate absent offered => exact .originate absent (implied _ _ _ offered)
  | receive absent arrived => exact .receive absent arrived
  | pass held => exact .pass held
  | forget host key => exact .forget host key

/-- What a host holds after that is new or was held before. -/
theorem set_some {found : Option Value} {other : Host} {other_key : Key}
    (held : (before.set host key found).holds other other_key = some value) :
    (other = host ∧ other_key = key ∧ found = some value) ∨ before.holds other other_key = some value := by
  unfold World.set at held
  dsimp only at held
  by_cases same : other = host
  · subst same
    rw [Function.update_self] at held
    by_cases same_key : other_key = key
    · rw [same_key, Function.update_self] at held
      exact .inl ⟨rfl, same_key, held⟩
    · rw [Function.update_of_ne same_key] at held
      exact .inr held
  · rw [Function.update_of_ne same] at held
    exact .inr held

/-- Every value that is held or was passed on is of one kind. -/
structure World.Each (kind : Key → Value → Prop) (world : World Host Key Value) : Prop where
  held : ∀ host key value, world.holds host key = some value → kind key value
  passed : ∀ entry ∈ world.passed, kind entry.1 entry.2

theorem World.Each.set {kind : Key → Value → Prop} {found : Option Value} (each : before.Each kind)
    (new : ∀ value, found = some value → kind key value) : (before.set host key found).Each kind where
  held := by
    intro other other_key value held
    rcases set_some held with ⟨rfl, rfl, rfl⟩ | old
    · exact new value rfl
    · exact each.held other other_key value old
  passed := each.passed

/-- Values stay of one kind if those that are given are. -/
theorem Copies.each {kind : Key → Value → Prop} (copies : Copies given before after)
    (offered : ∀ host key value, given host key value → kind key value) (each : before.Each kind) :
    after.Each kind := by
  induction copies with
  | refl => exact each
  | tail _ step ih =>
    cases step with
    | originate _ given_here =>
      apply ih.set
      rintro _ ⟨⟩
      exact offered _ _ _ given_here
    | receive _ arrived =>
      apply ih.set
      rintro _ ⟨⟩
      exact ih.passed _ arrived
    | pass held =>
      refine ⟨ih.held, ?_⟩
      rintro entry (rfl | old)
      · exact ih.held _ _ _ held
      · exact ih.passed entry old
    | forget host key =>
      apply ih.set
      rintro _ ⟨⟩

/-- **Hosts agree**, where what is held at the start and what is given is one value for each
key. -/
theorem Copies.agree {one : Key → Value → Prop} (copies : Copies given before after) (fresh : before.passed = ∅)
    (unique : ∀ key value other, one key value → one key other → value = other)
    (initial : ∀ host key value, before.holds host key = some value → one key value)
    (offered : ∀ host key value, given host key value → one key value) {other : Host} {found : Value}
    (held : after.holds host key = some value) (held' : after.holds other key = some found) : value = found := by
  have each : after.Each one := by
    refine copies.each offered ⟨initial, fun entry member => ?_⟩
    rw [fresh] at member
    exact member.elim
  exact unique key value found (each.held host key value held) (each.held other key found held')

/-- A value that is put at a host stays out where the host holds another one. -/
def put (before : World Host Key Value) (host : Host) (key : Key) (value : Value) : World Host Key Value :=
  if (before.holds host key).isSome then before else before.set host key (some value)

theorem passed_put (before : World Host Key Value) (host : Host) (key : Key) (value : Value) :
    (put before host key value).passed = before.passed := by
  unfold put
  split <;> rfl

/-- Values that are given to a host, or that were passed on, are put at it one after the
other. -/
theorem copies_puts {entries : List (Key × Value)}
    (each : ∀ entry ∈ entries, given host entry.1 entry.2 ∨ entry ∈ before.passed) :
    Copies given before (entries.foldl (fun world entry => put world host entry.1 entry.2) before) := by
  induction entries generalizing before with
  | nil => exact .refl
  | cons entry rest ih =>
    obtain ⟨first, others⟩ := List.forall_mem_cons.mp each
    have here : Copies given before (put before host entry.1 entry.2) := by
      unfold put
      split
      · exact .refl
      next free =>
        have absent := Option.not_isSome_iff_eq_none.mp free
        obtain offered | arrived := first
        · exact .single (.originate absent offered)
        · exact .single (.receive absent arrived)
    refine here.trans (ih fun other member => ?_)
    rw [passed_put]
    exact others other member

end Ditto.Replication
