import Mathlib.Data.Nat.Notation
import Mathlib.Logic.Relation

/-! Runs of a partial deterministic step function. A guard says which events
may occur in which states, so the same machine can be run under different
assumptions about its environment, and a stronger guard reaches fewer states. -/
namespace Ditto.Runs

variable {σ ε : Type*} {step : σ → ε → Option σ} {guard strong : σ → ε → Prop}

/-- One step on an event the guard admits. -/
def Step (step : σ → ε → Option σ) (guard : σ → ε → Prop) (before after : σ) : Prop :=
  ∃ event, guard before event ∧ step before event = some after

/-- Some run of admitted events leads from one state to the other. -/
def Reaches (step : σ → ε → Option σ) (guard : σ → ε → Prop) : σ → σ → Prop :=
  Relation.ReflTransGen (Step step guard)

theorem Reaches.refl {start : σ} : Reaches step guard start start :=
  Relation.ReflTransGen.refl

theorem Reaches.snoc {start middle last : σ} (run : Reaches step guard start middle)
    (event : ε) (admitted : guard middle event) (ran : step middle event = some last) :
    Reaches step guard start last :=
  Relation.ReflTransGen.tail run ⟨event, admitted, ran⟩

/-- A list of events each of which is admitted where it comes is a run. -/
theorem reaches_of_places {events : List ε} {start last : σ} (admitted : ∀ (n : ℕ) (event : ε), events[n]? = some event →
      ∀ state, (events.take n).foldlM step start = some state → guard state event)
    (ran : events.foldlM step start = some last) : Reaches step guard start last := by
  induction events generalizing start with
  | nil =>
    cases ran
    exact .refl
  | cons event rest ih =>
    rw [List.foldlM_cons] at ran
    obtain ⟨middle, taken, ran⟩ := Option.bind_eq_some_iff.mp ran
    refine Relation.ReflTransGen.head ⟨event, admitted 0 event rfl start rfl, taken⟩
      (ih (fun n other place state walked => ?_) ran)
    apply admitted (n + 1) other place
    rw [List.take_succ_cons, List.foldlM_cons, taken]
    exact walked

/-- What holds at the start and survives every admitted step holds throughout. -/
theorem invariant {Inv : σ → Prop} {start last : σ} (initial : Inv start)
    (preserved : ∀ before event after, Inv before → guard before event →
      step before event = some after → Inv after)
    (run : Reaches step guard start last) : Inv last := by
  induction run with
  | refl => exact initial
  | tail _ taken ih =>
    obtain ⟨event, admitted, ran⟩ := taken
    exact preserved _ event _ ih admitted ran

/-- What holds at the start of a list of steps and survives each holds at its end. -/
theorem kept_of_foldlM {Inv : σ → Prop} {events : List ε} {start last : σ} (initial : Inv start)
    (preserved : ∀ before event after, event ∈ events → Inv before →
      step before event = some after → Inv after)
    (ran : events.foldlM step start = some last) : Inv last := by
  induction events generalizing start with
  | nil =>
    cases ran
    exact initial
  | cons event rest ih =>
    rw [List.foldlM_cons] at ran
    obtain ⟨middle, taken, ran⟩ := Option.bind_eq_some_iff.mp ran
    have kept := preserved start event middle (List.mem_cons_self ..) initial taken
    exact ih kept (fun before later after member =>
      preserved before later after (List.mem_cons_of_mem _ member)) ran

/-- A run under a guard is a run under every weaker guard. -/
theorem Reaches.weaken {start last : σ} (implied : ∀ s e, strong s e → guard s e)
    (run : Reaches step strong start last) : Reaches step guard start last := by
  induction run with
  | refl => exact .refl
  | tail _ taken ih =>
    obtain ⟨event, admitted, ran⟩ := taken
    exact ih.snoc event (implied _ event admitted) ran

/-- A list of steps none of which fails goes from one state to the next. -/
theorem step_of_walk {events : List ε} {start : σ} (fine : (events.foldlM step start).isSome) (n : ℕ) (event : ε)
    (place : events[n]? = some event) :
    step ((events.take n).foldl (fun s e => (step s e).getD s) start) event =
      some ((events.take (n + 1)).foldl (fun s e => (step s e).getD s) start) := by
  induction events generalizing start n with
  | nil => cases place
  | cons first rest ih =>
    rw [List.foldlM_cons] at fine
    obtain ⟨next, taken⟩ : ∃ next, step start first = some next := by
      cases taken : step start first with
      | none =>
        rw [taken] at fine
        cases fine
      | some next => exact ⟨next, rfl⟩
    rw [taken] at fine
    cases n with
    | zero =>
      cases place
      simp [taken]
    | succ n =>
      rw [List.take_succ_cons, List.take_succ_cons, List.foldl_cons, List.foldl_cons, taken]
      exact ih fine n place

/-! ## What holds of every step -/

/-- Every step of a run on a list of events has the property. -/
def Always (step : σ → ε → Option σ) (good : σ → ε → σ → Prop) : σ → List ε → Prop
  | _, [] => True
  | before, event :: rest => ∀ after, step before event = some after →
      good before event after ∧ Always step good after rest

/-- On a run whose states are known, step by step. -/
theorem always_chain {good : σ → ε → σ → Prop} {events : List ε} {states : ℕ → σ}
    (ran : ∀ n event, events[n]? = some event → step (states n) event = some (states (n + 1))) :
    Always step good (states 0) events ↔
      ∀ n event, events[n]? = some event → good (states n) event (states (n + 1)) := by
  induction events generalizing states with
  | nil => exact ⟨fun _ _ _ place => (by cases place), fun _ => True.intro⟩
  | cons event rest ih =>
    have first := ran 0 event rfl
    have later := @ih (fun n => states (n + 1)) fun n => ran (n + 1)
    constructor
    · intro always n event' place
      obtain ⟨here, rest⟩ := always _ first
      cases n with
      | zero =>
        cases place
        exact here
      | succ n => exact later.mp rest n event' place
    · intro each after ran'
      cases first.symm.trans ran'
      exact ⟨each 0 event rfl, later.mpr fun n => each (n + 1)⟩

theorem Always.trivial {start : σ} {events : List ε} : Always step (fun _ _ _ => True) start events := by
  induction events generalizing start with
  | nil => exact True.intro
  | cons event rest ih => exact fun after _ => ⟨True.intro, ih⟩

/-- What holds of each event wherever it occurs holds of every step. -/
theorem always_of_forall {good : σ → ε → σ → Prop} {start : σ} {events : List ε}
    (each : ∀ event ∈ events, ∀ before after, good before event after) : Always step good start events := by
  induction events generalizing start with
  | nil => exact True.intro
  | cons event rest ih =>
    obtain ⟨head, tail⟩ := List.forall_mem_cons.mp each
    exact fun after _ => ⟨head start after, ih tail⟩

/-- Steps that never fail make runs that never fail. -/
theorem run_total (total : ∀ before event, ∃ after, step before event = some after) (start : σ)
    (events : List ε) : ∃ last, events.foldlM step start = some last := by
  induction events generalizing start with
  | nil => exact ⟨start, rfl⟩
  | cons event rest ih =>
    obtain ⟨after, ran⟩ := total start event
    obtain ⟨last, walked⟩ := ih after
    refine ⟨last, ?_⟩
    rw [List.foldlM_cons, ran]
    exact walked

/-- What every step has, it has a fortiori in a weaker form. -/
theorem Always.imp {good weaker : σ → ε → σ → Prop} {start : σ} {events : List ε}
    (always : Always step good start events)
    (implied : ∀ before event after, good before event after → weaker before event after) :
    Always step weaker start events := by
  induction events generalizing start with
  | nil => exact True.intro
  | cons event rest ih =>
    intro after ran
    obtain ⟨here, later⟩ := always after ran
    exact ⟨implied start event after here, ih later⟩

/-- A property that holds of a step exactly when a guard admits it, in the states of an
invariant that admitted steps keep, holds of every step of a run exactly when the guard
admits them all. -/
theorem always_iff {Inv : σ → Prop} {good : σ → ε → σ → Prop} {assumed : σ → ε → Prop} {start : σ}
    {events : List ε} (initial : Inv start)
    (exact : ∀ before event after, Inv before → assumed before event → step before event = some after →
      (good before event after ↔ guard before event))
    (kept : ∀ before event after, Inv before → assumed before event → guard before event →
      step before event = some after → Inv after)
    (within : Always step (fun before event _ => assumed before event) start events) :
    Always step good start events ↔ Always step (fun before event _ => guard before event) start events := by
  induction events generalizing start with
  | nil => exact Iff.rfl
  | cons event rest ih =>
    apply forall₂_congr
    intro after ran
    obtain ⟨admitted, within⟩ := within after ran
    rw [exact start event after initial admitted ran]
    refine and_congr_right fun guarded => ?_
    exact ih (kept start event after initial admitted guarded ran) within

/-! ## What events meet -/

/-- Every event of a run, the last one also if it stops the machine, finds a state
that is fit for it. -/
def Meets (step : σ → ε → Option σ) (fit : σ → ε → Prop) : σ → List ε → Prop
  | _, [] => True
  | before, event :: rest =>
    fit before event ∧ ∀ after, step before event = some after → Meets step fit after rest

/-- A run in which every event is admitted is one in which every event finds a fit state,
when being admitted is what makes the state fit. -/
theorem meets_iff {fit : σ → ε → Prop} {start : σ} {events : List ε}
    (exact : ∀ before event, fit before event ↔ guard before event) :
    Meets step fit start events ↔ Meets step guard start events := by
  induction events generalizing start with
  | nil => exact Iff.rfl
  | cons event rest ih => exact and_congr (exact start event) (forall₂_congr fun after _ => ih)

/-! ## Runs side by side -/

section Alike
variable {α β γ δ : Type*} {related related' : α → β → Prop} {afterwards : γ → δ → Prop}

/-- Two computations that both fail, or come to related results, go on alike. -/
theorem rel_bind {x : Option α} {y : Option β} {f : α → Option γ} {g : β → Option δ} (first : Option.Rel related x y)
    (next : ∀ a b, related a b → Option.Rel afterwards (f a) (g b)) : Option.Rel afterwards (x.bind f) (y.bind g) := by
  cases first with
  | some alike => exact next _ _ alike
  | none => exact .none

theorem rel_mono {x : Option α} {y : Option β} (weaker : ∀ a b, related a b → related' a b)
    (first : Option.Rel related x y) :
    Option.Rel related' x y := by
  cases first with
  | some alike => exact .some (weaker _ _ alike)
  | none => exact .none

/-- Steps that keep states related lead to related states, or both fail. -/
theorem rel_foldlM {ι : Type*} {f : α → ι → Option α} {g : β → ι → Option β} (events : List ι)
    (next : ∀ event ∈ events, ∀ a b, related a b → Option.Rel related (f a event) (g b event))
    {a : α} {b : β} (alike : related a b) :
    Option.Rel related (events.foldlM f a) (events.foldlM g b) := by
  induction events generalizing a b with
  | nil => exact .some alike
  | cons event rest ih =>
    rw [List.foldlM_cons, List.foldlM_cons]
    exact rel_bind (next event List.mem_cons_self a b alike) fun a b alike =>
      ih (fun other member => next other (List.mem_cons_of_mem event member)) alike

end Alike

end Ditto.Runs
