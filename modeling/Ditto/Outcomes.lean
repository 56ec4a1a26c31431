import Mathlib.Logic.Basic

/-! Computations that end in a state or in a fault, and what they guarantee
about either end. The rules follow the computation: a sequence needs its second
half only where the first half ends, and a loop needs one statement about its
body. -/
namespace Ditto.Outcomes

universe u v w

variable {σ τ : Type u} {ε : Type v} {ι : Type w} {post stronger : σ → Prop} {fault : ε → Prop}

/-- The computation ends in a state of `post` or in a fault of `fault`. -/
def Ends (post : σ → Prop) (fault : ε → Prop) : Except ε σ → Prop
  | .ok state => post state
  | .error reason => fault reason

@[simp] theorem ends_ok {state : σ} : Ends post fault (.ok state) ↔ post state := Iff.rfl

@[simp] theorem ends_error {reason : ε} : Ends post fault (.error reason) ↔ fault reason := Iff.rfl

theorem Ends.of_ok {result : Except ε σ} {state : σ} (ends : Ends post fault result)
    (ran : result = .ok state) : post state := by
  subst ran
  exact ends

theorem Ends.of_error {result : Except ε σ} {reason : ε} (ends : Ends post fault result)
    (failed : result = .error reason) : fault reason := by
  subst failed
  exact ends

theorem ok_of_to_option {result : Except ε σ} {state : σ} (ran : result.toOption = some state) :
    result = .ok state := by
  cases result with
  | ok state' =>
    cases ran
    rfl
  | error reason => cases ran

theorem Ends.imp {result : Except ε σ} (ends : Ends stronger fault result)
    (implied : ∀ state, stronger state → post state) : Ends post fault result := by
  cases result with
  | ok state => exact implied state ends
  | error reason => exact ends

theorem Ends.imp_fault {rare : ε → Prop} {result : Except ε σ} (ends : Ends post rare result)
    (implied : ∀ reason, rare reason → fault reason) : Ends post fault result := by
  cases result with
  | ok state => exact ends
  | error reason => exact implied reason ends

theorem Ends.and {result : Except ε σ} (first : Ends post fault result)
    (second : Ends stronger fault result) :
    Ends (fun state => post state ∧ stronger state) fault result := by
  cases result with
  | ok state => exact ⟨first, second⟩
  | error reason => exact first

/-- What is known of the end in a state and what is known of the end in a fault. -/
theorem Ends.meet {result : Except ε σ} (state : Ends post (fun _ => True) result)
    (reason : Ends (fun _ => True) fault result) : Ends post fault result := by
  cases result with
  | ok state' => exact state
  | error reason' => exact reason

/-- What else is known of the end in a state, whatever the faults. -/
theorem Ends.also {result : Except ε σ} (state : Ends post (fun _ => True) result) (ends : Ends stronger fault result) :
    Ends (fun state => post state ∧ stronger state) fault result := by
  cases result with
  | ok state' => exact ⟨state, ends⟩
  | error reason => exact ends

/-- What is known of the end in a state for each of a family of statements. -/
theorem ends_forall {result : Except ε σ} {each : ι → σ → Prop}
    (ends : ∀ i, Ends (each i) (fun _ => True) result) :
    Ends (fun state => ∀ i, each i state) (fun _ => True) result := by
  cases result with
  | ok state => exact ends
  | error reason => trivial

/-- No fault at all. -/
def Never (_ : ε) : Prop := False

theorem Ends.of_never {result : Except ε σ} (ends : Ends post Never result) :
    ∃ state, result = .ok state ∧ post state := by
  cases result with
  | ok state => exact ⟨state, rfl, ends⟩
  | error reason => cases ends

/-- The computation ends in a state just if the condition holds. -/
def EndsIff (condition : Prop) (result : Except ε σ) : Prop :=
  Ends (fun _ => condition) (fun _ => ¬ condition) result

theorem EndsIff.congr {first second : Prop} {result : Except ε σ} (ends : EndsIff first result)
    (same : first ↔ second) : EndsIff second result := by
  cases result with
  | ok state => exact same.mp ends
  | error reason => exact fun holds => ends (same.mpr holds)

theorem EndsIff.holds {condition : Prop} {result : Except ε σ} (ends : EndsIff condition result)
    (holds : condition) : Ends (fun _ => True) Never result := by
  cases result with
  | ok state => trivial
  | error reason => exact ends holds

/-- A computation that ends without a fault. -/
theorem ends_iff_of {condition : Prop} {result : Except ε σ} (ends : Ends (fun _ => True) Never result)
    (holds : condition) : EndsIff condition result := by
  cases result with
  | ok state => exact holds
  | error reason => cases ends

/-- What comes before does not fail. -/
theorem ends_iff_bind {condition : Prop} {result : Except ε τ} {next : τ → Except ε σ} {between : τ → Prop}
    (first : Ends between Never result) (second : ∀ value, between value → EndsIff condition (next value)) :
    EndsIff condition (result >>= next) := by
  cases result with
  | ok value => exact second value first
  | error reason => cases first

/-- What follows does not fail. -/
theorem EndsIff.bind {condition : Prop} {result : Except ε τ} {next : τ → Except ε σ} (first : EndsIff condition result)
    (second : ∀ value, Ends (fun _ => True) Never (next value)) : EndsIff condition (result >>= next) := by
  cases result with
  | ok value => exact ends_iff_of (second value) first
  | error reason => exact first

/-- A sequence of two computations. -/
theorem Ends.bind {result : Except ε τ} {next : τ → Except ε σ} {between : τ → Prop}
    (first : Ends between fault result)
    (second : ∀ value, between value → Ends post fault (next value)) :
    Ends post fault (result >>= next) := by
  cases result with
  | ok value => exact second value first
  | error reason => exact first

/-- A loop over a list keeps what its body keeps. -/
theorem ends_foldlM {body : σ → ι → Except ε σ} {items : List ι} {start : σ}
    (each : ∀ state item, item ∈ items → post state → Ends post fault (body state item))
    (initial : post start) : Ends post fault (items.foldlM body start) := by
  induction items generalizing start with
  | nil => exact initial
  | cons item rest ih =>
    rw [List.foldlM_cons]
    refine Ends.bind (each start item (List.mem_cons_self ..) initial) fun state kept => ?_
    exact ih (fun s i member => each s i (List.mem_cons_of_mem _ member)) kept

end Ditto.Outcomes
