import Mathlib.Data.List.Forall2
import Mathlib.Data.Option.Basic

/-! Computations that log what they do and may fail. What was logged before a
failure stays in the log. One rule for each way of reasoning about a sequence of
two: what holds of every entry, what exactly was logged, what holds of the result and
the whole log, and how two computations match each other step by step. -/
namespace Ditto.Traces

/-- A log, and a result unless the computation failed. -/
structure Traced (γ α : Type) where
  calls : List γ
  result : Option α

namespace Traced

variable {γ δ α β α' β' : Type} {x : Traced γ α} {f : α → Traced γ β} {a : α} {b : β}

/-- A computation that logs nothing. -/
def lift (value : Option α) : Traced γ α := ⟨[], value⟩

/-- A computation that only logs. -/
def note (call : γ) : Traced γ Unit := ⟨[call], some ()⟩

/-- The second computation runs if the first has a result. -/
def andThen (x : Traced γ α) (f : α → Traced γ β) : Traced γ β :=
  match x.result with
  | none => ⟨x.calls, none⟩
  | some a => ⟨x.calls ++ (f a).calls, (f a).result⟩

instance : Monad (Traced γ) where
  pure a := ⟨[], some a⟩
  bind := andThen

@[simp] theorem calls_lift (value : Option α) : (lift value : Traced γ α).calls = [] := rfl
@[simp] theorem result_lift (value : Option α) : (lift value : Traced γ α).result = value := rfl
@[simp] theorem calls_note (call : γ) : (note call).calls = [call] := rfl
@[simp] theorem result_note (call : γ) : (note call).result = some () := rfl
@[simp] theorem calls_pure (a : α) : (pure a : Traced γ α).calls = [] := rfl
@[simp] theorem result_pure (a : α) : (pure a : Traced γ α).result = some a := rfl

@[simp] theorem result_bind (x : Traced γ α) (f : α → Traced γ β) :
    (x >>= f).result = x.result.bind fun a => (f a).result := by
  show (andThen x f).result = _
  cases shape : x.result <;> simp [andThen, shape]

theorem calls_bind (x : Traced γ α) (f : α → Traced γ β) :
    (x >>= f).calls = x.calls ++ (x.result.elim [] fun a => (f a).calls) := by
  show (andThen x f).calls = _
  cases shape : x.result <;> simp [andThen, shape]

theorem ext_of {x y : Traced γ α} (calls : x.calls = y.calls) (result : x.result = y.result) : x = y := by
  cases x
  cases y
  simp_all

instance : LawfulMonad (Traced γ) := by
  refine LawfulMonad.mk' (Traced γ) (fun x => ?_) (fun a f => ?_) (fun x f g => ?_)
  · show andThen x (fun a => pure (id a)) = x
    apply ext_of <;> cases shape : x.result <;> simp [andThen, shape]
  · apply ext_of <;> simp [calls_bind]
  · apply ext_of
    · cases shape : x.result <;> simp [calls_bind, shape]
    · cases shape : x.result <;> simp [shape]

theorem lift_some_bind (a : α) (f : α → Traced γ β) : lift (some a) >>= f = f a := by
  apply ext_of <;> simp [calls_bind]

theorem lift_none_bind (f : α → Traced γ β) : lift none >>= f = lift none := by
  apply ext_of <;> simp [calls_bind]

/-- A sequence has a result when both parts do. -/
theorem bind_eq_some : (x >>= f).result = some b ↔
    ∃ a, x.result = some a ∧ (f a).result = some b := by
  rw [result_bind, Option.bind_eq_some_iff]

@[simp] theorem result_map (h : α → β) (x : Traced γ α) : (h <$> x).result = x.result.map h := by
  rw [← bind_pure_comp, result_bind]
  cases x.result <;> rfl

@[simp] theorem calls_map (h : α → β) (x : Traced γ α) : (h <$> x).calls = x.calls := by
  rw [← bind_pure_comp, calls_bind]
  cases x.result <;> simp

theorem map_eq_some {h : α → β} : (h <$> x).result = some b ↔ ∃ a, x.result = some a ∧ h a = b := by
  rw [result_map, Option.map_eq_some_iff]

theorem calls_bind_some (ran : x.result = some a) : (x >>= f).calls = x.calls ++ (f a).calls := by
  rw [calls_bind, ran]
  rfl

/-! ## What holds of every entry -/

/-- Every entry of the log has the property. -/
def Logs (entry : γ → Prop) (x : Traced γ α) : Prop := ∀ call ∈ x.calls, entry call

variable {entry : γ → Prop}

theorem logs_pure (a : α) : Logs entry (pure a : Traced γ α) := by
  simp [Logs]

theorem logs_note {call : γ} (holds : entry call) : Logs entry (note call) := by
  simpa [Logs] using holds

theorem logs_lift (value : Option α) : Logs entry (lift value : Traced γ α) := by
  simp [Logs]

theorem Logs.bind (first : Logs entry x)
    (second : ∀ a, x.result = some a → Logs entry (f a)) : Logs entry (x >>= f) := by
  intro call member
  rw [calls_bind, List.mem_append] at member
  rcases member with before | after
  · exact first call before
  · cases shape : x.result with
    | none => simp [shape] at after
    | some a =>
      rw [shape] at after
      exact second a shape call after

theorem Logs.map {h : α → β} (first : Logs entry x) : Logs entry (h <$> x) := by
  rw [Logs, calls_map]
  exact first

/-! ## What exactly was logged -/

/-- The computation has exactly this log and this result. -/
def Yields (x : Traced γ α) (calls : List γ) (a : α) : Prop := x = ⟨calls, some a⟩

theorem Yields.bind {calls after : List γ} (first : Yields x calls a) (second : Yields (f a) after b) :
    Yields (x >>= f) (calls ++ after) b := by
  show andThen x f = _
  rw [andThen, first]
  dsimp only
  rw [second]

theorem Yields.result {calls : List γ} (yielded : Yields x calls a) : x.result = some a := by
  rw [yielded]

theorem Yields.calls {calls : List γ} (yielded : Yields x calls a) : x.calls = calls := by
  rw [yielded]

/-! ## What holds of the result and the whole log -/

/-- After what is logged already, the computation fails or ends like this. -/
def Leads (told : List γ) (x : Traced γ α) (post : List γ → α → Prop) : Prop :=
  ∀ a, x.result = some a → post (told ++ x.calls) a

variable {told : List γ} {mid : List γ → α → Prop} {post : List γ → β → Prop}

theorem leads_pure (holds : mid told a) : Leads told (pure a) mid := by
  rintro _ ⟨⟩
  rwa [calls_pure, List.append_nil]

theorem leads_lift {value : Option α} (holds : ∀ a, value = some a → mid told a) : Leads told (lift value) mid := by
  intro a ran
  rw [calls_lift, List.append_nil]
  exact holds a ran

theorem leads_note {call : γ} {mid : List γ → Unit → Prop} (holds : mid (told ++ [call]) ()) :
    Leads told (note call) mid := fun _ _ => holds

theorem Leads.bind (first : Leads told x mid) (second : ∀ told a, mid told a → Leads told (f a) post) :
    Leads told (x >>= f) post := by
  intro b ran
  obtain ⟨a, begun, ran⟩ := bind_eq_some.mp ran
  rw [calls_bind_some begun, ← List.append_assoc]
  exact second _ a (first a begun) b ran

theorem Leads.imp {weaker : List γ → α → Prop} (leads : Leads told x mid)
    (implied : ∀ told a, mid told a → weaker told a) : Leads told x weaker := fun a ran =>
  implied _ a (leads a ran)

/-! ## How two computations match -/

/-- Two computations match when their logs do entry by entry, and both fail or both
have results that match. -/
structure Matches (same : γ → δ → Prop) (rel : α → α' → Prop) (x : Traced γ α) (y : Traced δ α') :
    Prop where
  calls : List.Forall₂ same x.calls y.calls
  result : Option.Rel rel x.result y.result

variable {same : γ → δ → Prop} {rel : α → α' → Prop} {next : β → β' → Prop} {y : Traced δ α'}
  {g : α' → Traced δ β'}

/-- A computation matches itself. -/
theorem Matches.refl {same : γ → γ → Prop} {rel : α → α → Prop} (calls : ∀ call, same call call)
    (results : ∀ a, rel a a) : Matches same rel x x := by
  refine ⟨?_, ?_⟩
  · exact List.forall₂_same.mpr fun call _ => calls call
  · cases x.result with
    | none => exact .none
    | some a => exact .some (results a)

theorem Matches.pure {a : α} {a' : α'} (related : rel a a') :
    Matches same rel (pure a : Traced γ α) (pure a' : Traced δ α') :=
  ⟨.nil, .some related⟩

theorem Matches.note {call : γ} {call' : δ} {rel : Unit → Unit → Prop} (matched : same call call')
    (related : rel () ()) : Matches same rel (Traced.note call) (Traced.note call') :=
  ⟨.cons matched .nil, .some related⟩

theorem Matches.lift {value : Option α} {value' : Option α'} (related : Option.Rel rel value value') :
    Matches same rel (Traced.lift value : Traced γ α) (Traced.lift value' : Traced δ α') :=
  ⟨.nil, related⟩

theorem Matches.bind (first : Matches same rel x y)
    (second : ∀ a a', x.result = some a → rel a a' → Matches same next (f a) (g a')) :
    Matches same next (x >>= f) (y >>= g) := by
  obtain ⟨calls, result⟩ := first
  cases shape : x.result with
  | none =>
    rw [shape] at result
    cases shape' : y.result with
    | none => exact ⟨by simpa [calls_bind, shape, shape'] using calls, by simp [shape, shape']⟩
    | some a' => rw [shape'] at result; cases result
  | some a =>
    rw [shape] at result
    cases shape' : y.result with
    | none => rw [shape'] at result; cases result
    | some a' =>
      rw [shape'] at result
      cases result with
      | some related =>
        have rest := second a a' shape related
        refine ⟨?_, by simpa [shape, shape'] using rest.result⟩
        rw [calls_bind_some shape, calls_bind_some shape']
        exact List.rel_append calls rest.calls

theorem Matches.map {h : α → β} {h' : α' → β'} (first : Matches same rel x y)
    (related : ∀ a a', rel a a' → next (h a) (h' a')) : Matches same next (h <$> x) (h' <$> y) := by
  rw [← bind_pure_comp, ← bind_pure_comp]
  exact first.bind fun a a' _ matched => .pure (related a a' matched)

end Traced
end Ditto.Traces
