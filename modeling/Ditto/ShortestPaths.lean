import Mathlib.Order.Monotone.Basic
import Mathlib.Data.Set.Insert
import Mathlib.Data.List.Nodup
import Mathlib.Logic.Function.Basic
import Mathlib.Combinatorics.SimpleGraph.Acyclic

/-! Least costs in a network whose links each turn the cost so far into a cost, and grow it.
Labels are settled in the order of their costs; a label knows the link that it came by, so the
labels are also a tree. Costs need not be numbers and sums need not be exact: all that is used is
that a link keeps the order of costs and does not lower them. -/
namespace Ditto.ShortestPaths

/-- Links between places, and what the way along a link makes of a cost. -/
structure Network (V E C : Type) [LinearOrder C] where
  leaves : V → E → Prop
  target : E → V
  along : E → C → C
  grows : ∀ {u e}, leaves u e → ∀ c, c ≤ along e c
  keeps : ∀ {u e}, leaves u e → Monotone (along e)

variable {V E C : Type} [LinearOrder C] {net : Network V E C} {start : V} {zero limit : C}

/-- The places of a way from the start, the place where it ends and what it costs. -/
inductive Route (net : Network V E C) (start : V) (zero : C) : List V → V → C → Prop where
  | here : Route net start zero [start] start zero
  | on {way : List V} {u : V} {c : C} {e : E} (before : Route net start zero way u c) (link : net.leaves u e) :
      Route net start zero (way ++ [net.target e]) (net.target e) (net.along e c)

/-- What is known of the places: their costs so far, which are settled, and the links they came by. -/
structure Labels (V E C : Type) where
  cost : V → C
  settled : Set V
  into : V → Option (V × E)

/-- The way that the labels lead back. -/
inductive Trace (into : V → Option (V × E)) (start : V) : List V → V → Prop where
  | here (first : into start = none) : Trace into start [start] start
  | on {way : List V} {u v : V} {e : E} (before : Trace into start way u) (link : into v = some (u, e)) :
      Trace into start (way ++ [v]) v

/-- A place is settled. -/
def Labels.settle (lab : Labels V E C) (u : V) : Labels V E C := { lab with settled := insert u lab.settled }

/-- A place is reached along a link. -/
def Labels.reach [DecidableEq V] (net : Network V E C) (lab : Labels V E C) (u : V) (e : E) : Labels V E C :=
  { lab with
    cost := Function.update lab.cost (net.target e) (net.along e (lab.cost u))
    into := Function.update lab.into (net.target e) (some (u, e)) }

open Classical in
/-- A link is tried. -/
noncomputable def Labels.relax [DecidableEq V] (net : Network V E C) (lab : Labels V E C) (u : V)
    (e : E) : Labels V E C :=
  if net.target e ∉ lab.settled ∧ net.along e (lab.cost u) < lab.cost (net.target e) then lab.reach net u e else lab

/-- What holds of labels while they are settled; the links that `waits` has are not tried yet. -/
structure Sound (net : Network V E C) (start : V) (zero limit : C) (waits : V → E → Prop)
    (lab : Labels V E C) : Prop where
  origin : lab.cost start = zero
  bounded : ∀ v, lab.cost v ≤ limit
  below : ∀ {u v}, u ∈ lab.settled → v ∉ lab.settled → lab.cost u ≤ lab.cost v
  known : ∀ {u}, u ∈ lab.settled → lab.cost u < limit
  tried : ∀ {u e}, u ∈ lab.settled → net.leaves u e → ¬ waits u e → lab.cost (net.target e) ≤ net.along e (lab.cost u)
  came : ∀ {v}, lab.cost v < limit → v = start ∧ lab.into v = none ∨
    ∃ u e, lab.into v = some (u, e) ∧ u ∈ lab.settled ∧ net.leaves u e ∧ net.target e = v ∧
      lab.cost v = net.along e (lab.cost u)
  rooted : ∀ {u}, u ∈ lab.settled → start ∈ lab.settled
  traced : ∀ {v}, v ∈ lab.settled → ∃ way, Trace lab.into start way v ∧ way.Nodup ∧ (∀ u ∈ way, u ∈ lab.settled) ∧
    Route net start zero way v (lab.cost v)

/-- Labels at the start: the start costs nothing, and all else too much. -/
def Labels.Fresh (start : V) (zero limit : C) (lab : Labels V E C) : Prop :=
  lab.cost start = zero ∧ (∀ v, v ≠ start → lab.cost v = limit) ∧ lab.settled = ∅ ∧ lab.into start = none

/-- No link waits. -/
def Idle : V → E → Prop := fun _ _ => False

/-! ## Settling -/

variable {lab : Labels V E C} {waits : V → E → Prop} {u v : V} {e : E} {c : C} {path : List V}

/-- A way back along settled places only is not changed by what is found of the others. -/
theorem Trace.congr {into into' : V → Option (V × E)} (back : Trace into start path v)
    (same : ∀ u ∈ path, into' u = into u) : Trace into' start path v := by
  induction back with
  | here first => exact .here ((same start (List.mem_singleton_self _)).trans first)
  | @on way u v e before link ih =>
    refine @Trace.on _ _ _ _ _ u v e (ih fun u inside => same u (List.mem_append_left _ inside)) ?_
    exact (same v (List.mem_append_right _ (List.mem_singleton_self _))).trans link

/-- There is one way back. -/
theorem Trace.unique {into : V → Option (V × E)} {other : List V} (back : Trace into start path v)
    (back' : Trace into start other v) : path = other := by
  induction back generalizing other with
  | here first =>
    cases back' with
    | here _ => rfl
    | on _ link =>
      rw [first] at link
      cases link
  | on before link ih =>
    cases back' with
    | here first =>
      rw [first] at link
      cases link
    | on before' link' =>
      rw [link, Option.some.injEq, Prod.mk.injEq] at link'
      obtain ⟨rfl, -⟩ := link'
      rw [ih before']

/-- The ways back as a function, which is empty where there is none. -/
theorem exists_back (into : V → Option (V × E)) (start : V) : ∃ back : V → List V,
    (∀ v way, Trace into start way v → back v = way) ∧ ∀ v, back v ≠ [] → Trace into start (back v) v := by
  have led (v : V) : ∃ way, (∀ way', Trace into start way' v → way = way') ∧ (way ≠ [] → Trace into start way v) := by
    by_cases found : ∃ way, Trace into start way v
    · obtain ⟨way, trace⟩ := found
      exact ⟨way, fun way' trace' => trace.unique trace', fun _ => trace⟩
    · exact ⟨[], fun way' trace' => absurd ⟨way', trace'⟩ found, fun long => absurd rfl long⟩
  choose back known blank using led
  exact ⟨back, known, blank⟩

/-- The way back from a place on it is a part of it. -/
theorem Trace.part {into : V → Option (V × E)} {w : V} (back : Trace into start path w) (member : v ∈ path) :
    ∃ part, Trace into start part v ∧ part <+: path := by
  induction back with
  | here first =>
    rw [List.mem_singleton.mp member]
    exact ⟨[start], .here first, List.prefix_rfl⟩
  | @on way u w e before link ih =>
    rcases List.mem_append.mp member with inside | last
    · obtain ⟨part, back, shorter⟩ := ih inside
      exact ⟨part, back, shorter.trans (List.prefix_append _ _)⟩
    · rw [List.mem_singleton.mp last]
      exact ⟨way ++ [w], .on before link, List.prefix_rfl⟩

/-- Behind a place that a way does not end at, it goes on. -/
theorem Trace.goes_on {into : V → Option (V × E)} {w : V} (back : Trace into start path w)
    (member : v ∈ path) (other : v ≠ w) :
    ∃ c e, c ∈ path ∧ into c = some (v, e) := by
  induction back with
  | here first => exact absurd (List.mem_singleton.mp member) other
  | @on way u w e before link ih =>
    rcases List.mem_append.mp member with inside | last
    · by_cases same : v = u
      · exact ⟨w, e, List.mem_append_right _ (List.mem_singleton_self _), same ▸ link⟩
      · obtain ⟨c, e', inside', link'⟩ := ih inside same
        exact ⟨c, e', List.mem_append_left _ inside', link'⟩
    · exact absurd (List.mem_singleton.mp last) other

theorem Sound.fresh (first : lab.Fresh start zero limit) (positive : zero < limit) :
    Sound net start zero limit waits lab := by
  obtain ⟨origin, far, none, root⟩ := first
  have empty {u : V} (inside : u ∈ lab.settled) : False := by
    rw [none] at inside
    exact inside
  refine ⟨origin, ?_, fun inside => (empty inside).elim, fun inside => (empty inside).elim,
    fun inside => (empty inside).elim, ?_, fun inside => (empty inside).elim, fun inside => (empty inside).elim⟩
  · intro v
    by_cases same : v = start
    · rw [same, origin]
      exact le_of_lt positive
    · rw [far v same]
  · intro v near
    by_cases same : v = start
    · exact .inl ⟨same, same ▸ root⟩
    · rw [far v same] at near
      exact absurd near (lt_irrefl _)

/-- The nearest place that is not settled can be, and then its links wait. -/
theorem Sound.settle (sound : Sound net start zero limit Idle lab) (unsettled : u ∉ lab.settled)
    (near : lab.cost u < limit)
    (nearest : ∀ v, v ∉ lab.settled → lab.cost u ≤ lab.cost v) :
    Sound net start zero limit (fun v _ => v = u) (lab.settle u) := by
  have wider {v : V} (inside : v ∈ lab.settled) : v ∈ (lab.settle u).settled := Set.mem_insert_of_mem u inside
  refine ⟨sound.origin, sound.bounded, ?_, ?_, ?_, ?_, ?_, ?_⟩
  · intro x v inside outside
    have open' : v ∉ lab.settled := fun settled => outside (wider settled)
    rcases inside with rfl | inside
    · exact nearest v open'
    · exact sound.below inside open'
  · intro x inside
    rcases inside with rfl | inside
    · exact near
    · exact sound.known inside
  · intro x e inside link quiet
    rcases inside with rfl | inside
    · exact absurd rfl quiet
    · exact sound.tried inside link id
  · intro v close
    rcases sound.came close with first | ⟨x, e, led, inside, rest⟩
    · exact .inl first
    · exact .inr ⟨x, e, led, wider inside, rest⟩
  · intro x _
    rcases sound.came near with ⟨same, -⟩ | ⟨y, e, -, inside, -⟩
    · exact .inl same.symm
    · exact wider (sound.rooted inside)
  · intro v inside
    rcases inside with rfl | inside
    · rcases sound.came near with ⟨rfl, root⟩ | ⟨x, e, led, inside, link, rfl, paid⟩
      · refine ⟨[v], .here root, List.nodup_singleton v, ?_, ?_⟩
        · intro x member
          exact .inl (List.mem_singleton.mp member)
        · rw [show (lab.settle v).cost v = zero from sound.origin]
          exact .here
      · obtain ⟨way, back, single, settled, route⟩ := sound.traced inside
        refine ⟨way ++ [net.target e], .on back led, ?_, ?_, ?_⟩
        · refine List.nodup_append'.mpr ⟨single, List.nodup_singleton _, ?_⟩
          intro x member same
          rw [List.mem_singleton] at same
          exact unsettled (same ▸ settled x member)
        · intro x member
          rcases List.mem_append.mp member with before | last
          · exact wider (settled x before)
          · exact .inl (List.mem_singleton.mp last)
        · rw [show (lab.settle (net.target e)).cost (net.target e) = net.along e (lab.cost x) from paid]
          exact .on route link
    · obtain ⟨way, back, single, settled, route⟩ := sound.traced inside
      exact ⟨way, back, single, fun x member => wider (settled x member), route⟩

/-- No place is settled that costs more than the last. -/
def Last (lab : Labels V E C) (u : V) : Prop := u ∈ lab.settled ∧ ∀ v ∈ lab.settled, lab.cost v ≤ lab.cost u

theorem Sound.last (sound : Sound net start zero limit Idle lab) (unsettled : u ∉ lab.settled) :
    Last (lab.settle u) u := by
  refine ⟨Set.mem_insert u _, ?_⟩
  intro v inside
  rcases inside with rfl | inside
  · exact le_refl _
  · exact sound.below inside unsettled

theorem Sound.weaken {waits' : V → E → Prop} (sound : Sound net start zero limit waits lab)
    (fewer : ∀ u e, net.leaves u e → waits u e → waits' u e) : Sound net start zero limit waits' lab :=
  ⟨sound.origin, sound.bounded, sound.below, sound.known,
    fun inside link quiet => sound.tried inside link fun waiting => quiet (fewer _ _ link waiting),
    sound.came, sound.rooted, sound.traced⟩

/-! ## Links -/

section Links
variable [DecidableEq V]

theorem reach_cost_self : (lab.reach net u e).cost (net.target e) = net.along e (lab.cost u) :=
  Function.update_self _ _ _

theorem reach_cost_of_ne (other : v ≠ net.target e) : (lab.reach net u e).cost v = lab.cost v :=
  Function.update_of_ne other _ _

theorem reach_into_self : (lab.reach net u e).into (net.target e) = some (u, e) :=
  Function.update_self _ _ _

theorem reach_into_of_ne (other : v ≠ net.target e) : (lab.reach net u e).into v = lab.into v :=
  Function.update_of_ne other _ _

theorem relax_settled : (lab.relax net u e).settled = lab.settled := by
  unfold Labels.relax
  split <;> rfl

theorem relax_cost_of_settled (inside : v ∈ lab.settled) : (lab.relax net u e).cost v = lab.cost v := by
  unfold Labels.relax
  split
  next found => exact reach_cost_of_ne fun same => found.1 (same ▸ inside)
  next => rfl

theorem relax_into_of_settled (inside : v ∈ lab.settled) : (lab.relax net u e).into v = lab.into v := by
  unfold Labels.relax
  split
  next found => exact reach_into_of_ne fun same => found.1 (same ▸ inside)
  next => rfl

theorem relax_cost_le (v : V) : (lab.relax net u e).cost v ≤ lab.cost v := by
  unfold Labels.relax
  split
  next found =>
    by_cases same : v = net.target e
    · subst same
      rw [reach_cost_self]
      exact le_of_lt found.2
    · exact le_of_eq (reach_cost_of_ne same)
  next => exact le_refl _

theorem Last.relax (last : Last lab u) : Last (lab.relax net u e) u := by
  refine ⟨by rw [relax_settled]; exact last.1, ?_⟩
  intro v inside
  rw [relax_settled] at inside
  rw [relax_cost_of_settled inside, relax_cost_of_settled last.1]
  exact last.2 v inside

/-- A link of the last place that was settled is tried. -/
theorem Sound.relax (sound : Sound net start zero limit waits lab) (last : Last lab u) (link : net.leaves u e) :
    Sound net start zero limit (fun v e' => waits v e' ∧ ¬ (v = u ∧ e' = e)) (lab.relax net u e) := by
  have reach : lab.cost u ≤ net.along e (lab.cost u) := net.grows link _
  refine ⟨?_, ?_, ?_, ?_, ?_, ?_, ?_, ?_⟩
  · rw [relax_cost_of_settled (sound.rooted last.1)]
    exact sound.origin
  · intro v
    exact (relax_cost_le v).trans (sound.bounded v)
  · intro x v inside outside
    rw [relax_settled] at inside outside
    rw [relax_cost_of_settled inside]
    have before := sound.below inside outside
    unfold Labels.relax
    split
    next found =>
      by_cases same : v = net.target e
      · subst same
        rw [reach_cost_self]
        exact (last.2 x inside).trans reach
      · rwa [reach_cost_of_ne same]
    next => exact before
  · intro x inside
    rw [relax_settled] at inside
    rw [relax_cost_of_settled inside]
    exact sound.known inside
  · intro x e' inside link' quiet
    rw [relax_settled] at inside
    rw [relax_cost_of_settled inside]
    by_cases waiting : waits x e'
    · obtain ⟨rfl, rfl⟩ : x = u ∧ e' = e := by
        by_contra other
        exact quiet ⟨waiting, other⟩
      by_cases settled : net.target e' ∈ lab.settled
      · rw [relax_cost_of_settled settled]
        exact (last.2 _ settled).trans reach
      · unfold Labels.relax
        split
        next found =>
          rw [reach_cost_self]
        next kept =>
          have far : ¬ net.along e' (lab.cost x) < lab.cost (net.target e') := fun nearer => kept ⟨settled, nearer⟩
          exact not_lt.mp far
    · exact (relax_cost_le _).trans (sound.tried inside link' waiting)
  · intro v close
    unfold Labels.relax at close ⊢
    split at close
    next found =>
      rw [if_pos found]
      by_cases same : v = net.target e
      · subst same
        refine .inr ⟨u, e, reach_into_self, last.1, link, rfl, ?_⟩
        have other : u ≠ net.target e := fun same => found.1 (same ▸ last.1)
        rw [reach_cost_self, reach_cost_of_ne other]
      · rw [reach_cost_of_ne same] at close ⊢
        rw [reach_into_of_ne same]
        rcases sound.came close with first | ⟨x, e', led, inside, link', reached, paid⟩
        · exact .inl first
        · refine .inr ⟨x, e', led, inside, link', reached, ?_⟩
          have other : x ≠ net.target e := fun same => found.1 (same ▸ inside)
          rw [reach_cost_of_ne other, paid]
    next kept =>
      rw [if_neg kept]
      exact sound.came close
  · intro x inside
    rw [relax_settled] at inside ⊢
    exact sound.rooted inside
  · intro v inside
    rw [relax_settled] at inside ⊢
    obtain ⟨way, back, single, settled, route⟩ := sound.traced inside
    refine ⟨way, back.congr ?_, single, settled, ?_⟩
    · intro x member
      exact relax_into_of_settled (settled x member)
    · rwa [relax_cost_of_settled inside]

/-- All links of the last place that was settled are tried, one after the other. -/
theorem Sound.relax_all (links : List E) (sound : Sound net start zero limit (fun v e => v = u ∧ e ∈ links) lab)
    (last : Last lab u) (leave : ∀ e ∈ links, net.leaves u e) :
    Sound net start zero limit Idle (links.foldl (fun lab e => lab.relax net u e) lab) := by
  induction links generalizing lab with
  | nil =>
    refine sound.weaken ?_
    intro v e _ waiting
    cases waiting.2
  | cons e rest ih =>
    refine ih ?_ last.relax fun e' member => leave e' (List.mem_cons_of_mem e member)
    refine (sound.relax last (leave e List.mem_cons_self)).weaken ?_
    rintro v e' - ⟨⟨same, member⟩, other⟩
    refine ⟨same, ?_⟩
    rcases List.mem_cons.mp member with rfl | member
    · exact absurd ⟨same, rfl⟩ other
    · exact member

end Links

/-! ## When nothing is left -/

/-- All that has a cost below the limit is settled. -/
def Labels.Done (limit : C) (lab : Labels V E C) : Prop := ∀ v, lab.cost v < limit → v ∈ lab.settled

/-- **The costs are the least**, as far as they are below the limit. -/
theorem Sound.least (sound : Sound net start zero limit Idle lab) (done : lab.Done limit)
    (route : Route net start zero path v c) :
    lab.cost v ≤ c := by
  induction route with
  | here => exact le_of_eq sound.origin
  | @on way u c e before link ih =>
    by_cases near : lab.cost u < limit
    · exact (sound.tried (done u near) link id).trans (net.keeps link ih)
    · calc lab.cost (net.target e) ≤ limit := sound.bounded _
        _ ≤ lab.cost u := not_lt.mp near
        _ ≤ c := ih
        _ ≤ net.along e c := net.grows link c

/-- **The costs are those of the ways that the labels lead back**, which visit no place twice. -/
theorem Sound.led (sound : Sound net start zero limit Idle lab) (done : lab.Done limit) (near : lab.cost v < limit) :
    ∃ way, Trace lab.into start way v ∧ way.Nodup ∧ Route net start zero way v (lab.cost v) := by
  obtain ⟨way, back, single, -, route⟩ := sound.traced (done v near)
  exact ⟨way, back, single, route⟩

end Ditto.ShortestPaths

/-! Forwarding along a tree. Where every edge joins a place with its parent, and parents are
less deep, there is no cycle; so there is one path from a place to another, and hops that were
each taken from some path are hops of it. -/
namespace Ditto.TreeForwarding
open SimpleGraph

variable {V : Type} {G : SimpleGraph V} {i j u v : V}

/-- A place that is deepest on a cycle would have its parent on both sides. -/
theorem acyclic_of_parents [DecidableEq V] (parent : V → Option V) (depth : V → ℕ)
    (deeper : ∀ {u v}, parent v = some u → depth u < depth v)
    (edges : ∀ {u v}, G.Adj u v → parent v = some u ∨ parent u = some v) : G.IsAcyclic := by
  intro v c cycle
  obtain ⟨w, member, deepest⟩ := c.support.toFinset.exists_max_image depth ⟨v, List.mem_toFinset.mpr c.start_mem_support⟩
  rw [List.mem_toFinset] at member
  have cycle' := cycle.rotate member
  have parent_of {x : V} (edge : G.Adj w x) (inside : x ∈ (c.rotate w member).support) : parent w = some x := by
    have bound := deepest x (by simpa using inside)
    rcases edges edge with below | above
    · exact absurd (deeper below) (Nat.not_lt.mpr bound)
    · exact above
  have next := parent_of ((c.rotate w member).adj_snd cycle'.not_nil) (Walk.getVert_mem_support _ _)
  have last := parent_of ((c.rotate w member).adj_penultimate cycle'.not_nil).symm (Walk.getVert_mem_support _ _)
  rw [next, Option.some.injEq] at last
  exact cycle'.snd_ne_penultimate last

/-- What is passed on by hops to a place. -/
inductive Forwards (hop : V → V → V → Prop) (j : V) : List V → V → Prop where
  | there : Forwards hop j [j] j
  | on {way : List V} {u v : V} (row : hop u j v) (rest : Forwards hop j way v) : Forwards hop j (u :: way) u

/-- More hops lead on, too. -/
theorem Forwards.mono {hop hop' : V → V → V → Prop} {way : List V} (more : ∀ {i j h}, hop i j h → hop' i j h)
    (forwards : Forwards hop j way i) : Forwards hop' j way i := by
  induction forwards with
  | there => exact .there
  | on row _ ih => exact .on (more row) ih

/-- There are no two hops for one pair, where each is the first of some path. -/
theorem hop_unique {hop : V → V → V → Prop} (acyclic : G.IsAcyclic)
    (first : ∀ {i j h}, hop i j h → ∃ p : G.Walk i j, p.IsPath ∧ ¬ p.Nil ∧ p.snd = h) {h h' : V} (row : hop i j h)
    (row' : hop i j h') : h = h' := by
  obtain ⟨p, single, -, rfl⟩ := first row
  obtain ⟨q, single', -, rfl⟩ := first row'
  have same : p = q := congrArg Subtype.val ((acyclic.subsingleton_path i j).elim ⟨p, single⟩ ⟨q, single'⟩)
  rw [same]

/-- **Hops lead along the one path there is**, where each is the first of some path. -/
theorem forwards_along {hop : V → V → V → Prop} {member : V → Prop} (acyclic : G.IsAcyclic)
    (first : ∀ {i j h}, hop i j h → ∃ p : G.Walk i j, p.IsPath ∧ ¬ p.Nil ∧ p.snd = h)
    (full : ∀ {i j}, member i → member j → i ≠ j → ∃ h, hop i j h)
    (joined : ∀ {u v}, G.Adj u v → member u ∧ member v) (target : member j) (p : G.Walk i j) (path : p.IsPath) :
    Forwards hop j p.support i := by
  induction p with
  | nil => exact .there
  | @cons i v j edge p ih =>
    have away : i ≠ j := by
      rintro rfl
      exact ((Walk.cons_isPath_iff edge p).mp path).2 p.end_mem_support
    obtain ⟨h, row⟩ := full (joined edge).1 target away
    obtain ⟨q, single, long, rfl⟩ := first row
    have same : q = Walk.cons edge p :=
      congrArg Subtype.val ((acyclic.subsingleton_path i j).elim ⟨q, single⟩ ⟨Walk.cons edge p, path⟩)
    rw [same, Walk.snd_cons] at row
    exact .on row (ih target ((Walk.cons_isPath_iff edge p).mp path).1)

end Ditto.TreeForwarding
