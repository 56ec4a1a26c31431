import Ditto.PlannedTrees

/-! The lists of links as a store. `add_link` puts a link under its target and its interfaces, or
changes the one that is there; `del_link` and `del_vertex` take links out. So what is found under
a key is what the last change of that key left there, whatever was changed in between. -/
namespace Ditto.RoutePlanner

variable {C : Type} {g : Graph C} {numNodes u : ℕ} {key : ℕ × ℤ × ℤ}

/-- The cost that `find_link` finds. -/
def costOf (g : Graph C) (u : ℕ) (key : ℕ × ℤ × ℤ) : Option C := (findLink u key.1 key.2.1 key.2.2 g).map Link.lnCost

/-- A change of the links of a graph. Its nodes are such as the array `lh` has: `add_link` does not
check them, and `find_link` lets one more through. -/
inductive Change (C : Type) where
  | add (source tom : Fin maxNodes) (cost : C) (fromif toif channel : ℤ)
  | del (source tom : Fin maxNodes) (fromif toif : ℤ)
  | gone (vertex : Fin maxNodes)

/-- The change as the planner makes it, with this `NUM_NODES`. -/
def Change.run (numNodes : Fin maxNodes) (g : Graph C) : Change C → Graph C
  | .add source tom cost fromif toif channel => addLink source tom cost g fromif toif channel
  | .del source tom fromif toif => delLink source tom fromif toif g
  | .gone vertex => delVertex numNodes vertex g

/-- What a change makes of what is known under a key of a node. -/
def Change.leaves (numNodes u : Fin maxNodes) (key : ℕ × ℤ × ℤ) (known : Option C) : Change C → Option C
  | .add source tom cost fromif toif _ =>
    if (u : ℕ) = source ∧ key = ((tom : ℕ), fromif, toif) then some cost else known
  | .del source tom fromif toif => if (u : ℕ) = source ∧ key = ((tom : ℕ), fromif, toif) then none else known
  | .gone vertex => if Node numNodes u ∧ ((u : ℕ) = vertex ∨ key.1 = vertex) then none else known

/-- A key has the cost of the one link there is under it. -/
theorem cost_of_eq_some (inside : u ≤ maxNodes) {cost : C} :
    costOf g u key = some cost ↔ ∃ l ∈ g.links u, l.key = key ∧ l.lnCost = cost := by
  rw [costOf, Option.map_eq_some_iff]
  constructor
  · rintro ⟨l, found, paid⟩
    obtain ⟨member, same⟩ := key_of_find found
    exact ⟨l, member, same, paid⟩
  · rintro ⟨l, member, rfl, paid⟩
    exact ⟨l, find_link_of_mem inside member, paid⟩

theorem cost_congr {g' : Graph C} (inside : u ≤ maxNodes)
    (same : ∀ cost, (∃ l ∈ g'.links u, l.key = key ∧ l.lnCost = cost) ↔ ∃ l ∈ g.links u, l.key = key ∧ l.lnCost = cost) :
    costOf g' u key = costOf g u key := by
  apply Option.ext
  intro cost
  rw [cost_of_eq_some inside, cost_of_eq_some inside, same]

theorem cost_eq_none (inside : u ≤ maxNodes) (absent : ∀ l ∈ g.links u, l.key ≠ key) : costOf g u key = none := by
  apply Option.eq_none_iff_forall_ne_some.mpr
  intro cost found
  obtain ⟨l, member, same, -⟩ := (cost_of_eq_some inside).mp found
  exact absent l member same

/-! ## One change -/

theorem mem_add_to_of_ne {cost : C} {other : ℕ × ℤ × ℤ} {channel : ℤ} {links : List (Link C)}
    {l : Link C} (member : l ∈ links)
    (apart : l.key ≠ other) : l ∈ addTo cost other channel links := by
  unfold addTo
  split
  · exact List.mem_map.mpr ⟨l, member, if_neg apart⟩
  · exact List.mem_cons_of_mem _ member

theorem cost_add {source tom : ℕ} {cost : C} {fromif toif channel : ℤ} (inside : u ≤ maxNodes) :
    costOf (addLink source tom cost g fromif toif channel) u key =
      if u = source ∧ key = (tom, fromif, toif) then some cost else costOf g u key := by
  split
  next here =>
    obtain ⟨rfl, rfl⟩ := here
    rw [cost_of_eq_some inside]
    obtain ⟨l, member, same⟩ := key_add (g := g) cost fromif toif channel (tom, fromif, toif) (.inr ⟨rfl, rfl⟩)
    refine ⟨l, member, same, ?_⟩
    rw [links_add, if_pos rfl] at member
    exact ((mem_add_to member).resolve_left fun other => other.2 same).2
  next apart =>
    refine cost_congr inside fun c => ?_
    constructor
    · rintro ⟨l, member, rfl, paid⟩
      rcases mem_links_add member with known | ⟨here, same, -⟩
      · exact ⟨l, known, rfl, paid⟩
      · exact absurd ⟨here, same⟩ apart
    · rintro ⟨l, member, rfl, paid⟩
      refine ⟨l, ?_, rfl, paid⟩
      rw [links_add]
      split
      next here =>
        subst here
        exact mem_add_to_of_ne member fun same => apart ⟨rfl, same⟩
      next => exact member

theorem cost_del {source tom : ℕ} {fromif toif : ℤ} (inside : u ≤ maxNodes) :
    costOf (delLink source tom fromif toif g) u key =
      if u = source ∧ key = (tom, fromif, toif) then none else costOf g u key := by
  unfold delLink
  by_cases found : (findLink source tom fromif toif g).isSome
  · rw [if_pos found]
    have links (w : ℕ) : (Function.update g.lh source
        ((g.lh source).keep fun l => l.key ≠ (tom, fromif, toif)) w).lhFirst =
        if w = source then (g.links source).filter fun l => l.key ≠ (tom, fromif, toif) else g.links w := by
      by_cases same : w = source
      · subst same
        rw [Function.update_self, if_pos rfl]
        rfl
      · rw [Function.update_of_ne same, if_neg same]
        rfl
    split
    next here =>
      obtain ⟨rfl, rfl⟩ := here
      refine cost_eq_none inside fun l member => ?_
      rw [Graph.links, links, if_pos rfl] at member
      simpa using (List.mem_filter.mp member).2
    next apart =>
      refine cost_congr inside fun c => ?_
      rw [Graph.links, links]
      split
      next same =>
        subst same
        have other : key ≠ (tom, fromif, toif) := fun same => apart ⟨rfl, same⟩
        constructor
        · rintro ⟨l, member, rest⟩
          exact ⟨l, (List.mem_filter.mp member).1, rest⟩
        · rintro ⟨l, member, rfl, paid⟩
          exact ⟨l, List.mem_filter.mpr ⟨member, by simpa using other⟩, rfl, paid⟩
      next => exact Iff.rfl
  · rw [if_neg found]
    split
    next here =>
      obtain ⟨rfl, rfl⟩ := here
      rw [costOf, Option.not_isSome_iff_eq_none.mp found]
      rfl
    next => rfl

theorem cost_del_vertex {vertex : ℕ} (inside : u ≤ maxNodes) :
    costOf (delVertex numNodes vertex g) u key =
      if Node numNodes u ∧ (u = vertex ∨ key.1 = vertex) then none else costOf g u key := by
  split
  next here =>
    refine cost_eq_none inside fun l member same => ?_
    obtain ⟨-, apart, target⟩ := mem_del_vertex member here.1
    rcases here.2 with away | away
    · exact apart away
    · exact target (by rw [← away, ← same]; rfl)
  next apart =>
    refine cost_congr inside fun c => ?_
    simp only [Graph.links, delVertex]
    by_cases node : Node numNodes u
    · rw [if_pos (show 1 ≤ u ∧ u ≤ numNodes from node)]
      have other : u ≠ vertex := fun same => apart ⟨node, .inl same⟩
      rw [if_neg other]
      constructor
      · rintro ⟨l, member, rest⟩
        exact ⟨l, (List.mem_filter.mp member).1, rest⟩
      · rintro ⟨l, member, rfl, paid⟩
        have target : l.lnDst ≠ vertex := fun same => apart ⟨node, .inr same⟩
        exact ⟨l, List.mem_filter.mpr ⟨member, by simpa using target⟩, rfl, paid⟩
    · rw [if_neg (show ¬ (1 ≤ u ∧ u ≤ numNodes) from node)]

/-! ## A run of changes -/

variable {nodes node : Fin maxNodes}

theorem cost_run (change : Change C) :
    costOf (change.run nodes g) node key = change.leaves nodes node key (costOf g node key) := by
  cases change with
  | add source tom cost fromif toif channel => exact cost_add node.isLt.le
  | del source tom fromif toif => exact cost_del node.isLt.le
  | gone vertex => exact cost_del_vertex node.isLt.le

/-- **The lists of links are a store**: after any changes, `find_link` finds under a key of a node
the cost that the changes of that key leave, one after the other, and no other change matters. -/
theorem cost_of_changes (changes : List (Change C)) :
    costOf (changes.foldl (Change.run nodes) g) node key =
      changes.foldl (Change.leaves nodes node key) (costOf g node key) := by
  induction changes generalizing g with
  | nil => rfl
  | cons change rest ih => rw [List.foldl_cons, List.foldl_cons, ih, cost_run]

/-- A link is changed, and then goes with its target. -/
example : costOf ([Change.add ⟨3, by decide⟩ ⟨2, by decide⟩ 7 0 0 0, .gone ⟨2, by decide⟩].foldl
    (Change.run ⟨3, by decide⟩)
    relay) 3 (2, 0, 0) = none := by decide

end Ditto.RoutePlanner
