import Mathlib.Algebra.BigOperators.Group.Finset.Basic
import Mathlib.Order.Interval.Finset.Nat
import Ditto.RoutingTables

/-! The flows that `count_children` writes on the links of a tree. It goes down the tree that
`construct_tree` made, counts what is below a node, and looks the link that leads to the node up
again from above. So the flow of a link is the number of nodes whose way from the gateway goes
along it. -/
namespace Ditto.RoutePlanner
open ShortestPaths Cost

variable {C : Type} [Cost C] {g t h h' : Graph C} {root numNodes u v w : ℕ} {into : ℕ → Option (ℕ × Link C)}
  {back : ℕ → List ℕ} {l : Link C}

/-- A tree as `construct_tree` leaves it, with the ways that the labels lead back. -/
structure Planted (g t : Graph C) (root numNodes : ℕ) (into : ℕ → Option (ℕ × Link C)) (back : ℕ → List ℕ) : Prop where
  settled : Settled g root (numNodes + 1) into
  grown : Grown g (numNodes + 1) into root (fun w => Node numNodes w ∧ g.d w < inflen) t
  numbered : Numbered numNodes g
  plain : Plain t
  parents : ∀ v, Node numNodes v → t.pi v = g.pi v
  node : Node numNodes root
  known : ∀ v way, Trace into root way v → back v = way
  blank : ∀ v, back v ≠ [] → Trace into root (back v) v

/-- A node that is in the tree. -/
def InTree (g : Graph C) (numNodes v : ℕ) : Prop := Node numNodes v ∧ g.d v < inflen

instance : Decidable (InTree g numNodes v) := inferInstanceAs (Decidable (Node numNodes v ∧ g.d v < inflen))

/-- The nodes whose way goes by a node. -/
def behind (g : Graph C) (numNodes : ℕ) (back : ℕ → List ℕ) (v : ℕ) : Finset ℕ :=
  (Finset.Icc 1 numNodes).filter fun w => InTree g numNodes w ∧ v ∈ back w

theorem mem_behind : w ∈ behind g numNodes back v ↔ InTree g numNodes w ∧ v ∈ back w := by
  rw [behind, Finset.mem_filter, Finset.mem_Icc]
  exact ⟨fun both => both.2, fun both => ⟨both.1.1, both⟩⟩

/-! ## Links and ways -/

theorem Planted.led (planted : Planted g t root numNodes into back) (inside : InTree g numNodes v) :
    Led g (numNodes + 1) root into (back v) v := by
  obtain ⟨way, led, -⟩ := planted.settled.led (Nat.lt_succ_of_le inside.1.2) inside.2
  rwa [planted.known v way led.trace]

/-- A link of the tree leads one node on. -/
theorem Planted.child (planted : Planted g t root numNodes into back) (member : l ∈ t.links u) :
    InTree g numNodes l.lnDst ∧ InTree g numNodes u ∧ back l.lnDst = back u ++ [l.lnDst] ∧
      (∃ l', into l.lnDst = some (u, l') ∧ l.key = l'.key) := by
  obtain ⟨l', way, link, led, key, -⟩ := planted.grown.kept member
  obtain ⟨member', reached, -⟩ := led.linked _ (last_mem led.trace) u l' link
  obtain ⟨node, node'⟩ := planted.numbered u l' member'
  rw [reached] at node'
  have near := (led.near _ (last_mem led.trace)).2
  have trace := led.trace
  generalize same : l.lnDst = v at *
  cases trace with
  | here first =>
    rw [first] at link
    cases link
  | @on way x _ l₀ before link₀ =>
    rw [link, Option.some.injEq, Prod.mk.injEq] at link₀
    obtain ⟨rfl, rfl⟩ := link₀
    refine ⟨⟨node', near⟩, ⟨node, ((led.before before).near u (last_mem before)).2⟩, ?_, l', link, key⟩
    rw [planted.known _ _ led.trace, planted.known _ _ before]

/-- Where a way goes on, the tree has a link. -/
theorem Planted.link (planted : Planted g t root numNodes into back) (inside : InTree g numNodes v) {l' : Link C}
    (link : into v = some (u, l')) : ∃ l ∈ t.links u, l.lnDst = v := by
  obtain ⟨l, member, key⟩ := planted.grown.has inside link
  have led := planted.led inside
  exact ⟨l, member, (congrArg Prod.fst key).trans (led.linked v (last_mem led.trace) u l' link).2.1⟩

/-- No two links of a node of the tree have one target. -/
theorem Planted.targets (planted : Planted g t root numNodes into back) (u : ℕ) :
    ((t.links u).map Link.lnDst).Nodup := by
  refine (List.Nodup.of_map _ (t.lh u).distinct).map_on fun l member l' member' same => ?_
  refine List.inj_on_of_nodup_map (t.lh u).distinct member member' ?_
  obtain ⟨-, -, -, k, link, key⟩ := planted.child member
  obtain ⟨-, -, -, k', link', key'⟩ := planted.child member'
  rw [same, link', Option.some.injEq, Prod.mk.injEq] at link
  rw [key, key', link.2]

/-! ## Counting -/

/-- A node that is on the way to another is on it with all of its own way. -/
theorem Planted.prefix_of_mem (planted : Planted g t root numNodes into back) (member : v ∈ back w) :
    back v <+: back w := by
  obtain ⟨part, trace, shorter⟩ := (planted.blank w (List.ne_nil_of_mem member)).part member
  rwa [planted.known v part trace]

/-- Who is behind a node is that node, or is behind one of its targets. -/
theorem Planted.mem_behind_iff (planted : Planted g t root numNodes into back) (inside : InTree g numNodes v) :
    w ∈ behind g numNodes back v ↔ w = v ∨ ∃ l ∈ t.links v, w ∈ behind g numNodes back l.lnDst := by
  constructor
  · intro member
    obtain ⟨reached, on⟩ := mem_behind.mp member
    by_cases same : v = w
    · exact .inl same.symm
    · obtain ⟨c, l', further, link⟩ := (planted.led reached).trace.goes_on on same
      have near := (planted.led reached).near c further
      have node : Node numNodes c := by
        have led := planted.led reached
        obtain ⟨member', target, -⟩ := led.linked c further v l' link
        rw [← target]
        exact (planted.numbered v l' member').2
      obtain ⟨l, member', rfl⟩ := planted.link ⟨node, near.2⟩ link
      exact .inr ⟨l, member', mem_behind.mpr ⟨reached, further⟩⟩
  · rintro (rfl | ⟨l, member, below⟩)
    · exact mem_behind.mpr ⟨inside, last_mem (planted.led inside).trace⟩
    · obtain ⟨reached, on⟩ := mem_behind.mp below
      obtain ⟨-, -, ways, -⟩ := planted.child member
      refine mem_behind.mpr ⟨reached, (planted.prefix_of_mem on).subset ?_⟩
      rw [ways]
      exact List.mem_append_left _ (last_mem (planted.led inside).trace)

/-- Nobody is behind two targets of a node. -/
theorem Planted.apart (planted : Planted g t root numNodes into back) {l' : Link C}
    (member : l ∈ t.links v) (member' : l' ∈ t.links v)
    (first : w ∈ behind g numNodes back l.lnDst) (second : w ∈ behind g numNodes back l'.lnDst) :
    l.lnDst = l'.lnDst := by
  have shorter := planted.prefix_of_mem (mem_behind.mp first).2
  have shorter' := planted.prefix_of_mem (mem_behind.mp second).2
  obtain ⟨-, -, ways, -⟩ := planted.child member
  obtain ⟨-, -, ways', -⟩ := planted.child member'
  have same : back l.lnDst = back l'.lnDst :=
    (List.prefix_of_prefix_length_le shorter shorter'
      (by rw [ways, ways', List.length_append, List.length_append]; rfl)).eq_of_length
      (by rw [ways, ways', List.length_append, List.length_append]; rfl)
  rw [ways, ways'] at same
  simpa using same

theorem Planted.behind_eq (planted : Planted g t root numNodes into back) (inside : InTree g numNodes v) :
    behind g numNodes back v = insert v (((t.links v).map Link.lnDst).toFinset.biUnion (behind g numNodes back)) := by
  ext w
  rw [planted.mem_behind_iff inside, Finset.mem_insert, Finset.mem_biUnion]
  simp

/-- The nodes behind a node are counted by those behind its targets. -/
theorem Planted.card_behind (planted : Planted g t root numNodes into back) (inside : InTree g numNodes v) :
    (behind g numNodes back v).card = 1 + ((t.links v).map fun l => (behind g numNodes back l.lnDst).card).sum := by
  have fresh : v ∉ ((t.links v).map Link.lnDst).toFinset.biUnion (behind g numNodes back) := by
    intro member
    obtain ⟨c, target, below⟩ := Finset.mem_biUnion.mp member
    obtain ⟨l, member', rfl⟩ := List.mem_map.mp (List.mem_toFinset.mp target)
    obtain ⟨-, -, ways, -⟩ := planted.child member'
    have longer := (planted.prefix_of_mem (mem_behind.mp below).2).length_le
    rw [ways, List.length_append] at longer
    exact Nat.not_succ_le_self _ longer
  have separate : ((((t.links v).map Link.lnDst).toFinset : Finset ℕ) : Set ℕ).PairwiseDisjoint
      (behind g numNodes back) := by
    intro c target c' target' other
    obtain ⟨l, member, rfl⟩ := List.mem_map.mp (List.mem_toFinset.mp target)
    obtain ⟨l', member', rfl⟩ := List.mem_map.mp (List.mem_toFinset.mp target')
    exact Finset.disjoint_left.mpr fun w first second => other (planted.apart member member' first second)
  rw [planted.behind_eq inside, Finset.card_insert_of_notMem fresh, Finset.card_biUnion separate,
    List.sum_toFinset _ (planted.targets v), List.map_map, Nat.add_comm]
  rfl

/-! ## Marking -/

/-- The links of a node, where those into some nodes have been given their flows. -/
def marked (flow : ℕ → ℕ) (into : Finset ℕ) (links : List (Link C)) : List (Link C) :=
  links.map fun l => if l.lnDst ∈ into then { l with flow := flow l.lnDst } else l

/-- A graph in which the links into some nodes have been given their flows. -/
structure Marked (flow : ℕ → ℕ) (into : Finset ℕ) (t h : Graph C) : Prop where
  pi : h.pi = t.pi
  links : ∀ u, h.links u = marked flow into (t.links u)

omit [Cost C] in
theorem mem_marked {flow : ℕ → ℕ} {into : Finset ℕ} {links : List (Link C)} (member : l ∈ marked flow into links) :
    ∃ l₀ ∈ links, l.key = l₀.key ∧ (l.lnDst ∈ into → l.flow = flow l.lnDst) := by
  obtain ⟨l₀, member₀, rfl⟩ := List.mem_map.mp member
  refine ⟨l₀, member₀, ?_⟩
  split
  next => exact ⟨rfl, fun _ => rfl⟩
  next out => exact ⟨rfl, fun inside => absurd inside out⟩

omit [Cost C] in
theorem marked_marked (flow : ℕ → ℕ) (into into' : Finset ℕ) (links : List (Link C)) :
    marked flow into' (marked flow into links) = marked flow (into ∪ into') links := by
  unfold marked
  rw [List.map_map]
  refine List.map_congr_left fun l _ => ?_
  simp only [Function.comp, Finset.mem_union]
  by_cases first : l.lnDst ∈ into <;> by_cases second : l.lnDst ∈ into' <;> simp [first, second]

omit [Cost C] in
/-- `count_children` gives a flow to every link into the node. -/
theorem links_set_flow {flow : ℕ → ℕ} (plain : Plain h) (fits : ∀ u, ∀ l ∈ h.links u, u ≤ maxNodes)
    (up : ∀ u, ∀ l ∈ h.links u, l.lnDst = v → u = h.pi v) (u : ℕ) :
    (setFlow (h.pi v) v (flow v) h).links u = marked flow {v} (h.links u) := by
  have apart (u : ℕ) (none : ∀ l ∈ h.links u, l.lnDst ≠ v) : marked flow {v} (h.links u) = h.links u := by
    refine (List.map_congr_left fun l member => ?_).trans (List.map_id _)
    rw [if_neg (by simpa using none l member), id]
  unfold setFlow
  split
  next found =>
    by_cases same : u = h.pi v
    · subst same
      simp only [Graph.links, Function.update_self, LinkHead.flowing]
      refine List.map_congr_left fun l member => ?_
      obtain ⟨outif, inif⟩ := plain _ l member
      simp only [Link.key, outif, inif, Prod.mk.injEq, and_true, Finset.mem_singleton]
      split
      next same => rw [same]
      next => rfl
    · simp only [Graph.links, Function.update_of_ne same]
      exact (apart u fun l member target => same (up u l member target)).symm
  next lost =>
    refine (apart u fun l member target => lost ?_).symm
    obtain ⟨outif, inif⟩ := plain u l member
    have found := find_link_of_mem (fits u l member) member
    rw [outif, inif, target, up u l member target] at found
    rw [found]
    rfl

/-- How many nodes are behind a node, and thus the flow of the links into it. -/
def flowOf (g : Graph C) (numNodes : ℕ) (back : ℕ → List ℕ) (v : ℕ) : ℕ := (behind g numNodes back v).card

theorem Planted.up (planted : Planted g t root numNodes into back) (member : l ∈ t.links u)
    (target : l.lnDst = v) : u = t.pi v := by
  obtain ⟨l', way, link, led, -⟩ := planted.grown.kept member
  obtain ⟨node, -⟩ := (planted.child member).1
  rw [← target, planted.parents _ node, (planted.settled.agrees.led (Nat.lt_succ_of_le node.2) link).1]

/-- The flow of the link into a node is set. -/
theorem Planted.set_flow (planted : Planted g t root numNodes into back) (small : numNodes < slotsOfT) {done : Finset ℕ}
    (marks : Marked (flowOf g numNodes back) done t h) (ch : ℕ → ℤ) :
    Marked (flowOf g numNodes back) (done ∪ {v}) t
      (setFlow (h.pi v) v (flowOf g numNodes back v) { h with ch := ch }) := by
  have old {u : ℕ} {l : Link C} (member : l ∈ h.links u) : ∃ l₀ ∈ t.links u, l.key = l₀.key := by
    rw [marks.links] at member
    obtain ⟨l₀, member₀, key, -⟩ := mem_marked member
    exact ⟨l₀, member₀, key⟩
  refine ⟨?_, fun u => ?_⟩
  · unfold setFlow
    split
    · exact marks.pi
    · exact marks.pi
  · have plain : Plain { h with ch := ch } := by
      intro u l member
      obtain ⟨l₀, member₀, key⟩ := old member
      rw [show l.outif = l₀.outif from congrArg (fun k => k.2.1) key,
        show l.inif = l₀.inif from congrArg (fun k => k.2.2) key]
      exact planted.plain u l₀ member₀
    refine (links_set_flow plain (fun u l member => ?_) (fun u l member target => ?_) u).trans ?_
    · obtain ⟨l₀, member₀, -⟩ := old member
      exact ((planted.child member₀).2.1.1.2.trans small.le).trans slots_le
    · obtain ⟨l₀, member₀, key⟩ := old member
      show u = h.pi v
      rw [marks.pi]
      exact planted.up member₀ ((congrArg Prod.fst key).symm.trans target)
    · show marked _ _ (h.links u) = _
      rw [marks.links, marked_marked]

omit [Cost C] in
/-- The targets of some links of a node are counted, one after the other. -/
theorem count_targets (depth : ℕ) (links : List (Link C)) {flow : ℕ → ℕ} {below : ℕ → Finset ℕ}
    (counts : ∀ l ∈ links, ∀ done h, Marked flow done t h →
      ∃ h', countChildren depth l.lnDst h = some ((flow l.lnDst : ℤ) - 1, h') ∧ Marked flow (done ∪ below l.lnDst) t h')
    {done : Finset ℕ} (marks : Marked flow done t h) (count : ℤ) :
    ∃ h', links.foldlM (countTarget (countChildren depth)) (count, h) =
        some (count + ((links.map fun l => flow l.lnDst).sum : ℕ), h') ∧
      Marked flow (done ∪ (links.map Link.lnDst).toFinset.biUnion below) t h' := by
  induction links generalizing h done count with
  | nil => exact ⟨h, by simp, by simpa using marks⟩
  | cons l rest ih =>
    obtain ⟨h₁, run, marks₁⟩ := counts l List.mem_cons_self done h marks
    obtain ⟨h₂, runs, marks₂⟩ := ih (fun l' member => counts l' (List.mem_cons_of_mem l member)) marks₁
      (count + flow l.lnDst)
    refine ⟨h₂, ?_, ?_⟩
    · have round : countTarget (countChildren depth) (count, h) l = some (count + flow l.lnDst, h₁) := by
        rw [countTarget, run]
        exact congrArg (fun c => some (c, h₁)) (by omega)
      rw [List.foldlM_cons, round, List.map_cons, List.sum_cons]
      refine runs.trans (congrArg (fun c => some (c, h₂)) ?_)
      push_cast
      exact Int.add_assoc _ _ _
    · rwa [List.map_cons, List.toFinset_cons, Finset.biUnion_insert, ← Finset.union_assoc]

omit [Cost C] in
theorem count_marked (children : ℕ → Graph C → Option (ℤ × Graph C)) (flow : ℕ → ℕ) (into : Finset ℕ)
    (links : List (Link C))
    (counted : ℤ × Graph C) : (marked flow into links).foldlM (countTarget children) counted =
      links.foldlM (countTarget children) counted := by
  rw [marked, List.foldlM_map]
  congr
  funext counted l
  split <;> rfl

/-- `count_children` counts what is below a node, and gives flows to the links into all that is behind it. -/
theorem Planted.count (planted : Planted g t root numNodes into back) (small : numNodes < slotsOfT) (depth : ℕ)
    (inside : InTree g numNodes v) (deep : numNodes + 2 ≤ depth + (back v).length) {done : Finset ℕ}
    (marks : Marked (flowOf g numNodes back) done t h) :
    ∃ h', countChildren depth v h = some ((flowOf g numNodes back v : ℤ) - 1, h') ∧
      Marked (flowOf g numNodes back) (done ∪ behind g numNodes back v) t h' := by
  induction depth generalizing v h done with
  | zero =>
    have short := (planted.led inside).short
    omega
  | succ depth ih =>
    obtain ⟨h₁, run, marks₁⟩ := count_targets depth (t.links v) (fun l member done h marks => by
      obtain ⟨inside', -, ways, -⟩ := planted.child member
      refine ih inside' ?_ marks
      rw [ways, List.length_append, List.length_singleton]
      omega) marks 0
    rw [← count_marked _ (flowOf g numNodes back) done, ← marks.links] at run
    have sum := planted.card_behind inside
    have counted : (0 : ℤ) + ((t.links v).map fun l => flowOf g numNodes back l.lnDst).sum =
        (flowOf g numNodes back v : ℤ) - 1 := by
      rw [flowOf, sum]
      push_cast
      simp only [flowOf]
      omega
    have last : countChildren (depth + 1) v h = some ((flowOf g numNodes back v : ℤ) - 1,
      setFlow (h₁.pi v) v (flowOf g numNodes back v)
        { h₁ with ch := Function.update h₁.ch v ((flowOf g numNodes back v : ℤ) - 1) }) := by
      rw [countChildren, run, counted]
      exact congrArg (fun flow => some ((flowOf g numNodes back v : ℤ) - 1, setFlow (h₁.pi v) v flow
        { h₁ with ch := Function.update h₁.ch v ((flowOf g numNodes back v : ℤ) - 1) })) (by omega)
    refine ⟨_, last, ?_⟩
    rw [planted.behind_eq inside, Finset.insert_eq, Finset.union_comm {v}, ← Finset.union_assoc]
    exact planted.set_flow small marks₁ _

/-! ## The gateway's tree -/

theorem pi_of_construct_tree {gatewayId : ℕ} (built : constructTree metric tree g gatewayId numNodes = some (g', some t))
    (node : Node numNodes v) : t.pi v = g'.pi v := by
  unfold constructTree at built
  obtain ⟨g₁, -, built⟩ := Option.bind_eq_some_iff.mp built
  split at built
  · cases built
  · obtain ⟨t₁, made, built⟩ := Option.bind_eq_some_iff.mp built
    cases built
    unfold makeTreeGraph at made
    obtain ⟨t₂, -, made⟩ := Option.bind_eq_some_iff.mp made
    cases made
    exact if_pos ⟨node.1, Nat.lt_succ_of_le node.2⟩

theorem Planted.root_in (planted : Planted g t root numNodes into back) : InTree g numNodes root := by
  have origin := planted.settled.sound.origin
  rw [cost_of_lt (Nat.lt_succ_of_le planted.node.2)] at origin
  exact ⟨planted.node, origin ▸ positive⟩

/-- How many nodes the tree leads to by a node. -/
noncomputable def through (t : Graph C) (root v : ℕ) : ℕ :=
  {w | ∃ way c, Route (network t.lh) root zero way w c ∧ v ∈ way}.ncard

theorem Planted.through_eq (planted : Planted g t root numNodes into back) (v : ℕ) :
    through t root v = flowOf g numNodes back v := by
  have looked : root < numNodes + 1 := Nat.lt_succ_of_le planted.node.2
  have same : {w | ∃ way c, Route (network t.lh) root zero way w c ∧ v ∈ way} = (behind g numNodes back v : Set ℕ) := by
    ext w
    rw [Set.mem_ofPred_eq, Finset.mem_coe, mem_behind]
    constructor
    · rintro ⟨way, c, route, on⟩
      obtain ⟨trace, -⟩ := trace_of_route planted.settled planted.grown (planted.settled.root_none looked) route looked
      rw [planted.known w way trace]
      refine ⟨?_, on⟩
      cases route with
      | here => exact planted.root_in
      | on before member => exact (planted.child member).1
    · rintro ⟨inside, on⟩
      have led := planted.led inside
      refine ⟨back w, g.d w, route_of_led planted.settled planted.grown (fun x member other => ?_) led, on⟩
      exact ⟨planted.settled.node planted.numbered other (led.near x member).1 (led.near x member).2,
        (led.near x member).2⟩
  rw [through, same, Set.ncard_coe_finset]
  rfl

/-- What `construct_tree` makes is planted. -/
theorem planted_of_construct_tree {gatewayId : ℕ} (within : Within g metric) (numbered : Numbered numNodes g)
    (plain : Plain g)
    (blank : Numbered numNodes tree) (inside : gatewayId + 1 ≤ numNodes) (small : numNodes < slotsOfT)
    (built : constructTree metric tree g gatewayId numNodes = some (g', some t)) :
    ∃ into back, Planted g' t (gatewayId + 1) numNodes into back := by
  obtain ⟨into, heads, settled, -, grown⟩ := grown_of_construct_tree within numbered blank inside small built
  have parents (v : ℕ) (node : Node numNodes v) : t.pi v = g'.pi v := pi_of_construct_tree built node
  obtain ⟨back, known, blank'⟩ := exists_back into (gatewayId + 1)
  have plain' : Plain t := by
    intro u l member
    obtain ⟨l', way, link, led, key, -⟩ := grown.kept member
    obtain ⟨l₀, member₀, key₀, -⟩ := link_of_init heads (led.linked _ (last_mem led.trace) u l' link).1
    obtain ⟨outif, inif⟩ := plain u l₀ member₀
    have same := key₀.trans key.symm
    exact ⟨(congrArg (fun k => k.2.1) same).symm.trans outif, (congrArg (fun k => k.2.2) same).symm.trans inif⟩
  exact ⟨into, back, settled, grown, numbered_init heads numbered, plain', parents,
    ⟨Nat.le_add_left _ _, inside⟩, known, blank'⟩

/-- `count_children` ends for the root, and gives all links of the tree their flows. -/
theorem Planted.count_tree (planted : Planted g t root numNodes into back) (small : numNodes < slotsOfT) :
    ∃ t', countChildren (numNodes + 1) root t = some ((through t root root : ℤ) - 1, t') ∧
      ∀ u, t'.links u = (t.links u).map fun l => { l with flow := through t root l.lnDst } := by
  have looked : root < numNodes + 1 := Nat.lt_succ_of_le planted.node.2
  have way : back root = [root] := planted.known _ _ (.here (planted.settled.root_none looked))
  have bare : Marked (flowOf g numNodes back) ∅ t t := ⟨rfl, fun u => by simp [marked]⟩
  obtain ⟨t', run, marks⟩ := planted.count small (numNodes + 1) planted.root_in (by rw [way, List.length_singleton]) bare
  refine ⟨t', by rw [run, planted.through_eq], fun u => ?_⟩
  rw [marks.links]
  refine List.map_congr_left fun l member => ?_
  obtain ⟨below, -⟩ := planted.child member
  have inside : l.lnDst ∈ ∅ ∪ behind g numNodes back root :=
    Finset.mem_union_right _ (mem_behind.mpr ⟨below, source_mem (planted.led below).trace⟩)
  rw [if_pos inside, planted.through_eq]

/-- **The flow of a link is the number of nodes whose way from the gateway goes along it**, and what
`count_children` returns is how many nodes there are in the tree besides the gateway. -/
theorem flows_counted {gatewayId : ℕ} (within : Within g metric) (numbered : Numbered numNodes g) (plain : Plain g)
    (blank : Numbered numNodes tree) (inside : gatewayId + 1 ≤ numNodes) (small : numNodes < slotsOfT)
    (built : constructTree metric tree g gatewayId numNodes = some (g', some t)) :
    ∃ t', countChildren (numNodes + 1) (gatewayId + 1) t =
        some (({w | ∃ way c, Route (network t.lh) (gatewayId + 1) zero way w c}.ncard : ℤ) - 1, t') ∧
      ∀ u, t'.links u = (t.links u).map fun l => { l with flow := through t (gatewayId + 1) l.lnDst } := by
  obtain ⟨into, back, planted⟩ := planted_of_construct_tree within numbered plain blank inside small built
  obtain ⟨t', run, flows⟩ := planted.count_tree small
  refine ⟨t', ?_, flows⟩
  have looked : gatewayId + 1 < numNodes + 1 := Nat.lt_succ_of_le inside
  have all : {w | ∃ way c, Route (network t.lh) (gatewayId + 1) zero way w c} =
      {w | ∃ way c, Route (network t.lh) (gatewayId + 1) zero way w c ∧ gatewayId + 1 ∈ way} := by
    ext w
    refine exists_congr fun way => exists_congr fun c => ⟨fun route => ⟨route, ?_⟩, And.left⟩
    exact source_mem (trace_of_route planted.settled planted.grown (planted.settled.root_none looked) route looked).1
  rw [run, all]
  rfl

theorem flows_counted_relay : ∃ g' t, constructTree relay unlinked relay 2 3 = some (g', some t) ∧
    ∃ t', countChildren (3 + 1) (2 + 1) t =
      some (({w | ∃ way c, Route (network t.lh) (2 + 1) zero way w c}.ncard : ℤ) - 1, t') ∧
      ∀ u, t'.links u = (t.links u).map fun l => { l with flow := through t (2 + 1) l.lnDst } := by
  obtain ⟨g', t, built⟩ : ∃ g' t, constructTree relay unlinked relay 2 3 = some (g', some t) := by
    have made : ((constructTree relay unlinked relay 2 3).bind Prod.snd).isSome = true := by decide +kernel
    obtain ⟨t, found⟩ := Option.isSome_iff_exists.mp made
    obtain ⟨⟨g', r⟩, run, same⟩ := Option.bind_eq_some_iff.mp found
    exact ⟨g', t, run.trans (congrArg (fun r => some (g', r)) same)⟩
  exact ⟨g', t, built, flows_counted (fun _ l member => ⟨l, member, rfl, rfl⟩) numbered_relay plain_relay
    (numbered_unlinked 3) (by decide) (by decide) built⟩

end Ditto.RoutePlanner
