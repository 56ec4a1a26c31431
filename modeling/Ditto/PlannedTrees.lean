import Mathlib.Data.List.Perm.Subperm
import Ditto.PlannedRoutes

/-! The tree of `construct_tree`. `make_tree_graph` walks back from every node and puts the links
that it passes into the tree, some of them many times; what it puts there are the links that the
labels came by, with the costs they have in the metric graph. So there is one way in the tree
from the gateway to a node, and it is a cheapest way of the graph. -/
namespace Ditto.RoutePlanner
open ShortestPaths Cost

variable {C : Type} {metric tree g g' : Graph C} {numNodes root size u v w : ℕ} {way : List ℕ}
  {into : ℕ → Option (ℕ × Link C)} {l : Link C}

/-! ## Links that are added -/

theorem mem_add_to {cost : C} {key : ℕ × ℤ × ℤ} {channel : ℤ} {links : List (Link C)}
    (member : l ∈ addTo cost key channel links) :
    l ∈ links ∧ l.key ≠ key ∨ l.key = key ∧ l.lnCost = cost := by
  unfold addTo at member
  split at member
  · obtain ⟨l', known, rfl⟩ := List.mem_map.mp member
    split
    next same => exact .inr ⟨same, rfl⟩
    next other => exact .inl ⟨known, other⟩
  next fresh =>
    rcases List.mem_cons.mp member with rfl | known
    · exact .inr ⟨rfl, rfl⟩
    · exact .inl ⟨known, fun same => fresh (same ▸ List.mem_map_of_mem known)⟩

theorem links_mark (lh : ℕ → LinkHead C) (v w : ℕ) : (markValid lh v w).lhFirst = (lh w).lhFirst := by
  unfold markValid
  by_cases same : w = v
  · subst same
    rw [Function.update_self]
  · rw [Function.update_of_ne same]

theorem valid_mark (lh : ℕ → LinkHead C) (v w : ℕ) : (markValid lh v w).valid = (decide (w = v) || (lh w).valid) := by
  unfold markValid
  by_cases same : w = v
  · subst same
    rw [Function.update_self]
    simp
  · rw [Function.update_of_ne same]
    simp [same]

theorem links_add (u v : ℕ) (cost : C) (g : Graph C) (outif inif channel : ℤ) (w : ℕ) :
    (addLink u v cost g outif inif channel).links w =
      if w = u then addTo cost (v, outif, inif) channel (g.links u) else g.links w := by
  simp only [Graph.links, addLink]
  by_cases same : w = u
  · subst same
    rw [Function.update_self, if_pos rfl, LinkHead.lh_first_add, links_mark, links_mark]
  · rw [Function.update_of_ne same, if_neg same, links_mark, links_mark]

/-- Of the links after `add_link` one is the link that was added, and the others were there. -/
theorem mem_links_add {cost : C} {outif inif channel : ℤ}
    (member : l ∈ (addLink u v cost g outif inif channel).links w) :
    l ∈ g.links w ∨ w = u ∧ l.key = (v, outif, inif) ∧ l.lnCost = cost := by
  rw [links_add] at member
  split at member
  next same =>
    subst same
    exact (mem_add_to member).imp And.left fun added => ⟨rfl, added⟩
  next => exact .inl member

/-- A key that was there is still there, and so is the one of the link that was added. -/
theorem key_add (cost : C) (outif inif channel : ℤ) (key : ℕ × ℤ × ℤ)
    (known : key ∈ (g.links w).map Link.key ∨ w = u ∧ key = (v, outif, inif)) :
    ∃ l ∈ (addLink u v cost g outif inif channel).links w, l.key = key := by
  apply List.mem_map.mp
  rw [links_add]
  split
  next same =>
    subst same
    rw [keys_add_to]
    rcases known with known | ⟨-, rfl⟩
    · split
      · exact known
      · exact List.mem_cons_of_mem _ known
    · split
      next already => exact already
      · exact List.mem_cons_self
  next other => exact known.resolve_right fun new => other new.1

theorem valid_add (u v : ℕ) (cost : C) (g : Graph C) (outif inif channel : ℤ) (w : ℕ) :
    ((addLink u v cost g outif inif channel).lh w).valid = (decide (w = v) || (decide (w = u) || (g.lh w).valid)) := by
  simp only [addLink]
  by_cases same : w = u
  · subst same
    rw [Function.update_self, LinkHead.valid_add, valid_mark, valid_mark]
  · rw [Function.update_of_ne same, valid_mark, valid_mark]

/-! ## The tree that grows -/

/-- Every link of a graph is in another, with the same cost. -/
def Within (g metric : Graph C) : Prop :=
  ∀ u, ∀ l ∈ g.links u, ∃ l' ∈ metric.links u, l'.key = l.key ∧ l'.lnCost = l.lnCost

/-- What the tree has: links that labels came by, which join valid nodes, and those of all
nodes that `done` has. -/
structure Grown [Cost C] (g : Graph C) (size : ℕ) (into : ℕ → Option (ℕ × Link C)) (root : ℕ) (done : ℕ → Prop)
    (tree : Graph C) : Prop where
  kept : ∀ {u l}, l ∈ tree.links u → ∃ l' way, into l.lnDst = some (u, l') ∧ Led g size root into way l.lnDst ∧
    l.key = l'.key ∧ l.lnCost = l'.lnCost
  joins : ∀ {u l}, l ∈ tree.links u → (tree.lh u).valid = true ∧ (tree.lh l.lnDst).valid = true
  has : ∀ {v u l'}, done v → into v = some (u, l') → ∃ l ∈ tree.links u, l.key = l'.key

variable [Cost C] {done : ℕ → Prop} {channel : ℤ}

theorem Grown.add (grown : Grown g size into root done tree) (led : Led g size root into way v)
    (link : into v = some (u, l))
    (reached : l.lnDst = v) :
    Grown g size into root (fun w => done w ∨ w = v) (addLink u v l.lnCost tree l.outif l.inif channel) := by
  refine ⟨?_, ?_, ?_⟩
  · intro w l' member
    rcases mem_links_add member with known | ⟨rfl, key, cost⟩
    · exact grown.kept known
    · obtain rfl : l'.lnDst = v := congrArg Prod.fst key
      exact ⟨l, way, link, led, key.trans (by rw [Link.key, reached]), cost⟩
  · intro w l' member
    rw [valid_add, valid_add]
    rcases mem_links_add member with known | ⟨rfl, key, -⟩
    · simp [(grown.joins known).1, (grown.joins known).2]
    · obtain rfl : l'.lnDst = v := congrArg Prod.fst key
      simp
  · intro w x l' done' link'
    refine key_add l.lnCost l.outif l.inif channel l'.key ?_
    rcases done' with before | rfl
    · obtain ⟨l₀, member, key⟩ := grown.has before link'
      exact .inl (key ▸ List.mem_map_of_mem member)
    · rw [link, Option.some.injEq, Prod.mk.injEq] at link'
      obtain ⟨rfl, rfl⟩ := link'
      exact .inr ⟨rfl, by rw [Link.key, reached]⟩

theorem Grown.widen {done' : ℕ → Prop} (grown : Grown g size into root done tree)
    (fewer : ∀ {v u l}, done' v → into v = some (u, l) → done v) :
    Grown g size into root done' tree :=
  ⟨grown.kept, grown.joins, fun held link => grown.has (fewer held link) link⟩

/-- The links of a way are put into the tree, and none of the assertions fails. -/
theorem grow_tree (within : Within g metric) (agrees : Agrees g size into) (small : size ≤ slotsOfT)
    (led : Led g size root into way v) (grown : Grown g size into root done tree) {rounds : ℕ}
    (enough : way.length ≤ rounds) :
    ∃ tree', growTree metric g root size rounds v tree = some tree' ∧
      Grown g size into root (fun w => done w ∨ w ∈ way) tree' := by
  have trace := led.trace
  induction trace generalizing tree done rounds with
  | here first =>
    obtain ⟨rounds, rfl⟩ : ∃ n, rounds = n + 1 := ⟨rounds - 1, by simp at enough; omega⟩
    obtain ⟨inside, close⟩ := led.near root (List.mem_singleton_self _)
    refine ⟨tree, ?_, grown.widen ?_⟩
    · rw [growTree, if_pos close, if_pos (Nat.le_of_lt inside), if_pos rfl]
    · intro v u l held link
      rcases held with before | last
      · exact before
      · rw [List.mem_singleton.mp last, first] at link
        cases link
  | @on way u v l before link ih =>
    rw [List.length_append, List.length_singleton] at enough
    obtain ⟨rounds, rfl⟩ : ∃ n, rounds = n + 1 := ⟨rounds - 1, by omega⟩
    obtain ⟨inside, close⟩ := led.near v (last_mem led.trace)
    obtain ⟨parent, outif, inif⟩ := agrees.led inside link
    obtain ⟨member, reached, -⟩ := led.linked v (last_mem led.trace) u l link
    obtain ⟨l', member', key, cost⟩ := within u l member
    have below : u ≤ maxNodes := by
      have := ((led.before before).near u (last_mem before)).1
      have := slots_le
      omega
    have found : findLink u v l.outif l.inif metric = some l' := by
      obtain ⟨target, out, inn⟩ : l'.lnDst = l.lnDst ∧ l'.outif = l.outif ∧ l'.inif = l.inif := by
        simpa [Link.key] using key
      rw [← reached, ← target, ← out, ← inn]
      exact find_link_of_mem below member'
    have added := @Grown.add _ _ _ _ _ _ _ _ _ _ _ _ l'.channel grown led link reached
    obtain ⟨tree', run, grown'⟩ := ih (led.before before) added (Nat.le_of_succ_le_succ enough)
    refine ⟨tree', ?_, grown'.widen ?_⟩
    · rw [growTree, if_pos close, if_pos (Nat.le_of_lt inside), if_neg (led.other_of_on before),
        parent, outif, inif, found]
      simp only [Option.bind_eq_bind, Option.bind_some, cost]
      exact run
    · intro w x l₀ held _
      rcases held with first | last
      · exact .inl (.inl first)
      · rcases List.mem_append.mp last with rest | last
        · exact .inr rest
        · exact .inl (.inr (List.mem_singleton.mp last))

/-! ## The whole tree -/

/-- The nodes of a way are below the size, so there are not more. -/
theorem Led.short (led : Led g size root into way v) : way.length ≤ size := by
  have all : way ⊆ List.range size := fun w member => List.mem_range.mpr (led.near w member).1
  simpa using (List.subperm_of_subset led.single all).length_le

/-- The root came by no link. -/
theorem Led.root_none (led : Led g size root into way root) : into root = none := by
  have trace := led.trace
  cases trace with
  | here first => exact first
  | on before link => exact absurd rfl (led.other_of_on before)

/-- A round of `make_tree_graph`. -/
theorem grow_round (within : Within g metric) (small : size ≤ slotsOfT) (settled : Settled g root size into)
    (grown : Grown g size into root done tree) (inside : v < size) :
    ∃ tree', (if v = root then some tree else growTree metric g root size (size + 1) v tree) = some tree' ∧
      Grown g size into root (fun w => done w ∨ w = v ∧ g.d v < inflen) tree' := by
  by_cases first : v = root
  · subst first
    refine ⟨tree, if_pos rfl, grown.widen ?_⟩
    rintro w u l (before | ⟨rfl, near⟩) link
    · exact before
    · obtain ⟨way, led, -⟩ := settled.led inside near
      rw [led.root_none] at link
      cases link
  · by_cases near : g.d v < inflen
    · obtain ⟨way, led, -⟩ := settled.led inside near
      obtain ⟨tree', run, grown'⟩ := grow_tree within settled.agrees small led grown (Nat.le_succ_of_le led.short)
      refine ⟨tree', by rw [if_neg first, run], grown'.widen ?_⟩
      rintro w u l (before | ⟨rfl, -⟩) _
      · exact .inl before
      · exact .inr (last_mem led.trace)
    · refine ⟨tree, ?_, grown.widen ?_⟩
      · rw [if_neg first, growTree, if_neg near]
      · rintro w u l (before | ⟨-, close⟩) _
        · exact before
        · exact absurd close near

theorem grow_rounds (within : Within g metric) (small : size ≤ slotsOfT) (settled : Settled g root size into)
    (nodes : List ℕ)
    (inside : ∀ v ∈ nodes, v < size) (grown : Grown g size into root done tree) :
    ∃ tree', nodes.foldlM (fun tree v =>
      if v = root then some tree else growTree metric g root size (size + 1) v tree) tree =
        some tree' ∧ Grown g size into root (fun w => done w ∨ w ∈ nodes ∧ g.d w < inflen) tree' := by
  induction nodes generalizing tree done with
  | nil => exact ⟨tree, rfl, grown.widen fun held _ => held.resolve_right fun last => absurd last.1 List.not_mem_nil⟩
  | cons v rest ih =>
    obtain ⟨tree₁, run, grown₁⟩ := grow_round within small settled grown (inside v List.mem_cons_self)
    obtain ⟨tree₂, runs, grown₂⟩ := ih (fun w member => inside w (List.mem_cons_of_mem v member)) grown₁
    refine ⟨tree₂, ?_, grown₂.widen ?_⟩
    · rw [List.foldlM_cons, run]
      exact runs
    · rintro w u l (before | ⟨member, near⟩) _
      · exact .inl (.inl before)
      · rcases List.mem_cons.mp member with rfl | later
        · exact .inl (.inr ⟨rfl, near⟩)
        · exact .inr ⟨later, near⟩

/-- A node from one to the number of nodes. -/
def Node (numNodes v : ℕ) : Prop := 1 ≤ v ∧ v ≤ numNodes

instance : Decidable (Node numNodes v) := inferInstanceAs (Decidable (1 ≤ v ∧ v ≤ numNodes))

/-- All links are between the nodes that are counted. -/
def Numbered (numNodes : ℕ) (g : Graph C) : Prop := ∀ u, ∀ l ∈ g.links u, Node numNodes u ∧ Node numNodes l.lnDst

theorem mem_nodes : v ∈ List.range' 1 numNodes ↔ Node numNodes v := by
  rw [List.mem_range'_1, Node]
  omega

omit [Cost C] in
theorem mem_del_vertex (member : l ∈ (delVertex numNodes v g).links u) (node : Node numNodes u) :
    l ∈ g.links u ∧ u ≠ v ∧ l.lnDst ≠ v := by
  simp only [Graph.links, delVertex, if_pos (show 1 ≤ u ∧ u ≤ numNodes from node)] at member
  split at member
  · cases member
  next other =>
    obtain ⟨known, away⟩ := List.mem_filter.mp member
    exact ⟨known, other, by simpa using away⟩

omit [Cost C] in
theorem closed_of_numbered (numbered : Numbered numNodes g) : Closed g.lh (numNodes + 1) :=
  fun u _ l member => Nat.lt_succ_of_le (numbered u l member).2.2

theorem links_reset (numbered : Numbered numNodes tree) (u : ℕ) : (resetGraph numNodes tree).links u = [] := by
  simp only [Graph.links, resetGraph]
  split
  · rfl
  next out =>
    refine List.eq_nil_iff_forall_not_mem.mpr fun l member => ?_
    exact out (numbered u l member).1

/-- `make_tree_graph` ends, and none of its assertions fails; the tree has just the links that
the nodes came by. -/
theorem make_tree (within : Within g metric) (small : numNodes < slotsOfT) {srcAddr : ℕ}
    (settled : Settled g (srcAddr + 1) (numNodes + 1) into)
    (numbered : Numbered numNodes tree) :
    ∃ tree', makeTreeGraph metric (resetGraph numNodes tree) g srcAddr (numNodes + 1) numNodes = some tree' ∧
      Grown g (numNodes + 1) into (srcAddr + 1) (fun w => Node numNodes w ∧ g.d w < inflen) tree' := by
  have bare : Grown g (numNodes + 1) into (srcAddr + 1) (fun _ => False) (resetGraph numNodes tree) := by
    have none {u : ℕ} {l : Link C} (member : l ∈ (resetGraph numNodes tree).links u) : False := by
      rw [links_reset numbered] at member
      cases member
    exact ⟨fun member => (none member).elim, fun member => (none member).elim, fun held => held.elim⟩
  obtain ⟨tree', run, grown⟩ := grow_rounds within (show numNodes + 1 ≤ slotsOfT from small) settled
    (List.range' 1 numNodes)
    (fun v member => Nat.lt_succ_of_le (mem_nodes.mp member).2) bare
  refine ⟨takeLabels g (srcAddr + 1) (numNodes + 1) tree', ?_, grown.kept, grown.joins,
    fun held link => grown.has (.inr ⟨mem_nodes.mpr held.1, held.2⟩) link⟩
  rw [makeTreeGraph, run]
  rfl

/-! ## Ways in the tree -/

/-- A way in the tree is the way that the labels lead back, and costs as much as in the graph. -/
theorem trace_of_route {c : C} (settled : Settled g root size into) (grown : Grown g size into root done tree)
    (first : into root = none) (route : Route (network tree.lh) root zero way v c) (inside : root < size) :
    Trace into root way v ∧ c = g.d v := by
  induction route with
  | here =>
    refine ⟨.here first, ?_⟩
    have origin := settled.sound.origin
    rw [cost_of_lt inside] at origin
    exact origin.symm
  | @on way u c l before member ih =>
    obtain ⟨trace, rfl⟩ := ih
    obtain ⟨l', way', link, led, -, cost⟩ := grown.kept member
    refine ⟨.on trace link, ?_⟩
    have paid := (led.linked _ (last_mem led.trace) u l' link).2.2
    show plus (g.d u) l.lnCost = g.d l.lnDst
    rw [paid, cost]

/-- The way that the labels lead back to a node is in the tree. -/
theorem route_of_led (settled : Settled g root size into) (grown : Grown g size into root done tree)
    (held : ∀ w ∈ way, w ≠ root → done w) (led : Led g size root into way v) :
      Route (network tree.lh) root zero way v (g.d v) := by
  have trace := led.trace
  induction trace with
  | here first =>
    have origin := settled.sound.origin
    rw [cost_of_lt (led.near root (List.mem_singleton_self _)).1] at origin
    rw [show g.d root = zero from origin]
    exact .here
  | @on way u v l before link ih =>
    have other := led.other_of_on before
    obtain ⟨l', member, key⟩ := grown.has (held v (last_mem led.trace) other) link
    obtain ⟨l₀, -, link₀, -, -, cost⟩ := grown.kept member
    obtain ⟨-, reached, paid⟩ := led.linked v (last_mem led.trace) u l link
    obtain rfl : l'.lnDst = v := (congrArg Prod.fst key).trans reached
    rw [link, Option.some.injEq, Prod.mk.injEq] at link₀
    obtain ⟨-, rfl⟩ := link₀
    have route := ih (fun w inside => held w (List.mem_append_left _ inside)) (led.before before)
    rw [paid, ← cost]
    exact @Route.on _ _ _ _ (network tree.lh) root zero way u (g.d u) l' route member

theorem Settled.root_none (settled : Settled g root size into) (inside : root < size) : into root = none := by
  have origin := settled.sound.origin
  rw [cost_of_lt inside] at origin
  obtain ⟨way, led, -⟩ := settled.led inside (origin ▸ positive)
  exact led.root_none

/-- A node that has a cost, other than the root, is counted. -/
theorem Settled.node (settled : Settled g root size into) (numbered : Numbered numNodes g)
    (other : v ≠ root) (inside : v < size)
    (near : g.d v < inflen) : Node numNodes v := by
  rcases settled.sound.came (by rwa [cost_of_lt inside] : (labels g size into).cost v < inflen) with
    ⟨same, -⟩ | ⟨u, l, -, -, link, rfl, -⟩
  · exact absurd same other
  · exact (numbered u l link).2

theorem link_of_init (heads : g'.lh = (initSingleSource root g size).lh) (member : l ∈ g'.links u) :
    ∃ l₀ ∈ g.links u, l₀.key = l.key ∧ l₀.lnCost = l.lnCost := by
  have known : l ∈ (initSingleSource root g size).links u := by
    rw [Graph.links, ← heads]
    exact member
  rw [links_init] at known
  split at known
  · obtain ⟨l₀, member₀, rfl⟩ := List.mem_map.mp known
    exact ⟨l₀, member₀, rfl, rfl⟩
  · exact ⟨l, known, rfl, rfl⟩

theorem within_init (heads : g'.lh = (initSingleSource root g size).lh) (within : Within g metric) :
    Within g' metric := by
  intro u l member
  obtain ⟨l₀, member₀, key, cost⟩ := link_of_init heads member
  obtain ⟨l', member', key', cost'⟩ := within u l₀ member₀
  exact ⟨l', member', key'.trans key, cost'.trans cost⟩

theorem numbered_init (heads : g'.lh = (initSingleSource root g size).lh)
    (numbered : Numbered numNodes g) : Numbered numNodes g' := by
  intro u l member
  obtain ⟨l₀, member₀, key, -⟩ := link_of_init heads member
  rw [← show l₀.lnDst = l.lnDst from congrArg Prod.fst key]
  exact numbered u l₀ member₀

theorem valid_init (heads : g'.lh = (initSingleSource root g size).lh) (v : ℕ) : (g'.lh v).valid = (g.lh v).valid := by
  rw [heads]
  simp only [initSingleSource]
  split <;> rfl

/-- What `construct_tree` makes of a graph. -/
theorem construct_tree_grown {gatewayId : ℕ} (within : Within g metric) (numbered : Numbered numNodes g)
    (blank : Numbered numNodes tree) (inside : gatewayId + 1 ≤ numNodes) (small : numNodes < slotsOfT) :
    ∃ g' into, g'.lh = (initSingleSource (gatewayId + 1) g (numNodes + 1)).lh ∧
      Settled g' (gatewayId + 1) (numNodes + 1) into ∧
      ((constructTree metric tree g gatewayId numNodes = some (g', none) ∧ disconnected numNodes g' = true) ∨
        ∃ t, constructTree metric tree g gatewayId numNodes = some (g', some t) ∧ disconnected numNodes g' = false ∧
          Grown g' (numNodes + 1) into (gatewayId + 1) (fun w => Node numNodes w ∧ g'.d w < inflen) t) := by
  have fits : numNodes + 1 ≤ slotsOfT := small
  obtain ⟨g', run, heads, into, settled⟩ := dijkstra_ends (closed_of_numbered numbered)
    (Nat.lt_succ_of_le inside) (fits.trans (by decide))
  refine ⟨g', into, heads, settled, ?_⟩
  cases apart : disconnected numNodes g' with
  | true =>
    refine .inl ⟨?_, rfl⟩
    rw [constructTree, run]
    simp [apart]
  | false =>
    obtain ⟨t, made, grown⟩ := make_tree (within_init heads within) small settled blank
    refine .inr ⟨t, ?_, rfl, grown⟩
    rw [constructTree, run]
    simp [apart, made]

theorem grown_of_construct_tree {gatewayId : ℕ} (within : Within g metric) (numbered : Numbered numNodes g)
    (blank : Numbered numNodes tree) (inside : gatewayId + 1 ≤ numNodes) (small : numNodes < slotsOfT) {t : Graph C}
    (built : constructTree metric tree g gatewayId numNodes = some (g', some t)) :
    ∃ into, g'.lh = (initSingleSource (gatewayId + 1) g (numNodes + 1)).lh ∧
      Settled g' (gatewayId + 1) (numNodes + 1) into ∧
      disconnected numNodes g' = false ∧
        Grown g' (numNodes + 1) into (gatewayId + 1) (fun w => Node numNodes w ∧ g'.d w < inflen) t := by
  obtain ⟨g₁, into, heads, settled, ⟨run, -⟩ | ⟨t₁, run, joined, grown⟩⟩ :=
    construct_tree_grown within numbered blank inside small
  · rw [run] at built
    cases built
  · rw [run, Option.some.injEq, Prod.mk.injEq, Option.some.injEq] at built
    obtain ⟨rfl, rfl⟩ := built
    exact ⟨into, heads, settled, joined, grown⟩

/-- Where no node is cut off, the valid ones are below `INFLEN`. -/
theorem Settled.near (settled : Settled g root (numNodes + 1) into) (joined : disconnected numNodes g = false)
    (node : Node numNodes v) (valid : (g.lh v).valid = true) : g.d v < inflen := by
  have bounded := settled.sound.bounded v
  rw [cost_of_lt (Nat.lt_succ_of_le node.2)] at bounded
  refine bounded.lt_of_ne fun far => ?_
  have apart : disconnected numNodes g = true :=
    List.any_eq_true.mpr ⟨v, mem_nodes.mpr node, by rw [valid, far, decide_eq_true rfl]; rfl⟩
  rw [joined] at apart
  cases apart

/-- A node below `INFLEN` is valid in the tree, if it is not the root. -/
theorem Settled.valid_of_grown {t : Graph C} (settled : Settled g root (numNodes + 1) into)
    (grown : Grown g (numNodes + 1) into root (fun w => Node numNodes w ∧ g.d w < inflen) t) (node : Node numNodes v)
    (near : g.d v < inflen) (other : v ≠ root) : (t.lh v).valid = true := by
  obtain ⟨way, led, -⟩ := settled.led (Nat.lt_succ_of_le node.2) near
  have trace := led.trace
  cases trace with
  | here => exact absurd rfl other
  | on before link =>
    obtain ⟨l, member, key⟩ := grown.has ⟨node, near⟩ link
    have target := (led.linked v (last_mem led.trace) _ _ link).2.1
    rw [← show l.lnDst = v from (congrArg Prod.fst key).trans target]
    exact (grown.joins member).2

/-- **The tree has one way to each valid node, and it is a cheapest way of the graph.** Where there
is no tree, some valid node has no way below `INFLEN`; and none of the assertions fails. -/
theorem construct_tree_cheapest {gatewayId : ℕ} (within : Within g metric) (numbered : Numbered numNodes g)
    (blank : Numbered numNodes tree) (inside : gatewayId + 1 ≤ numNodes) (small : numNodes < slotsOfT) :
    ∃ g' r, constructTree metric tree g gatewayId numNodes = some (g', r) ∧
      ((r = none ∧ ∃ v, Node numNodes v ∧ (g.lh v).valid = true ∧
          ∀ way c, Route (network g.lh) (gatewayId + 1) zero way v c → inflen ≤ c) ∨
        ∃ t, r = some t ∧ ∀ v, Node numNodes v → (g.lh v).valid = true →
          ∃ way c, Cheapest g.lh (gatewayId + 1) v way c ∧ Route (network t.lh) (gatewayId + 1) zero way v c ∧
            ∀ way' c', Route (network t.lh) (gatewayId + 1) zero way' v c' → way' = way ∧ c' = c) := by
  obtain ⟨g', into, heads, settled, ⟨run, apart⟩ | ⟨t, run, joined, grown⟩⟩ :=
    construct_tree_grown within numbered blank inside small
  · refine ⟨g', none, run, .inl ⟨rfl, ?_⟩⟩
    obtain ⟨v, member, far⟩ := List.any_eq_true.mp apart
    rw [Bool.and_eq_true, decide_eq_true_eq, valid_init heads] at far
    have node := mem_nodes.mp member
    refine ⟨v, node, far.1, fun way c route => ?_⟩
    have least := settled.sound.least settled.done (heads ▸ route_init.mpr route)
    rwa [cost_of_lt (Nat.lt_succ_of_le node.2), far.2] at least
  · refine ⟨g', some t, run, .inr ⟨t, rfl, fun v node valid => ?_⟩⟩
    have looked : v < numNodes + 1 := Nat.lt_succ_of_le node.2
    have near : g'.d v < inflen := settled.near joined node ((valid_init heads v).trans valid)
    obtain ⟨way, led, cheapest⟩ := settled.led looked near
    have first := settled.root_none (Nat.lt_succ_of_le inside)
    have held (w : ℕ) (member : w ∈ way) (other : w ≠ gatewayId + 1) : Node numNodes w ∧ g'.d w < inflen :=
      ⟨settled.node (numbered_init heads numbered) other (led.near w member).1 (led.near w member).2,
        (led.near w member).2⟩
    refine ⟨way, g'.d v, cheapest_init (heads ▸ cheapest), route_of_led settled grown held led, fun way' c' route => ?_⟩
    obtain ⟨trace, rfl⟩ := trace_of_route settled grown first route (Nat.lt_succ_of_le inside)
    exact ⟨trace.unique led.trace, rfl⟩

omit [Cost C] in
theorem numbered_add {cost : C} {outif inif : ℤ} (numbered : Numbered numNodes g) (node : Node numNodes u)
    (node' : Node numNodes v) :
    Numbered numNodes (addLink u v cost g outif inif channel) := by
  intro w l member
  rcases mem_links_add member with known | ⟨rfl, key, -⟩
  · exact numbered w l known
  · rw [show l.lnDst = v from congrArg Prod.fst key]
    exact ⟨node, node'⟩

theorem numbered_unlinked (numNodes : ℕ) : Numbered numNodes unlinked := fun _ _ member => absurd member List.not_mem_nil

theorem numbered_relay : Numbered 3 relay :=
  numbered_add (numbered_add (numbered_add (numbered_unlinked 3) (by simp [Node]) (by simp [Node]))
    (by simp [Node]) (by simp [Node]))
    (by simp [Node]) (by simp [Node])

theorem construct_tree_cheapest_relay : ∃ g' r, constructTree relay unlinked relay 2 3 = some (g', r) ∧
    ((r = none ∧ ∃ v, Node 3 v ∧ (relay.lh v).valid = true ∧ ∀ way c, Route (network relay.lh) (2 + 1) zero way v c →
      inflen ≤ c) ∨
      ∃ t, r = some t ∧ ∀ v, Node 3 v → (relay.lh v).valid = true →
        ∃ way c, Cheapest relay.lh (2 + 1) v way c ∧ Route (network t.lh) (2 + 1) zero way v c ∧
          ∀ way' c', Route (network t.lh) (2 + 1) zero way' v c' → way' = way ∧ c' = c) :=
  construct_tree_cheapest (fun _ l member => ⟨l, member, rfl, rfl⟩) numbered_relay (numbered_unlinked 3)
    (by decide) (by decide)

end Ditto.RoutePlanner
