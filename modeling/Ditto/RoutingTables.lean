import Ditto.PlannedTrees

/-! The tables of `print_routing_tables`. The tree of a gateway is given its links the other way
round, and a row is the next hop of a route that `get_route` finds in it. In a tree there is one
path between two nodes; so the row of the next node goes on along the same path, and who passes
on by the tables gets there. -/
namespace Ditto.RoutePlanner
open ShortestPaths Cost TreeForwarding SimpleGraph

variable {C : Type} {metric tree g g' : Graph C} {numNodes numGateways gw root size i j u v w : ℕ} {way : List ℕ}
  {into : ℕ → Option (ℕ × Link C)} {l : Link C} {R : ℕ → ℕ → Prop}

/-! ## Links that join -/

/-- Links join only what is related. -/
def Joins (R : ℕ → ℕ → Prop) (g : Graph C) : Prop := ∀ u, ∀ l ∈ g.links u, R u l.lnDst

theorem Joins.add {cost : C} {outif inif channel : ℤ} (joins : Joins R g) (related : R u v) :
    Joins R (addLink u v cost g outif inif channel) := by
  intro w l member
  rcases mem_links_add member with known | ⟨rfl, key, -⟩
  · exact joins w l known
  · rwa [show l.lnDst = v from congrArg Prod.fst key]

theorem Joins.init [Cost C] (joins : Joins R g) (heads : g'.lh = (initSingleSource root g size).lh) : Joins R g' := by
  intro u l member
  obtain ⟨l₀, member₀, key, -⟩ := link_of_init heads member
  rw [← show l₀.lnDst = l.lnDst from congrArg Prod.fst key]
  exact joins u l₀ member₀

/-- The links of a node the other way round. -/
theorem Joins.turn (symmetric : ∀ {u v}, R u v → R v u) (links : List (Link C)) (related : ∀ l ∈ links, R i l.lnDst)
    (joins : Joins R g) : Joins R (links.foldl (fun g l => addLink l.lnDst i l.lnCost g 0 0 0) g) := by
  induction links generalizing g with
  | nil => exact joins
  | cons l rest ih =>
    exact ih (fun l' member => related l' (List.mem_cons_of_mem l member))
      (joins.add (symmetric (related l List.mem_cons_self)))

theorem Joins.bidirectionalize (symmetric : ∀ {u v}, R u v → R v u) (joins : Joins R g) :
    Joins R (bidirectionalizeGraph numNodes g) := by
  unfold bidirectionalizeGraph
  induction List.range' 1 numNodes generalizing g with
  | nil => exact joins
  | cons i rest ih => exact ih (joins.turn symmetric (g.links i) fun l member => joins i l member)

theorem valid_turn (links : List (Link C)) (valid : (g.lh v).valid = true) :
    ((links.foldl (fun g l => addLink l.lnDst i l.lnCost g 0 0 0) g).lh v).valid = true := by
  induction links generalizing g with
  | nil => exact valid
  | cons l rest ih => exact ih (by rw [valid_add, valid]; simp)

theorem valid_bidirectionalize (valid : (g.lh v).valid = true) :
    ((bidirectionalizeGraph numNodes g).lh v).valid = true := by
  unfold bidirectionalizeGraph
  induction List.range' 1 numNodes generalizing g with
  | nil => exact valid
  | cons i rest ih => exact ih (valid_turn (g.links i) valid)

/-! ## The tree as a graph without directions -/

/-- The tree's links, with their directions left out. -/
def treeGraph (tree : Graph C) : SimpleGraph ℕ := fromRel fun u v => ∃ l ∈ tree.links u, l.lnDst = v

theorem tree_acyclic [Cost C] {done : ℕ → Prop} (grown : Grown g size into root done tree) :
    (treeGraph tree).IsAcyclic := by
  obtain ⟨back, known, blank⟩ := exists_back into root
  have child {u v : ℕ} (member : ∃ l ∈ tree.links u, l.lnDst = v) :
      (if back v = [] then none else (into v).map Prod.fst) = some u := by
    obtain ⟨l, member, rfl⟩ := member
    obtain ⟨l', way, link, led, -⟩ := grown.kept member
    have long : back l.lnDst ≠ [] := by
      rw [known _ way led.trace]
      exact List.ne_nil_of_mem (last_mem led.trace)
    rw [if_neg long, link]
    rfl
  refine acyclic_of_parents (fun v => if back v = [] then none else (into v).map Prod.fst)
    (fun v => (back v).length) ?_ ?_
  · intro u v parent
    split at parent
    · cases parent
    next found =>
      have trace := blank v found
      obtain ⟨⟨x, l⟩, link, rfl⟩ := Option.map_eq_some_iff.mp parent
      generalize same : back v = way at trace
      cases trace with
      | here first =>
        rw [first] at link
        cases link
      | on before link' =>
        rw [link, Option.some.injEq, Prod.mk.injEq] at link'
        obtain ⟨rfl, -⟩ := link'
        rw [known _ _ before]
        simp
  · intro u v edge
    rcases edge.2 with down | up
    · exact .inl (child down)
    · exact .inr (child up)

/-- A way along links that join neighbours of a graph, which visits no node twice, is a path of it. -/
theorem path_of_route [Cost C] {G : SimpleGraph ℕ} {c : C} (joins : Joins (fun u v => u ≠ v → G.Adj u v) g)
    (route : Route (network g.lh) i zero way j c) (single : way.Nodup) :
    ∃ p : G.Walk i j, p.IsPath ∧ p.support = way := by
  suffices walk : ∃ p : G.Walk i j, p.support = way by
    obtain ⟨p, visits⟩ := walk
    exact ⟨p, Walk.IsPath.mk' (visits ▸ single), visits⟩
  induction route with
  | here => exact ⟨.nil, rfl⟩
  | @on way u c l before member ih =>
    obtain ⟨p, visits⟩ := ih (single.sublist (List.sublist_append_left _ _))
    have other : u ≠ l.lnDst := by
      have inside : u ∈ way := visits ▸ p.end_mem_support
      intro same
      exact (List.nodup_append.mp single).2.2 u inside l.lnDst (List.mem_singleton_self _) same
    have edge : G.Adj u l.lnDst := joins u l member other
    show ∃ p : G.Walk i l.lnDst, p.support = way ++ [l.lnDst]
    exact ⟨p.concat edge, by rw [Walk.support_concat, visits]⟩

/-- The second node of a path is the next hop. -/
theorem snd_of_support {G : SimpleGraph ℕ} (p : G.Walk i j) (visits : p.support = way) (long : 2 ≤ way.length) :
    ¬ p.Nil ∧ way[1]? = some p.snd := by
  subst visits
  cases p with
  | nil => simp at long
  | cons edge p =>
    refine ⟨Walk.not_nil_cons, ?_⟩
    rw [Walk.support_cons, List.getElem?_cons_succ, Walk.snd_cons, ← p.cons_tail_support, List.getElem?_cons_zero]

/-! ## Rows -/

/-- A row is the first hop of a path in the tree. -/
def FirstHop (G : SimpleGraph ℕ) (row : ℕ × ℕ × ℕ) : Prop :=
  ∃ p : G.Walk row.1 row.2.1, p.IsPath ∧ ¬ p.Nil ∧ p.snd = row.2.2

/-- The node of a row, and its destination, are listed. -/
def Between (numNodes numGateways gw : ℕ) (tree : Graph C) (row : ℕ × ℕ × ℕ) : Prop :=
  (Node numNodes row.1 ∧ listed numNodes numGateways gw tree row.1 = true) ∧
    Node numNodes row.2.1 ∧ listed numNodes numGateways gw tree row.2.1 = true

/-- What holds between the rounds: the links still are those of the tree, and the rows first hops. -/
structure Printing (G : SimpleGraph ℕ) (bidir : Graph C) (numNodes numGateways gw : ℕ)
    (printed : Graph C × List (ℕ × ℕ × ℕ)) : Prop where
  joins : Joins (fun u v => u ≠ v → G.Adj u v) printed.1
  numbered : Numbered numNodes printed.1
  valid : ∀ v, (printed.1.lh v).valid = (bidir.lh v).valid
  rows : ∀ row ∈ printed.2, FirstHop G row ∧ Between numNodes numGateways gw bidir row

theorem listed_of_valid {bidir : Graph C} (valid : ∀ v, (g.lh v).valid = (bidir.lh v).valid) (v : ℕ) :
    listed numNodes numGateways gw g v = listed numNodes numGateways gw bidir v := by
  rw [listed, listed, valid]

/-- A round prints a first hop of a path, or nothing, where the nodes are not listed. -/
theorem row_step [Cost C] {G : SimpleGraph ℕ} {bidir : Graph C} {printed printed' : Graph C × List (ℕ × ℕ × ℕ)}
    (small : numNodes < slotsOfT)
    (node : Node numNodes i) (node' : Node numNodes j) (printing : Printing G bidir numNodes numGateways gw printed)
    (row : tableRow numNodes numGateways gw printed (i, j) = some printed') :
    Printing G bidir numNodes numGateways gw printed' ∧ (∀ row ∈ printed.2, row ∈ printed'.2) ∧
      (i ≠ j → listed numNodes numGateways gw bidir i = true → listed numNodes numGateways gw bidir j = true →
        ∃ h, (i, j, h) ∈ printed'.2) := by
  obtain ⟨joins, numbered, valid, rows⟩ := printing
  have fits : numNodes + 1 ≤ slotsOfT := small
  unfold tableRow at row
  split at row
  next asked =>
    obtain ⟨g', r, run, heads, found⟩ := get_route_of_dijkstra (closed_of_numbered numbered) (Nat.lt_succ_of_le node.2)
      (Nat.lt_succ_of_le node'.2) fits
    simp only [run, Option.bind_eq_bind, Option.bind_some] at row
    rcases found with ⟨rfl, -⟩ | ⟨way, c, rfl, single, long, -, -, cheapest⟩
    · cases row
    · obtain ⟨p, path, visits⟩ := path_of_route joins cheapest.1 single
      obtain ⟨long', next⟩ := snd_of_support p visits long
      have next : (way ++ List.replicate (maxSrLen - way.length) anyDest)[1]? = some p.snd := by
        rw [List.getElem?_append_left (by omega), next]
      simp only [Option.bind_some, next, Option.some.injEq] at row
      subst row
      refine ⟨⟨joins.init heads, numbered_init heads numbered,
        fun v => (valid_init heads v).trans (valid v), ?_⟩, ?_, ?_⟩
      · intro row member
        rcases List.mem_append.mp member with before | last
        · exact rows row before
        · obtain ⟨-, first, second⟩ := asked
          rw [listed_of_valid valid] at first second
          rw [List.mem_singleton.mp last]
          exact ⟨⟨p, path, long', rfl⟩, ⟨node, first⟩, node', second⟩
      · intro row member
        exact List.mem_append_left _ member
      · intro _ _ _
        exact ⟨p.snd, List.mem_append_right _ (List.mem_singleton_self _)⟩
  next silent =>
    cases row
    refine ⟨⟨joins, numbered, valid, rows⟩, fun row member => member, fun other first second => ?_⟩
    rw [← listed_of_valid valid] at first second
    exact absurd ⟨other, first, second⟩ silent

theorem rows_run [Cost C] {G : SimpleGraph ℕ} {bidir : Graph C} {printed printed' : Graph C × List (ℕ × ℕ × ℕ)}
    (small : numNodes < slotsOfT)
    (pairs : List (ℕ × ℕ)) (nodes : ∀ pair ∈ pairs, Node numNodes pair.1 ∧ Node numNodes pair.2)
    (printing : Printing G bidir numNodes numGateways gw printed)
    (run : pairs.foldlM (tableRow numNodes numGateways gw) printed = some printed') :
    Printing G bidir numNodes numGateways gw printed' ∧ (∀ row ∈ printed.2, row ∈ printed'.2) ∧
      ∀ pair ∈ pairs, pair.1 ≠ pair.2 → listed numNodes numGateways gw bidir pair.1 = true →
        listed numNodes numGateways gw bidir pair.2 = true → ∃ h, (pair.1, pair.2, h) ∈ printed'.2 := by
  induction pairs generalizing printed with
  | nil =>
    cases run
    exact ⟨printing, fun row member => member, fun pair member => absurd member List.not_mem_nil⟩
  | cons pair rest ih =>
    rw [List.foldlM_cons] at run
    obtain ⟨printed₁, row, more⟩ := Option.bind_eq_some_iff.mp run
    obtain ⟨node, node'⟩ := nodes pair List.mem_cons_self
    obtain ⟨printing₁, kept, new⟩ := row_step small node node' printing row
    obtain ⟨printing', kept', news⟩ := ih (fun pair' member =>
      nodes pair' (List.mem_cons_of_mem pair member)) printing₁ more
    refine ⟨printing', fun row member => kept' row (kept row member), ?_⟩
    intro pair' member other first second
    rcases List.mem_cons.mp member with rfl | later
    · obtain ⟨h, member'⟩ := new other first second
      exact ⟨h, kept' _ member'⟩
    · exact news pair' later other first second

/-! ## A gateway's part of the graph -/

/-- All links are between the same interfaces, as those that are read from a file. -/
def Plain (g : Graph C) : Prop := ∀ u, ∀ l ∈ g.links u, l.outif = 0 ∧ l.inif = 0

theorem plain_add {cost : C} {channel : ℤ} (plain : Plain g) : Plain (addLink u v cost g 0 0 channel) := by
  intro w l member
  rcases mem_links_add member with known | ⟨-, key, -⟩
  · exact plain w l known
  · exact ⟨congrArg (fun k => k.2.1) key, congrArg (fun k => k.2.2) key⟩

theorem plain_relay : Plain relay := plain_add (plain_add (plain_add fun _ _ member => absurd member List.not_mem_nil))

theorem Within.add (within : Within g metric) (plain : Plain metric) (member : l ∈ metric.links u) :
    Within (addLink u l.lnDst l.lnCost g 0 0 0) metric := by
  intro w l' member'
  rcases mem_links_add member' with known | ⟨rfl, key, cost⟩
  · exact within w l' known
  · obtain ⟨outif, inif⟩ := plain w l member
    exact ⟨l, member, by rw [key, Link.key, outif, inif], cost.symm⟩

theorem links_copy_node (v u : ℕ) : (copyNode metric v g).links u = g.links u := by
  simp only [copyNode, Graph.links]
  by_cases same : u = v
  · subst same
    rw [Function.update_self]
  · rw [Function.update_of_ne same]

/-- A copy has the links of the graph, and those that were there, and no others. -/
theorem within_copy (plain : Plain metric) (within : Within g metric) : Within (copyGraph numNodes metric g) metric := by
  have node (v : ℕ) (links : List (Link C)) (known : ∀ l ∈ links, l ∈ metric.links v)
      {g : Graph C} (within : Within g metric) :
      Within (links.foldl (fun g l => addLink v l.lnDst l.lnCost g 0 0 0) g) metric := by
    induction links generalizing g with
    | nil => exact within
    | cons l rest ih =>
      exact ih (fun l' member => known l' (List.mem_cons_of_mem l member))
        (within.add plain (known l List.mem_cons_self))
  unfold copyGraph
  induction List.range' 1 numNodes generalizing g with
  | nil => exact within
  | cons v rest ih =>
    refine ih ?_
    intro u l member
    rw [links_copy_node] at member
    exact node v (metric.links v) (fun _ known => known) within u l member

/-- Of the nodes that are deleted no link is left. -/
theorem mem_delete (nodes : List ℕ) (p : ℕ → Prop) [DecidablePred p] (numbered : Numbered numNodes g)
    (member : l ∈ (nodes.foldl (fun g i => if p i then delVertex numNodes (i + 1) g else g) g).links u) :
    l ∈ g.links u ∧ ∀ i ∈ nodes, p i → u ≠ i + 1 ∧ l.lnDst ≠ i + 1 := by
  induction nodes generalizing g with
  | nil => exact ⟨member, fun i absent => absurd absent List.not_mem_nil⟩
  | cons i rest ih =>
    rw [List.foldl_cons] at member
    by_cases gone : p i
    · rw [if_pos gone] at member
      have outside (u : ℕ) (l : Link C) (left : l ∈ (delVertex numNodes (i + 1) g).links u) : l ∈ g.links u := by
        simp only [Graph.links, delVertex] at left
        split at left
        · split at left
          · cases left
          · exact (List.mem_filter.mp left).1
        · exact left
      obtain ⟨left, away⟩ := ih (fun u l left => numbered u l (outside u l left)) member
      have known := outside u l left
      refine ⟨known, fun j member' gone' => ?_⟩
      rcases List.mem_cons.mp member' with rfl | later
      · exact (mem_del_vertex left (numbered u l known).1).2
      · exact away j later gone'
    · rw [if_neg gone] at member
      obtain ⟨known, away⟩ := ih numbered member
      refine ⟨known, fun j member' gone' => ?_⟩
      rcases List.mem_cons.mp member' with rfl | later
      · exact absurd gone' gone
      · exact away j later gone'

/-- The gateway, or a node that is configured to it. -/
def Own (config : ℕ → ℤ) (numNodes numGateways gwid v : ℕ) : Prop :=
  v = gwid + 1 ∨ 1 ≤ v ∧ v ≤ numNodes - numGateways ∧ config (v - 1) = (gwid : ℤ) - (numNodes - numGateways)

theorem numbered_of_within (within : Within g metric) (numbered : Numbered numNodes metric) : Numbered numNodes g := by
  intro u l member
  obtain ⟨l', member', key, -⟩ := within u l member
  rw [← show l'.lnDst = l.lnDst from congrArg Prod.fst key]
  exact numbered u l' member'

/-- A gateway's part of the graph has links of the graph, and joins its own nodes. -/
theorem subconfiguration_links [Cost C] {subgraph : Graph C} {config : ℕ → ℤ} {gwid : ℕ} (plain : Plain metric)
    (numbered : Numbered numNodes metric) (blank : Numbered numNodes subgraph) (gateways : numGateways ≤ numNodes) :
    Within (constructGraphForASubconfiguration metric subgraph config gwid numNodes numGateways).1 metric ∧
      Joins (fun u v => Own config numNodes numGateways gwid u ∧ Own config numNodes numGateways gwid v)
        (constructGraphForASubconfiguration metric subgraph config gwid numNodes numGateways).1 := by
  have copied : Within (copyGraph numNodes metric (resetGraph numNodes subgraph)) metric := by
    refine within_copy plain fun u l member => ?_
    rw [links_reset blank] at member
    cases member
  have first := fun (u : ℕ) (l : Link C) => @mem_delete C _ numNodes u l (List.range (numNodes - numGateways))
    (fun i => config i ≠ (gwid : ℤ) - (numNodes - numGateways)) _ (numbered_of_within copied numbered)
  have within' := fun u l member => copied u l (first u l member).1
  have second := fun (u : ℕ) (l : Link C) => @mem_delete C _ numNodes u l
    (List.range' (numNodes - numGateways) numGateways)
    (fun i => i ≠ gwid) _ (numbered_of_within within' numbered)
  refine ⟨fun u l member => within' u l (second u l member).1, fun u l member => ?_⟩
  obtain ⟨known, away⟩ := second u l member
  obtain ⟨node, node'⟩ := numbered_of_within within' numbered u l known
  obtain ⟨-, kept⟩ := first u l known
  have own (w : ℕ) (node : Node numNodes w)
      (kept : ∀ i ∈ List.range (numNodes - numGateways), config i ≠ (gwid : ℤ) - (numNodes - numGateways) → w ≠ i + 1)
      (left : ∀ i ∈ List.range' (numNodes - numGateways) numGateways, i ≠ gwid → w ≠ i + 1) :
        Own config numNodes numGateways gwid w := by
    obtain ⟨i, rfl⟩ : ∃ i, w = i + 1 := ⟨w - 1, by have := node.1; omega⟩
    have last := node.2
    by_cases late : numNodes - numGateways ≤ i
    · by_contra other
      refine left i (List.mem_range'_1.mpr ⟨late, by omega⟩) (fun same => other (.inl (by rw [same]))) rfl
    · by_contra other
      refine kept i (List.mem_range.mpr (by omega)) (fun same => other (.inr ⟨by omega, by omega, ?_⟩)) rfl
      exact same
  exact ⟨own u node (fun i inside gone => (kept i inside gone).1) fun i inside gone => (away i inside gone).1,
    own l.lnDst node' (fun i inside gone => (kept i inside gone).2) fun i inside gone => (away i inside gone).2⟩

/-! ## Passing on -/

/-- The tree joins what the graph joins. -/
theorem joins_of_grown [Cost C] {done : ℕ → Prop} (joins : Joins R g)
    (grown : Grown g size into root done tree) : Joins R tree := by
  intro u l member
  obtain ⟨l', way, link, led, -⟩ := grown.kept member
  obtain ⟨member', reached, -⟩ := led.linked _ (last_mem led.trace) u l' link
  rw [← reached]
  exact joins u l' member'

theorem numbered_of_grown [Cost C] {done : ℕ → Prop} (numbered : Numbered numNodes g)
    (grown : Grown g size into root done tree) :
    Numbered numNodes tree :=
  joins_of_grown (R := fun u v => Node numNodes u ∧ Node numNodes v) numbered grown

/-- What a link of the tree joins is listed of it. -/
theorem listed_of_adj {config : ℕ → ℤ} {gwid : ℕ} (numbered : Numbered numNodes tree)
    (own : Joins (fun u v => Own config numNodes numGateways gwid u ∧ Own config numNodes numGateways gwid v) tree)
    (joins : ∀ {u l}, l ∈ tree.links u → (tree.lh u).valid = true ∧ (tree.lh l.lnDst).valid = true)
    (edge : (treeGraph tree).Adj u v) :
    (Node numNodes u ∧ listed numNodes numGateways (gwid + 1) (bidirectionalizeGraph numNodes tree) u = true) ∧
      Node numNodes v ∧ listed numNodes numGateways (gwid + 1) (bidirectionalizeGraph numNodes tree) v = true := by
  have side {u : ℕ} (node : Node numNodes u) (valid : (tree.lh u).valid = true)
      (own : Own config numNodes numGateways gwid u) :
      Node numNodes u ∧ listed numNodes numGateways (gwid + 1) (bidirectionalizeGraph numNodes tree) u = true := by
    refine ⟨node, ?_⟩
    rw [listed, valid_bidirectionalize valid]
    rcases own with rfl | ⟨-, early, -⟩
    · simp
    · simp [early]
  rcases edge.2 with ⟨l, member, rfl⟩ | ⟨l, member, rfl⟩
  · exact ⟨side (numbered u l member).1 (joins member).1 (own u l member).1,
      side (numbered u l member).2 (joins member).2 (own u l member).2⟩
  · exact ⟨side (numbered v l member).2 (joins member).2 (own v l member).2,
      side (numbered v l member).1 (joins member).1 (own v l member).1⟩

/-- The rows of a tree are first hops in it, and there is one for every two nodes that are listed. -/
theorem tables_printed [Cost C] {t' : Graph C} {rows : List (ℕ × ℕ × ℕ)} (numbered : Numbered numNodes tree)
    (small : numNodes < slotsOfT)
    (printed : printRoutingTables tree gw numNodes numGateways = some (t', rows)) :
    Printing (treeGraph tree) (bidirectionalizeGraph numNodes tree) numNodes numGateways gw (t', rows) ∧
      ∀ {i j}, Node numNodes i ∧ listed numNodes numGateways gw (bidirectionalizeGraph numNodes tree) i = true →
        Node numNodes j ∧ listed numNodes numGateways gw (bidirectionalizeGraph numNodes tree) j = true →
          i ≠ j → ∃ h, (i, j, h) ∈ rows := by
  -- a link of the tree with its direction left out
  have edges : Joins (fun u v => u ≠ v → (treeGraph tree).Adj u v) (bidirectionalizeGraph numNodes tree) :=
    Joins.bidirectionalize (fun edge other => (edge other.symm).symm) fun u l member other =>
      ⟨other, .inl ⟨l, member, rfl⟩⟩
  have numbered' : Numbered numNodes (bidirectionalizeGraph numNodes tree) :=
    Joins.bidirectionalize (R := fun u v => Node numNodes u ∧ Node numNodes v) (fun both => both.symm) numbered
  have nodes (pair : ℕ × ℕ) (member : pair ∈ List.product (List.range' 1 numNodes) (List.range' 1 numNodes)) :
      Node numNodes pair.1 ∧ Node numNodes pair.2 := by
    obtain ⟨first, second⟩ := List.pair_mem_product.mp member
    exact ⟨mem_nodes.mp first, mem_nodes.mp second⟩
  obtain ⟨printing, -, full⟩ := rows_run small _ nodes ⟨edges, numbered', fun _ => rfl,
    fun row none => absurd none List.not_mem_nil⟩ printed
  refine ⟨printing, fun {i j} member member' other => ?_⟩
  exact full (i, j) (List.pair_mem_product.mpr ⟨mem_nodes.mpr member.1, mem_nodes.mpr member'.1⟩)
    other member.2 member'.2

/-- Who passes on by the tables of a gateway's tree gets there, along one row for each two nodes. -/
theorem tables_deliver [Cost C] {subgraph t' : Graph C} {config : ℕ → ℤ} {gwid : ℕ}
    {rows : List (ℕ × ℕ × ℕ)} (plain : Plain metric)
    (numbered : Numbered numNodes metric) (blank : Numbered numNodes subgraph) (blank' : Numbered numNodes tree)
    (gateways : numGateways ≤ numNodes) (gateway : gwid < numNodes) (small : numNodes < slotsOfT)
    (built : constructTree metric tree
      (constructGraphForASubconfiguration metric subgraph config gwid numNodes numGateways).1 gwid
      numNodes = some (g', some g))
    (printed : printRoutingTables g (gwid + 1) numNodes numGateways = some (t', rows)) :
    Printing (treeGraph g) (bidirectionalizeGraph numNodes g) numNodes numGateways (gwid + 1) (t', rows) ∧
      ∀ i j, Node numNodes i → Node numNodes j → listed numNodes numGateways (gwid + 1) t' i = true →
        listed numNodes numGateways (gwid + 1) t' j = true → ∃ way, way.Nodup ∧
          Forwards (fun i j h => (i, j, h) ∈ rows) j way i ∧
          ∀ h h', (i, j, h) ∈ rows → (i, j, h') ∈ rows → h = h' := by
  obtain ⟨within, own⟩ := @subconfiguration_links _ metric numNodes numGateways _ subgraph config
    gwid plain numbered blank gateways
  have counted := numbered_of_within within numbered
  obtain ⟨into, heads, -, -, grown⟩ := grown_of_construct_tree within counted blank' gateway small built
  have own : Joins _ g := joins_of_grown (own.init heads) grown
  have counted : Numbered numNodes g := numbered_of_grown (numbered_init heads counted) grown
  have acyclic := tree_acyclic grown
  obtain ⟨printing, full⟩ := tables_printed counted small printed
  have first {i j h : ℕ} (row : (i, j, h) ∈ rows) : ∃ p : (treeGraph g).Walk i j, p.IsPath ∧ ¬ p.Nil ∧ p.snd = h :=
    (printing.rows (i, j, h) row).1
  refine ⟨printing, fun i j node node' listed₁ listed₂ => ?_⟩
  rw [listed_of_valid printing.valid] at listed₁ listed₂
  obtain ⟨p, path⟩ : ∃ p : (treeGraph g).Walk i j, p.IsPath := by
    by_cases same : i = j
    · subst same
      exact ⟨.nil, Walk.IsPath.nil⟩
    · obtain ⟨h, row⟩ := full ⟨node, listed₁⟩ ⟨node', listed₂⟩ same
      obtain ⟨p, path, -⟩ := first row
      exact ⟨p, path⟩
  exact ⟨p.support, path.support_nodup,
    forwards_along acyclic first full (fun edge => listed_of_adj counted own grown.joins edge) ⟨node', listed₂⟩ p path,
    fun h h' row row' => hop_unique acyclic first row row'⟩

end Ditto.RoutePlanner
