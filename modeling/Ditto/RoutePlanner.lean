import Mathlib.Algebra.Order.Group.Int
import Mathlib.Logic.Function.Basic
import Mathlib.Data.List.Basic

/-! The planner of the mesh's routes: a graph of the links that were measured, Dijkstra's
algorithm over it, the tree of least costs for a gateway, and the routes and tables that are
printed. Arrays are functions of the node; an assertion that fails, a loop whose rounds run out,
and a write behind the array that is too short, is `none`. -/
namespace Ditto.RoutePlanner

/-- What is used of a double that is not below zero: the order, and sums, which are rounded but
keep it. -/
class Cost (C : Type) extends LinearOrder C where
  zero : C
  inflen : C
  plus : C → C → C
  positive : zero < inflen
  grows : ∀ c w, c ≤ plus c w
  keeps : ∀ {c c'} w, c ≤ c' → plus c w ≤ plus c' w

/-- Whole costs, with the `INFLEN` of the planner. -/
instance : Cost ℕ where
  toLinearOrder := inferInstance
  zero := 0
  inflen := 0x7fffffff
  plus := Nat.add
  positive := by decide
  grows := Nat.le_add_right
  keeps := fun w smaller => Nat.add_le_add_right smaller w

/-- `MAX_NODES`, `NIL`, `CURRENT_TIME`, `MAX_SR_LEN` and `ANY_DEST`. -/
def maxNodes : ℕ := 100
def nil : ℕ := 10000
def currentTime : ℤ := 1
def maxSrLen : ℕ := 25
def anyDest : ℕ := 0xffffffff

/-- How many doubles `graph->T` has room for: `init_graph` allocates `MAX_NODES` times the size
of an `unsigned int` for it. The other arrays have `MAX_NODES` entries. -/
def slotsOfT : ℕ := maxNodes * 4 / 8

theorem slots_le : slotsOfT ≤ maxNodes := by decide

variable {C : Type}

/-- `link_struct`. -/
structure Link (C : Type) where
  lnCost : C
  lnDst : ℕ
  outif : ℤ
  inif : ℤ
  channel : ℤ
  flow : ℤ
  deriving DecidableEq, Repr

/-- What `find_link` looks for. -/
def Link.key (l : Link C) : ℕ × ℤ × ℤ := (l.lnDst, l.outif, l.inif)

/-- The links of a node, of which no two have one target and the same interfaces. -/
structure LinkHead (C : Type) where
  lhFirst : List (Link C)
  valid : Bool
  distinct : (lhFirst.map Link.key).Nodup

/-- A node without links. -/
def LinkHead.empty : LinkHead C := ⟨[], false, List.nodup_nil⟩

/-- The graph, and what Dijkstra's algorithm writes of each node. No change is dated later than
`CURRENT_TIME`. `L` and `T` are left out: nothing here reads them. But `T` is too short for
`MAX_NODES` nodes, so that what is written to it for a node from `slotsOfT` on ends up in the
arrays behind it; see `dijkstra`. -/
structure Graph (C : Type) where
  lh : ℕ → LinkHead C
  dirty : ℤ
  dated : dirty ≤ currentTime
  d : ℕ → C
  ch : ℕ → ℤ
  pi : ℕ → ℕ
  piOutif : ℕ → ℤ
  piInif : ℕ → ℤ
  s : ℕ → Bool

/-- The links of a node. -/
def Graph.links (g : Graph C) (v : ℕ) : List (Link C) := (g.lh v).lhFirst

theorem never_dated : (-1 : ℤ) ≤ currentTime := by decide

/-- `init_graph`: what `malloc` found in the arrays stays there. -/
def initGraph (g : Graph C) : Graph C := { g with lh := fun _ => .empty, dirty := -1, dated := never_dated }

/-! ## Links -/

/-- `find_link`. -/
def findLink (source tom : ℕ) (fromif toif : ℤ) (g : Graph C) : Option (Link C) :=
  if source > maxNodes then none else (g.links source).find? fun l => l.key = (tom, fromif, toif)

/-- What `add_link` does to the list: the link is inserted at the head, or has its cost and its channel changed. -/
def addTo (cost : C) (key : ℕ × ℤ × ℤ) (channel : ℤ) (links : List (Link C)) : List (Link C) :=
  if key ∈ links.map Link.key then
    links.map fun l => if l.key = key then { l with lnCost := cost, channel := channel } else l
  else { lnCost := cost, lnDst := key.1, outif := key.2.1, inif := key.2.2, channel := channel, flow := 0 } :: links

theorem keys_add_to (cost : C) (key : ℕ × ℤ × ℤ) (channel : ℤ) (links : List (Link C)) :
    (addTo cost key channel links).map Link.key =
      if key ∈ links.map Link.key then links.map Link.key else key :: links.map Link.key := by
  unfold addTo
  split
  · rw [List.map_map]
    refine List.map_congr_left fun l _ => ?_
    simp only [Function.comp]
    split <;> rfl
  · rfl

/-- The list of a node after `add_link`. -/
def LinkHead.add (h : LinkHead C) (cost : C) (key : ℕ × ℤ × ℤ) (channel : ℤ) : LinkHead C where
  lhFirst := addTo cost key channel h.lhFirst
  valid := h.valid
  distinct := by
    rw [keys_add_to]
    split
    next => exact h.distinct
    next fresh => exact List.nodup_cons.mpr ⟨fresh, h.distinct⟩

@[simp] theorem LinkHead.lh_first_add (h : LinkHead C) (cost : C) (key : ℕ × ℤ × ℤ) (channel : ℤ) :
    (h.add cost key channel).lhFirst = addTo cost key channel h.lhFirst := rfl

@[simp] theorem LinkHead.valid_add (h : LinkHead C) (cost : C) (key : ℕ × ℤ × ℤ) (channel : ℤ) :
    (h.add cost key channel).valid = h.valid := rfl

/-- A node is made valid. -/
def markValid (lh : ℕ → LinkHead C) (v : ℕ) : ℕ → LinkHead C := Function.update lh v { lh v with valid := true }

/-- `add_link`. -/
def addLink (source tom : ℕ) (cost : C) (g : Graph C) (fromif toif channel : ℤ) : Graph C :=
  let lh := markValid (markValid g.lh source) tom
  { g with
    dirty := currentTime
    dated := le_refl _
    lh := Function.update lh source ((lh source).add cost (tom, fromif, toif) channel) }

/-- The links that are left of a node. -/
def LinkHead.keep (p : Link C → Bool) (h : LinkHead C) : LinkHead C :=
  ⟨h.lhFirst.filter p, h.valid, h.distinct.sublist (List.filter_sublist.map _)⟩

/-- `del_link`: of the links of a node there is one at most that is found. -/
def delLink (source tom : ℕ) (fromif toif : ℤ) (g : Graph C) : Graph C :=
  if (findLink source tom fromif toif g).isSome then
    { g with
      dirty := currentTime
      dated := le_refl _
      lh := Function.update g.lh source ((g.lh source).keep fun l => l.key ≠ (tom, fromif, toif)) }
  else g

/-- `del_vertex`. -/
def delVertex (numNodes vertex : ℕ) (g : Graph C) : Graph C :=
  { g with
    lh := fun v =>
      if 1 ≤ v ∧ v ≤ numNodes then
        if v = vertex then .empty else (g.lh v).keep fun l => l.lnDst ≠ vertex
      else g.lh v }

/-- `bidirectionalize_graph`. -/
def bidirectionalizeGraph (numNodes : ℕ) (g : Graph C) : Graph C :=
  (List.range' 1 numNodes).foldl
    (fun g i => (g.links i).foldl (fun g l => addLink l.lnDst i l.lnCost g 0 0 0) g) g

variable [Cost C]
open Cost (zero inflen plus)

/-- `reset_graph`: the last node keeps what is known of it but its links. It writes `T` below
`NUM_NODES`. -/
def resetGraph (numNodes : ℕ) (g : Graph C) : Graph C :=
  { g with
    lh := fun v =>
      if 1 ≤ v ∧ v ≤ numNodes then { LinkHead.empty with valid := v = numNodes ∧ (g.lh v).valid }
      else g.lh v
    d := fun v => if 1 ≤ v ∧ v < numNodes then inflen else g.d v
    ch := fun v => if 1 ≤ v ∧ v < numNodes then 0 else g.ch v
    pi := fun v => if 1 ≤ v ∧ v < numNodes then nil else g.pi v
    piOutif := fun v => if 1 ≤ v ∧ v < numNodes then nil else g.piOutif v
    piInif := fun v => if 1 ≤ v ∧ v < numNodes then nil else g.piInif v
    s := fun v => if 1 ≤ v ∧ v < numNodes then false else g.s v }

/-- What `copy_graph` copies of a node besides its links. -/
def copyNode (source : Graph C) (v : ℕ) (g : Graph C) : Graph C :=
  { g with
    d := Function.update g.d v (source.d v)
    pi := Function.update g.pi v (source.pi v)
    ch := Function.update g.ch v (source.ch v)
    piOutif := Function.update g.piOutif v (source.piOutif v)
    piInif := Function.update g.piInif v (source.piInif v)
    s := Function.update g.s v (source.s v)
    lh := Function.update g.lh v { g.lh v with valid := (source.lh v).valid } }

/-- `copy_graph`. It writes `T` up to `NUM_NODES`. -/
def copyGraph (numNodes : ℕ) (source : Graph C) (g : Graph C) : Graph C :=
  (List.range' 1 numNodes).foldl (fun g v =>
    copyNode source v ((source.links v).foldl (fun g l => addLink v l.lnDst l.lnCost g 0 0 0) g)) g

/-! ## Dijkstra's algorithm -/

/-- A link without its flow. -/
def Link.idle (l : Link C) : Link C := { l with flow := 0 }

/-- `init_single_source`. It writes `T` below `size`. -/
def initSingleSource (source : ℕ) (g : Graph C) (size : ℕ) : Graph C :=
  { g with
    d := Function.update (fun v => if v < size then inflen else g.d v) source zero
    pi := fun v => if v < size then nil else g.pi v
    ch := fun v => if v < size then 0 else g.ch v
    piOutif := fun v => if v < size then nil else g.piOutif v
    piInif := fun v => if v < size then nil else g.piInif v
    s := fun v => if v < size then false else g.s v
    lh := fun v =>
      if v < size then
        { lhFirst := (g.links v).map Link.idle
          valid := (g.lh v).valid
          distinct := by
            rw [List.map_map]
            exact (g.lh v).distinct }
      else g.lh v }

/-- `relax`. -/
def relax (u v : ℕ) (w : C) (outif inif : ℤ) (g : Graph C) : Option (Graph C) :=
  if g.d u < inflen then
    if g.d v > plus (g.d u) w then
      some { g with
        d := Function.update g.d v (plus (g.d u) w)
        pi := Function.update g.pi v u
        piOutif := Function.update g.piOutif v outif
        piInif := Function.update g.piInif v inif }
    else some g
  else none

/-- `extract_min_q`. -/
def extractMinQ (g : Graph C) (size : ℕ) : ℕ :=
  (List.range size).foldl (fun minU u =>
    if g.s u = false ∧ g.d u < inflen ∧ (minU = nil ∨ g.d u < g.d minU) then u else minU) nil

/-- The links of a node whose targets are not explored. -/
def relaxLinks (u : ℕ) (links : List (Link C)) (g : Graph C) : Option (Graph C) :=
  links.foldlM (fun g v =>
    if g.s v.lnDst ≠ true then relax u v.lnDst v.lnCost v.outif v.inif g else some g) g

/-- The `while` loop of `dijkstra`. -/
def dijkstraWhile (size : ℕ) : ℕ → Graph C → Option (Graph C)
  | 0, _ => none
  | rounds + 1, g =>
    let u := extractMinQ g size
    if u = nil then some g
    else do
      let g ← relaxLinks u (g.links u) { g with s := Function.update g.s u true }
      dijkstraWhile size rounds g

/-- `dijkstra`. What comes of it where `init_single_source` writes behind `T` is not modelled. The
planner calls it for `NUM_NODES + 1` nodes, also behind each `reset_graph` and `copy_graph`, which
write no more of `T`. -/
def dijkstra (source : ℕ) (g : Graph C) (size : ℕ) : Option (Graph C) :=
  if size ≤ slotsOfT then dijkstraWhile size (size + 1) (initSingleSource source g size) else none

/-! ## Routes -/

/-- A step of the way back: `rpath`, `outif` and `inif` at one place. -/
structure Back where
  node : ℕ
  outif : ℤ
  inif : ℤ
  deriving DecidableEq, Repr

/-- The first loop of `get_route`, with `left` places left in `rpath`: the places that it
fills, from here on, and the `v` that it ends at. -/
def traceBack (source size : ℕ) (g : Graph C) : ℕ → ℕ → Option (List Back × ℕ)
  | left, v =>
    if g.d v < inflen then
      if v ≤ size then
        match left with
        | 0 => some ([], v)
        | left + 1 =>
          if v = source then some ([⟨v, g.piOutif v, g.piInif v⟩], v)
          else do
            let (rpath, v') ← traceBack source size g left (g.pi v)
            some (⟨v, g.piOutif v, g.piInif v⟩ :: rpath, v')
      else none
    else some ([], v)

/-- The loop of `get_route` that builds the path: what comes behind a node, by the places in
front of it in `rpath`, the last of them first. -/
def buildRoute (g : Graph C) : ℕ → List Back → Option (List ℕ)
  | _, [] => some []
  | last, b :: rest => do
    let l ← findLink (last &&& 0xff) b.node b.outif b.inif g
    some (l.lnDst :: (← buildRoute g l.lnDst rest))

/-- `get_route`: the graph, and the route, if it is not `NULL`. -/
def getRoute (srcAddr destAddr : ℕ) (g : Graph C) (size : ℕ) : Option (Graph C × Option (List ℕ)) := do
  let g ← if g.dirty ≤ currentTime then dijkstra srcAddr g size else some g
  let (rpath, v) ← traceBack srcAddr size g maxSrLen destAddr
  if rpath.length < 2 ∨ g.d v = inflen ∨ rpath.length ≥ maxSrLen then some (g, none)
  else do
    let path ← buildRoute g srcAddr rpath.reverse.tail
    some (g, some ((srcAddr :: path) ++ List.replicate (maxSrLen - (path.length + 1)) anyDest))

/-! ## Trees -/

/-- The inner loop of `make_tree_graph`: the tree with the links from the root to a node. -/
def growTree (metric g : Graph C) (root size : ℕ) : ℕ → ℕ → Graph C → Option (Graph C)
  | 0, _, _ => none
  | rounds + 1, v, tree =>
    if g.d v < inflen then
      if v ≤ size then
        if v = root then some tree
        else do
          let l ← findLink (g.pi v) v (g.piOutif v) (g.piInif v) metric
          growTree metric g root size rounds (g.pi v)
            (addLink (g.pi v) v l.lnCost tree (g.piOutif v) (g.piInif v) l.channel)
      else none
    else some tree

/-- What the tree takes over of the nodes. -/
def takeLabels (g : Graph C) (root size : ℕ) (tree : Graph C) : Graph C :=
  { tree with
    d := fun v => if 1 ≤ v ∧ v < size then (if v = root then zero else g.d v) else tree.d v
    pi := fun v => if 1 ≤ v ∧ v < size then g.pi v else tree.pi v
    piOutif := fun v => if 1 ≤ v ∧ v < size then g.piOutif v else tree.piOutif v
    piInif := fun v => if 1 ≤ v ∧ v < size then g.piInif v else tree.piInif v }

/-- `make_tree_graph`: the tree; in the graph the root's cost is set once more. -/
def makeTreeGraph (metric tree g : Graph C) (srcAddr size numNodes : ℕ) : Option (Graph C) := do
  let tree ← (List.range' 1 numNodes).foldlM (fun tree i =>
    if i = srcAddr + 1 then some tree else growTree metric g (srcAddr + 1) size (size + 1) i tree) tree
  some (takeLabels g (srcAddr + 1) size tree)

/-- `disconnected`. -/
def disconnected (numNodes : ℕ) (g : Graph C) : Bool :=
  (List.range' 1 numNodes).any fun v => (g.lh v).valid && decide (g.d v = inflen)

/-- `construct_tree`: the graph, and the tree, if it is not `NULL`. -/
def constructTree (metric tree g : Graph C) (gatewayId numNodes : ℕ) : Option (Graph C × Option (Graph C)) := do
  let g ← dijkstra (gatewayId + 1) g (numNodes + 1)
  if disconnected numNodes g then some (g, none)
  else do
    let tree ← makeTreeGraph metric (resetGraph numNodes tree) g gatewayId (numNodes + 1) numNodes
    some (g, some tree)

/-- `construct_graph_for_a_subconfiguration`: the graph, and how many nodes are in it. -/
def constructGraphForASubconfiguration (g subgraph : Graph C) (config : ℕ → ℤ) (gwid numNodes numGateways : ℕ) :
    Graph C × ℕ :=
  let gwindex : ℤ := (gwid : ℤ) - (numNodes - numGateways)
  let subgraph := copyGraph numNodes g (resetGraph numNodes subgraph)
  let subgraph := (List.range (numNodes - numGateways)).foldl (fun subgraph i =>
    if config i ≠ gwindex then delVertex numNodes (i + 1) subgraph else subgraph) subgraph
  let subgraph := (List.range' (numNodes - numGateways) numGateways).foldl (fun subgraph i =>
    if i ≠ gwid then delVertex numNodes (i + 1) subgraph else subgraph) subgraph
  (subgraph, ((List.range (numNodes - numGateways)).filter fun i => config i = gwindex).length)

/-! ## Flows -/

/-- The links of a node, with the flow of one of them set. -/
def LinkHead.flowing (h : LinkHead C) (key : ℕ × ℤ × ℤ) (flow : ℤ) : LinkHead C where
  lhFirst := h.lhFirst.map fun l => if l.key = key then { l with flow := flow } else l
  valid := h.valid
  distinct := by
    rw [List.map_map]
    have keys : (Link.key ∘ fun l : Link C => if l.key = key then { l with flow := flow } else l) = Link.key := by
      funext l
      simp only [Function.comp]
      split <;> rfl
    rw [keys]
    exact h.distinct

/-- The flow of the link that is found is set. -/
def setFlow (source tom : ℕ) (flow : ℤ) (g : Graph C) : Graph C :=
  if (findLink source tom 0 0 g).isSome then
    { g with lh := Function.update g.lh source ((g.lh source).flowing (tom, 0, 0) flow) }
  else g

/-- A round of the loop of `count_children`, which calls it for the target of a link. -/
def countTarget (countChildren : ℕ → Graph C → Option (ℤ × Graph C)) (counted : ℤ × Graph C) (v : Link C) :
    Option (ℤ × Graph C) := do
  let (children, g) ← countChildren v.lnDst counted.2
  some (counted.1 + (1 + children), g)

/-- `count_children`, as deep as it may go: how many there are, and the graph. -/
def countChildren : ℕ → ℕ → Graph C → Option (ℤ × Graph C)
  | 0, _, _ => none
  | depth + 1, vertex, g => do
    let (count, g) ← (g.links vertex).foldlM (countTarget (countChildren depth)) ((0 : ℤ), g)
    some (count, setFlow (g.pi vertex) vertex (count + 1) { g with ch := Function.update g.ch vertex count })

/-! ## Tables -/

/-- The nodes that tables are printed of: no gateway but the tree's own. -/
def listed (numNodes numGateways gw : ℕ) (tree : Graph C) (i : ℕ) : Bool :=
  (tree.lh i).valid && !(decide (i > numNodes - numGateways) && decide (i ≠ gw))

/-- A round of `print_routing_tables`, which reads the next hop also where the route is `NULL`. -/
def tableRow (numNodes numGateways gw : ℕ) (printed : Graph C × List (ℕ × ℕ × ℕ)) (pair : ℕ × ℕ) :
    Option (Graph C × List (ℕ × ℕ × ℕ)) :=
  if pair.1 ≠ pair.2 ∧ listed numNodes numGateways gw printed.1 pair.1 ∧
      listed numNodes numGateways gw printed.1 pair.2 then do
    let (tree, route) ← getRoute pair.1 pair.2 printed.1 (numNodes + 1)
    let next ← (← route)[1]?
    some (tree, printed.2 ++ [(pair.1, pair.2, next)])
  else some printed

/-- `print_routing_tables`: the tree, and the rows from a node, to a node, by a node. -/
def printRoutingTables (tree : Graph C) (gw numNodes numGateways : ℕ) : Option (Graph C × List (ℕ × ℕ × ℕ)) :=
  (List.product (List.range' 1 numNodes) (List.range' 1 numNodes)).foldlM (tableRow numNodes numGateways gw)
    (bidirectionalizeGraph numNodes tree, [])

/-! ## Configurations -/

/-- The graphs that all configurations are tried in, one after the other. -/
structure Planner (C : Type) where
  subgraph : Graph C
  tree : Graph C

/-- What is computed with doubles of the links of a tree and of how many nodes it is for, and the
`best_rank` that the search starts with. -/
structure Rating (C R : Type) where
  zero : R
  plus : R → R → R
  performance : (ℕ → List (Link C)) → ℕ → R
  bestRank : R

/-- `model_tree`. -/
def modelTree {R : Type} (rating : Rating C R) (g : Graph C) (gwid numNodesInConfig numNodes : ℕ) :
    Option (R × Graph C) := do
  let (_, g) ← countChildren (numNodes + 1) (gwid + 1) g
  some (rating.performance g.links numNodesInConfig, g)

/-- The loop of `execute_configuration`, from a gateway on. -/
def executeFrom {R : Type} (rating : Rating C R) (g : Graph C) (config : ℕ → ℤ) (numNodes numGateways : ℕ) :
    List ℕ → R → Planner C → Option (R × Planner C)
  | [], rank, planner => some (rank, planner)
  | i :: rest, rank, planner => do
    let (subgraph, retVal) := constructGraphForASubconfiguration g planner.subgraph config i numNodes numGateways
    let (subgraph, tree) ← constructTree g planner.tree subgraph i numNodes
    match tree with
    | none => some (rating.zero, ⟨subgraph, resetGraph numNodes planner.tree⟩)
    | some tree => do
      let (performance, tree) ← modelTree rating tree i retVal numNodes
      executeFrom rating g config numNodes numGateways rest (rating.plus rank performance) ⟨subgraph, tree⟩

/-- `execute_configuration`: the rank, which is `FALSE` where some gateway gets no tree. -/
def executeConfiguration {R : Type} (rating : Rating C R) (g : Graph C) (config : ℕ → ℤ) (numNodes numGateways : ℕ)
    (planner : Planner C) : Option (R × Planner C) :=
  executeFrom rating g config numNodes numGateways (List.range' (numNodes - numGateways) numGateways) rating.zero planner

/-- The variables of `perform_exhaustive_search`. -/
structure Search (C R : Type) where
  bestRank : R
  bestConfig : Option ℕ
  numValid : ℕ
  numDisc : ℕ
  planner : Planner C

/-- A round of `perform_exhaustive_search`. -/
def searchStep {R : Type} [LinearOrder R] (rating : Rating C R) (g : Graph C) (configs : ℕ → ℕ → ℤ)
    (numNodes numGateways : ℕ)
    (search : Search C R) (i : ℕ) : Option (Search C R) := do
  let (retVal, planner) ← executeConfiguration rating g (configs i) numNodes numGateways search.planner
  if rating.zero < retVal then
    if retVal < search.bestRank then
      some { search with bestConfig := some i, bestRank := retVal, numValid := search.numValid + 1, planner := planner }
    else some { search with numValid := search.numValid + 1, planner := planner }
  else some { search with numDisc := search.numDisc + 1, planner := planner }

/-- `perform_exhaustive_search`; the `best_config` of -1 is `none`. -/
def performExhaustiveSearch {R : Type} [LinearOrder R] (rating : Rating C R) (g : Graph C) (configs : ℕ → ℕ → ℤ)
    (numConfigs numNodes numGateways : ℕ) (planner : Planner C) : Option (Search C R) :=
  (List.range numConfigs).foldlM (searchStep rating g configs numNodes numGateways)
    { bestRank := rating.bestRank, bestConfig := none, numValid := 0, numDisc := 0, planner := planner }

/-- `print_membership`. -/
def printMembership (tree : Graph C) (channel : ℤ) (gw numNodes numGateways : ℕ) : List (ℕ × ℕ × ℤ) :=
  ((List.range' 1 numNodes).filter fun i => listed numNodes numGateways gw tree i).map fun i => (i, gw, channel)

/-- What is in the files that `print_configuration` writes: `TABLE-OUTPUT` and `MEMBER-OUTPUT`. -/
structure Printed where
  tables : List (ℕ × ℕ × ℕ)
  members : List (ℕ × ℕ × ℤ)

/-- The loop of `print_configuration`, from a gateway on. -/
def printFrom (g : Graph C) (config : ℕ → ℤ) (numNodes numGateways : ℕ) :
    List ℕ → ℤ → Printed → Planner C → Option (Printed × Planner C)
  | [], _, printed, planner => some (printed, planner)
  | i :: rest, channel, printed, planner => do
    let (subgraph, _) := constructGraphForASubconfiguration g planner.subgraph config i numNodes numGateways
    let (subgraph, tree) ← constructTree g planner.tree subgraph i numNodes
    match tree with
    | none => some (printed, ⟨subgraph, resetGraph numNodes planner.tree⟩)
    | some tree => do
      let (tree, rows) ← printRoutingTables tree (i + 1) numNodes numGateways
      printFrom g config numNodes numGateways rest (channel + 5)
        { tables := printed.tables ++ rows
          members := printed.members ++ printMembership tree channel (i + 1) numNodes numGateways }
        ⟨subgraph, tree⟩

/-- `print_configuration`. -/
def printConfiguration (g : Graph C) (config : ℕ → ℤ) (numNodes numGateways : ℕ) (planner : Planner C) :
    Option (Printed × Planner C) :=
  printFrom g config numNodes numGateways (List.range' (numNodes - numGateways) numGateways) 1 ⟨[], []⟩ planner

end Ditto.RoutePlanner
