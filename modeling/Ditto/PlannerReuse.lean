import Ditto.RoutingTables
import Ditto.Runs

/-! The graphs that the planner uses again. `reset_graph` and `init_single_source` leave some of
what was there before: the cost of the last node, whether it is valid, and all that is known of
places past it. None of it is read, so what a configuration leads to does not depend on the
configurations that were tried before it. -/
namespace Ditto.RoutePlanner
open Cost Runs

/-! ## Links that are the same -/

variable {C : Type} {g h metric a b : Graph C} {numNodes numGateways root size i u v : ℕ} {p : ℕ → Prop}

/-- Two graphs have the same links, and of some nodes the same are valid. -/
structure SameLinks (p : ℕ → Prop) (g h : Graph C) : Prop where
  links : ∀ u, g.links u = h.links u
  valid : ∀ v, p v → (g.lh v).valid = (h.lh v).valid

theorem SameLinks.add (same : SameLinks p g h) (cost : C) (outif inif channel : ℤ) :
    SameLinks p (addLink u v cost g outif inif channel) (addLink u v cost h outif inif channel) where
  links w := by rw [links_add, links_add, same.links, same.links]
  valid w held := by rw [valid_add, valid_add, same.valid w held]

theorem SameLinks.copy_node (same : SameLinks p g h) : SameLinks (fun w => p w ∨ w = v)
    (copyNode metric v g) (copyNode metric v h) where
  links u := by rw [links_copy_node, links_copy_node, same.links]
  valid w held := by
    simp only [copyNode]
    by_cases here : w = v
    · subst here
      rw [Function.update_self, Function.update_self]
    · rw [Function.update_of_ne here, Function.update_of_ne here]
      exact same.valid w (held.resolve_right here)

theorem SameLinks.mono {q : ℕ → Prop} (same : SameLinks p g h) (fewer : ∀ v, q v → p v) : SameLinks q g h :=
  ⟨same.links, fun v held => same.valid v (fewer v held)⟩

theorem SameLinks.copy (same : SameLinks p g h) : SameLinks (Node numNodes) (copyGraph numNodes metric g)
    (copyGraph numNodes metric h) := by
  suffices copied : SameLinks (fun w => p w ∨ w ∈ List.range' 1 numNodes)
      (copyGraph numNodes metric g) (copyGraph numNodes metric h) from
    copied.mono fun v node => .inr (mem_nodes.mpr node)
  have node (v : ℕ) (links : List (Link C)) {p : ℕ → Prop} {g h : Graph C} (same : SameLinks p g h) :
      SameLinks p (links.foldl (fun g l => addLink v l.lnDst l.lnCost g 0 0 0) g)
        (links.foldl (fun g l => addLink v l.lnDst l.lnCost g 0 0 0) h) := by
    induction links generalizing g h with
    | nil => exact same
    | cons l rest ih => exact ih (same.add l.lnCost 0 0 0)
  unfold copyGraph
  induction List.range' 1 numNodes generalizing p g h with
  | nil => exact same.mono fun v held => held.resolve_right List.not_mem_nil
  | cons v rest ih =>
    refine (ih (node v (metric.links v) same).copy_node).mono ?_
    rintro w (held | member)
    · exact .inl (.inl held)
    · exact (List.mem_cons.mp member).elim (fun here => .inl (.inr here)) .inr

theorem SameLinks.del_vertex (same : SameLinks p g h) : SameLinks p (delVertex numNodes v g)
    (delVertex numNodes v h) where
  links u := by
    simp only [Graph.links, delVertex]
    split
    · split
      · rfl
      · exact congrArg (List.filter _) (same.links u)
    · exact same.links u
  valid w held := by
    simp only [delVertex]
    split
    · split
      · rfl
      · exact same.valid w held
    · exact same.valid w held

theorem SameLinks.delete (same : SameLinks p g h) (nodes : List ℕ) (q : ℕ → Prop) [DecidablePred q] :
    SameLinks p (nodes.foldl (fun g i => if q i then delVertex numNodes (i + 1) g else g) g)
      (nodes.foldl (fun g i => if q i then delVertex numNodes (i + 1) g else g) h) := by
  induction nodes generalizing g h with
  | nil => exact same
  | cons i rest ih =>
    rw [List.foldl_cons, List.foldl_cons]
    by_cases gone : q i
    · rw [if_pos gone, if_pos gone]
      exact ih same.del_vertex
    · rw [if_neg gone, if_neg gone]
      exact ih same

variable [Cost C]

/-- A gateway's part of the graph does not depend on the graph that it is made in. -/
theorem same_subconfiguration {config : ℕ → ℤ} {gwid : ℕ} (blank : Numbered numNodes a) (blank' : Numbered numNodes b) :
    SameLinks (Node numNodes) (constructGraphForASubconfiguration g a config gwid numNodes numGateways).1
      (constructGraphForASubconfiguration g b config gwid numNodes numGateways).1 := by
  have bare : SameLinks (fun _ => False) (resetGraph numNodes a) (resetGraph numNodes b) :=
    ⟨fun u => by rw [links_reset blank, links_reset blank'], fun v held => held.elim⟩
  exact (bare.copy.delete _ _).delete _ _

/-! ## Labels that are the same -/

/-- Two graphs have the same links, and the same is known of their nodes. -/
structure Alike (numNodes : ℕ) (g h : Graph C) : Prop extends SameLinks (Node numNodes) g h where
  d : ∀ v < numNodes + 1, g.d v = h.d v
  pi : ∀ v < numNodes + 1, g.pi v = h.pi v
  piOutif : ∀ v < numNodes + 1, g.piOutif v = h.piOutif v
  piInif : ∀ v < numNodes + 1, g.piInif v = h.piInif v
  s : ∀ v < numNodes + 1, g.s v = h.s v

theorem SameLinks.init (same : SameLinks (Node numNodes) g h) (source : ℕ) :
    Alike numNodes (initSingleSource source g (numNodes + 1)) (initSingleSource source h (numNodes + 1)) where
  links u := by rw [links_init, links_init, same.links]
  valid v node := by
    simp only [initSingleSource]
    split
    · exact same.valid v node
    · exact same.valid v node
  d v inside := by
    simp only [initSingleSource]
    by_cases first : v = source
    · subst first
      rw [Function.update_self, Function.update_self]
    · rw [Function.update_of_ne first, Function.update_of_ne first, if_pos inside, if_pos inside]
  pi v inside := by simp only [initSingleSource, if_pos inside]
  piOutif v inside := by simp only [initSingleSource, if_pos inside]
  piInif v inside := by simp only [initSingleSource, if_pos inside]
  s v inside := by simp only [initSingleSource, if_pos inside]

/-- One entry of two arrays is set to the same. -/
theorem update_same {α : Type} {f f' : ℕ → α} (same : ∀ v < size, f v = f' v) (w : ℕ) (x : α) :
    ∀ v < size, Function.update f w x v = Function.update f' w x v := by
  intro v inside
  by_cases here : v = w
  · subst here
    rw [Function.update_self, Function.update_self]
  · rw [Function.update_of_ne here, Function.update_of_ne here, same v inside]

/-- What is the same between the rounds of `dijkstra`; the links are those that it began with. -/
def Alongside (numNodes : ℕ) (lh : ℕ → LinkHead C) (g h : Graph C) : Prop := Alike numNodes g h ∧ g.lh = lh

variable {lh : ℕ → LinkHead C}

theorem relax_alike (alike : Alongside numNodes lh g h) (inside : u < numNodes + 1)
    (target : v < numNodes + 1) (w : C) (outif inif : ℤ) :
    Option.Rel (Alongside numNodes lh) (relax u v w outif inif g) (relax u v w outif inif h) := by
  obtain ⟨alike, heads⟩ := alike
  unfold relax
  rw [alike.d u inside, alike.d v target]
  split
  · split
    · exact .some ⟨⟨⟨alike.links, alike.valid⟩, update_same alike.d _ _, update_same alike.pi _ _,
        update_same alike.piOutif _ _,
        update_same alike.piInif _ _, alike.s⟩, heads⟩
    · exact .some ⟨alike, heads⟩
  · exact .none

theorem relax_links_alike (alike : Alongside numNodes lh g h) (inside : u < numNodes + 1) (links : List (Link C))
    (targets : ∀ l ∈ links, l.lnDst < numNodes + 1) :
    Option.Rel (Alongside numNodes lh) (relaxLinks u links g) (relaxLinks u links h) := by
  refine rel_foldlM links (fun l member a b alike => ?_) alike
  rw [alike.1.s _ (targets l member)]
  split
  · exact relax_alike alike inside (targets l member) _ _ _
  · exact .some alike

theorem Alike.extract (alike : Alike numNodes g h) : extractMinQ g (numNodes + 1) = extractMinQ h (numNodes + 1) := by
  unfold extractMinQ
  have search (nodes : List ℕ) (inside : ∀ u ∈ nodes, u < numNodes + 1) (minU : ℕ)
      (found : minU = nil ∨ minU < numNodes + 1) :
      nodes.foldl (fun minU u => if g.s u = false ∧ g.d u < inflen ∧
        (minU = nil ∨ g.d u < g.d minU) then u else minU) minU =
        nodes.foldl (fun minU u => if h.s u = false ∧ h.d u < inflen ∧
            (minU = nil ∨ h.d u < h.d minU) then u else minU) minU := by
    induction nodes generalizing minU with
    | nil => rfl
    | cons u rest ih =>
      have here := inside u List.mem_cons_self
      have round : (g.s u = false ∧ g.d u < inflen ∧ (minU = nil ∨ g.d u < g.d minU)) ↔
          (h.s u = false ∧ h.d u < inflen ∧ (minU = nil ∨ h.d u < h.d minU)) := by
        rw [alike.s u here, alike.d u here]
        rcases found with none | known
        · simp [none]
        · rw [alike.d minU known]
      rw [List.foldl_cons, List.foldl_cons]
      simp only [round]
      refine ih (fun u member => inside u (List.mem_cons_of_mem _ member)) _ ?_
      split
      · exact .inr here
      · exact found
  exact search (List.range (numNodes + 1)) (fun u member => List.mem_range.mp member) nil (.inl rfl)

theorem while_alike (closed : Closed lh (numNodes + 1)) (small : numNodes < slotsOfT) (rounds : ℕ)
    (alike : Alongside numNodes lh g h) :
    Option.Rel (Alongside numNodes lh) (dijkstraWhile (numNodes + 1) rounds g)
      (dijkstraWhile (numNodes + 1) rounds h) := by
  induction rounds generalizing g h with
  | zero => exact .none
  | succ rounds ih =>
    simp only [dijkstraWhile, alike.1.extract]
    split
    · exact .some alike
    next found =>
      have inside : extractMinQ h (numNodes + 1) < numNodes + 1 :=
        ((nearest_extract (Nat.le_of_lt (Nat.lt_of_le_of_lt small (by decide)))).1.resolve_left found).1
      rw [alike.1.links]
      refine rel_bind (relax_links_alike ?_ inside _ ?_) fun a b => ih
      · obtain ⟨alike, heads⟩ := alike
        exact ⟨⟨⟨alike.links, alike.valid⟩, alike.d, alike.pi, alike.piOutif, alike.piInif,
          update_same alike.s _ _⟩, heads⟩
      · intro l member
        rw [← alike.1.links, Graph.links, alike.2] at member
        exact closed _ inside l member

/-- `dijkstra` finds the same in graphs with the same links, whatever is in their arrays. -/
theorem dijkstra_alike (same : SameLinks (Node numNodes) g h) (closed : Closed g.lh (numNodes + 1))
    (small : numNodes < slotsOfT)
    (source : ℕ) : Option.Rel (Alike numNodes) (dijkstra source g (numNodes + 1))
    (dijkstra source h (numNodes + 1)) := by
  have ends := while_alike (closed_init closed) small (numNodes + 1 + 1) ⟨same.init source, rfl⟩
  rw [dijkstra, dijkstra, if_pos (show numNodes + 1 ≤ slotsOfT from small),
    if_pos (show numNodes + 1 ≤ slotsOfT from small)]
  exact rel_mono (fun _ _ alike => alike.1) ends

/-! ## Trees that are the same -/

theorem disconnected_alike (alike : Alike numNodes g h) : disconnected numNodes g = disconnected numNodes h := by
  unfold disconnected
  refine Bool.eq_iff_iff.mpr ?_
  rw [List.any_eq_true, List.any_eq_true]
  refine exists_congr fun v => and_congr_right fun member => ?_
  have node := mem_nodes.mp member
  rw [alike.valid v node, alike.d v (Nat.lt_succ_of_le node.2)]

/-- The same links are put into two trees, as long as the labels lead back inside. -/
theorem grow_tree_alike (alike : Alike numNodes g h)
    (back : ∀ v < numNodes + 1, g.d v < inflen → v ≠ root → g.pi v < numNodes + 1)
    (rounds : ℕ) (inside : v < numNodes + 1) (same : SameLinks (fun _ => False) a b) :
    Option.Rel (SameLinks fun _ => False) (growTree metric g root (numNodes + 1) rounds v a)
      (growTree metric h root (numNodes + 1) rounds v b) := by
  induction rounds generalizing v a b with
  | zero => exact .none
  | succ rounds ih =>
    unfold growTree
    rw [← alike.d v inside, ← alike.pi v inside, ← alike.piOutif v inside, ← alike.piInif v inside]
    split
    next near =>
      split
      · split
        · exact .some same
        next other =>
          cases findLink (g.pi v) v (g.piOutif v) (g.piInif v) metric with
          | none => exact .none
          | some l => exact ih (back v inside near other) (same.add l.lnCost _ _ _)
      · exact .none
    · exact .some same

theorem make_tree_alike {srcAddr : ℕ} (alike : Alike numNodes g h)
    (back : ∀ v < numNodes + 1, g.d v < inflen → v ≠ srcAddr + 1 → g.pi v < numNodes + 1)
    (same : SameLinks (fun _ => False) a b) :
    Option.Rel (SameLinks fun _ => False) (makeTreeGraph metric a g srcAddr (numNodes + 1) numNodes)
      (makeTreeGraph metric b h srcAddr (numNodes + 1) numNodes) := by
  have grown : Option.Rel (SameLinks fun _ => False)
      ((List.range' 1 numNodes).foldlM (fun tree i => if i = srcAddr + 1 then some tree
        else growTree metric g (srcAddr + 1) (numNodes + 1) (numNodes + 1 + 1) i tree) a)
      ((List.range' 1 numNodes).foldlM (fun tree i => if i = srcAddr + 1 then some tree
        else growTree metric h (srcAddr + 1) (numNodes + 1) (numNodes + 1 + 1) i tree) b) := by
    refine rel_foldlM (List.range' 1 numNodes) (fun i member a b same => ?_) same
    split
    · exact .some same
    · exact grow_tree_alike alike back _ (Nat.lt_succ_of_le (mem_nodes.mp member).2) same
  unfold makeTreeGraph
  refine rel_bind grown fun a b same => ?_
  exact .some ⟨same.links, same.valid⟩

/-- What the labels lead back to is looked at, too. -/
theorem Settled.back_inside {into : ℕ → Option (ℕ × Link C)} (settled : Settled g root size into) (inside : v < size)
    (near : g.d v < inflen) (other : v ≠ root) : g.pi v < size := by
  obtain ⟨way, led, -⟩ := settled.led inside near
  have trace := led.trace
  cases trace with
  | here => exact absurd rfl other
  | on before link =>
    rw [(settled.agrees.led inside link).1]
    exact (led.near _ (List.mem_append_left _ (last_mem before))).1

/-- What `construct_tree` makes does not depend on the tree that it is made in. -/
theorem construct_tree_alike {gatewayId : ℕ} (same : SameLinks (Node numNodes) g h) (numbered : Numbered numNodes g)
    (blank : Numbered numNodes a) (blank' : Numbered numNodes b) (inside : gatewayId + 1 ≤ numNodes)
    (small : numNodes < slotsOfT) :
    Option.Rel (fun x y => Option.Rel (SameLinks fun _ => False) x.2 y.2) (constructTree metric a g gatewayId numNodes)
      (constructTree metric b h gatewayId numNodes) := by
  obtain ⟨g', run, -, into, settled⟩ := dijkstra_ends (closed_of_numbered numbered) (Nat.lt_succ_of_le inside) small
  have alike := dijkstra_alike same (closed_of_numbered numbered) small (gatewayId + 1)
  unfold constructTree
  rw [run] at alike ⊢
  generalize dijkstra (gatewayId + 1) h (numNodes + 1) = found at alike ⊢
  cases alike with
  | @some _ h' alike =>
    simp only [Option.bind_eq_bind, Option.bind_some, ← disconnected_alike alike]
    split
    · exact .some .none
    · refine rel_bind (make_tree_alike alike (fun v inside near other => settled.back_inside inside near other) ?_) ?_
      · exact ⟨fun u => by rw [links_reset blank, links_reset blank'], fun v held => held.elim⟩
      · intro t t' same
        exact .some (.some same)

end Ditto.RoutePlanner
