import Ditto.ShortestPaths
import Ditto.RoutePlanner

/-! What `dijkstra` computes. Its arrays are labels that are settled in the order of their costs:
a round settles the node that `extract_min_q` finds, and tries its links. So every round keeps
the labels sound, the loop ends after a round for each node at most, and then the costs are
the least. -/
namespace Ditto.RoutePlanner
open ShortestPaths Cost

variable {C : Type} [Cost C] {lh : ℕ → LinkHead C} {g g' : Graph C} {source size u v : ℕ} {l : Link C}
  {into : ℕ → Option (ℕ × Link C)}

/-- The links of the graph: on the way along one its cost is added. -/
def network (lh : ℕ → LinkHead C) : Network ℕ (Link C) C where
  leaves u l := l ∈ (lh u).lhFirst
  target := Link.lnDst
  along l c := plus c l.lnCost
  grows _ c := grows c _
  keeps _ _ _ smaller := keeps _ smaller

/-- What the arrays say of the nodes that are looked at. -/
def labels (g : Graph C) (size : ℕ) (into : ℕ → Option (ℕ × Link C)) : Labels ℕ (Link C) C where
  cost v := if v < size then g.d v else inflen
  settled := {v | v < size ∧ g.s v = true}
  into := into

/-- The links that the nodes came by are those that `pi`, `pi_outif` and `pi_inif` name. -/
structure Agrees (g : Graph C) (size : ℕ) (into : ℕ → Option (ℕ × Link C)) : Prop where
  led : ∀ {v u l}, v < size → into v = some (u, l) → g.pi v = u ∧ g.piOutif v = l.outif ∧ g.piInif v = l.inif
  unled : ∀ {v}, v < size → into v = none → g.pi v = nil

/-- The links of the nodes that are looked at lead to such nodes. -/
def Closed (lh : ℕ → LinkHead C) (size : ℕ) : Prop := ∀ u < size, ∀ l ∈ (lh u).lhFirst, l.lnDst < size

instance : Decidable (Closed lh size) :=
  inferInstanceAs (Decidable (∀ u < size, ∀ l ∈ (lh u).lhFirst, l.lnDst < size))

/-- What holds between the rounds. -/
def Planned (lh : ℕ → LinkHead C) (source size : ℕ) (g : Graph C) : Prop :=
  g.lh = lh ∧ ∃ into, Agrees g size into ∧ Sound (network lh) source zero inflen Idle (labels g size into)

@[simp] theorem mem_settled : v ∈ (labels g size into).settled ↔ v < size ∧ g.s v = true := Iff.rfl

theorem cost_of_lt (inside : v < size) : (labels g size into).cost v = g.d v := if_pos inside

theorem cost_of_ge (outside : ¬ v < size) : (labels g size into).cost v = inflen := if_neg outside

/-! ## The nearest node -/

/-- What `extract_min_q` holds after the nodes below a bound. -/
def Nearest (g : Graph C) (bound minU : ℕ) : Prop :=
  (minU = nil ∨ minU < bound ∧ g.s minU = false ∧ g.d minU < inflen) ∧
    ∀ v < bound, g.s v = false → g.d v < inflen → minU ≠ nil ∧ g.d minU ≤ g.d v

theorem nearest_step {bound minU : ℕ} (small : bound < nil) (nearest : Nearest g bound minU) :
    Nearest g (bound + 1)
      (if g.s bound = false ∧ g.d bound < inflen ∧ (minU = nil ∨ g.d bound < g.d minU) then bound else minU) := by
  obtain ⟨held, least⟩ := nearest
  split
  next found =>
    obtain ⟨unexplored, near, nearer⟩ := found
    refine ⟨.inr ⟨Nat.lt_succ_self bound, unexplored, near⟩, ?_⟩
    intro v inside unexplored' near'
    refine ⟨Nat.ne_of_lt small, ?_⟩
    rcases Nat.lt_succ_iff_lt_or_eq.mp inside with before | rfl
    · obtain ⟨some', least'⟩ := least v before unexplored' near'
      exact (le_of_lt (nearer.resolve_left some')).trans least'
    · exact le_refl _
  next kept =>
    refine ⟨held.imp_right fun ⟨inside, rest⟩ => ⟨Nat.lt_succ_of_lt inside, rest⟩, ?_⟩
    intro v inside unexplored near
    rcases Nat.lt_succ_iff_lt_or_eq.mp inside with before | rfl
    · exact least v before unexplored near
    · constructor
      · intro none
        exact kept ⟨unexplored, near, .inl none⟩
      · by_contra farther
        exact kept ⟨unexplored, near, .inr (not_le.mp farther)⟩

theorem nearest_extract (small : size ≤ nil) : Nearest g size (extractMinQ g size) := by
  unfold extractMinQ
  induction size with
  | zero => exact ⟨.inl rfl, fun v inside => absurd inside (Nat.not_lt_zero v)⟩
  | succ size ih =>
    rw [List.range_succ, List.foldl_append]
    exact nearest_step small (ih (Nat.le_of_succ_le small))

/-! ## A link -/

omit [Cost C] in
theorem agrees_update {w : ℕ} {c : C} (agrees : Agrees g size into) :
    Agrees { g with d := Function.update g.d w c, pi := Function.update g.pi w u,
                    piOutif := Function.update g.piOutif w l.outif, piInif := Function.update g.piInif w l.inif } size
      (Function.update into w (some (u, l))) := by
  refine ⟨?_, ?_⟩
  · intro v u' l' inside led
    by_cases same : v = w
    · subst same
      rw [Function.update_self, Option.some.injEq, Prod.mk.injEq] at led
      obtain ⟨rfl, rfl⟩ := led
      exact ⟨Function.update_self _ _ _, Function.update_self _ _ _, Function.update_self _ _ _⟩
    · rw [Function.update_of_ne same] at led
      obtain ⟨parent, outif, inif⟩ := agrees.led inside led
      exact ⟨(Function.update_of_ne same _ _).trans parent, (Function.update_of_ne same _ _).trans outif,
        (Function.update_of_ne same _ _).trans inif⟩
  · intro v inside none
    by_cases same : v = w
    · subst same
      rw [Function.update_self] at none
      cases none
    · rw [Function.update_of_ne same] at none
      exact (Function.update_of_ne same _ _).trans (agrees.unled inside none)

theorem labels_update {w : ℕ} {c : C} (inside : w < size) (pi : ℕ → ℕ) (piOutif piInif : ℕ → ℤ)
    (into' : ℕ → Option (ℕ × Link C)) :
    labels { g with d := Function.update g.d w c, pi := pi, piOutif := piOutif, piInif := piInif } size into' =
      { labels g size into with cost := Function.update (labels g size into).cost w c, into := into' } := by
  have costs : (fun v => if v < size then Function.update g.d w c v else inflen) =
      Function.update (fun v => if v < size then g.d v else inflen) w c := by
    funext v
    by_cases same : v = w
    · subst same
      rw [Function.update_self, Function.update_self, if_pos inside]
    · rw [Function.update_of_ne same, Function.update_of_ne same]
  simp only [labels, costs]

/-- A link of a settled node is tried as the labels say, and the assertion of `relax` holds. -/
theorem link_step (agrees : Agrees g size into) (inside : u < size) (explored : g.s u = true) (near : g.d u < inflen)
    (target : l.lnDst < size) :
    ∃ g' into', (if g.s l.lnDst ≠ true then relax u l.lnDst l.lnCost l.outif l.inif g else some g) = some g' ∧
      g'.lh = g.lh ∧ g'.s = g.s ∧ g'.d u = g.d u ∧ Agrees g' size into' ∧
      labels g' size into' = (labels g size into).relax (network g.lh) u l := by
  have settled : l.lnDst ∉ (labels g size into).settled ↔ g.s l.lnDst ≠ true := by
    rw [mem_settled]
    exact ⟨fun out yes => out ⟨target, yes⟩, fun no both => no both.2⟩
  unfold Labels.relax
  by_cases open' : g.s l.lnDst ≠ true
  · rw [if_pos open', relax, if_pos near]
    have same : (network g.lh).along l ((labels g size into).cost u) < (labels g size into).cost l.lnDst ↔
        g.d l.lnDst > plus (g.d u) l.lnCost := by
      rw [cost_of_lt inside, cost_of_lt target]
      rfl
    by_cases nearer : g.d l.lnDst > plus (g.d u) l.lnCost
    · have other : u ≠ l.lnDst := fun same => open' (same ▸ explored)
      refine ⟨_, Function.update into l.lnDst (some (u, l)), if_pos nearer, rfl, rfl, Function.update_of_ne other _ _,
        agrees_update agrees, ?_⟩
      rw [if_pos ⟨settled.mpr open', same.mpr nearer⟩, labels_update target, Labels.reach, cost_of_lt inside]
      rfl
    · refine ⟨g, into, if_neg nearer, rfl, rfl, rfl, agrees, ?_⟩
      rw [if_neg fun found => nearer (same.mp found.2)]
  · rw [if_neg open']
    refine ⟨g, into, rfl, rfl, rfl, rfl, agrees, ?_⟩
    rw [if_neg fun found => open' (settled.mp found.1)]

theorem relax_links (links : List (Link C)) (agrees : Agrees g size into) (inside : u < size) (explored : g.s u = true)
    (near : g.d u < inflen) (targets : ∀ l ∈ links, l.lnDst < size) :
    ∃ g' into', relaxLinks u links g = some g' ∧ g'.lh = g.lh ∧ g'.s = g.s ∧ Agrees g' size into' ∧
      labels g' size into' = links.foldl (fun lab l => lab.relax (network g.lh) u l) (labels g size into) := by
  induction links generalizing g into with
  | nil => exact ⟨g, into, rfl, rfl, rfl, agrees, rfl⟩
  | cons l rest ih =>
    obtain ⟨g₁, into₁, step, heads, flags, cost, agrees₁, tried⟩ :=
      link_step agrees inside explored near (targets l List.mem_cons_self)
    obtain ⟨g₂, into₂, steps, heads', flags', agrees₂, tried'⟩ :=
      ih agrees₁ (by rw [flags, explored]) (by rwa [cost]) fun l' member => targets l' (List.mem_cons_of_mem l member)
    refine ⟨g₂, into₂, ?_, heads'.trans heads, flags'.trans flags, agrees₂, ?_⟩
    · rw [relaxLinks, List.foldlM_cons, step]
      exact steps
    · rw [tried', heads, tried]
      rfl

/-! ## A round -/

/-- A round settles the nearest node, and keeps what holds between the rounds. -/
theorem round_step (closed : Closed lh size) (planned : Planned lh source size g) (small : size ≤ nil)
    (found : extractMinQ g size ≠ nil) :
    extractMinQ g size < size ∧ g.s (extractMinQ g size) = false ∧
      ∃ g', relaxLinks (extractMinQ g size) (g.links (extractMinQ g size))
          { g with s := Function.update g.s (extractMinQ g size) true } = some g' ∧
        g'.s = Function.update g.s (extractMinQ g size) true ∧ Planned lh source size g' := by
  obtain ⟨rfl, into, agrees, sound⟩ := planned
  obtain ⟨held, least⟩ := @nearest_extract _ _ g _ small
  obtain ⟨inside, unexplored, near⟩ := held.resolve_left found
  obtain ⟨u, same⟩ : ∃ u, extractMinQ g size = u := ⟨_, rfl⟩
  rw [same] at found inside unexplored near least ⊢
  refine ⟨inside, unexplored, ?_⟩
  have settling : labels { g with s := Function.update g.s u true } size into = (labels g size into).settle u := by
    have flags : {v | v < size ∧ Function.update g.s u true v = true} = insert u {v | v < size ∧ g.s v = true} := by
      ext v
      by_cases same : v = u
      · subst same
        simp [inside]
      · simp [same]
    simp only [labels, Labels.settle, flags]
  have unsettled : u ∉ (labels g size into).settled := by
    rw [mem_settled, unexplored]
    simp
  have nearest (v : ℕ) (out : v ∉ (labels g size into).settled) :
      (labels g size into).cost u ≤ (labels g size into).cost v := by
    rw [cost_of_lt inside]
    by_cases looked : v < size
    · rw [cost_of_lt looked]
      by_cases close : g.d v < inflen
      · have unexplored' : g.s v = false := by
          rw [mem_settled] at out
          simpa [looked] using out
        exact (least v looked unexplored' close).2
      · exact (le_of_lt near).trans (not_lt.mp close)
    · rw [cost_of_ge looked]
      exact le_of_lt near
  have settled := sound.settle unsettled (by rwa [cost_of_lt inside]) nearest
  have last := sound.last unsettled
  rw [← settling] at settled last
  obtain ⟨g', into', steps, heads, flags, agrees', tried⟩ :=
    @relax_links _ _ { g with s := Function.update g.s u true } size u into (g.links u) ⟨agrees.led, agrees.unled⟩ inside
      (Function.update_self _ _ _) near (closed u inside)
  refine ⟨g', steps, flags, heads, into', agrees', ?_⟩
  rw [tried]
  exact (settled.weaken fun v l link same' => ⟨same', by subst same'; exact link⟩).relax_all
    (g.links u) last fun l member => member

/-! ## The loop -/

/-- How many nodes are not explored. -/
def unexplored (g : Graph C) (size : ℕ) : ℕ := ((List.range size).filter fun v => g.s v = false).length

omit [Cost C] in
theorem unexplored_explore (inside : u < size) (open' : g.s u = false) (flags : g'.s = Function.update g.s u true) :
    unexplored g' size < unexplored g size := by
  have fewer : (List.range size).filter (fun v => g'.s v = false) =
      ((List.range size).filter fun v => g.s v = false).filter fun v => v ≠ u := by
    rw [List.filter_filter, flags]
    refine List.filter_congr fun v _ => ?_
    by_cases same : v = u
    · subst same
      simp
    · simp [same]
  rw [unexplored, unexplored, fewer, List.length_filter_lt_length_iff_exists]
  exact ⟨u, by simp [inside, open'], by simp⟩

/-- When no node is found, all that cost less than `INFLEN` are explored. -/
theorem done_of_nil (small : size ≤ nil) (none : extractMinQ g size = nil) : (labels g size into).Done inflen := by
  intro v near
  by_cases looked : v < size
  · rw [cost_of_lt looked] at near
    by_contra out
    have open' : g.s v = false := by
      rw [mem_settled] at out
      simpa [looked] using out
    exact ((@nearest_extract _ _ g _ small).2 v looked open' near).1 none
  · rw [cost_of_ge looked] at near
    exact absurd near (lt_irrefl _)

/-- What `dijkstra` leaves, with the links that the nodes came by. -/
structure Settled (g : Graph C) (source size : ℕ) (into : ℕ → Option (ℕ × Link C)) : Prop where
  agrees : Agrees g size into
  sound : Sound (network g.lh) source zero inflen Idle (labels g size into)
  done : (labels g size into).Done inflen

/-- What holds when the loop has ended. -/
def Ended (lh : ℕ → LinkHead C) (source size : ℕ) (g : Graph C) : Prop := g.lh = lh ∧ ∃ into, Settled g source size into

theorem while_ends (closed : Closed lh size) (small : size ≤ nil) (rounds : ℕ) (planned : Planned lh source size g)
    (enough : unexplored g size < rounds) : ∃ g', dijkstraWhile size rounds g = some g' ∧ Ended lh source size g' := by
  induction rounds generalizing g with
  | zero => exact absurd enough (Nat.not_lt_zero _)
  | succ rounds ih =>
    rw [dijkstraWhile]
    by_cases none : extractMinQ g size = nil
    · obtain ⟨rfl, into, agrees, sound⟩ := planned
      exact ⟨g, if_pos none, rfl, into, agrees, sound, done_of_nil small none⟩
    · obtain ⟨inside, open', g₁, step, flags, planned₁⟩ := round_step closed planned small none
      obtain ⟨g', rest, ended⟩ := ih planned₁ (by have := unexplored_explore inside open' flags; omega)
      refine ⟨g', ?_, ended⟩
      simp only [if_neg none, step]
      exact rest

/-! ## The start -/

theorem d_init (v : ℕ) :
    (initSingleSource source g size).d v = if v = source then zero else if v < size then inflen else g.d v := by
  simp only [initSingleSource, Function.update_apply]

theorem planned_init (inside : source < size) :
    Planned (initSingleSource source g size).lh source size (initSingleSource source g size) := by
  refine ⟨rfl, fun _ => none, ⟨fun _ led => (by cases led), fun inside _ => if_pos inside⟩,
    Sound.fresh ⟨?_, ?_, ?_, rfl⟩ positive⟩
  · rw [cost_of_lt inside, d_init, if_pos rfl]
  · intro v other
    by_cases looked : v < size
    · rw [cost_of_lt looked, d_init, if_neg other, if_pos looked]
    · exact cost_of_ge looked
  · ext v
    rw [mem_settled]
    constructor
    · rintro ⟨looked, explored⟩
      simp [initSingleSource, looked] at explored
    · intro none
      cases none

/-- The links do not change but for their flows. -/
theorem links_init (u : ℕ) :
    (initSingleSource source g size).links u = if u < size then (g.links u).map Link.idle else g.links u := by
  simp only [Graph.links, initSingleSource]
  split <;> rfl

/-- A way along the links of the graph is one along them without their flows, and costs the same. -/
theorem route_init {way : List ℕ} {c : C} :
    Route (network (initSingleSource source g size).lh) u zero way v c ↔ Route (network g.lh) u zero way v c := by
  constructor
  · intro route
    induction route with
    | here => exact .here
    | @on way w c l before link ih =>
      have known : l ∈ (initSingleSource source g size).links w := link
      rw [links_init] at known
      split at known
      · obtain ⟨l', member, rfl⟩ := List.mem_map.mp known
        exact @Route.on _ _ _ _ (network g.lh) _ _ _ _ _ l' ih member
      · exact ih.on known
  · intro route
    induction route with
    | here => exact .here
    | @on way w c l before link ih =>
      by_cases looked : w < size
      · refine @Route.on _ _ _ _ (network (initSingleSource source g size).lh) _ _ _ _ _ l.idle ih ?_
        show l.idle ∈ (initSingleSource source g size).links w
        rw [links_init, if_pos looked]
        exact List.mem_map_of_mem link
      · refine ih.on ?_
        show l ∈ (initSingleSource source g size).links w
        rw [links_init, if_neg looked]
        exact link

theorem closed_init (closed : Closed g.lh size) : Closed (initSingleSource source g size).lh size := by
  intro u inside l member
  have known : l ∈ (initSingleSource source g size).links u := member
  rw [links_init, if_pos inside] at known
  obtain ⟨l', member', rfl⟩ := List.mem_map.mp known
  exact closed u inside l' member'

omit [Cost C] in
theorem unexplored_le (g : Graph C) (size : ℕ) : unexplored g size ≤ size := by
  unfold unexplored
  exact (List.length_filter_le _ _).trans_eq List.length_range

/-- The loop of `dijkstra` ends, and none of the assertions fails. -/
theorem dijkstra_ends (closed : Closed g.lh size) (inside : source < size) (small : size ≤ slotsOfT) :
    ∃ g', dijkstra source g size = some g' ∧ Ended (initSingleSource source g size).lh source size g' := by
  rw [dijkstra, if_pos small]
  exact while_ends (closed_init closed) (small.trans (by decide)) _ (planned_init inside)
    (Nat.lt_succ_of_le (unexplored_le _ _))

/-- **`dijkstra` computes the least costs**: it ends without a failed assertion; a node's cost is
`INFLEN` if no way to it costs less, and else it is the cost of a way to it, and no way costs less. -/
theorem dijkstra_least (closed : Closed g.lh size) (inside : source < size) (small : size ≤ slotsOfT) :
    ∃ g', dijkstra source g size = some g' ∧ ∀ v < size,
      (g'.d v = inflen ∨ g'.d v < inflen ∧ ∃ way, way.Nodup ∧ Route (network g.lh) source zero way v (g'.d v)) ∧
        ∀ way c, Route (network g.lh) source zero way v c → g'.d v ≤ c := by
  obtain ⟨g', run, heads, into, agrees, sound, done⟩ := dijkstra_ends closed inside small
  refine ⟨g', run, fun v looked => ⟨?_, ?_⟩⟩
  · have bounded := sound.bounded v
    rw [cost_of_lt looked] at bounded
    refine bounded.eq_or_lt.imp_right fun near => ⟨near, ?_⟩
    obtain ⟨way, -, single, route⟩ := sound.led done (by rwa [cost_of_lt looked] : (labels g' size into).cost v < inflen)
    rw [cost_of_lt looked] at route
    exact ⟨way, single, route_init.mp (heads ▸ route)⟩
  · intro way c route
    have least := sound.least done (heads ▸ route_init.mpr route)
    rwa [cost_of_lt looked] at least

/-- A graph without links, as `init_graph` makes it. -/
def unlinked : Graph ℕ :=
  initGraph ⟨fun _ => .empty, -1, never_dated, fun _ => 0, fun _ => 0, fun _ => 0, fun _ => 0,
    fun _ => 0, fun _ => false⟩

/-- A gateway, numbered three, from which the second node is cheaper to reach over the first. -/
def relay : Graph ℕ := addLink 3 2 20 (addLink 1 2 4 (addLink 3 1 5 unlinked 0 0 0) 0 0 0) 0 0 0

theorem dijkstra_least_relay : ∃ g', dijkstra 3 relay 4 = some g' ∧ ∀ v < 4,
    (g'.d v = inflen ∨ g'.d v < inflen ∧ ∃ way, way.Nodup ∧ Route (network relay.lh) 3 zero way v (g'.d v)) ∧
      ∀ way c, Route (network relay.lh) 3 zero way v c → g'.d v ≤ c :=
  dijkstra_least (by decide) (by decide) (by decide)

end Ditto.RoutePlanner
