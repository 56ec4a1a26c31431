import Ditto.PlannerReuse
import Ditto.TreeFlows

/-! The search for the best configuration. Every configuration is tried in the same two graphs;
its rank is that of its own links only, so the search is one over ranks. A configuration that
leaves a valid node of a gateway's part cut off is ranked as `FALSE`, and is never the best. -/
namespace Ditto.RoutePlanner
open ShortestPaths Cost

variable {C R : Type} [Cost C] {g g' t t' h sub metric tree : Graph C} {rating : Rating C R} {config : ℕ → ℤ}
  {numNodes numGateways gwid count i v : ℕ} {p q : Planner C} {rank : R}

/-- What the graphs that are used again have left is between counted nodes. -/
structure Planner.Blank (numNodes : ℕ) (planner : Planner C) : Prop where
  subgraph : Numbered numNodes planner.subgraph
  tree : Numbered numNodes planner.tree

/-- A gateway's part of the graph. -/
def Planner.part (planner : Planner C) (g : Graph C) (config : ℕ → ℤ) (i numNodes numGateways : ℕ) : Graph C :=
  (constructGraphForASubconfiguration g planner.subgraph config i numNodes numGateways).1

/-- A gateway gets a tree. -/
def Served (g : Graph C) (config : ℕ → ℤ) (numNodes numGateways i : ℕ) : Prop :=
  ∀ planner : Planner C, planner.Blank numNodes → ∃ g' t,
    constructTree g planner.tree (planner.part g config i numNodes numGateways) i numNodes = some (g', some t)

/-! ## One gateway -/

omit [Cost C] in
theorem plain_of_within (within : Within g metric) (plain : Plain metric) : Plain g := by
  intro u l member
  obtain ⟨l', member', key, -⟩ := within u l member
  obtain ⟨outif, inif⟩ := plain u l' member'
  exact ⟨(congrArg (fun k => k.2.1) key).symm.trans outif, (congrArg (fun k => k.2.2) key).symm.trans inif⟩

theorem through_congr (same : ∀ u, t.links u = t'.links u) (root v : ℕ) : through t root v = through t' root v := by
  have nets : network t.lh = network t'.lh := by
    unfold network
    congr
    funext u l
    rw [show (t.lh u).lhFirst = (t'.lh u).lhFirst from same u]
  rw [through, through, nets]

/-- The performance of a tree with its flows. -/
noncomputable def rated (rating : Rating C R) (t : Graph C) (gwid count : ℕ) : R :=
  rating.performance (fun u => (t.links u).map fun l => { l with flow := through t (gwid + 1) l.lnDst }) count

theorem rated_congr (same : ∀ u, t.links u = t'.links u) : rated rating t gwid count = rated rating t' gwid count := by
  unfold rated
  simp only [same, through_congr same]

/-- A tree is modelled with the flows that are counted in it. -/
theorem model_tree_rated {into : ℕ → Option (ℕ × Link C)} {back : ℕ → List ℕ}
    (planted : Planted g t (gwid + 1) numNodes into back)
    (small : numNodes < slotsOfT) :
    ∃ t', modelTree rating t gwid count numNodes = some (rated rating t gwid count, t') ∧ Numbered numNodes t' := by
  obtain ⟨t', run, flows⟩ := planted.count_tree small
  refine ⟨t', ?_, fun u l member => ?_⟩
  · rw [modelTree, run]
    show some (rating.performance (fun u => t'.links u) count, t') = _
    simp only [flows, rated]
  · rw [flows] at member
    obtain ⟨l₀, member₀, rfl⟩ := List.mem_map.mp member
    exact numbered_of_grown planted.numbered planted.grown u l₀ member₀

/-- What a gateway's part leads to: no tree, or one that is modelled; and no graph has links that are not counted. -/
theorem gateway_run (plain : Plain g) (numbered : Numbered numNodes g) (gateways : numGateways ≤ numNodes)
    (small : numNodes < slotsOfT)
    (inside : i < numNodes) (blank : p.Blank numNodes) :
    ∃ g', Numbered numNodes g' ∧
      (constructTree g p.tree (p.part g config i numNodes numGateways) i numNodes = some (g', none) ∨
      ∃ t t', constructTree g p.tree (p.part g config i numNodes numGateways) i numNodes = some (g', some t) ∧
        modelTree rating t i count numNodes = some (rated rating t i count, t') ∧ Numbered numNodes t') := by
  have within : Within (p.part g config i numNodes numGateways) g :=
    (subconfiguration_links plain numbered blank.subgraph gateways).1
  have numbered' := numbered_of_within within numbered
  obtain ⟨g', into, heads, -, ⟨run, -⟩ | ⟨t, run, -, -⟩⟩ := construct_tree_grown within numbered' blank.tree inside small
  · exact ⟨g', numbered_init heads numbered', .inl run⟩
  · obtain ⟨into, back, planted⟩ := planted_of_construct_tree within numbered'
      (plain_of_within within plain) blank.tree inside small run
    obtain ⟨t', modelled, counted⟩ : ∃ t', modelTree rating t i count numNodes = some (rated rating t i count, t') ∧
        Numbered numNodes t' :=
      model_tree_rated planted small
    exact ⟨g', numbered_init heads numbered', .inr ⟨t, t', run, modelled, counted⟩⟩

/-- The trees that a gateway gets in two planners have the same links, if it gets any. -/
theorem gateway_alike (plain : Plain g) (numbered : Numbered numNodes g) (gateways : numGateways ≤ numNodes)
    (small : numNodes < slotsOfT)
    (inside : i < numNodes) (blank : p.Blank numNodes) (blank' : q.Blank numNodes) :
    Option.Rel (fun x y => Option.Rel (SameLinks fun _ => False) x.2 y.2)
      (constructTree g p.tree (p.part g config i numNodes numGateways) i numNodes)
      (constructTree g q.tree (q.part g config i numNodes numGateways) i numNodes) := by
  have within : Within (p.part g config i numNodes numGateways) g :=
    (subconfiguration_links plain numbered blank.subgraph gateways).1
  exact construct_tree_alike (same_subconfiguration blank.subgraph blank'.subgraph)
    (numbered_of_within within numbered) blank.tree blank'.tree
    inside small

/-! ## One configuration -/

/-- How many nodes are configured to a gateway. -/
def Planner.assigned (planner : Planner C) (g : Graph C) (config : ℕ → ℤ) (i numNodes numGateways : ℕ) : ℕ :=
  (constructGraphForASubconfiguration g planner.subgraph config i numNodes numGateways).2

theorem execute_none {rest : List ℕ} (run : constructTree g p.tree
    (p.part g config i numNodes numGateways) i numNodes = some (g', none)) :
    executeFrom rating g config numNodes numGateways (i :: rest) rank p =
      some (rating.zero, ⟨g', resetGraph numNodes p.tree⟩) := by
  rw [Planner.part] at run
  rw [executeFrom]
  simp only [run, Option.bind_eq_bind, Option.bind_some]

theorem execute_tree {rest : List ℕ} {x : R} (run : constructTree g p.tree
    (p.part g config i numNodes numGateways) i numNodes = some (g', some t))
    (modelled : modelTree rating t i (p.assigned g config i numNodes numGateways) numNodes = some (x, t')) :
    executeFrom rating g config numNodes numGateways (i :: rest) rank p =
      executeFrom rating g config numNodes numGateways rest (rating.plus rank x) ⟨g', t'⟩ := by
  rw [Planner.part] at run
  rw [Planner.assigned] at modelled
  rw [executeFrom]
  simp only [run, modelled, Option.bind_eq_bind, Option.bind_some]

theorem numbered_reset (numbered : Numbered numNodes tree) : Numbered numNodes (resetGraph numNodes tree) := by
  intro u l member
  rw [links_reset numbered] at member
  cases member

/-- From a gateway on, two planners come to the same rank, and it is `FALSE` if some gateway gets no tree. -/
theorem execute_from_alike (plain : Plain g) (numbered : Numbered numNodes g) (gateways : numGateways ≤ numNodes)
    (small : numNodes < slotsOfT) (gws : List ℕ) (inside : ∀ i ∈ gws, i < numNodes) (rank : R) (blank : p.Blank numNodes)
    (blank' : q.Blank numNodes) :
    ∃ r p' q', executeFrom rating g config numNodes numGateways gws rank p = some (r, p') ∧
      executeFrom rating g config numNodes numGateways gws rank q = some (r, q') ∧
      p'.Blank numNodes ∧ q'.Blank numNodes ∧
      (r ≠ rating.zero → ∀ i ∈ gws, Served g config numNodes numGateways i) := by
  induction gws generalizing rank p q with
  | nil => exact ⟨rank, p, q, rfl, rfl, blank, blank', fun _ i none => absurd none List.not_mem_nil⟩
  | cons i rest ih =>
    have here := inside i List.mem_cons_self
    have alike {q : Planner C} (blank' : q.Blank numNodes) :=
      @gateway_alike C _ g config numNodes numGateways i p q plain numbered gateways small here blank blank'
    obtain ⟨h', counted', second⟩ := @gateway_run C R _ g rating config numNodes numGateways
      (q.assigned g config i numNodes numGateways) i q plain numbered gateways small here blank'
    obtain ⟨g', counted, run | ⟨t, t₁, run, modelled, counted₁⟩⟩ :=
      @gateway_run C R _ g rating config numNodes numGateways
      (p.assigned g config i numNodes numGateways) i p plain numbered gateways small here blank
    · -- neither planner gets a tree
      have both := alike blank'
      rcases second with run' | ⟨u, u₁, run', -⟩
      · exact ⟨rating.zero, _, _, execute_none run, execute_none run', ⟨counted, numbered_reset blank.tree⟩,
          ⟨counted', numbered_reset blank'.tree⟩, fun other => absurd rfl other⟩
      · rw [run, run'] at both
        cases both with
        | some mixed => cases mixed
    · have served : Served g config numNodes numGateways i := by
        intro q blank'
        have both := alike blank'
        rw [run] at both
        generalize constructTree g q.tree (q.part g config i numNodes numGateways) i numNodes = found at both
        cases both with
        | @some _ y trees =>
          obtain ⟨h', r⟩ := y
          cases trees with
          | @some _ u _ => exact ⟨h', u, rfl⟩
      have both := alike blank'
      rcases second with run' | ⟨u, u₁, run', modelled', counted₂⟩
      · obtain ⟨_, _, other⟩ := served q blank'
        rw [run'] at other
        cases other
      · rw [run, run'] at both
        cases both with
        | some trees =>
          cases trees with
          | some same =>
            rw [← rated_congr same.links] at modelled'
            obtain ⟨r, p', q', runs, runs', blank₁, blank₂, rest'⟩ :=
              ih (p := ⟨g', t₁⟩) (q := ⟨h', u₁⟩) (fun j member => inside j (List.mem_cons_of_mem i member))
                (rating.plus rank (rated rating t i (p.assigned g config i numNodes numGateways)))
                ⟨counted, counted₁⟩ ⟨counted', counted₂⟩
            refine ⟨r, p', q', (execute_tree run modelled).trans runs,
              (execute_tree run' modelled').trans runs', blank₁, blank₂,
              fun other j member => ?_⟩
            rcases List.mem_cons.mp member with rfl | later
            · exact served
            · exact rest' other j later

/-- A configuration has one rank, whatever the planner was used for before. -/
theorem rank_exists (plain : Plain g) (numbered : Numbered numNodes g) (gateways : numGateways ≤ numNodes)
    (small : numNodes < slotsOfT)
    (blank : p.Blank numNodes) (config : ℕ → ℤ) :
    ∃ r, (∀ q : Planner C, q.Blank numNodes →
      ∃ q', executeConfiguration rating g config numNodes numGateways q = some (r, q') ∧
        q'.Blank numNodes) ∧
      (r ≠ rating.zero → ∀ i ∈ List.range' (numNodes - numGateways) numGateways,
          Served g config numNodes numGateways i) := by
  have inside (i : ℕ) (member : i ∈ List.range' (numNodes - numGateways) numGateways) : i < numNodes := by
    have := List.mem_range'_1.mp member
    omega
  have pair {q : Planner C} (blank' : q.Blank numNodes) :=
    @execute_from_alike C R _ g rating config numNodes numGateways p q plain numbered gateways
      small _ inside rating.zero blank blank'
  obtain ⟨r, p', _, run, -, -, -, served⟩ := pair blank
  refine ⟨r, fun q blank' => ?_, served⟩
  obtain ⟨r', p₁, q', run', same, -, blank₁, -⟩ := pair blank'
  rw [run, Option.some.injEq, Prod.mk.injEq] at run'
  rw [← run'.1] at same
  exact ⟨q', same, blank₁⟩

/-! ## The search -/

section Search
variable [LinearOrder R] {ranks : ℕ → R} {configs : ℕ → ℕ → ℤ} {search : Search C R} {n : ℕ}

/-- What is known after some configurations. -/
structure Found (rating : Rating C R) (ranks : ℕ → R) (numNodes n : ℕ) (search : Search C R) : Prop where
  tried : search.numValid + search.numDisc = n
  valid : search.numValid = ((List.range n).filter fun i => rating.zero < ranks i).length
  best : ∀ best, search.bestConfig = some best → best < n ∧ rating.zero < ranks best ∧ search.bestRank = ranks best ∧
    ranks best < rating.bestRank ∧ ∀ i < best, rating.zero < ranks i → ranks best < ranks i
  unset : search.bestConfig = none → search.bestRank = rating.bestRank
  least : ∀ i < n, rating.zero < ranks i → search.bestRank ≤ ranks i
  blank : search.planner.Blank numNodes

omit [Cost C] in
theorem valid_succ (rating : Rating C R) (ranks : ℕ → R) (n : ℕ) :
    ((List.range (n + 1)).filter fun i => rating.zero < ranks i).length =
      ((List.range n).filter fun i => rating.zero < ranks i).length + if rating.zero < ranks n then 1 else 0 := by
  rw [List.range_succ, List.filter_append, List.length_append]
  by_cases positive : rating.zero < ranks n <;> simp [positive]

/-- A configuration is tried. -/
theorem Found.step (found : Found rating ranks numNodes n search)
    (executes : ∃ q', executeConfiguration rating g (configs n) numNodes numGateways search.planner =
      some (ranks n, q') ∧ q'.Blank numNodes) :
    ∃ search', searchStep rating g configs numNodes numGateways search n = some search' ∧
      Found rating ranks numNodes (n + 1) search' := by
  obtain ⟨q', run, blank⟩ := executes
  have bounded : search.bestRank ≤ rating.bestRank := by
    cases is : search.bestConfig with
    | none => exact (found.unset is).le
    | some best =>
      obtain ⟨-, -, same, below, -⟩ := found.best best is
      exact same.le.trans below.le
  have wider (best : ℕ) (is : search.bestConfig = some best) :
      best < n + 1 ∧ rating.zero < ranks best ∧ search.bestRank = ranks best ∧
      ranks best < rating.bestRank ∧ ∀ i < best, rating.zero < ranks i → ranks best < ranks i := by
    obtain ⟨inside, rest⟩ := found.best best is
    exact ⟨Nat.lt_succ_of_lt inside, rest⟩
  have count := valid_succ rating ranks n
  rw [← found.valid] at count
  unfold searchStep
  simp only [run, Option.bind_eq_bind, Option.bind_some]
  by_cases positive : rating.zero < ranks n
  · rw [if_pos positive] at count ⊢
    by_cases better : ranks n < search.bestRank
    · rw [if_pos better]
      refine ⟨_, rfl, by simp only; rw [← found.tried]; omega, count.symm, ?_, fun is => (by cases is), ?_, blank⟩
      · rintro best ⟨rfl⟩
        exact ⟨Nat.lt_succ_self n, positive, rfl, better.trans_le bounded, fun i inside other =>
          better.trans_le (found.least i inside other)⟩
      · intro i inside other
        rcases Nat.lt_succ_iff_lt_or_eq.mp inside with before' | rfl
        · exact better.le.trans (found.least i before' other)
        · exact le_refl _
    · rw [if_neg better]
      refine ⟨_, rfl, by simp only; rw [← found.tried]; omega, count.symm, wider, found.unset, ?_, blank⟩
      intro i inside other
      rcases Nat.lt_succ_iff_lt_or_eq.mp inside with before' | rfl
      · exact found.least i before' other
      · exact not_lt.mp better
  · rw [if_neg positive] at count ⊢
    refine ⟨_, rfl, by simp only; rw [← found.tried]; omega, count.symm, wider, found.unset, ?_, blank⟩
    intro i inside other
    rcases Nat.lt_succ_iff_lt_or_eq.mp inside with before' | rfl
    · exact found.least i before' other
    · exact absurd other positive

theorem search_run (rating : Rating C R) (ranks : ℕ → R) (blank : p.Blank numNodes)
    (executes : ∀ i (q : Planner C), q.Blank numNodes →
      ∃ q', executeConfiguration rating g (configs i) numNodes numGateways q = some (ranks i, q') ∧
        q'.Blank numNodes) (n : ℕ) :
    ∃ search, performExhaustiveSearch rating g configs n numNodes numGateways p = some search ∧
      Found rating ranks numNodes n search := by
  induction n with
  | zero => exact ⟨_, rfl, rfl, rfl, fun best is => (by cases is), fun _ => rfl,
      fun i none => absurd none (Nat.not_lt_zero i), blank⟩
  | succ n ih =>
    obtain ⟨search, run, found⟩ := ih
    obtain ⟨search', step, found'⟩ := found.step (executes n search.planner found.blank)
    refine ⟨search', ?_, found'⟩
    unfold performExhaustiveSearch at run ⊢
    rw [List.range_succ, List.foldlM_append, run]
    exact (congrArg (· >>= pure) step).trans rfl

/-- What the search leaves, by the ranks of the configurations. -/
structure Best (rating : Rating C R) (g : Graph C) (configs : ℕ → ℕ → ℤ) (numConfigs numNodes numGateways : ℕ)
    (ranks : ℕ → R)
    (search : Search C R) : Prop where
  ranked : ∀ i (q : Planner C), q.Blank numNodes →
    (executeConfiguration rating g (configs i) numNodes numGateways q).map Prod.fst = some (ranks i)
  valid : search.numValid = ((List.range numConfigs).filter fun i => rating.zero < ranks i).length
  tried : search.numValid + search.numDisc = numConfigs
  best : ∀ best, search.bestConfig = some best → best < numConfigs ∧ rating.zero < ranks best ∧
    ranks best < rating.bestRank ∧
    (∀ i < numConfigs, rating.zero < ranks i → ranks best ≤ ranks i) ∧
    ∀ i < best, rating.zero < ranks i → ranks best < ranks i
  served : ∀ best, search.bestConfig = some best →
    ∀ i ∈ List.range' (numNodes - numGateways) numGateways, Served g (configs best) numNodes numGateways i
  none : search.bestConfig = none → ∀ i < numConfigs, rating.zero < ranks i → rating.bestRank ≤ ranks i

/-- **The search finds the first of the best configurations**. Each configuration has a rank that
does not depend on what the graphs were used for before, and no assertion fails; of those that are
ranked above `FALSE` and below the first `best_rank` the best is one with the least rank, before
any other with that rank, and every gateway gets a tree in it. -/
theorem search_finds_best (rating : Rating C R) (configs : ℕ → ℕ → ℤ) (numConfigs : ℕ)
    (plain : Plain g) (numbered : Numbered numNodes g)
    (gateways : numGateways ≤ numNodes) (small : numNodes < slotsOfT) (blank : p.Blank numNodes) :
    ∃ ranks search, performExhaustiveSearch rating g configs numConfigs numNodes numGateways p = some search ∧
      Best rating g configs numConfigs numNodes numGateways ranks search := by
  have ranked (i : ℕ) := @rank_exists C R _ g rating numNodes numGateways p plain numbered gateways
    small blank (configs i)
  choose ranks executes served using ranked
  obtain ⟨search, run, found⟩ := search_run rating ranks blank executes numConfigs
  refine ⟨ranks, search, run, fun i q blank' => ?_, found.valid, found.tried, fun best is => ?_,
    fun best is => ?_, fun is i inside positive => ?_⟩
  · obtain ⟨q', run', -⟩ := executes i q blank'
    rw [run']
    rfl
  · obtain ⟨inside, positive, same, below, first⟩ := found.best best is
    exact ⟨inside, positive, below, fun i inside' other => same ▸ found.least i inside' other, first⟩
  · exact served best (found.best best is).2.1.ne'
  · rw [← found.unset is]
    exact found.least i inside positive

end Search

/-- A rating by the costs that flow from the gateway of three nodes. -/
def relayRating : Rating ℕ ℕ where
  zero := 0
  plus := Nat.add
  performance links count := count * ((links 3).map fun l => l.flow.toNat * l.lnCost).sum
  bestRank := 1000000

theorem search_finds_best_relay : ∃ ranks search,
    performExhaustiveSearch relayRating relay (fun i _ => i) 2 3 1 ⟨unlinked, unlinked⟩ = some search ∧
    Best relayRating relay (fun i _ => i) 2 3 1 ranks search :=
  search_finds_best relayRating (fun i _ => i) 2 plain_relay numbered_relay (by decide) (by decide)
    ⟨numbered_unlinked 3, numbered_unlinked 3⟩

example : (performExhaustiveSearch relayRating relay (fun i _ => i) 2 3 1 ⟨unlinked, unlinked⟩).map
    (fun search => (search.bestConfig, search.bestRank, search.numValid, search.numDisc)) =
      some (some 0, 20, 1, 1) := by decide +kernel

end Ditto.RoutePlanner
