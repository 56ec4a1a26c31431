import Ditto.ConfigSearch
import Ditto.Runs

/-! What `print_configuration` writes. For every gateway it makes the gateway's tree and prints who
is in it, and the tables of the tree, all into the same two files. Nodes are configured to one
gateway each, so the tables of two trees have no row for the same node; and a packet that is
passed on by the file stays in its tree. -/
namespace Ditto.RoutePlanner
open ShortestPaths Cost TreeForwarding

variable {C : Type} {g g' t t' metric tree before : Graph C} {config : ℕ → ℤ} {numNodes numGateways gwid i u v w : ℕ}
  {rows : List (ℕ × ℕ × ℕ)} {l : Link C}

/-! ## Valid nodes -/

/-- Nodes that have become valid have a link, or are the target of one. -/
def Linked (before g : Graph C) : Prop :=
  ∀ v, (g.lh v).valid = true → (before.lh v).valid = true ∨ ∃ u, ∃ l ∈ g.links u, u = v ∨ l.lnDst = v

theorem Linked.add {cost : C} {outif inif channel : ℤ} (linked : Linked before g) :
    Linked before (addLink u v cost g outif inif channel) := by
  have kept (w : ℕ) (key : ℕ × ℤ × ℤ) (known : key ∈ (g.links w).map Link.key ∨ w = u ∧ key = (v, outif, inif)) :
      ∃ l ∈ (addLink u v cost g outif inif channel).links w, l.lnDst = key.1 := by
    obtain ⟨l, member, same⟩ := key_add cost outif inif channel key known
    exact ⟨l, member, congrArg Prod.fst same⟩
  intro w valid
  rw [valid_add, Bool.or_eq_true, Bool.or_eq_true, decide_eq_true_eq, decide_eq_true_eq] at valid
  rcases valid with rfl | rfl | valid
  · obtain ⟨l, member, target⟩ := kept u (w, outif, inif) (.inr ⟨rfl, rfl⟩)
    exact .inr ⟨u, l, member, .inr target⟩
  · obtain ⟨l, member, -⟩ := kept w (v, outif, inif) (.inr ⟨rfl, rfl⟩)
    exact .inr ⟨w, l, member, .inl rfl⟩
  · rcases linked w valid with early | ⟨x, l, member, ends⟩
    · exact .inl early
    · obtain ⟨l', member', target⟩ := kept x l.key (.inl (List.mem_map_of_mem member))
      exact .inr ⟨x, l', member', ends.imp_right target.trans⟩

theorem Linked.turn (links : List (Link C)) (linked : Linked before g) :
    Linked before (links.foldl (fun g l => addLink l.lnDst i l.lnCost g 0 0 0) g) := by
  induction links generalizing g with
  | nil => exact linked
  | cons l rest ih => exact ih linked.add

theorem Linked.bidirectionalize (linked : Linked before g) : Linked before (bidirectionalizeGraph numNodes g) := by
  unfold bidirectionalizeGraph
  induction List.range' 1 numNodes generalizing g with
  | nil => exact linked
  | cons i rest ih => exact ih (linked.turn _)

variable [Cost C]

theorem Linked.grow {root size rounds : ℕ} (linked : Linked before tree)
    (run : growTree metric g root size rounds v tree = some t) :
    Linked before t := by
  induction rounds generalizing v tree with
  | zero => cases run
  | succ rounds ih =>
    unfold growTree at run
    split at run
    · split at run
      · split at run
        · cases run
          exact linked
        · obtain ⟨l, -, run⟩ := Option.bind_eq_some_iff.mp run
          exact ih linked.add run
      · cases run
    · cases run
      exact linked

/-- The nodes of a tree that are valid have links in it. -/
theorem linked_of_construct_tree {gatewayId : ℕ}
    (run : constructTree metric tree g gatewayId numNodes = some (g', some t)) :
    Linked (resetGraph numNodes tree) t := by
  unfold constructTree at run
  obtain ⟨g₁, -, run⟩ := Option.bind_eq_some_iff.mp run
  split at run
  · cases run
  · obtain ⟨t₁, made, run⟩ := Option.bind_eq_some_iff.mp run
    cases run
    unfold makeTreeGraph at made
    obtain ⟨t₂, grown, made⟩ := Option.bind_eq_some_iff.mp made
    cases made
    show Linked (resetGraph numNodes tree) t₂
    refine Runs.kept_of_foldlM (fun v valid => .inl valid) (fun before i after _ linked round => ?_) grown
    split at round
    · cases round
      exact linked
    · exact linked.grow round

omit [Cost C] in
theorem valid_copy (node : Node numNodes v) (valid : (metric.lh v).valid = true) :
    ((copyGraph numNodes metric g).lh v).valid = true := by
  suffices copied : ∀ nodes : List ℕ, ∀ g : Graph C, (v ∈ nodes ∨ (g.lh v).valid = true) →
      ((nodes.foldl (fun g v => copyNode metric v
        ((metric.links v).foldl (fun g l => addLink v l.lnDst l.lnCost g 0 0 0) g)) g).lh v).valid =
        true from copied _ g (.inl (mem_nodes.mpr node))
  intro nodes
  induction nodes with
  | nil => exact fun g held => held.resolve_left List.not_mem_nil
  | cons w rest ih =>
    intro g held
    refine ih _ ?_
    have kept (links : List (Link C)) {g : Graph C} (valid : (g.lh v).valid = true) :
        ((links.foldl (fun g l => addLink w l.lnDst l.lnCost g 0 0 0) g).lh v).valid = true := by
      induction links generalizing g with
      | nil => exact valid
      | cons l rest ih => exact ih (by rw [valid_add, valid]; simp)
    simp only [copyNode]
    by_cases same : v = w
    · subst same
      rw [Function.update_self]
      exact .inr valid
    · rw [Function.update_of_ne same]
      rcases held with member | before
      · exact .inl ((List.mem_cons.mp member).resolve_left same)
      · exact .inr (kept _ before)

omit [Cost C] in
theorem valid_delete (nodes : List ℕ) (q : ℕ → Prop) [DecidablePred q] (valid : (g.lh v).valid = true)
    (spared : ∀ i ∈ nodes, q i → v ≠ i + 1) :
    ((nodes.foldl (fun g i => if q i then delVertex numNodes (i + 1) g else g) g).lh v).valid = true := by
  induction nodes generalizing g with
  | nil => exact valid
  | cons i rest ih =>
    refine ih ?_ fun j member => spared j (List.mem_cons_of_mem i member)
    show ((if q i then delVertex numNodes (i + 1) g else g).lh v).valid = true
    split
    next gone =>
      simp only [delVertex, if_neg (spared i List.mem_cons_self gone)]
      split
      · exact valid
      · exact valid
    next => exact valid

/-- A node that is configured to a gateway stays valid in the gateway's part. -/
theorem valid_part {subgraph : Graph C} (node : Node numNodes v) (own : Own config numNodes numGateways gwid v)
    (valid : (metric.lh v).valid = true) (late : numNodes - numGateways ≤ gwid) :
    (((constructGraphForASubconfiguration metric subgraph config gwid numNodes numGateways).1).lh v).valid = true := by
  refine valid_delete _ _ (valid_delete _ _ (valid_copy node valid)
    fun i member other same => ?_) fun i member other same => ?_
  · subst same
    have early := List.mem_range.mp member
    rcases own with same | ⟨-, -, configured⟩
    · omega
    · exact other configured
  · subst same
    have later := (List.mem_range'_1.mp member).1
    rcases own with same | ⟨-, early, -⟩
    · omega
    · omega

/-! ## One gateway -/

/-- What is printed of a gateway's tree: who is in it, and rows between these. -/
structure Output (g : Graph C) (config : ℕ → ℤ) (numNodes numGateways i : ℕ) (t : Graph C)
    (rows : List (ℕ × ℕ × ℕ)) : Prop where
  own : ∀ v, Node numNodes v → listed numNodes numGateways (i + 1) t v = true → Own config numNodes numGateways i v
  held : ∀ v, Node numNodes v → v ≤ numNodes - numGateways → Own config numNodes numGateways i v →
    (g.lh v).valid = true →
    listed numNodes numGateways (i + 1) t v = true
  between : ∀ row ∈ rows, Between numNodes numGateways (i + 1) t row
  deliver : ∀ v w, Node numNodes v → Node numNodes w → listed numNodes numGateways (i + 1) t v = true →
    listed numNodes numGateways (i + 1) t w = true → ∃ way, way.Nodup ∧
      Forwards (fun i j h => (i, j, h) ∈ rows) w way v ∧
      ∀ h h', (v, w, h) ∈ rows → (v, w, h') ∈ rows → h = h'

/-- Who is listed of a gateway's tree is one of its own nodes. -/
theorem own_of_listed (linked : Linked (resetGraph numNodes tree) (bidirectionalizeGraph numNodes t))
    (own : Joins (fun u v => Own config numNodes numGateways i u ∧ Own config numNodes numGateways i v) t)
    (late : numNodes - numGateways ≤ i) (inside : i < numNodes) (node : Node numNodes v)
    (shown : listed numNodes numGateways (i + 1) (bidirectionalizeGraph numNodes t) v = true) :
    Own config numNodes numGateways i v := by
  rw [listed, Bool.and_eq_true, Bool.not_eq_true', Bool.and_eq_false_iff, decide_eq_false_iff_not,
    decide_eq_false_iff_not] at shown
  obtain ⟨valid, early | same⟩ := shown
  · rcases linked v valid with stale | ⟨u, l, member, ends⟩
    · have first : 1 ≤ v ∧ v ≤ numNodes := node
      have other : v ≠ numNodes := by omega
      simp [resetGraph, first, other] at stale
    · have joins : Joins _ (bidirectionalizeGraph numNodes t) := Joins.bidirectionalize (fun both => both.symm) own
      obtain ⟨source, target⟩ := joins u l member
      rcases ends with rfl | rfl
      · exact source
      · exact target
  · exact .inl (not_not.mp same)

theorem gateway_printed {p : Planner C} (plain : Plain g) (numbered : Numbered numNodes g)
    (gateways : numGateways ≤ numNodes)
    (small : numNodes < slotsOfT) (late : numNodes - numGateways ≤ i) (inside : i < numNodes) (blank : p.Blank numNodes)
    (run : constructTree g p.tree (p.part g config i numNodes numGateways) i numNodes = some (g', some t))
    (printed : printRoutingTables t (i + 1) numNodes numGateways = some (t', rows)) :
    Numbered numNodes g' ∧ Numbered numNodes t' ∧ Output g config numNodes numGateways i t' rows := by
  obtain ⟨printing, deliver⟩ := tables_deliver plain numbered blank.subgraph blank.tree gateways inside small run printed
  obtain ⟨within, own⟩ : Within (p.part g config i numNodes numGateways) g ∧
      Joins (fun u v => Own config numNodes numGateways i u ∧ Own config numNodes numGateways i v)
        (p.part g config i numNodes numGateways) :=
    subconfiguration_links plain numbered blank.subgraph gateways
  have counted := numbered_of_within within numbered
  obtain ⟨into, heads, settled, joined, grown⟩ := grown_of_construct_tree within counted blank.tree inside small run
  have linked : Linked (resetGraph numNodes p.tree) (bidirectionalizeGraph numNodes t) :=
    (linked_of_construct_tree run).bidirectionalize
  refine ⟨numbered_init heads counted, printing.numbered, ?_, ?_, fun row member => ?_, deliver⟩
  · intro v node shown
    rw [listed_of_valid printing.valid] at shown
    exact own_of_listed linked (joins_of_grown (own.init heads) grown) late inside node shown
  · intro v node early owned valid
    have valid' : (g'.lh v).valid = true := (valid_init heads v).trans (valid_part node owned valid late)
    have marked : (t.lh v).valid = true := settled.valid_of_grown grown node (settled.near joined node valid') (by omega)
    rw [listed_of_valid printing.valid, listed, valid_bidirectionalize marked]
    simp [early]
  · obtain ⟨-, source, target⟩ := printing.rows row member
    exact ⟨⟨source.1, by rw [listed_of_valid printing.valid]; exact source.2⟩, target.1,
      by rw [listed_of_valid printing.valid]; exact target.2⟩

/-! ## All gateways -/

/-- The channel that a gateway's tree is given. -/
def channelOf (numNodes numGateways i : ℕ) : ℤ := 1 + 5 * ((i : ℤ) - (numNodes - numGateways))

/-- The files hold what is printed of each of the gateways, after what they held before. -/
theorem print_from_run (plain : Plain g) (numbered : Numbered numNodes g) (gateways : numGateways ≤ numNodes)
    (small : numNodes < slotsOfT) (n first : ℕ) (late : numNodes - numGateways ≤ first) (inside : first + n ≤ numNodes)
    (served : ∀ i ∈ List.range' first n, Served g config numNodes numGateways i) {p p' : Planner C}
    (blank : p.Blank numNodes)
    {printed printed' : Printed}
    (run : printFrom g config numNodes numGateways (List.range' first n)
    (channelOf numNodes numGateways first) printed p =
      some (printed', p')) :
    ∃ out : ℕ → Graph C × List (ℕ × ℕ × ℕ),
      (∀ i ∈ List.range' first n, Output g config numNodes numGateways i (out i).1 (out i).2) ∧
      (∀ row, row ∈ printed'.tables ↔ row ∈ printed.tables ∨ ∃ i ∈ List.range' first n, row ∈ (out i).2) ∧
      ∀ row, row ∈ printed'.members ↔ row ∈ printed.members ∨ ∃ i ∈ List.range' first n,
        row ∈ printMembership (out i).1 (channelOf numNodes numGateways i) (i + 1) numNodes numGateways := by
  induction n generalizing first printed p with
  | zero =>
    cases run
    exact ⟨fun _ => (g, []), by simp, by simp, by simp⟩
  | succ n ih =>
    rw [List.range'_succ] at run served ⊢
    obtain ⟨g', t, built⟩ := served first List.mem_cons_self p blank
    have tree := built
    rw [Planner.part] at tree
    rw [printFrom] at run
    simp only [tree, Option.bind_eq_bind, Option.bind_some] at run
    obtain ⟨⟨t', rows⟩, tables, run⟩ := Option.bind_eq_some_iff.mp run
    obtain ⟨counted, counted', output⟩ := gateway_printed plain numbered gateways small late
      (by omega) blank built tables
    have next : channelOf numNodes numGateways first + 5 = channelOf numNodes numGateways (first + 1) := by
      simp only [channelOf]
      push_cast
      omega
    rw [next] at run
    obtain ⟨out, outputs, rows', members⟩ := ih (first + 1) (by omega) (by omega)
      (fun i member => served i (List.mem_cons_of_mem _ member))
      (p := ⟨g', t'⟩) ⟨counted, counted'⟩ run
    have later (i : ℕ) (member : i ∈ List.range' (first + 1) n) : Function.update out first (t', rows) i = out i := by
      refine Function.update_of_ne (fun same => ?_) _ _
      have := (List.mem_range'_1.mp (same ▸ member)).1
      omega
    refine ⟨Function.update out first (t', rows), fun i member => ?_, fun row => ?_, fun row => ?_⟩
    · rcases List.mem_cons.mp member with rfl | member
      · rw [Function.update_self]
        exact output
      · rw [later i member]
        exact outputs i member
    · rw [rows', List.mem_append, or_assoc, List.exists_mem_cons_iff, Function.update_self]
      refine or_congr_right (or_congr_right (exists_congr fun i => and_congr_right fun member => ?_))
      rw [later i member]
    · rw [members, List.mem_append, or_assoc, List.exists_mem_cons_iff, Function.update_self]
      refine or_congr_right (or_congr_right (exists_congr fun i => and_congr_right fun member => ?_))
      rw [later i member]

omit [Cost C] in
theorem mem_membership {channel ch : ℤ} {gw gw' : ℕ} : (v, gw', ch) ∈ printMembership t channel gw numNodes numGateways ↔
    (Node numNodes v ∧ listed numNodes numGateways gw t v = true) ∧ gw' = gw ∧ ch = channel := by
  rw [printMembership, List.mem_map]
  constructor
  · rintro ⟨i, member, same⟩
    rw [Prod.mk.injEq, Prod.mk.injEq] at same
    obtain ⟨rfl, rfl, rfl⟩ := same
    obtain ⟨node, shown⟩ := List.mem_filter.mp member
    exact ⟨⟨mem_nodes.mp node, shown⟩, rfl, rfl⟩
  · rintro ⟨⟨node, shown⟩, rfl, rfl⟩
    exact ⟨v, List.mem_filter.mpr ⟨mem_nodes.mpr node, shown⟩, rfl⟩

/-- A node is configured to one gateway. -/
theorem Own.unique {i j : ℕ} (late : numNodes - numGateways ≤ i) (late' : numNodes - numGateways ≤ j)
    (own : Own config numNodes numGateways i v) (own' : Own config numNodes numGateways j v) : i = j := by
  rcases own with rfl | ⟨-, early, configured⟩ <;> rcases own' with same | ⟨-, early', configured'⟩
  · omega
  · omega
  · omega
  · omega

/-- **The printed files lead to every member of a tree**: a valid node is printed as a member of just
the gateway that it is configured to, with the gateway's channel; and who passes on by the rows of
the one file for all gateways gets from a member of a tree to each other, by no node twice. -/
theorem configuration_delivers {p p' : Planner C} {printed : Printed} (plain : Plain g) (numbered : Numbered numNodes g)
    (gateways : numGateways ≤ numNodes) (small : numNodes < slotsOfT) (blank : p.Blank numNodes)
    (served : ∀ i ∈ List.range' (numNodes - numGateways) numGateways, Served g config numNodes numGateways i)
    (run : printConfiguration g config numNodes numGateways p = some (printed, p')) :
    (∀ v gw ch, 1 ≤ v → v ≤ numNodes - numGateways → (g.lh v).valid = true → ((v, gw, ch) ∈ printed.members ↔
        ∃ i, numNodes - numGateways ≤ i ∧ i < numNodes ∧
          config (v - 1) = (i : ℤ) - (numNodes - numGateways) ∧ gw = i + 1 ∧
          ch = channelOf numNodes numGateways i)) ∧
      ∀ v w gw ch ch', (v, gw, ch) ∈ printed.members → (w, gw, ch') ∈ printed.members →
        ∃ way, way.Nodup ∧ Forwards (fun i j h => (i, j, h) ∈ printed.tables) w way v ∧
          ∀ h h', (v, w, h) ∈ printed.tables → (v, w, h') ∈ printed.tables → h = h' := by
  have channel : (1 : ℤ) = channelOf numNodes numGateways (numNodes - numGateways) := by
    rw [channelOf]
    omega
  rw [printConfiguration, channel] at run
  obtain ⟨out, outputs, tables, members⟩ := print_from_run plain numbered gateways small numGateways
    (numNodes - numGateways) (le_refl _)
    (by omega) served blank run
  have gateway (i : ℕ) : i ∈ List.range' (numNodes - numGateways) numGateways ↔
      numNodes - numGateways ≤ i ∧ i < numNodes := by
    rw [List.mem_range'_1]
    omega
  have member (v gw : ℕ) (ch : ℤ) : (v, gw, ch) ∈ printed.members ↔
    ∃ i ∈ List.range' (numNodes - numGateways) numGateways,
      (Node numNodes v ∧ listed numNodes numGateways (i + 1) (out i).1 v = true) ∧ gw = i + 1 ∧
          ch = channelOf numNodes numGateways i := by
    rw [members]
    simp only [List.not_mem_nil, false_or, mem_membership]
  refine ⟨fun v gw ch first early valid => ?_, fun v w gw ch ch' inside inside' => ?_⟩
  · have node : Node numNodes v := ⟨first, by omega⟩
    rw [member]
    refine exists_congr fun i => ?_
    rw [gateway, and_assoc]
    refine and_congr_right fun late => and_congr_right fun last => and_congr_left fun _ => ?_
    have output := outputs i ((gateway i).mpr ⟨late, last⟩)
    constructor
    · rintro ⟨-, shown⟩
      rcases output.own v node shown with same | ⟨-, -, configured⟩
      · omega
      · exact configured
    · intro configured
      exact ⟨node, output.held v node early (.inr ⟨first, early, configured⟩) valid⟩
  · obtain ⟨i, here, ⟨node, shown⟩, rfl, -⟩ := (member v gw ch).mp inside
    obtain ⟨j, -, ⟨node', shown'⟩, same, -⟩ := (member w (i + 1) ch').mp inside'
    obtain rfl : i = j := Nat.succ.inj same
    have output := outputs i here
    obtain ⟨way, single, forwards, unique⟩ := output.deliver v w node node' shown shown'
    -- a row for the node is one of its own gateway's
    have own {h : ℕ} (row : (v, w, h) ∈ printed.tables) : (v, w, h) ∈ (out i).2 := by
      obtain ⟨k, there, row⟩ := ((tables _).mp row).resolve_left List.not_mem_nil
      have other := outputs k there
      obtain ⟨⟨-, listed'⟩, -⟩ := other.between _ row
      obtain rfl : k = i := Own.unique ((gateway k).mp there).1 ((gateway i).mp here).1
        (other.own v node listed') (output.own v node shown)
      exact row
    exact ⟨way, single, forwards.mono fun row => (tables _).mpr (.inr ⟨i, here, row⟩),
      fun h h' row row' => unique h h' (own row) (own row')⟩

/-- What is printed of three nodes, of which the last is the gateway. -/
def relayPrinted : Option (Printed × Planner ℕ) := printConfiguration relay (fun _ => 0) 3 1 ⟨unlinked, unlinked⟩

example : (relayPrinted.map fun r => (r.1.tables, r.1.members)) =
    some ([(1, 2, 2), (1, 3, 3), (2, 1, 1), (2, 3, 1), (3, 1, 1), (3, 2, 1)],
      [(1, 3, 1), (2, 3, 1), (3, 3, 1)]) := by decide +kernel

theorem configuration_delivers_relay : ∃ printed p', relayPrinted = some (printed, p') ∧
    (∀ v gw ch, 1 ≤ v → v ≤ 3 - 1 → (relay.lh v).valid = true → ((v, gw, ch) ∈ printed.members ↔
        ∃ i : ℕ, 3 - 1 ≤ i ∧ i < 3 ∧ (0 : ℤ) = (i : ℤ) - ((3 : ℕ) - (1 : ℕ)) ∧ gw = i + 1 ∧ ch = channelOf 3 1 i)) ∧
      ∀ v w gw ch ch', (v, gw, ch) ∈ printed.members → (w, gw, ch') ∈ printed.members →
        ∃ way, way.Nodup ∧ Forwards (fun i j h => (i, j, h) ∈ printed.tables) w way v ∧
          ∀ h h', (v, w, h) ∈ printed.tables → (v, w, h') ∈ printed.tables → h = h' := by
  have blank : Planner.Blank 3 ⟨unlinked, unlinked⟩ := ⟨numbered_unlinked 3, numbered_unlinked 3⟩
  obtain ⟨r, same, served⟩ := @rank_exists ℕ ℕ _ relay relayRating 3 1 _ plain_relay numbered_relay
    (by decide) (by decide) blank fun _ => 0
  have positive : r ≠ relayRating.zero := by
    obtain ⟨q', run, -⟩ := same _ blank
    have rank : (executeConfiguration relayRating relay (fun _ => 0) 3 1 ⟨unlinked, unlinked⟩).map Prod.fst =
        some 20 := by decide +kernel
    rw [run, Option.map_some, Option.some.injEq] at rank
    rw [show r = 20 from rank]
    decide
  have ends : relayPrinted.isSome = true := by decide +kernel
  obtain ⟨⟨printed, p'⟩, run⟩ := Option.isSome_iff_exists.mp ends
  exact ⟨printed, p', run, configuration_delivers plain_relay numbered_relay (by decide)
    (by decide) blank (served positive) run⟩

end Ditto.RoutePlanner
