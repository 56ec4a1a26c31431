import Ditto.PlannedCosts

/-! The routes that `get_route` returns. What `dijkstra` leaves in `pi` leads back from a node
along the way that its cost is of; `get_route` walks it back, turns it round, and looks every
link of it up again. -/
namespace Ditto.RoutePlanner
open ShortestPaths Cost

variable {C : Type} [Cost C] {lh : ℕ → LinkHead C} {g g' : Graph C} {source size u v : ℕ} {way : List ℕ}
  {into : ℕ → Option (ℕ × Link C)}

/-- What the walk back notes of a node. -/
def Graph.noted (g : Graph C) (v : ℕ) : Back := ⟨v, g.piOutif v, g.piInif v⟩

/-! ## Lookups -/

omit [Cost C] in
theorem key_of_find {tom : ℕ} {fromif toif : ℤ} {l : Link C} (found : findLink u tom fromif toif g = some l) :
    l ∈ g.links u ∧ l.key = (tom, fromif, toif) := by
  unfold findLink at found
  split at found
  · cases found
  next => exact ⟨List.mem_of_find?_eq_some found, by simpa using List.find?_some found⟩

omit [Cost C] in
/-- A link of a node is the one that is found under its key. -/
theorem find_link_of_mem {l : Link C} (inside : u ≤ maxNodes) (member : l ∈ g.links u) :
    findLink u l.lnDst l.outif l.inif g = some l := by
  obtain ⟨l', found⟩ : ∃ l', findLink u l.lnDst l.outif l.inif g = some l' := by
    rw [← Option.isSome_iff_exists, findLink, if_neg (Nat.not_lt.mpr inside), List.find?_isSome]
    exact ⟨l, member, by simp [Link.key]⟩
  obtain ⟨member', same⟩ := key_of_find found
  rw [found, Option.some.injEq]
  exact List.inj_on_of_nodup_map (g.lh u).distinct member' member same

/-! ## The way back -/

/-- What is known of a way that the labels lead back. -/
structure Led (g : Graph C) (size source : ℕ) (into : ℕ → Option (ℕ × Link C)) (way : List ℕ) (v : ℕ) : Prop where
  trace : Trace into source way v
  single : way.Nodup
  near : ∀ w ∈ way, w < size ∧ g.d w < inflen
  linked : ∀ w ∈ way, ∀ u l, into w = some (u, l) →
    l ∈ g.links u ∧ l.lnDst = w ∧ g.d w = plus (g.d u) l.lnCost

omit [Cost C] in
theorem source_mem (trace : Trace into source way v) : source ∈ way := by
  induction trace with
  | here _ => exact List.mem_singleton_self _
  | on _ _ ih => exact List.mem_append_left _ ih

omit [Cost C] in
theorem last_mem (trace : Trace into source way v) : v ∈ way := by
  cases trace with
  | here _ => exact List.mem_singleton_self _
  | on _ _ => exact List.mem_append_right _ (List.mem_singleton_self _)

theorem Led.before {w : ℕ} (led : Led g size source into (way ++ [w]) v) (trace : Trace into source way u) :
    Led g size source into way u :=
  ⟨trace, led.single.sublist (List.sublist_append_left _ _), fun x member => led.near x (List.mem_append_left _ member),
    fun x member => led.linked x (List.mem_append_left _ member)⟩

theorem trace_back_far {left : ℕ} (far : ¬ g.d v < inflen) : traceBack source size g left v = some ([], v) := by
  unfold traceBack
  exact if_neg far

/-- A step of the walk back. -/
theorem trace_back_step {left : ℕ} (inside : v < size) (near : g.d v < inflen) :
    traceBack source size g (left + 1) v =
      if v = source then some ([g.noted v], v)
      else (traceBack source size g left (g.pi v)).map fun walked => (g.noted v :: walked.1, walked.2) := by
  rw [traceBack, if_pos near, if_pos (Nat.le_of_lt inside)]
  split
  · rfl
  · cases traceBack source size g left (g.pi v) <;> rfl

theorem Led.other_of_on {w : ℕ} (led : Led g size source into (way ++ [w]) v)
    (before : Trace into source way u) : w ≠ source := by
  rintro rfl
  exact (List.nodup_append.mp led.single).2.2 _ (source_mem before) _ (List.mem_singleton_self _) rfl

/-- A way that fits is walked back to its start. -/
theorem trace_back_fits (agrees : Agrees g size into) (led : Led g size source into way v) {left : ℕ}
    (fits : way.length ≤ left) : traceBack source size g left v = some (way.reverse.map g.noted, source) := by
  have trace := led.trace
  induction trace generalizing left with
  | here _ =>
    obtain ⟨left, rfl⟩ : ∃ n, left = n + 1 := ⟨left - 1, by simp at fits; omega⟩
    obtain ⟨inside, close⟩ := led.near _ (List.mem_singleton_self _)
    rw [trace_back_step inside close, if_pos rfl]
    rfl
  | @on way u v l before link ih =>
    rw [List.length_append, List.length_singleton] at fits
    obtain ⟨left, rfl⟩ : ∃ n, left = n + 1 := ⟨left - 1, by omega⟩
    obtain ⟨inside, close⟩ := led.near v (last_mem led.trace)
    have walked := ih (led.before before) (Nat.le_of_succ_le_succ fits)
    rw [trace_back_step inside close, if_neg (led.other_of_on before), (agrees.led inside link).1,
      walked, Option.map_some,
      List.reverse_append]
    rfl

/-- A way that does not fit fills `rpath`. -/
theorem trace_back_fills (agrees : Agrees g size into) (led : Led g size source into way v) {left : ℕ}
    (long : left < way.length) :
    ∃ rpath v', traceBack source size g left v = some (rpath, v') ∧ rpath.length = left := by
  have trace := led.trace
  induction trace generalizing left with
  | here _ =>
    obtain rfl : left = 0 := by simp at long; omega
    obtain ⟨inside, close⟩ := led.near _ (List.mem_singleton_self _)
    exact ⟨[], source, by rw [traceBack, if_pos close, if_pos (Nat.le_of_lt inside)], rfl⟩
  | @on way u v l before link ih =>
    obtain ⟨inside, close⟩ := led.near v (last_mem led.trace)
    cases left with
    | zero => exact ⟨[], v, by rw [traceBack, if_pos close, if_pos (Nat.le_of_lt inside)], rfl⟩
    | succ left =>
      rw [List.length_append, List.length_singleton] at long
      obtain ⟨rpath, v', walked, filled⟩ := ih (led.before before) (Nat.lt_of_succ_lt_succ long)
      refine ⟨g.noted v :: rpath, v', ?_, congrArg (· + 1) filled⟩
      rw [trace_back_step inside close, if_neg (led.other_of_on before), (agrees.led inside link).1,
        walked, Option.map_some]

/-! ## The way forward -/

omit [Cost C] in
/-- A place more is built behind the last. -/
theorem build_append {bs : List Back} {b : Back} {path : List ℕ} {l : Link C} (built : buildRoute g u bs = some path)
    (found : findLink ((path.getLastD u) &&& 0xff) b.node b.outif b.inif g = some l) :
    buildRoute g u (bs ++ [b]) = some (path ++ [l.lnDst]) := by
  induction bs generalizing u path with
  | nil =>
    cases built
    have found : findLink (u &&& 0xff) b.node b.outif b.inif g = some l := found
    simp [buildRoute, found]
  | cons b' rest ih =>
    rw [buildRoute] at built
    cases first : findLink (u &&& 0xff) b'.node b'.outif b'.inif g with
    | none => simp [first] at built
    | some l' =>
      cases more : buildRoute g l'.lnDst rest with
      | none => simp [first, more] at built
      | some path' =>
        simp only [first, more, Option.bind_eq_bind, Option.bind_some, Option.some.injEq] at built
        subst built
        have behind : (l'.lnDst :: path').getLastD u = path'.getLastD l'.lnDst := by cases path' <;> rfl
        rw [behind] at found
        rw [List.cons_append, buildRoute, first]
        simp only [Option.bind_eq_bind, Option.bind_some, ih more found, List.cons_append]

/-- The way is built again from what was noted of its nodes. -/
theorem build_led (agrees : Agrees g size into) (small : size ≤ slotsOfT) (led : Led g size source into way v) :
    ∃ path, way = source :: path ∧ path.getLastD source = v ∧ buildRoute g source (path.map g.noted) = some path := by
  have trace := led.trace
  induction trace with
  | here _ => exact ⟨[], rfl, rfl, rfl⟩
  | @on way u v l before link ih =>
    obtain ⟨inside, -⟩ := led.near v (last_mem led.trace)
    obtain ⟨path, rfl, ends, built⟩ := ih (led.before before)
    obtain ⟨-, outif, inif⟩ := agrees.led inside link
    obtain ⟨member, reached, -⟩ := led.linked v (last_mem led.trace) u l link
    have below : u ≤ maxNodes := by
      have := ((led.before before).near u (last_mem before)).1
      have := slots_le
      omega
    -- the mask keeps every node, as there are not so many
    have mask : u &&& 0xff = u := by
      rw [show (0xff : ℕ) = 2 ^ 8 - 1 from rfl, Nat.and_two_pow_sub_one_eq_mod]
      exact Nat.mod_eq_of_lt (Nat.lt_of_le_of_lt below (by decide))
    refine ⟨path ++ [v], rfl, by simp, ?_⟩
    rw [List.map_append, List.map_singleton]
    have found : findLink ((path.getLastD source) &&& 0xff) (g.noted v).node (g.noted v).outif
        (g.noted v).inif g = some l := by
      rw [ends, mask, Graph.noted, outif, inif, ← reached]
      exact find_link_of_mem below member
    rw [build_append built found, reached]

/-! ## The route -/

/-- A way of least cost. -/
def Cheapest (lh : ℕ → LinkHead C) (source v : ℕ) (way : List ℕ) (c : C) : Prop :=
  Route (network lh) source zero way v c ∧ ∀ way' c', Route (network lh) source zero way' v c' → c ≤ c'

/-- A node below `INFLEN` is led back to along a cheapest way. -/
theorem Settled.led (settled : Settled g source size into) (inside : v < size) (near : g.d v < inflen) :
    ∃ way, Led g size source into way v ∧ Cheapest g.lh source v way (g.d v) := by
  obtain ⟨-, sound, done⟩ := settled
  have near : (labels g size into).cost v < inflen := by rwa [cost_of_lt inside]
  obtain ⟨way, trace, single, settled, route⟩ := sound.traced (done v near)
  have least (way' : List ℕ) (c' : C) (other : Route (network g.lh) source zero way' v c') := sound.least done other
  rw [cost_of_lt inside] at route least
  have known (w : ℕ) (member : w ∈ way) : w < size ∧ g.d w < inflen := by
    have known := sound.known (settled w member)
    rw [cost_of_lt (settled w member).1] at known
    exact ⟨(settled w member).1, known⟩
  refine ⟨way, ⟨trace, single, known, ?_⟩, route, least⟩
  intro w member u l led
  obtain ⟨looked, close⟩ := known w member
  rcases sound.came (by rwa [cost_of_lt looked] : (labels g size into).cost w < inflen) with ⟨-, first⟩ |
      ⟨u', l', led', inside', link, reached, paid⟩
  · rw [show into w = none from first] at led
    cases led
  · rw [show into w = some (u', l') from led', Option.some.injEq, Prod.mk.injEq] at led
    obtain ⟨rfl, rfl⟩ := led
    rw [cost_of_lt looked, cost_of_lt inside'.1] at paid
    exact ⟨link, reached, paid⟩

theorem cheapest_init {c : C} (cheapest : Cheapest (initSingleSource source g size).lh u v way c) :
    Cheapest g.lh u v way c :=
  ⟨route_init.mp cheapest.1, fun way' c' other => cheapest.2 way' c' (route_init.mpr other)⟩

/-- What is returned: a cheapest way, filled up; or `NULL`, from a node to itself, where no way
is below `INFLEN`, and where a cheapest way is too long. -/
def Answers (lh : ℕ → LinkHead C) (source v : ℕ) (r : Option (List ℕ)) : Prop :=
  (r = none ∧ (source = v ∨ (∀ way c, Route (network lh) source zero way v c → inflen ≤ c) ∨
      ∃ way c, way.Nodup ∧ Cheapest lh source v way c ∧ maxSrLen ≤ way.length)) ∨
    ∃ way c, r = some (way ++ List.replicate (maxSrLen - way.length) anyDest) ∧ way.Nodup ∧ 2 ≤ way.length ∧
      way.length < maxSrLen ∧ c < inflen ∧ Cheapest lh source v way c

/-- What `get_route` does when `dijkstra` has run. -/
theorem get_route_eq (run : dijkstra source g size = some g') : getRoute source v g size =
    (traceBack source size g' maxSrLen v).bind fun walked =>
      if walked.1.length < 2 ∨ g'.d walked.2 = inflen ∨ walked.1.length ≥ maxSrLen then some (g', none)
      else (buildRoute g' source walked.1.reverse.tail).bind fun path =>
        some (g', some ((source :: path) ++ List.replicate (maxSrLen - (path.length + 1)) anyDest)) := by
  rw [getRoute, if_pos g.dated, run]
  rfl

/-- A way that does not fit is not returned. -/
theorem get_route_long (run : dijkstra source g size = some g') (agrees : Agrees g' size into)
    (led : Led g' size source into way v) (long : maxSrLen < way.length) :
    getRoute source v g size = some (g', none) := by
  obtain ⟨rpath, v', walked, filled⟩ := trace_back_fills agrees led long
  rw [get_route_eq run, walked]
  exact if_pos (.inr (.inr filled.ge))

/-- A way that fits is turned round and returned, if it has a link and leaves a place free. -/
theorem get_route_fits (run : dijkstra source g size = some g') (agrees : Agrees g' size into) (small : size ≤ slotsOfT)
    (led : Led g' size source into way v) (fits : way.length ≤ maxSrLen) :
    getRoute source v g size = some (g', if way.length < 2 ∨ maxSrLen ≤ way.length then none
      else some (way ++ List.replicate (maxSrLen - way.length) anyDest)) := by
  have known : g'.d source ≠ inflen := (led.near source (source_mem led.trace)).2.ne
  have length : (way.reverse.map g'.noted).length = way.length := by rw [List.length_map, List.length_reverse]
  rw [get_route_eq run, trace_back_fits agrees led fits]
  simp only [Option.bind_some, length, known, false_or, ge_iff_le]
  split
  · rfl
  · obtain ⟨path, rfl, -, built⟩ := build_led agrees small led
    have turned : ((source :: path).reverse.map g'.noted).reverse.tail = path.map g'.noted := by
      rw [← List.map_reverse, List.reverse_reverse]
      rfl
    rw [turned, built]
    rfl

/-- What `get_route` returns, and what it leaves of the links. -/
theorem get_route_of_dijkstra (closed : Closed g.lh size) (inside : source < size) (target : v < size)
    (small : size ≤ slotsOfT) :
    ∃ g' r, getRoute source v g size = some (g', r) ∧ g'.lh = (initSingleSource source g size).lh ∧
      Answers g.lh source v r := by
  obtain ⟨g', run, heads, into, settled⟩ := dijkstra_ends closed inside small
  by_cases near : g'.d v < inflen
  · obtain ⟨way, led, cheapest⟩ := settled.led target near
    have cheapest := cheapest_init (heads ▸ cheapest)
    by_cases fits : way.length ≤ maxSrLen
    · refine ⟨g', _, get_route_fits run settled.agrees small led fits, heads, ?_⟩
      split
      next short =>
        refine .inl ⟨rfl, ?_⟩
        rcases short with single | long
        · obtain ⟨path, rfl, ends, -⟩ := build_led settled.agrees small led
          rw [List.length_cons] at single
          obtain rfl := List.eq_nil_of_length_eq_zero (by omega : path.length = 0)
          exact .inl ends
        · exact .inr (.inr ⟨way, g'.d v, led.single, cheapest, long⟩)
      next between =>
        obtain ⟨two, free⟩ := not_or.mp between
        exact .inr ⟨way, g'.d v, rfl, led.single, not_lt.mp two, not_le.mp free, near, cheapest⟩
    · have long := Nat.lt_of_not_le fits
      exact ⟨g', none, get_route_long run settled.agrees led long, heads,
        .inl ⟨rfl, .inr (.inr ⟨way, g'.d v, led.single, cheapest, long.le⟩)⟩⟩
  · refine ⟨g', none, ?_, heads, .inl ⟨rfl, .inr (.inl fun way c route => ?_)⟩⟩
    · rw [get_route_eq run, trace_back_far near]
      rfl
    · obtain ⟨-, sound, done⟩ := settled
      have least := sound.least done (heads ▸ route_init.mpr route)
      rw [cost_of_lt target] at least
      exact (not_lt.mp near).trans least

/-- **`get_route` returns a cheapest way**, filled up with `ANY_DEST`. It returns `NULL` only from
a node to itself, where there is no way below `INFLEN`, and where the way that it finds has 25
nodes or more; and none of its assertions fails. -/
theorem get_route_cheapest (closed : Closed g.lh size) (inside : source < size) (target : v < size)
    (small : size ≤ slotsOfT) :
    ∃ g' r, getRoute source v g size = some (g', r) ∧
      ((r = none ∧ (source = v ∨ (∀ way c, Route (network g.lh) source zero way v c → inflen ≤ c) ∨
          ∃ way c, way.Nodup ∧ Cheapest g.lh source v way c ∧ maxSrLen ≤ way.length)) ∨
        ∃ way c, r = some (way ++ List.replicate (maxSrLen - way.length) anyDest) ∧ way.Nodup ∧ 2 ≤ way.length ∧
          way.length < maxSrLen ∧ c < inflen ∧ Cheapest g.lh source v way c) := by
  obtain ⟨g', r, run, -, rest⟩ := get_route_of_dijkstra closed inside target small
  exact ⟨g', r, run, rest⟩

theorem get_route_cheapest_relay : ∃ g' r, getRoute 3 2 relay 4 = some (g', r) ∧
    ((r = none ∧ (3 = 2 ∨ (∀ way c, Route (network relay.lh) 3 zero way 2 c → inflen ≤ c) ∨
        ∃ way c, way.Nodup ∧ Cheapest relay.lh 3 2 way c ∧ maxSrLen ≤ way.length)) ∨
      ∃ way c, r = some (way ++ List.replicate (maxSrLen - way.length) anyDest) ∧ way.Nodup ∧ 2 ≤ way.length ∧
        way.length < maxSrLen ∧ c < inflen ∧ Cheapest relay.lh 3 2 way c) :=
  get_route_cheapest (by decide) (by decide) (by decide) (by decide)

end Ditto.RoutePlanner
