import Mathlib.Logic.Basic
import Mathlib.Data.List.Basic
import Mathlib.Tactic.Common
import Mathlib.Algebra.BigOperators.Group.Finset.Basic
import Mathlib.Tactic.Abel

/-! Logs that are only appended to. What an operation adds to a log is stated by a
predicate on the entries, and operations that add such entries compose. -/
namespace Ditto.Logs

variable {α : Type*} {ok weaker : α → Prop} {before middle after : List α}

/-- The log grew by entries of one kind. -/
def Grows (ok : α → Prop) (before after : List α) : Prop :=
  ∃ new, after = before ++ new ∧ ∀ entry ∈ new, ok entry

theorem Grows.same (unchanged : after = before) : Grows ok before after :=
  ⟨[], by rw [unchanged, List.append_nil], fun _ member => absurd member List.not_mem_nil⟩

theorem Grows.snoc {entry : α} (kind : ok entry) : Grows ok before (before ++ [entry]) :=
  ⟨[entry], rfl, fun _ member => List.mem_singleton.mp member ▸ kind⟩

theorem Grows.trans (first : Grows ok before middle) (second : Grows ok middle after) :
    Grows ok before after := by
  obtain ⟨new, rfl, kind⟩ := first
  obtain ⟨newer, rfl, kind'⟩ := second
  refine ⟨new ++ newer, List.append_assoc .., fun entry member => ?_⟩
  cases List.mem_append.mp member with
  | inl old => exact kind entry old
  | inr recent => exact kind' entry recent

theorem Grows.imp (grows : Grows ok before after) (implied : ∀ entry, ok entry → weaker entry) :
    Grows weaker before after := by
  obtain ⟨new, same, kind⟩ := grows
  exact ⟨new, same, fun entry member => implied entry (kind entry member)⟩

/-- The entries past the old length are the new ones. -/
theorem Grows.of_mem_drop (grows : Grows ok before after) {entry : α}
    (member : entry ∈ after.drop before.length) : ok entry := by
  obtain ⟨new, rfl, kind⟩ := grows
  rw [List.drop_left] at member
  exact kind entry member

/-- An entry keeps its place. -/
theorem place_of_prefix {place : Nat} {entry : α} (grew : before <+: after) (found : before[place]? = some entry) :
    after[place]? = some entry := by
  obtain ⟨new, rfl⟩ := grew
  rw [List.getElem?_append_left (List.getElem?_eq_some_iff.mp found).1, found]

end Ditto.Logs

/-! A list sent in pages. The pages start at the multiples of a limit, every one but
the last is full, and even an empty list takes one. What holds from the last page
on, and from each page on if it does from the next, holds from the first. -/
namespace Ditto.Paging

variable {α : Type} {limit size first : ℕ} {items : List α}

/-- The page that starts at an offset. -/
def page (limit : ℕ) (items : List α) (first : ℕ) : List α := (items.drop first).take limit

/-- How many pages a list of a size takes. -/
def pageCount (limit size : ℕ) : ℕ := max 1 ((size + limit - 1) / limit)

/-- Where the pages start. -/
def offsets (limit size : ℕ) : List ℕ := (List.range (pageCount limit size)).map (· * limit)

@[simp] theorem length_offsets : (offsets limit size).length = pageCount limit size := by
  rw [offsets, List.length_map, List.length_range]

theorem take_page (items : List α) (limit first : ℕ) :
    items.take first ++ page limit items first = items.take (first + limit) := by
  rw [page, List.take_add]

/-- The last page is all that is left. -/
theorem page_last (last : items.length - first ≤ limit) : page limit items first = items.drop first := by
  rw [page, List.take_of_length_le]
  rwa [List.length_drop]

/-- A list that is not empty takes the rounded-up quotient. -/
theorem page_count_ceil (positive : 0 < limit) (some_items : 0 < size) :
    pageCount limit size = (size + limit - 1) / limit := by
  have left : 0 < (size + limit - 1) / limit := by
    rw [Nat.div_pos_iff]
    omega
  rw [pageCount]
  omega

theorem page_count_last (positive : 0 < limit) (last : size ≤ limit) : pageCount limit size = 1 := by
  have few : (size + limit - 1) / limit < 2 := by
    rw [Nat.div_lt_iff_lt_mul positive]
    omega
  rw [pageCount]
  omega

theorem page_count_more (positive : 0 < limit) (more : limit < size) :
    pageCount limit size = pageCount limit (size - limit) + 1 := by
  have split : size + limit - 1 = size - limit + limit - 1 + limit := by omega
  have left : 0 < (size - limit + limit - 1) / limit := by
    rw [Nat.div_pos_iff]
    omega
  rw [pageCount, pageCount, split, Nat.add_div_right _ positive]
  omega

/-- What holds from page to page, with the offsets of the pages to come. -/
theorem paged_induction {P : ℕ → List ℕ → Prop} (positive : 0 < limit)
    (last : ∀ first, first < size ∨ first = 0 → size - first ≤ limit → P first [first])
    (more : ∀ first rest, limit < size - first → P (first + limit) rest → P first (first :: rest)) :
    P 0 (offsets limit size) := by
  have from_page : ∀ count first, first < size ∨ first = 0 → pageCount limit (size - first) = count →
      P first ((List.range count).map fun k => first + k * limit) := by
    intro count
    induction count with
    | zero =>
      intro first _ none_left
      rw [pageCount] at none_left
      omega
    | succ count ih =>
      intro first inside left
      by_cases short : size - first ≤ limit
      · have one := page_count_last positive short
        obtain rfl : count = 0 := by omega
        simpa using last first inside short
      · have next := page_count_more positive (Nat.not_le.mp short)
        have rest := ih (first + limit) (by omega) (by rw [Nat.sub_add_eq]; omega)
        have shape : (List.range (count + 1)).map (fun k => first + k * limit) =
            first :: (List.range count).map fun k => first + limit + k * limit := by
          rw [List.range_succ_eq_map, List.map_cons, List.map_map, Nat.zero_mul, Nat.add_zero]
          congr 1
          apply List.map_congr_left
          intro k _
          simp only [Function.comp_apply, Nat.succ_mul]
          omega
        rw [shape]
        exact more first _ (Nat.not_le.mp short) rest
  have whole := from_page (pageCount limit size) 0 (Or.inr rfl) (by rw [Nat.sub_zero])
  simpa only [Nat.zero_add, offsets] using whole

end Ditto.Paging

/-! What is held in several places, counted together: under numbers below a bound, under the
keys of a list, or by the elements of a list. Where one place changes, the sum changes by
what it gains and loses. -/
namespace Ditto.Tallies

variable {α β κ : Type*} {n i : ℕ} {f g : ℕ → Multiset α}

/-- Everything that is held under the numbers below a bound. -/
def tally (n : ℕ) (held : ℕ → Multiset α) : Multiset α := ∑ i ∈ Finset.range n, held i

/-- One number changes. -/
theorem tally_moved (inside : i < n) (others : ∀ j, j ≠ i → g j = f j) : tally n g + f i = tally n f + g i := by
  have member : i ∈ Finset.range n := Finset.mem_range.mpr inside
  unfold tally
  rw [← Finset.add_sum_erase _ g member, ← Finset.add_sum_erase _ f member]
  have same : ∑ j ∈ (Finset.range n).erase i, g j = ∑ j ∈ (Finset.range n).erase i, f j :=
    Finset.sum_congr rfl fun j away => others j (Finset.ne_of_mem_erase away)
  rw [same]
  abel

theorem tally_same (each : ∀ j, g j = f j) : tally n g = tally n f :=
  Finset.sum_congr rfl fun j _ => each j

theorem tally_nothing (each : ∀ j, f j = 0) : tally n f = 0 := Finset.sum_eq_zero fun j _ => each j

/-- A number is given out. -/
theorem tally_grown (others : ∀ j, j ≠ n → g j = f j) : tally (n + 1) g = tally n f + g n := by
  unfold tally
  rw [Finset.sum_range_succ]
  congr 1
  exact Finset.sum_congr rfl fun j small => others j (Nat.ne_of_lt (Finset.mem_range.mp small))

/-- One key of a list changes. -/
theorem gather_moved {keys : List κ} {key : κ} {f g : κ → List α} (distinct : keys.Nodup)
    (member : key ∈ keys) (others : ∀ other, other ≠ key → g other = f other) :
    (keys.flatMap g : Multiset α) + f key = (keys.flatMap f : Multiset α) + g key := by
  induction keys with
  | nil => cases member
  | cons head rest ih =>
    obtain ⟨apart, distinct⟩ := List.nodup_cons.mp distinct
    simp only [List.flatMap_cons, ← Multiset.coe_add]
    by_cases here : head = key
    · subst here
      have same : rest.flatMap g = rest.flatMap f :=
        List.flatMap_congr fun other listed => others other fun same => apart (same ▸ listed)
      rw [same]
      abel
    · have later := ih distinct ((List.mem_cons.mp member).resolve_left (Ne.symm here))
      rw [others head here, add_assoc, later]
      abel

/-- Keys that do not change. -/
theorem gather_same {keys : List κ} {f g : κ → List α} (each : ∀ key ∈ keys, g key = f key) :
    (keys.flatMap g : Multiset α) = keys.flatMap f := by
  rw [List.flatMap_congr each]

/-- An element is taken out of a list. -/
theorem taken_out {items : List β} {index : ℕ} {item : β} (place : items[index]? = some item) (held : β → Option α) :
    (items.filterMap held : Multiset α) = (items.eraseIdx index).filterMap held + ((held item).toList : Multiset α) := by
  obtain ⟨inside, rfl⟩ := List.getElem?_eq_some_iff.mp place
  rw [Multiset.coe_add, Multiset.coe_eq_coe]
  refine (((List.getElem_cons_eraseIdx_perm inside).filterMap held).symm).trans ?_
  refine (List.Perm.trans ?_ List.perm_append_comm)
  rw [List.filterMap_cons]
  cases held items[index] <;> exact .refl _

theorem taken_out_map {items : List β} {index : ℕ} {item : β} (place : items[index]? = some item) (held : β → α) :
    (items.map held : Multiset α) = (items.eraseIdx index).map held + ({held item} : Multiset α) := by
  have taken := taken_out place fun item => some (held item)
  rw [List.filterMap_eq_map'] at taken
  exact taken

end Ditto.Tallies
