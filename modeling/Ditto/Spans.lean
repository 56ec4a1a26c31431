import Mathlib.Data.List.Basic
import Mathlib.Order.Interval.Set.Basic

/-! Windows of an infinite sequence. A byte string that was cut out of a longer
string or stream is the sequence read over a half-open range of positions, so
cutting, dropping and concatenating strings becomes arithmetic on the bounds. -/
namespace Ditto.Windows

/-- The values of `source` at the positions `first ≤ i < last`, in order. -/
def window (source : ℕ → α) (first last : ℕ) : List α :=
  (List.range' first (last - first)).map source

@[simp] theorem length_window (source : ℕ → α) (first last : ℕ) :
    (window source first last).length = last - first := by
  simp [window]

@[simp] theorem window_empty (source : ℕ → α) (first : ℕ) : window source first first = [] := by
  simp [window]

/-- Adjacent windows concatenate to the window over both ranges. -/
theorem window_append (source : ℕ → α) (ordered : first ≤ middle) (later : middle ≤ last) :
    window source first middle ++ window source middle last = window source first last := by
  have start : middle = first + (middle - first) := by omega
  have total : last - first = (middle - first) + (last - middle) := by omega
  simp only [window, ← List.map_append]
  rw [total, ← List.range'_append_1, ← start]

theorem drop_window (source : ℕ → α) (first last count : ℕ) :
    (window source first last).drop count = window source (first + count) last := by
  simp only [window, ← List.map_drop, List.drop_range', Nat.mul_one, Nat.sub_sub]

theorem take_window (source : ℕ → α) (within : first + count ≤ last) :
    (window source first last).take count = window source first (first + count) := by
  have fits : count ≤ last - first := by omega
  simp only [window, ← List.map_take, List.take_range'_of_length_ge fits, Nat.add_sub_cancel_left]

theorem getElem?_window (source : ℕ → α) (inside : first + index < last) :
    (window source first last)[index]? = some (source (first + index)) := by
  have bound : index < last - first := by omega
  simp [window, bound]

/-- Two sequences that agree on the range have the same window there. -/
theorem window_congr {source other : ℕ → α}
    (same : ∀ i, first ≤ i → i < last → source i = other i) :
    window source first last = window other first last := by
  refine List.map_congr_left fun i member => ?_
  simp only [List.mem_range'_1] at member
  exact same i member.1 (by omega)

theorem window_shift (source : ℕ → α) (offset first last : ℕ) :
    window (fun i => source (offset + i)) first last =
      window source (offset + first) (offset + last) := by
  have width : offset + last - (offset + first) = last - first := by omega
  rw [window, window, width, ← List.map_add_range']
  simp only [List.map_map, Function.comp_def]

/-- A slice of a list is the window of its entries, whatever the default. -/
theorem take_drop_eq_window (values : List α) (default : α) (within : last ≤ values.length) :
    (values.drop first).take (last - first) = window (fun i => values.getD i default) first last := by
  apply List.ext_getElem?
  intro index
  by_cases inside : first + index < last
  · rw [getElem?_window _ inside, List.getElem?_take_of_lt (by omega), List.getElem?_drop,
      List.getElem?_eq_getElem (by omega)]
    simp only [List.getD_eq_getElem?_getD, List.getElem?_eq_getElem (show first + index < values.length by omega),
      Option.getD_some]
  · rw [List.getElem?_eq_none (by simp; omega), List.getElem?_eq_none (by simp; omega)]

end Ditto.Windows

/-! Lists of half-open spans over a linear order. `lo` and `hi` read the bounds
of an element, so the same facts serve any record that carries a range. A
separated list leaves a point uncovered after each span, which makes its
coverage determine where the spans end. -/
namespace Ditto.Spans

variable {β α : Type*} [LinearOrder α] {lo hi : β → α} {spans later : List β}

/-- The points that some span of the list contains. -/
def coverage (lo hi : β → α) (spans : List β) : Set α :=
  {x | ∃ b ∈ spans, lo b ≤ x ∧ x < hi b}

/-- No span is empty. -/
def Proper (lo hi : β → α) (spans : List β) : Prop := ∀ b ∈ spans, lo b < hi b

/-- In list order each span ends strictly before every later one starts. -/
def Separated (lo hi : β → α) (spans : List β) : Prop := spans.Pairwise fun a b => hi a < lo b

@[simp] theorem coverage_nil : coverage lo hi ([] : List β) = ∅ := by
  simp [coverage]

@[simp] theorem coverage_cons (b : β) (spans : List β) :
    coverage lo hi (b :: spans) = Set.Ico (lo b) (hi b) ∪ coverage lo hi spans := by
  ext x
  simp [coverage]

@[simp] theorem coverage_append (spans later : List β) :
    coverage lo hi (spans ++ later) = coverage lo hi spans ∪ coverage lo hi later := by
  ext x
  simp [coverage, or_and_right, exists_or]

/-- Two members of an ordered list are the same, or one comes before the other. -/
theorem same_or_ordered {R : β → β → Prop} (ordered : spans.Pairwise R) {one two : β} (first : one ∈ spans)
    (second : two ∈ spans) : one = two ∨ R one two ∨ R two one :=
  List.Pairwise.forall_of_forall_of_flip (R := fun x y => x = y ∨ R x y ∨ R y x) (fun _ _ => Or.inl rfl)
    (ordered.imp fun before => Or.inr (Or.inl before)) (ordered.imp fun before => Or.inr (Or.inr before)) first second

/-- The start of a nonempty span is covered. -/
theorem start_covered (proper : Proper lo hi spans) (member : b ∈ spans) :
    lo b ∈ coverage lo hi spans :=
  ⟨b, member, le_rfl, proper b member⟩

/-- The point just past a span of a separated list is covered by no span. -/
theorem end_not_covered (proper : Proper lo hi spans) (separated : Separated lo hi spans)
    (member : b ∈ spans) : hi b ∉ coverage lo hi spans := by
  rintro ⟨other, held, above, below⟩
  rcases same_or_ordered separated member held with rfl | before | after
  · exact lt_irrefl _ below
  · exact absurd above (not_le.mpr before)
  · exact absurd (below.trans (after.trans (proper b member))) (lt_irrefl _)

/-- A covered interval lies inside a single span of a separated list. -/
theorem interval_within_one (proper : Proper lo hi spans) (separated : Separated lo hi spans)
    {first last : α} (nonempty : first < last) (covered : Set.Ico first last ⊆ coverage lo hi spans) :
    ∃ b ∈ spans, lo b ≤ first ∧ last ≤ hi b := by
  obtain ⟨b, member, below, above⟩ := covered ⟨le_rfl, nonempty⟩
  refine ⟨b, member, below, ?_⟩
  by_contra short
  have inside : hi b ∈ Set.Ico first last := ⟨above.le, not_le.mp short⟩
  exact end_not_covered proper separated member (covered inside)

/-- A separated list that covers one interval is one span. -/
theorem one_span (proper : Proper lo hi spans) (separated : Separated lo hi spans) {first last : α}
    (nonempty : first < last) (covers : coverage lo hi spans = Set.Ico first last) :
    ∃ b, spans = [b] ∧ lo b = first ∧ hi b = last := by
  match spans with
  | [] => exact absurd (covers ▸ ⟨le_rfl, nonempty⟩ : first ∈ coverage lo hi []) (by simp)
  | [b] =>
    obtain ⟨other, member, below, above⟩ := interval_within_one proper separated nonempty covers.ge
    obtain rfl := List.mem_singleton.mp member
    have start : lo other ∈ Set.Ico first last := covers ▸ start_covered proper member
    refine ⟨other, rfl, le_antisymm below start.1, le_antisymm ?_ above⟩
    by_contra longer
    have inside : last ∈ coverage lo hi [other] := ⟨other, member, below.trans nonempty.le, not_le.mp longer⟩
    exact lt_irrefl last (covers.le inside).2
  | b :: other :: rest =>
    -- the end of the first span is inside the interval
    have start : lo b ∈ Set.Ico first last := covers ▸ start_covered proper (List.mem_cons_self ..)
    have later : lo other ∈ Set.Ico first last :=
      covers ▸ start_covered proper (List.mem_cons_of_mem _ (List.mem_cons_self ..))
    have apart : hi b < lo other := (List.pairwise_cons.mp separated).1 other (List.mem_cons_self ..)
    have inside : hi b ∈ Set.Ico first last :=
      ⟨start.1.trans (proper b (List.mem_cons_self ..)).le, apart.trans later.2⟩
    exact absurd (covers.ge inside) (end_not_covered proper separated (List.mem_cons_self ..))

/-- A list whose coverage adds only an interval beyond `bound` to spans beyond
`bound` has every span beyond `bound`. -/
theorem starts_beyond (proper : Proper lo hi later) {first last bound : α}
    (grown : coverage lo hi later ⊆ coverage lo hi spans ∪ Set.Ico first last)
    (before : ∀ b ∈ spans, bound < lo b) (added : bound < first) : ∀ b ∈ later, bound < lo b := by
  intro b member
  rcases grown (start_covered proper member) with ⟨old, held, below, _⟩ | inside
  · exact (before old held).trans_le below
  · exact added.trans_le inside.1

/-- Of the spans of a separated list, the first has the least start. -/
theorem head_start_le (proper : Proper lo hi (b :: spans)) (separated : Separated lo hi (b :: spans))
    (member : other ∈ b :: spans) : lo b ≤ lo other := by
  rcases List.mem_cons.mp member with rfl | held
  · exact le_rfl
  · exact ((proper b (List.mem_cons_self ..)).trans
      ((List.pairwise_cons.mp separated).1 other held)).le

end Ditto.Spans
