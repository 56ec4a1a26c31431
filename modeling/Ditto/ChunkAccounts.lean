import Mathlib.Data.Set.Card
import Mathlib.Order.Interval.Finset.Nat
import Ditto.ChunkHistories

/-! What a chunk's calls add up to. The bytes handed over are counted either as stored
or as duplicate, and a call is a duplicate exactly if its range was covered; so the
call that covers the last missing offset is the one that says the chunk is done, and no
other does. The bytes themselves play no part in where they go. -/
namespace Ditto.ChunkAccounts
open Sniffer ContiguousBlock ReconstructedChunk ChunkReassembly ChunkHistories Spans Windows Words Runs

/-- The bytes in the blocks. -/
def storedBytes (lcb : List ContiguousBlock) : ℕ := (lcb.map fun b => b.contiguousBlock.length).sum

/-- A block has as many bytes as its numbers say. -/
def Sized (block : ContiguousBlock) : Prop := startOf block + block.contiguousBlock.length = nextOf block

variable {source : ℕ → UInt8} {limit size : ℕ} {lcb lcb' rest rest' : List ContiguousBlock}
  {li li' : ContiguousBlock} {payload : Pointer} {n : TcpSeq} {dups dups' : UInt64} {bDuplicate : Bool}

theorem stored_cons (li : ContiguousBlock) (rest : List ContiguousBlock) :
    storedBytes (li :: rest) = li.contiguousBlock.length + storedBytes rest := by
  simp [storedBytes]

theorem sized_of_ok (ok : BlockOk source limit li) : Sized li := by
  have length := ok.holds.length
  have ordered := ok.holds.ordered
  simp only [Sized, startOf, nextOf]
  omega

theorem covered_finite (lcb : List ContiguousBlock) : (covered lcb).Finite := by
  induction lcb with
  | nil => simp
  | cons li rest ih =>
    rw [covered_cons]
    exact (Set.finite_Ico _ _).union ih

/-- A separated list has a byte for each offset it covers. -/
theorem stored_eq_ncard (ok : BlocksOk source limit lcb) : storedBytes lcb = (covered lcb).ncard := by
  induction lcb with
  | nil => simp [storedBytes]
  | cons li rest ih =>
    obtain ⟨head, tail, apart⟩ := blocks_ok_cons.mp ok
    have sized := sized_of_ok head
    have own : Set.Ico (startOf li) (nextOf li) = Finset.Ico (startOf li) (nextOf li) := by simp
    have away : Disjoint (Set.Ico (startOf li) (nextOf li)) (covered rest) := by
      rw [Set.disjoint_left]
      rintro x inside ⟨b, member, above, _⟩
      exact absurd (apart b member) (by have := inside.2; omega)
    rw [stored_cons, covered_cons, Set.ncard_union_eq away (Set.finite_Ico _ _) (covered_finite rest), ih tail, own,
      Set.ncard_coe_finset, Nat.card_Ico]
    simp only [Sized] at sized
    omega

/-! ## Each walk balances -/

theorem toUInt64_eq (word : UInt32) : word.toUInt64 = UInt64.ofNat word.toNat := by
  rw [← UInt64.toNat_inj, UInt32.toNat_toUInt64, UInt64.toNat_ofNat']
  have bound := word.toNat_lt
  omega

/-- What the counter gains between two numbers. -/
theorem counted_between {first last : UInt32} (ordered : first.toNat ≤ last.toNat) (dups : UInt64) :
    dups + last.toUInt64 - first.toUInt64 = dups + UInt64.ofNat (last.toNat - first.toNat) := by
  obtain ⟨more, total⟩ := Nat.exists_eq_add_of_le ordered
  rw [toUInt64_eq, toUInt64_eq, total, Nat.add_sub_cancel_left, UInt64.ofNat_add]
  grind

/-- What the merging loop drops it counts. -/
theorem merge_following_balance (tail : ∀ b ∈ rest, Sized b)
    (ran : mergeFollowing li rest dups = some (li', rest', dups')) :
    dups' + UInt64.ofNat (storedBytes (li' :: rest')) = dups + UInt64.ofNat (storedBytes (li :: rest)) := by
  induction rest generalizing dups with
  | nil =>
    cases ran
    rfl
  | cons li2 rest ih =>
    obtain ⟨second, others⟩ := List.forall_mem_cons.mp tail
    simp only [Sized, startOf, nextOf] at second
    rw [mergeFollowing] at ran
    by_cases reached : li2.startingSeqNumber ≤ li.nextExpectedSeqNumber
    · have touch := UInt32.le_iff_toNat_le.mp reached
      rw [if_pos reached] at ran
      by_cases longer : li.nextExpectedSeqNumber < li2.nextExpectedSeqNumber
      · have beyond := UInt32.lt_iff_toNat_lt.mp longer
        rw [if_pos longer] at ran
        obtain ⟨merged, grown, ran⟩ := Option.bind_eq_some_iff.mp ran
        cases ran
        have offset := toNat_sub_eq touch
        rw [overlappingAppend] at grown
        split at grown
        · cases grown
          rw [counted_between touch, UInt64.add_assoc, ← UInt64.ofNat_add]
          simp only [stored_cons, List.length_append, List.length_drop, offset]
          congr 2
          omega
        · cases grown
      · have inside := Nat.le_of_not_lt fun l => longer (UInt32.lt_iff_toNat_lt.mpr l)
        rw [if_neg longer] at ran
        rw [ih others ran, counted_between (by omega), UInt64.add_assoc, ← UInt64.ofNat_add]
        simp only [stored_cons]
        congr 2
        omega
    · rw [if_neg reached] at ran
      cases ran
      rfl

/-- The merging loop keeps what the block reaches and what it has, and adds to both. -/
theorem merge_following_extends (ran : mergeFollowing li rest dups = some (li', rest', dups')) :
    li'.startingSeqNumber = li.startingSeqNumber ∧ nextOf li ≤ nextOf li' ∧
      ∃ more, li'.contiguousBlock = li.contiguousBlock ++ more := by
  induction rest generalizing dups with
  | nil =>
    cases ran
    exact ⟨rfl, Nat.le_refl _, [], (List.append_nil _).symm⟩
  | cons li2 rest ih =>
    rw [mergeFollowing] at ran
    split at ran
    · split at ran
      · rename_i longer
        obtain ⟨merged, grown, ran⟩ := Option.bind_eq_some_iff.mp ran
        cases ran
        rw [overlappingAppend] at grown
        split at grown
        · cases grown
          exact ⟨rfl, Nat.le_of_lt (UInt32.lt_iff_toNat_lt.mp longer), _, rfl⟩
        · cases grown
      · exact ih ran
    · cases ran
      exact ⟨rfl, Nat.le_refl _, [], (List.append_nil _).symm⟩

/-- What a walk has to account for: the bytes it was handed, whether it had them, and
something new if it had not. -/
structure Accounted (lcb : List ContiguousBlock) (dups : UInt64) (first size : ℕ)
    (lcb' : List ContiguousBlock) (dups' : UInt64) (bDuplicate : Bool) : Prop where
  balance : dups' + UInt64.ofNat (storedBytes lcb') = dups + UInt64.ofNat (storedBytes lcb + size)
  held : bDuplicate = true → Set.Ico first (first + size) ⊆ covered lcb
  grown : bDuplicate = false → ∃ x ∈ Set.Ico first (first + size), x ∈ covered lcb' ∧ x ∉ covered lcb

theorem Accounted.duplicate_iff {first : ℕ} (accounted : Accounted lcb dups first size lcb' dups' bDuplicate) :
    bDuplicate = true ↔ Set.Ico first (first + size) ⊆ covered lcb := by
  refine ⟨accounted.held, fun all => ?_⟩
  by_contra isNew
  obtain ⟨x, inside, _, fresh⟩ := accounted.grown (Bool.eq_false_of_not_eq_true isNew)
  exact fresh (all inside)

theorem ofInt_natCast_64 (value : ℕ) : UInt64.ofInt value = UInt64.ofNat value := by
  rw [← UInt64.toNat_inj, UInt64.ofInt, UInt64.toNat_ofNat', UInt64.toNat_ofNat']
  omega

/-- A walk that covers a new offset is no duplicate. -/
theorem accounted_new {first : ℕ} (x : ℕ) (inside : x ∈ Set.Ico first (first + size))
    (fresh : x ∉ covered lcb) (stored : x ∈ covered lcb')
    (balance : dups' + UInt64.ofNat (storedBytes lcb') = dups + UInt64.ofNat (storedBytes lcb + size)) :
    Accounted lcb dups first size lcb' dups' false :=
  ⟨balance, nofun, fun _ => ⟨x, inside, stored, fresh⟩⟩

/-- An offset of the front block. -/
theorem in_front {x : ℕ} (lower : startOf li ≤ x) (upper : x < nextOf li) : x ∈ covered (li :: rest) := by
  rw [covered_cons]
  exact Or.inl ⟨lower, upper⟩

/-- Nothing before the first block is covered. -/
theorem before_not_covered (ok : BlocksOk source limit (li :: rest)) {x : ℕ} (before : x < startOf li) :
    x ∉ covered (li :: rest) := by
  rintro ⟨b, member, above, _⟩
  have first := head_start_le ok.proper ok.separated member
  omega

/-- A walk that passes a block accounts for what the rest of it does. -/
theorem accounted_past {first : ℕ} (passed : nextOf li < first)
    (rest_accounted : Accounted rest dups first size rest' dups' bDuplicate) :
    Accounted (li :: rest) dups first size (li :: rest') dups' bDuplicate where
  balance := by
    have balance := rest_accounted.balance
    simp only [stored_cons, UInt64.ofNat_add] at balance ⊢
    grind
  held := fun isDuplicate => by
    rw [covered_cons]
    exact (rest_accounted.held isDuplicate).trans Set.subset_union_right
  grown := fun isNew => by
    obtain ⟨x, inside, stored, fresh⟩ := rest_accounted.grown isNew
    refine ⟨x, inside, ?_, ?_⟩
    · rw [covered_cons]
      exact Or.inr stored
    · rw [covered_cons]
      rintro (here | later)
      · exact absurd here.2 (by have := inside.1; omega)
      · exact fresh later

/-- **Each walk balances**, whatever its range overlaps. -/
theorem fill_blocks_accounts (ok : BlocksOk source limit lcb) (small : limit < 2 ^ 31) (positive : 0 < size)
    (inside : n.toNat + size ≤ limit)
    (ran : fillBlocks payload size n lcb dups = some (lcb', dups', bDuplicate)) :
    Accounted lcb dups n.toNat size lcb' dups' bDuplicate := by
  induction lcb generalizing lcb' with
  | nil =>
    rw [fillBlocks, create_append] at ran
    cases ran
    have last : (n + UInt32.ofInt size).toNat = n.toNat + size := toNat_add_ofInt n size (by omega)
    refine accounted_new n.toNat ⟨by omega, by omega⟩ (by simp)
      (in_front (Nat.le_refl _) (show n.toNat < (n + UInt32.ofInt size).toNat by omega)) ?_
    simp [storedBytes]
  | cons li rest ih =>
    obtain ⟨head, tail, apart⟩ := blocks_ok_cons.mp ok
    have sized := sized_of_ok head
    have bounded := head.bounded
    have proper := head.proper
    simp only [Sized] at sized
    have end_eq : (n + UInt32.ofInt size).toNat = n.toNat + size := toNat_add_ofInt n size (by omega)
    rw [fillBlocks] at ran
    by_cases early : n < li.startingSeqNumber
    · have early' : n.toNat < startOf li := UInt32.lt_iff_toNat_lt.mp early
      have fresh := before_not_covered ok early'
      simp only [if_pos early] at ran
      by_cases touches : n + UInt32.ofInt size = li.startingSeqNumber
      · rw [if_pos touches, prepend_eq] at ran
        cases ran
        refine accounted_new n.toNat ⟨by omega, by omega⟩ fresh
          (in_front (Nat.le_refl _) (show n.toNat < nextOf li by omega)) ?_
        simp only [stored_cons, List.length_append, Pointer.length_bytes]
        congr 2
        omega
      · rw [if_neg touches] at ran
        by_cases before : n + UInt32.ofInt size < li.startingSeqNumber
        · rw [if_pos before, create_append] at ran
          cases ran
          refine accounted_new n.toNat ⟨by omega, by omega⟩ fresh
            (in_front (Nat.le_refl _) (show n.toNat < (n + UInt32.ofInt size).toNat by omega)) ?_
          simp only [stored_cons, Pointer.length_bytes]
          congr 2
          omega
        · -- what is past the start of the block is counted, whether the block has it or not
          have gap_eq : (li.startingSeqNumber - n).toNat = startOf li - n.toNat := toNat_sub_eq early'.le
          have count : toInt (li.startingSeqNumber - n) = (startOf li - n.toNat : ℕ) := by
            rw [toInt_of_small (by omega), gap_eq]
          have upto : startOf li ≤ n.toNat + size := end_eq ▸ Nat.le_of_not_lt fun less =>
            before (UInt32.lt_iff_toNat_lt.mpr less)
          rw [if_neg before, count, prepend_eq, ite_self] at ran
          cases ran
          refine accounted_new n.toNat ⟨by omega, by omega⟩ fresh
            (in_front (Nat.le_refl _) (show n.toNat < nextOf li by omega)) ?_
          obtain ⟨more, total⟩ := Nat.exists_eq_add_of_le upto
          have whole : size = (startOf li - n.toNat) + more := by omega
          rw [ofInt_natCast_64, toUInt64_eq, gap_eq, whole]
          simp only [stored_cons, List.length_append, Pointer.length_bytes, UInt64.ofNat_add]
          grind
    · have from_start : startOf li ≤ n.toNat := Nat.le_of_not_lt fun l => early (UInt32.lt_iff_toNat_lt.mpr l)
      simp only [if_neg early] at ran
      by_cases met : n ≤ li.nextExpectedSeqNumber
      · have met' : n.toNat ≤ nextOf li := UInt32.le_iff_toNat_le.mp met
        rw [if_pos met] at ran
        by_cases longer : li.nextExpectedSeqNumber < n + UInt32.ofInt size
        · have longer' : nextOf li < n.toNat + size := end_eq ▸ UInt32.lt_iff_toNat_lt.mp longer
          have offset : (li.nextExpectedSeqNumber - n).toNat = nextOf li - n.toNat := toNat_sub_eq met'
          have fits : (li.nextExpectedSeqNumber - n).toNat ≤ (payload.bytes size).length := by
            rw [offset, Pointer.length_bytes]
            omega
          simp only [if_pos longer, appendChars, Int.natCast_nonneg, if_true, List.nil_append, Int.toNat_natCast,
            overlappingAppend, if_pos fits, Option.bind_eq_bind, Option.bind_some] at ran
          obtain ⟨⟨made, others, counted⟩, merged, ran⟩ := Option.bind_eq_some_iff.mp ran
          cases ran
          have balance := merge_following_balance (fun b member => sized_of_ok (tail.each b member)) merged
          obtain ⟨first, last, _⟩ := merge_following_extends merged
          have last : (n + UInt32.ofInt size).toNat ≤ nextOf made := last
          have first : startOf made = startOf li := congrArg UInt32.toNat first
          refine accounted_new (nextOf li) ⟨met', longer'⟩
            (end_not_covered ok.proper ok.separated (List.mem_cons_self ..))
            (in_front (show startOf made ≤ nextOf li by omega) (show nextOf li < nextOf made by omega)) ?_
          rw [balance, counted_between met', UInt64.add_assoc, ← UInt64.ofNat_add]
          simp only [stored_cons, List.length_append, List.length_drop, Pointer.length_bytes, offset]
          congr 2
          simp only [nextOf] at met' longer' ⊢
          omega
        · have known : n.toNat + size ≤ nextOf li := Nat.le_of_not_lt fun l =>
            longer (UInt32.lt_iff_toNat_lt.mpr (end_eq.symm ▸ l))
          rw [if_neg longer] at ran
          cases ran
          refine ⟨?_, fun _ x held => ?_, fun isNew => by cases isNew⟩
          · rw [ofInt_natCast_64, UInt64.ofNat_add]
            grind
          · rw [covered_cons]
            exact Or.inl ⟨from_start.trans held.1, held.2.trans_le known⟩
      · have passed : nextOf li < n.toNat := Nat.lt_of_not_le fun l => met (UInt32.le_iff_toNat_le.mpr l)
        rw [if_neg met] at ran
        obtain ⟨⟨others, counted, same⟩, walked, ran⟩ := Option.bind_eq_some_iff.mp ran
        cases ran
        exact accounted_past passed (ih tail walked)

/-! ## The bytes play no part -/

/-- A block with each of its bytes replaced. -/
def mapBytes (f : UInt8 → UInt8) (block : ContiguousBlock) : ContiguousBlock :=
  { block with contiguousBlock := block.contiguousBlock.map f }

variable {f : UInt8 → UInt8}

theorem bytes_map (payload : Pointer) (count : ℕ) :
    Pointer.bytes (fun i => f (payload i)) count = (payload.bytes count).map f := by
  simp [Pointer.bytes, window]

theorem append_chars_map (payload : Pointer) (size : ℤ) (held : List UInt8) :
    appendChars (held.map f) (fun i => f (payload i)) size = (appendChars held payload size).map (List.map f) := by
  rw [appendChars, appendChars]
  split
  · simp [bytes_map]
  · rfl

theorem create_append_map (payload : Pointer) (size : ℤ) (seq : TcpSeq) :
    ContiguousBlock.create.append (fun i => f (payload i)) size seq =
      (ContiguousBlock.create.append payload size seq).map (mapBytes f) := by
  have held := append_chars_map (f := f) payload size []
  unfold ContiguousBlock.append ContiguousBlock.create mapBytes
  simp only [List.map_nil] at held
  simp only [if_true, held, Option.bind_eq_bind]
  cases appendChars [] payload size <;> rfl

theorem prepend_map (payload : Pointer) (size : ℤ) (seq : TcpSeq) :
    (mapBytes f li).prepend (fun i => f (payload i)) size seq = (li.prepend payload size seq).map (mapBytes f) := by
  have held := append_chars_map (f := f) payload size []
  unfold ContiguousBlock.prepend mapBytes
  simp only [List.map_nil] at held
  simp only [held, Option.bind_eq_bind]
  cases appendChars [] payload size with
  | none => rfl
  | some made => simp

theorem overlapping_append_map (str : List UInt8) (offset : UInt32) (ends : TcpSeq) :
    (mapBytes f li).overlappingAppend (str.map f) offset ends =
      (li.overlappingAppend str offset ends).map (mapBytes f) := by
  unfold ContiguousBlock.overlappingAppend mapBytes
  rw [List.length_map]
  split
  · simp
  · rfl

theorem merge_following_map : mergeFollowing (mapBytes f li) (rest.map (mapBytes f)) dups =
    (mergeFollowing li rest dups).map fun r => (mapBytes f r.1, r.2.1.map (mapBytes f), r.2.2) := by
  induction rest generalizing dups with
  | nil => rfl
  | cons li2 rest ih =>
    have start : (mapBytes f li2).startingSeqNumber = li2.startingSeqNumber := rfl
    have next : ∀ b, (mapBytes f b).nextExpectedSeqNumber = b.nextExpectedSeqNumber := fun _ => rfl
    have held : (mapBytes f li2).contiguousBlock = li2.contiguousBlock.map f := rfl
    simp only [List.map_cons, mergeFollowing, start, next, held, ih]
    split
    · split
      · rw [overlapping_append_map]
        cases li.overlappingAppend li2.contiguousBlock (li.nextExpectedSeqNumber - li2.startingSeqNumber)
          li2.nextExpectedSeqNumber <;> rfl
      · rfl
    · rfl

theorem fill_blocks_map (payload : Pointer) (size : ℤ) :
    fillBlocks (fun i => f (payload i)) size n (lcb.map (mapBytes f)) dups =
      (fillBlocks payload size n lcb dups).map fun r => (r.1.map (mapBytes f), r.2) := by
  induction lcb generalizing dups with
  | nil =>
    simp only [List.map_nil, fillBlocks, create_append_map, Option.bind_eq_bind]
    cases ContiguousBlock.create.append payload size n <;> rfl
  | cons li rest ih =>
    have start : (mapBytes f li).startingSeqNumber = li.startingSeqNumber := rfl
    have next : (mapBytes f li).nextExpectedSeqNumber = li.nextExpectedSeqNumber := rfl
    have chars := append_chars_map (f := f) payload size []
    simp only [List.map_nil] at chars
    simp only [List.map_cons, fillBlocks, start, next, prepend_map, create_append_map, chars, ih, Option.bind_eq_bind]
    split
    · split
      · cases li.prepend payload size n <;> rfl
      · split
        · cases ContiguousBlock.create.append payload size n <;> rfl
        · split <;> cases li.prepend payload (toInt (li.startingSeqNumber - n)) n <;> rfl
    · split
      · split
        · cases appendChars [] payload size with
          | none => rfl
          | some s =>
            simp only [Option.map_some, Option.bind_some, overlapping_append_map]
            cases li.overlappingAppend s (li.nextExpectedSeqNumber - n) (n + UInt32.ofInt size) with
            | none => rfl
            | some made =>
              simp only [Option.map_some, Option.bind_some, merge_following_map]
              cases mergeFollowing made rest
                (dups + li.nextExpectedSeqNumber.toUInt64 - n.toUInt64) <;> rfl
        · rfl
      · cases fillBlocks payload size n rest dups <;> rfl

/-- The blocks with zeros for bytes. -/
def blank (lcb : List ContiguousBlock) : List ContiguousBlock := lcb.map (mapBytes fun _ => 0)

theorem covered_blank (lcb : List ContiguousBlock) : covered (blank lcb) = covered lcb := by
  induction lcb with
  | nil => rfl
  | cons li rest ih =>
    rw [blank, List.map_cons, covered_cons, covered_cons, ← ih]
    rfl

theorem stored_blank (lcb : List ContiguousBlock) : storedBytes (blank lcb) = storedBytes lcb := by
  simp only [storedBytes, blank, List.map_map, Function.comp_def, mapBytes, List.length_map]

/-- Blocks in order, whatever their bytes. -/
def Ordered (limit : ℕ) (lcb : List ContiguousBlock) : Prop := BlocksOk (fun _ => 0) limit (blank lcb)

/-- What a walk does to the numbers of the blocks does not depend on the bytes, and it balances. -/
theorem fill_blocks_ordered (ordered : Ordered limit lcb) (small : limit < 2 ^ 31) (positive : 0 < size)
    (inside : n.toNat + size ≤ limit) (payload : Pointer) (dups : UInt64) :
    ∃ lcb' dups' bDuplicate, fillBlocks payload size n lcb dups = some (lcb', dups', bDuplicate) ∧
      Filled (fun _ => 0) limit (blank lcb) n.toNat (n.toNat + size) (blank lcb') bDuplicate ∧
      Accounted lcb dups n.toNat size lcb' dups' bDuplicate := by
  have agree : Pointer.bytes (fun _ => 0) size = window (fun _ => 0) n.toNat (n.toNat + size) := by
    simp [Pointer.bytes, window]
  obtain ⟨blanked, dups', bDuplicate, ran, filled⟩ := fill_blocks_spec ordered small positive inside agree dups
  have accounted := fill_blocks_accounts ordered small positive inside ran
  have same : fillBlocks (fun _ => 0) size n (blank lcb) dups = _ := fill_blocks_map (f := fun _ => 0) payload size
  obtain ⟨⟨lcb', _, _⟩, ran', shape⟩ := Option.map_eq_some_iff.mp (same.symm.trans ran)
  cases shape
  have result : covered (lcb'.map (mapBytes fun _ => 0)) = covered lcb' := covered_blank lcb'
  have total : storedBytes (lcb'.map (mapBytes fun _ => 0)) = storedBytes lcb' := stored_blank lcb'
  refine ⟨lcb', dups', bDuplicate, ran', filled, ?_, ?_, ?_⟩
  · have balance := accounted.balance
    rwa [total, stored_blank] at balance
  · have held := accounted.held
    rwa [covered_blank] at held
  · have grown := accounted.grown
    rwa [result, covered_blank] at grown

/-! ## Over a run of calls -/

/-- What a call does to the chunk, by what its walk does. -/
theorem fill_gaps_inv {chunk after : ReconstructedChunk} {flow : String} {count : ℤ} {seqNum start : TcpSeq}
    {done : Bool} (known : chunk.flowSeqMap flow = some start)
    (ran : chunk.fillGapsInChunk flow payload count seqNum dups = some (after, dups', done)) :
    ∃ bDuplicate, fillBlocks payload count (seqNum - start) chunk.lcb dups = some (after.lcb, dups', bDuplicate) ∧
      after.length = chunk.length ∧
      (bDuplicate = true → done = false ∧ after.uniquelyContributingFlows = chunk.uniquelyContributingFlows) ∧
      (bDuplicate = false → after.uniquelyContributingFlows = chunk.uniquelyContributingFlows.insert flow ∧
        ∃ front, after.lcb.head? = some front ∧
          done = decide (chunk.length ≤ front.contiguousBlock.length)) := by
  simp only [fillGapsInChunk, known] at ran
  obtain ⟨⟨lcb', counted, bDuplicate⟩, walked, ran⟩ := Option.bind_eq_some_iff.mp ran
  cases bDuplicate with
  | true =>
    cases ran
    exact ⟨true, walked, rfl, fun _ => ⟨rfl, rfl⟩, fun isNew => by cases isNew⟩
  | false =>
    obtain ⟨front, isFront, ran⟩ := Option.bind_eq_some_iff.mp ran
    cases ran
    exact ⟨false, walked, rfl, fun duplicate => (by cases duplicate), fun _ => ⟨rfl, front, isFront, rfl⟩⟩

/-- A call that stays inside the chunk succeeds, and its walk does what any walk does. -/
theorem fill_gaps_ordered {chunk : ReconstructedChunk} {flow : String} {seqNum start : TcpSeq}
    (ordered : Ordered chunk.length chunk.lcb) (small : chunk.length < 2 ^ 31)
    (known : chunk.flowSeqMap flow = some start) (positive : 0 < size)
    (inside : (seqNum - start).toNat + size ≤ chunk.length) (payload : Pointer) (dups : UInt64) :
    ∃ after dups' done bDuplicate, chunk.fillGapsInChunk flow payload size seqNum dups = some (after, dups', done) ∧
      fillBlocks payload size (seqNum - start) chunk.lcb dups = some (after.lcb, dups', bDuplicate) ∧
      Filled (fun _ => 0) chunk.length (blank chunk.lcb) (seqNum - start).toNat ((seqNum - start).toNat + size)
        (blank after.lcb) bDuplicate ∧
      Accounted chunk.lcb dups (seqNum - start).toNat size after.lcb dups' bDuplicate := by
  obtain ⟨lcb', dups', bDuplicate, walked, filled, accounted⟩ :=
    fill_blocks_ordered ordered small positive inside payload dups
  have nonempty : lcb' ≠ [] := by
    rintro rfl
    exact filled.nonempty rfl
  obtain ⟨front, isFront⟩ := Option.isSome_iff_exists.mp (List.isSome_head?.mpr nonempty)
  cases bDuplicate with
  | true =>
    refine ⟨{ chunk with lcb := lcb' }, dups', false, true, ?_, walked, filled, accounted⟩
    simp only [fillGapsInChunk, known, walked]
    rfl
  | false =>
    refine ⟨{ chunk with
        lcb := lcb'
        uniquelyContributingFlows := chunk.uniquelyContributingFlows.insert flow },
      dups', decide (chunk.length ≤ front.contiguousBlock.length), false, ?_, walked, filled, accounted⟩
    simp only [fillGapsInChunk, known, walked, Option.bind_eq_bind, Option.bind_some, isFront,
      Bool.false_eq_true, if_false]

/-- A call that stays inside the chunk, with any bytes. -/
def InChunk (h : History) : Event → Prop
  | .setFlowStart _ _ => True
  | .fill flow _ size seqNum => ∃ n, normalized h.chunk flow seqNum = some n ∧ 0 < size ∧
      n + size ≤ h.chunk.length

/-- What every run of such calls keeps. -/
structure Keeping (len : ℕ) (h : History) : Prop where
  ordered : Ordered len h.chunk.lcb
  length_eq : h.chunk.length = len

variable {cid : List UInt8} {len : ℕ} {h h' : History} {flow : String} {seqNum : TcpSeq}

/-- A call that stays inside the chunk balances. -/
theorem fill_gaps_balance (keeping : Keeping len h) (small : len < 2 ^ 31)
    (call : InChunk h (.fill flow payload size seqNum)) (dups : UInt64) :
    ∃ after dups' done added, h.chunk.fillGapsInChunk flow payload size seqNum dups = some (after, dups', done) ∧
      Ordered len after.lcb ∧ after.length = h.chunk.length ∧
      storedBytes after.lcb = storedBytes h.chunk.lcb + added ∧
      dups' + UInt64.ofNat added = dups + UInt64.ofNat size ∧
      (flow ∈ after.uniquelyContributingFlows ↔ flow ∈ h.chunk.uniquelyContributingFlows ∨
        ∃ x, x ∈ covered after.lcb ∧ x ∉ covered h.chunk.lcb) := by
  obtain ⟨n, placed, positive, inside⟩ := call
  obtain ⟨start, known, rfl⟩ := Option.map_eq_some_iff.mp placed
  obtain ⟨ordered, rfl⟩ := keeping
  obtain ⟨after, dups', done, bDuplicate, ran, walked, filled, accounted⟩ :=
    fill_gaps_ordered ordered small known positive inside payload dups
  obtain ⟨_, walked', length_eq, duplicate, isNew⟩ := fill_gaps_inv known ran
  cases walked'.symm.trans walked
  have kept : covered h.chunk.lcb ⊆ covered after.lcb := by
    rw [← covered_blank h.chunk.lcb, ← covered_blank after.lcb]
    exact filled.kept
  have more : storedBytes h.chunk.lcb ≤ storedBytes after.lcb := by
    rw [← stored_blank, ← stored_blank after.lcb, stored_eq_ncard ordered, stored_eq_ncard filled.ok,
      covered_blank, covered_blank]
    exact Set.ncard_le_ncard kept (covered_finite _)
  obtain ⟨added, grew⟩ := Nat.exists_eq_add_of_le more
  refine ⟨after, dups', done, added, ran, filled.ok, length_eq, grew, ?_, ?_⟩
  · have balance := accounted.balance
    rw [grew, UInt64.ofNat_add, UInt64.ofNat_add] at balance
    grind
  · cases bDuplicate with
    | true =>
      have same : covered after.lcb = covered h.chunk.lcb := by
        rw [← covered_blank, filled.duplicate rfl, covered_blank]
      rw [(duplicate rfl).2, same]
      exact ⟨Or.inl, fun either => either.elim id fun ⟨x, held, fresh⟩ => absurd held fresh⟩
    | false =>
      obtain ⟨x, _, held, fresh⟩ := accounted.grown rfl
      rw [(isNew rfl).1, List.mem_insert_iff]
      exact ⟨fun _ => Or.inr ⟨x, held, fresh⟩, fun _ => Or.inl rfl⟩

theorem step_keeping {event : Event} (keeping : Keeping len h) (small : len < 2 ^ 31) (call : InChunk h event)
    (ran : h.step event = some h') : Keeping len h' := by
  cases event with
  | setFlowStart flow seqNum =>
    cases ran
    exact ⟨keeping.ordered, keeping.length_eq⟩
  | fill flow payload size seqNum =>
    obtain ⟨after, dups', done, _, filled, ordered, length_eq, _⟩ :=
      fill_gaps_balance keeping small call h.numDuplicateBytes
    obtain ⟨n, placed, _⟩ := call
    simp only [History.step, filled, placed, Option.bind_eq_bind, Option.bind_some] at ran
    cases ran
    exact ⟨ordered, length_eq.trans keeping.length_eq⟩

theorem run_keeping (small : len < 2 ^ 31) (run : Reaches History.step InChunk (.fresh cid len) h) :
    Keeping len h := by
  have opened : Keeping len (.fresh cid len) := ⟨blocks_ok_nil, rfl⟩
  exact invariant opened (fun _ _ _ keeping call ran => step_keeping keeping small call ran) run

/-- **The bytes balance in every run.** Whatever the calls so far, a call adds as much to the
counter and to the blocks as it hands over, and its flow is listed exactly if it was before
or the call covers something new. -/
theorem bytes_balance (small : len < 2 ^ 31) (run : Reaches History.step InChunk (.fresh cid len) h)
    (call : InChunk h (.fill flow payload size seqNum)) (dups : UInt64) :
    ∃ after dups' done added, h.chunk.fillGapsInChunk flow payload size seqNum dups = some (after, dups', done) ∧
      storedBytes after.lcb = storedBytes h.chunk.lcb + added ∧
      dups' + UInt64.ofNat added = dups + UInt64.ofNat size ∧
      (flow ∈ after.uniquelyContributingFlows ↔ flow ∈ h.chunk.uniquelyContributingFlows ∨
        ∃ x, x ∈ covered after.lcb ∧ x ∉ covered h.chunk.lcb) := by
  obtain ⟨after, dups', done, added, ran, _, _, balance⟩ :=
    fill_gaps_balance (run_keeping small run) small call dups
  exact ⟨after, dups', done, added, ran, balance⟩

/-- The second of two flows that bring three bytes each, one of them twice. -/
theorem bytes_balance_of_overlap :
    ∃ h after dups' done added, (((History.fresh [] 5).step (.setFlowStart "f" 7)).bind
        (·.step (.fill "f" (.ofBytes [1, 2, 3] 0) 3 7))) = some h ∧
      h.chunk.fillGapsInChunk "f" (.ofBytes [9, 8, 7] 0) 3 9 0 = some (after, dups', done) ∧
      storedBytes after.lcb = 3 + added ∧ dups' + UInt64.ofNat added = 0 + UInt64.ofNat 3 := by
  have run : Reaches History.step InChunk (.fresh [] 5) _ :=
    (Reaches.refl.snoc (.setFlowStart "f" 7) trivial rfl).snoc (.fill "f" (.ofBytes [1, 2, 3] 0) 3 7)
      ⟨0, rfl, by decide, by decide⟩ rfl
  obtain ⟨after, dups', done, added, ran, stored, balance, _⟩ :=
    @bytes_balance 3 (.ofBytes [9, 8, 7] 0) [] 5 _ "f" 9 (by decide) run ⟨2, rfl, by decide, by decide⟩ 0
  exact ⟨_, after, dups', done, added, rfl, ran, stored, balance⟩

/-! ## The call that completes the chunk -/

/-- The blocks cover the whole chunk. -/
def Whole (data : List UInt8) (h : History) : Prop := Set.Ico 0 data.length ⊆ covered h.chunk.lcb

variable {data : List UInt8}

/-- A front block as long as the chunk is the chunk. -/
theorem front_whole (ok : BlocksOk (byteOf data) data.length (li :: rest))
    (long : data.length ≤ li.contiguousBlock.length) :
    Set.Ico 0 data.length ⊆ covered (li :: rest) ∧ li.contiguousBlock = data := by
  obtain ⟨head, _, _⟩ := blocks_ok_cons.mp ok
  have sized := sized_of_ok head
  have bounded := head.bounded
  simp only [Sized] at sized
  have first : startOf li = 0 := by omega
  have last : nextOf li = data.length := by omega
  refine ⟨fun x inside => in_front (by omega) (last ▸ inside.2), ?_⟩
  have sound := (sound_of_blocks_ok ok).content li (List.mem_cons_self ..)
  rw [sound, first, last, List.drop_zero, Nat.sub_zero, List.take_length]

/-- A call on a slice says that the chunk is done exactly if it made it whole. -/
theorem step_done (inv : Reassembling data h) (small : data.length < 2 ^ 31)
    (slice : IsSlice data h (.fill flow payload size seqNum)) :
    ∃ h' done, h.step (.fill flow payload size seqNum) = some h' ∧ h'.answers = h.answers ++ [done] ∧
      Reassembling data h' ∧ covered h.chunk.lcb ⊆ covered h'.chunk.lcb ∧
      (done = true ↔ Whole data h' ∧ ¬ Whole data h) ∧ (done = true → h'.chunk.getData = some data) := by
  obtain ⟨n, placed, positive, inside, agree⟩ := slice
  obtain ⟨start, known, rfl⟩ := Option.map_eq_some_iff.mp placed
  obtain ⟨after, dups', done, _, ran, filled, length_eq, _⟩ :=
    fill_gaps_spec inv.ok small known positive inside agree h.numDuplicateBytes
  obtain ⟨bDuplicate, walked, _, duplicate, isNew⟩ := fill_gaps_inv known ran
  have accounted := fill_blocks_accounts inv.ok small positive inside walked
  have occupied : 0 < data.length := by omega
  refine ⟨{
      chunk := after
      numDuplicateBytes := dups'
      ranges := h.ranges ++ [((seqNum - start).toNat, (seqNum - start).toNat + size)]
      answers := h.answers ++ [done] }, done, ?_, rfl, ⟨filled.ok, length_eq.trans inv.length_eq⟩, filled.kept, ?_⟩
  · simp only [History.step, ran, placed, Option.bind_eq_bind, Option.bind_some]
  · cases bDuplicate with
    | true =>
      -- all of the slice was there, so the chunk is whole only if it was before
      obtain ⟨rfl, _⟩ := duplicate rfl
      refine ⟨⟨fun finished => (by cases finished), fun completed => ?_⟩, fun finished => by cases finished⟩
      obtain ⟨now, before⟩ := completed
      exact absurd (now.trans (filled.added.trans (Set.union_subset (Set.Subset.refl _) (accounted.held rfl)))) before
    | false =>
      obtain ⟨_, front, isFront, answer⟩ := isNew rfl
      rw [inv.length_eq] at answer
      obtain ⟨rest, shape⟩ := List.head?_eq_some_iff.mp isFront
      have ok : BlocksOk (byteOf data) data.length (front :: rest) := shape ▸ filled.ok
      refine ⟨⟨fun finished => ?_, fun completed => ?_⟩, fun finished => ?_⟩
      · rw [answer, decide_eq_true_eq] at finished
        refine ⟨?_, fun before => ?_⟩
        · show Set.Ico 0 data.length ⊆ covered after.lcb
          rw [shape]
          exact (front_whole ok finished).1
        · have known : Set.Ico (seqNum - start).toNat ((seqNum - start).toNat + size) ⊆ Set.Ico 0 data.length :=
            Set.Ico_subset_Ico (Nat.zero_le _) inside
          exact Bool.false_ne_true (accounted.duplicate_iff.mpr (known.trans before))
      · obtain ⟨other, isOther, long⟩ := full_front filled.ok occupied completed.1
        cases isFront.symm.trans isOther
        rw [answer, decide_eq_true_eq]
        exact long
      · rw [answer, decide_eq_true_eq] at finished
        show after.lcb.head?.map ContiguousBlock.contiguousBlock = some data
        rw [isFront, Option.map_some, (front_whole ok finished).2]

/-- What runs on slices keep: one call has said that the chunk is done if it is whole. -/
structure Signalled (data : List UInt8) (h : History) : Prop where
  inv : Reassembling data h
  once : h.answers.count true ≤ 1
  whole : true ∈ h.answers → Whole data h

theorem step_signalled {event : Event} (small : data.length < 2 ^ 31) (before : Signalled data h)
    (slice : IsSlice data h event) (ran : h.step event = some h') :
    Signalled data h' ∧ covered h.chunk.lcb ⊆ covered h'.chunk.lcb := by
  cases event with
  | setFlowStart flow seqNum =>
    cases ran
    exact ⟨⟨⟨before.inv.ok, before.inv.length_eq⟩, before.once, before.whole⟩, Set.Subset.refl _⟩
  | fill flow payload size seqNum =>
    obtain ⟨_, done, ran', answers, inv, kept, finished, _⟩ := step_done before.inv small slice
    cases ran.symm.trans ran'
    refine ⟨⟨inv, ?_, fun said => ?_⟩, kept⟩
    · rw [answers, List.count_append]
      cases done with
      | false => simpa using before.once
      | true =>
        have silent := List.count_eq_zero.mpr fun said => (finished.mp rfl).2 (before.whole said)
        rw [silent]
        exact Nat.le_refl 1
    · rw [answers, List.mem_append, List.mem_singleton] at said
      rcases said with earlier | now
      · exact (before.whole earlier).trans kept
      · exact (finished.mp now.symm).1

theorem run_signalled (small : data.length < 2 ^ 31)
    (run : Reaches History.step (IsSlice data) (.fresh cid data.length) h) : Signalled data h := by
  have opened : Signalled data (.fresh cid data.length) := ⟨fresh_reassembling, Nat.zero_le 1, nofun⟩
  exact invariant opened (fun _ _ _ before slice ran => (step_signalled small before slice ran).1) run

/-- A run never forgets an offset. -/
theorem run_covers {earlier : History} (small : data.length < 2 ^ 31) (before : Signalled data earlier)
    (run : Reaches History.step (IsSlice data) earlier h) : covered earlier.chunk.lcb ⊆ covered h.chunk.lcb := by
  have kept : Signalled data h ∧ covered earlier.chunk.lcb ⊆ covered h.chunk.lcb := by
    induction run with
    | refl => exact ⟨before, Set.Subset.refl _⟩
    | tail _ taken ih =>
      obtain ⟨event, slice, ran⟩ := taken
      obtain ⟨signalled, more⟩ := step_signalled small ih.1 slice ran
      exact ⟨signalled, ih.2.trans more⟩
  exact kept.2

/-- **Completion is signalled once**, by the first call after which the blocks cover the
whole chunk, and what is read then is the chunk. -/
theorem completion_signalled_once (small : data.length < 2 ^ 31)
    (run : Reaches History.step (IsSlice data) (.fresh cid data.length) h) :
    h.answers.count true ≤ 1 ∧ ∀ flow payload size seqNum, IsSlice data h (.fill flow payload size seqNum) →
      ∃ h' done, h.step (.fill flow payload size seqNum) = some h' ∧ h'.answers = h.answers ++ [done] ∧
        (done = true ↔ Whole data h' ∧ ∀ earlier,
          Reaches History.step (IsSlice data) (.fresh cid data.length) earlier →
          Reaches History.step (IsSlice data) earlier h → ¬ Whole data earlier) ∧
        (done = true → h'.chunk.getData = some data) := by
  have signalled := run_signalled small run
  refine ⟨signalled.once, fun flow payload size seqNum slice => ?_⟩
  obtain ⟨h', done, ran, answers, _, _, finished, shown⟩ := step_done signalled.inv small slice
  refine ⟨h', done, ran, answers, ?_, shown⟩
  rw [finished]
  refine and_congr_right fun _ => ⟨fun before earlier from_start to_here held => ?_, fun none => none h run .refl⟩
  exact before (held.trans (run_covers small (run_signalled small from_start) to_here))

/-- Three bytes in two calls; the second completes them. -/
theorem completion_signalled_at_end :
    ∃ h h' done, ((History.fresh [] 3).step (.setFlowStart "f" 7)).bind
        (·.step (.fill "f" (.ofBytes [1, 2] 0) 2 7)) = some h ∧
      h.step (.fill "f" (.ofBytes [2, 3] 0) 2 8) = some h' ∧ h'.answers = h.answers ++ [done] ∧
      (done = true → h'.chunk.getData = some [1, 2, 3]) := by
  have run : Reaches History.step (IsSlice [1, 2, 3]) (.fresh [] 3) _ :=
    (Reaches.refl.snoc (.setFlowStart "f" 7) trivial rfl).snoc (.fill "f" (.ofBytes [1, 2] 0) 2 7)
      ⟨0, rfl, by decide, by decide, by decide⟩ rfl
  obtain ⟨_, calls⟩ := completion_signalled_once (by decide) run
  obtain ⟨h', done, ran, answers, _, shown⟩ := calls "f" (.ofBytes [2, 3] 0) 2 8
    ⟨1, rfl, by decide, by decide, by decide⟩
  exact ⟨_, h', done, rfl, ran, answers, shown⟩

end Ditto.ChunkAccounts
