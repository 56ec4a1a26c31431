import Ditto.RequestHolding
import Ditto.SequentialDelivery

/-! Where in its object the bytes of a reply are. The offset of the buffer is set by an
out-of-order read and counted up by each reply, and what is appended to the buffer is the
next chunk of the object, so the buffer is a part of the object at its offset. The offset
is kept in an `int`: it is right in its low 32 bits, and what the client gets is the true
offset below 2^31 only. -/
namespace Ditto.Downloads
open XferGtc (Descriptor)
open SendSize (sendSize)
open Outcomes

variable {t after : Transfer} {pdp : XferData} {descs : List Descriptor} {status : List DescStatus}
  {beyond : ℕ → DescStatus} {sbp : Sbp} {stored : List UInt8 → Option (List UInt8)} {g g' : Gtcd} {xferId : XferId}
  {content : List UInt8 → List UInt8} {o : ℕ}

/-- The bytes of a reply are those of the object at a position, and the offset it names is
that position exactly below 2^31. -/
structure RepliedAt (object : List UInt8) (ok : GetDataOk) (o : ℕ) : Prop where
  inside : o + ok.count ≤ object.length
  bytes : ok.data = (object.drop o).take ok.count
  offset : object.length < 2 ^ 62 → (ok.offset.toNat = o ↔ o < 2 ^ 31)

/-- Every reply with data that a step adds is somewhere in the object. -/
def RepliesPlaced (content : List UInt8 → List UInt8) (t after : Transfer) : Prop :=
  ∀ pdp descs, t.pdp = some pdp → pdp.descs = some descs → ∀ reply ∈ after.replies.drop t.replies.length,
    ∀ ok, reply.2 = .ok ok → 0 < ok.count → ∃ o, RepliedAt (objectOf content descs) ok o

/-- Every reply with data that a step adds carries the bytes of the object at its offset. -/
def OffsetsTrue (content : List UInt8 → List UInt8) (t after : Transfer) : Prop :=
  ∀ pdp descs, t.pdp = some pdp → pdp.descs = some descs → ∀ reply ∈ after.replies.drop t.replies.length,
    ∀ ok, reply.2 = .ok ok → 0 < ok.count →
      ok.data = ((objectOf content descs).drop ok.offset.toNat).take ok.count

/-- The bytes that a step replies with have a true offset where they start below 2^31, so
all of them where the object has at most 2^31 bytes. -/
structure OffsetsKept (content : List UInt8 → List UInt8) (t after : Transfer) : Prop where
  placed : RepliesPlaced content t after
  below : (∀ pdp descs, t.pdp = some pdp → pdp.descs = some descs → (objectOf content descs).length ≤ 2 ^ 31) →
    OffsetsTrue content t after

/-- The descriptors carry the right lengths, the client asks again only after a reply, the
transfer plugin finds its chunks, and the storage returns each chunk in full. -/
def WithoutErrors (content : List UInt8 → List UInt8) (xferId : XferId) (g : Gtcd) : Event → Prop
  | .getInitCb opened res => opened = xferId → ∀ descs ended, res = .ok (descs, ended) →
      ∀ d ∈ descs, (content d.id).length = d.length
  | .getData _ asked => asked = xferId → (g.transfers xferId).opening = none ∧
      (g.transfers xferId).gets.length = (g.transfers xferId).replies.length
  | .xpFetchDataCb fetching _ res => fetching = xferId → ∃ data, res = .ok data ∧ data ≠ []
  | .getChunkCb reading index res => reading = xferId → ∀ read, (g.transfers xferId).reads[index]? = some read →
      res = .ok (content read.desc.id)
  | _ => True

theorem RepliesPlaced.kept (placed : RepliesPlaced content t after) : OffsetsKept content t after := by
  refine ⟨placed, fun small pdp descs held listed reply member ok same some_data => ?_⟩
  obtain ⟨o, replied⟩ := placed pdp descs held listed reply member ok same some_data
  have bound := small pdp descs held listed
  have inside := replied.inside
  rw [(replied.offset (by omega)).mpr (by omega)]
  exact replied.bytes

/-! ## Positions in the object -/

/-- Where a chunk starts in its object. -/
def start (content : List UInt8 → List UInt8) (descs : List Descriptor) (i : ℕ) : ℕ :=
  (objectOf content (descs.take i)).length

/-- The buffer is the part of the object at a position, which its offset is as an `int`. -/
structure Placed (content : List UInt8 → List UInt8) (descs : List Descriptor) (pdp : XferData) (o : ℕ) : Prop where
  offset : pdp.bufOffset = int32 o
  bytes : pdp.buf <+: (objectOf content descs).drop o
  inside : o + pdp.buf.length ≤ (objectOf content descs).length

/-- No chunk is being read. A sequential transfer has what it counts up to the end of the
buffer. -/
def Rests (content : List UInt8 → List UInt8) (descs : List Descriptor) (pdp : XferData) : Prop :=
  ∃ o, Placed content descs pdp o ∧ (pdp.xmode = .sequential →
    o + pdp.buf.length = start content descs pdp.descsXfered ∧ pdp.descsCount = pdp.descsXfered)

/-- A chunk is being read: the buffer starts with it, or goes on with it. -/
structure Reads (content : List UInt8 → List UInt8) (descs : List Descriptor) (pdp : XferData) (read : SpRead) :
    Prop where
  place : descs[read.descNo]? = some read.desc
  counted : pdp.xmode = .sequential → read.descNo = pdp.descsXfered ∧ pdp.descsCount = pdp.descsXfered + 1
  position : read.offset = start content descs read.descNo ∧ pdp.buf = [] ∨
    read.offset = -1 ∧ ∃ o, Placed content descs pdp o ∧ o + pdp.buf.length = start content descs read.descNo

theorem start_succ {i : ℕ} {d : Descriptor} (place : descs[i]? = some d) :
    start content descs (i + 1) = start content descs i + (content d.id).length := by
  rw [start, List.take_add_one, place, Option.toList_some, objectOf, List.flatMap_append, List.length_append]
  simp [start, objectOf]

theorem start_le {i : ℕ} : start content descs i ≤ (objectOf content descs).length := by
  rw [← objectOf_take_append content descs i, List.length_append]
  exact Nat.le_add_right ..

theorem drop_start (content : List UInt8 → List UInt8) (descs : List Descriptor) (i : ℕ) :
    (objectOf content descs).drop (start content descs i) = objectOf content (descs.drop i) := by
  rw [← objectOf_take_append content descs i, start, List.drop_left]

/-- A chunk is in the object where it starts. -/
theorem chunk_at_offset {i : ℕ} {d : Descriptor} (place : descs[i]? = some d) :
    content d.id <+: (objectOf content descs).drop (start content descs i) := by
  obtain ⟨inside, rfl⟩ := List.getElem?_eq_some_iff.mp place
  rw [drop_start, List.drop_eq_getElem_cons inside, objectOf, List.flatMap_cons]
  exact List.prefix_append ..

/-- The sum that an out-of-order read starts from. -/
theorem sum_lengths (lengths : ∀ d ∈ descs, (content d.id).length = d.length) (i : ℕ) :
    ((descs.take i).map fun d => (d.length : ℤ)).sum = start content descs i := by
  have each : ∀ d ∈ descs.take i, (content d.id).length = d.length := fun d member =>
    lengths d (List.mem_of_mem_take member)
  rw [start]
  generalize descs.take i = front at each
  induction front with
  | nil => rfl
  | cons d front ih =>
    rw [List.map_cons, List.sum_cons, ih fun d member => each d (List.mem_cons_of_mem _ member), objectOf, objectOf,
      List.flatMap_cons, List.length_append, each d (List.mem_cons_self ..), Int.natCast_add]

/-! ## Offsets -/

theorem int32_add (o n : ℕ) : int32 (int32 o + n) = int32 ↑(o + n) := by
  rw [int32, int32, Int.bmod_add_bmod, int32, Int.natCast_add]

/-- An `int` is the value, or below it by 2^32. -/
theorem int32_cases (o : ℕ) : int32 o = o % 2 ^ 32 ∧ (o : ℤ) % 2 ^ 32 < 2 ^ 31 ∨
    int32 o = o % 2 ^ 32 - 2 ^ 32 ∧ 2 ^ 31 ≤ (o : ℤ) % 2 ^ 32 := by
  rw [int32, Int.bmod_def]
  split
  · omega
  · omega

/-- An `int` offset is the true one below 2^31. -/
theorem toNat_int32 (small : o < 2 ^ 62) : (UInt64.ofInt (int32 o)).toNat = o ↔ o < 2 ^ 31 := by
  have wrapped := int32_cases o
  rw [UInt64.ofInt, UInt64.toNat_ofNat']
  omega

/-- A front of the buffer is where the buffer is. -/
theorem Placed.replied (placed : Placed content descs pdp o) {data rest : List UInt8} (cut : data ++ rest = pdp.buf)
    (ended : Bool) : RepliedAt (objectOf content descs) ⟨UInt64.ofInt pdp.bufOffset, data.length, data, ended⟩ o := by
  have inside := placed.inside
  rw [← cut, List.length_append] at inside
  refine ⟨by dsimp only; omega, ?_, fun small => ?_⟩
  · have front : data <+: (objectOf content descs).drop o := (cut ▸ List.prefix_append data rest).trans placed.bytes
    exact List.prefix_iff_eq_take.mp front
  · rw [placed.offset]
    exact toNat_int32 (by omega)

/-- What is left of the buffer is after the reply. -/
theorem Placed.rest (placed : Placed content descs pdp o) {data rest : List UInt8} (cut : data ++ rest = pdp.buf) :
    Placed content descs { pdp with bufOffset := int32 (pdp.bufOffset + data.length), buf := rest }
      (o + data.length) := by
  have inside := placed.inside
  rw [← cut, List.length_append] at inside
  refine ⟨?_, ?_, by dsimp only; omega⟩
  · show int32 (pdp.bufOffset + data.length) = int32 ↑(o + data.length)
    rw [placed.offset, int32_add]
  · have bytes := placed.bytes
    rw [← cut] at bytes
    obtain ⟨more, object⟩ := bytes
    rw [List.append_assoc] at object
    refine ⟨more, ?_⟩
    rw [← List.drop_drop, ← object, List.drop_left]

/-- The buffer with the chunk that follows it. -/
theorem Placed.append (placed : Placed content descs pdp o) {i : ℕ} {d : Descriptor} (place : descs[i]? = some d)
    (follows : o + pdp.buf.length = start content descs i) :
    pdp.buf ++ content d.id <+: (objectOf content descs).drop o := by
  obtain ⟨more, object⟩ := placed.bytes
  have next := @chunk_at_offset descs content i d place
  rw [← follows, ← List.drop_drop, ← object, List.drop_left] at next
  rw [← object]
  exact List.prefix_append_right_inj _ |>.mpr next

/-! ## Books of the offsets -/

/-- The descriptors carry the lengths of their chunks. -/
def LengthsRight (content : List UInt8 → List UInt8) (descs : List Descriptor) : Prop :=
  ∀ d ∈ descs, (content d.id).length = d.length

/-- An entry whose buffer is where its offset says. -/
structure Tracked (content : List UInt8 → List UInt8) (t : Transfer) (pdp : XferData) : Prop where
  fine : pdp.err = none
  lengths : ∀ descs, pdp.descs = some descs → LengthsRight content descs
  fresh : t.opening ≠ none → pdp.bufOffset = 0 ∧ pdp.descsCount = 0
  rests : t.opening = none → t.reads = [] → ∀ descs, pdp.descs = some descs → Rests content descs pdp
  reads : ∀ read ∈ t.reads, ∀ descs, pdp.descs = some descs → Reads content descs pdp read

/-- A transfer whose buffer is where its offset says. -/
def Offsets (content : List UInt8 → List UInt8) (t : Transfer) : Prop :=
  ∀ pdp, t.pdp = some pdp → Tracked content t pdp

/-- One request at a time is in hand. -/
structure OneInHand (t : Transfer) : Prop where
  accounted : Accounted t
  turn : t.gets.length ≤ t.replies.length + 1

/-- An entry of which no chunk is being read. -/
structure AtRest (content : List UInt8 → List UInt8) (t : Transfer) (pdp : XferData) (descs : List Descriptor) :
    Prop where
  opened : t.opening = none
  fine : pdp.err = none
  listed : pdp.descs = some descs
  lengths : LengthsRight content descs
  unread : t.reads = []
  rests : Rests content descs pdp

/-- A handler adds at most one reply, with data of the object, and the buffer stays where
its offset says. -/
structure Serves (content : List UInt8 → List UInt8) (descs : List Descriptor) (t after : Transfer) : Prop where
  gets : after.gets = t.gets
  replies : after.replies = t.replies ∨ ∃ sbp ok, after.replies = t.replies ++ [(sbp, .ok ok)] ∧
    (0 < ok.count → ∃ o, RepliedAt (objectOf content descs) ok o)
  offsets : Offsets content after

theorem Offsets.of_absent (absent : t.pdp = none) : Offsets content t :=
  fun _ held => by cases absent.symm.trans held

theorem AtRest.offsets (rest : AtRest content t pdp descs) (held : t.pdp = some pdp) : Offsets content t := by
  intro pdp' held'
  cases held.symm.trans held'
  have same : ∀ descs', pdp.descs = some descs' → descs' = descs := fun descs' listed =>
    Option.some.inj (listed.symm.trans rest.listed)
  refine ⟨rest.fine, fun descs' listed => ?_, fun opening => absurd rest.opened opening, fun _ _ descs' listed => ?_, ?_⟩
  · rw [same descs' listed]
    exact rest.lengths
  · rw [same descs' listed]
    exact rest.rests
  · rw [rest.unread]
    exact fun read member => absurd member List.not_mem_nil

/-- A read is started. -/
theorem Offsets.reading {read : SpRead} (opened : t.opening = none) (held : t.pdp = some pdp) (fine : pdp.err = none)
    (listed : pdp.descs = some descs) (lengths : LengthsRight content descs) (alone : t.reads = [read])
    (reads : Reads content descs pdp read) : Offsets content t := by
  intro pdp' held'
  cases held.symm.trans held'
  have same : ∀ descs', pdp.descs = some descs' → descs' = descs := fun descs' listed' =>
    Option.some.inj (listed'.symm.trans listed)
  refine ⟨fine, fun descs' listed => ?_, fun opening => absurd opened opening, ?_, ?_⟩
  · rw [same descs' listed]
    exact lengths
  · rw [alone]
    exact fun _ => nofun
  · rw [alone]
    intro read' member descs' listed'
    rw [List.mem_singleton.mp member, same descs' listed']
    exact reads

theorem Serves.placed (serves : Serves content descs t after) (held : t.pdp = some pdp)
    (listed : pdp.descs = some descs) :
    RepliesPlaced content t after := by
  intro pdp' descs' held' listed' reply member ok same some_data
  cases held.symm.trans held'
  cases listed.symm.trans listed'
  obtain unchanged | ⟨sbp, ok', added, placed⟩ := serves.replies
  · rw [unchanged, List.drop_length] at member
    exact absurd member List.not_mem_nil
  · rw [added, List.drop_left, List.mem_singleton] at member
    subst member
    cases same
    exact placed some_data

theorem Serves.turn (serves : Serves content descs t after) (turn : t.gets.length ≤ t.replies.length + 1) :
    after.gets.length ≤ after.replies.length + 1 := by
  rw [serves.gets]
  obtain unchanged | ⟨sbp, ok, added, _⟩ := serves.replies
  · rwa [unchanged]
  · rw [added, List.length_append]
    exact Nat.le_trans turn (Nat.add_le_add_right (Nat.le_add_right ..) 1)

namespace OneInHand

theorem counts (hand : OneInHand t) :
    t.gets.length = t.replies.length + (t.pdp.bind (·.xcb)).toList.length + t.reads.length := by
  have counts := hand.accounted.length_eq
  simpa only [Transfer.holders, List.length_append, List.length_map] using counts.symm

/-- While a request is parked no chunk is being read. -/
theorem unread (hand : OneInHand t) (held : t.pdp = some pdp) (parked : pdp.xcb ≠ none) : t.reads = [] := by
  have counts := hand.counts
  have turn := hand.turn
  obtain ⟨sbp, some_parked⟩ := Option.ne_none_iff_exists'.mp parked
  rw [held, Option.bind_some, some_parked] at counts
  exact List.eq_nil_of_length_eq_zero (by simp only [Option.toList_some, List.length_singleton] at counts; omega)

/-- A storage read is the only one, and no request is parked. -/
theorem alone (hand : OneInHand t) {index : ℕ} {read : SpRead} (inFlight : t.reads[index]? = some read) :
    t.reads = [read] ∧ t.reads.eraseIdx index = [] ∧ t.pdp.bind (·.xcb) = none := by
  have counts := hand.counts
  have turn := hand.turn
  obtain ⟨inside, same⟩ := List.getElem?_eq_some_iff.mp inFlight
  obtain ⟨only, single⟩ := List.length_eq_one_iff.mp (show t.reads.length = 1 by omega)
  have unparked : (t.pdp.bind (·.xcb)).toList = [] := List.eq_nil_of_length_eq_zero (by omega)
  have first : index = 0 := by
    rw [single, List.length_singleton] at inside
    omega
  subst first
  rw [single] at inFlight ⊢
  cases inFlight
  exact ⟨rfl, rfl, Option.toList_eq_nil_iff.mp unparked⟩

/-- A client that asks in turn has nothing in hand. -/
theorem idle (hand : OneInHand t) (asked : t.gets.length = t.replies.length) :
    t.reads = [] ∧ t.pdp.bind (·.xcb) = none := by
  have counts := hand.counts
  exact ⟨List.eq_nil_of_length_eq_zero (by omega),
    Option.toList_eq_nil_iff.mp (List.eq_nil_of_length_eq_zero (by omega))⟩

end OneInHand

/-- A chunk that was read is the one that follows in the buffer. -/
theorem Reads.landed {read : SpRead} (reads : Reads content descs pdp read) (status : List DescStatus) :
    ∃ o, Placed content descs (pdp.landed status read (content read.desc.id)) o ∧
      o + (pdp.buf ++ content read.desc.id).length = start content descs (read.descNo + 1) := by
  have follows := @start_succ descs content _ _ reads.place
  have fits := @start_le descs content (read.descNo + 1)
  obtain ⟨offset, drained⟩ | ⟨offset, o, placed, position⟩ := reads.position
  · refine ⟨start content descs read.descNo, ⟨?_, ?_, ?_⟩, ?_⟩
    · simp only [XferData.landed, offset, Int.natCast_nonneg, if_true]
    · simp only [XferData.landed, drained, List.nil_append]
      exact chunk_at_offset reads.place
    · simp only [XferData.landed, drained, List.nil_append]
      omega
    · rw [drained, List.nil_append, follows]
  · refine ⟨o, ⟨?_, placed.append reads.place position, ?_⟩, ?_⟩
    · simp only [XferData.landed, offset]
      exact placed.offset
    · simp only [XferData.landed, List.length_append]
      omega
    · rw [List.length_append]
      omega

/-- What a step leaves of the offsets of a transfer. -/
structure KeepsOffsets (content : List UInt8 → List UInt8) (t after : Transfer) : Prop where
  placed : RepliesPlaced content t after
  offsets : Offsets content after
  turn : after.gets.length ≤ after.replies.length + 1

theorem Serves.keeps (serves : Serves content descs t after) (held : t.pdp = some pdp) (listed : pdp.descs = some descs)
    (turn : t.gets.length ≤ t.replies.length + 1) : KeepsOffsets content t after :=
  ⟨serves.placed held listed, serves.offsets, serves.turn turn⟩

/-- The entry of a client that has nothing in hand. -/
theorem Tracked.at_rest (tracked : Tracked content t pdp) (opened : t.opening = none) (listed : pdp.descs = some descs)
    (unread : t.reads = []) : AtRest content t pdp descs :=
  ⟨opened, tracked.fine, listed, tracked.lengths descs listed, unread, tracked.rests opened unread descs listed⟩

/-- What a handler notes in an entry does not move its buffer. -/
theorem Placed.noted (placed : Placed content descs pdp o) (status : Option (List DescStatus)) (fetching : Bool)
    (xcb : Option Sbp) :
    Placed content descs { pdp with descsStatus := status, fetching := fetching, xcb := xcb } o :=
  { placed with }

theorem Rests.noted (rests : Rests content descs pdp) (status : Option (List DescStatus)) (fetching : Bool)
    (xcb : Option Sbp) : Rests content descs { pdp with descsStatus := status, fetching := fetching, xcb := xcb } := by
  obtain ⟨o, placed, counted⟩ := rests
  exact ⟨o, placed.noted status fetching xcb, counted⟩

theorem AtRest.noted (rest : AtRest content t pdp descs) (status : Option (List DescStatus)) (fetching : Bool)
    (xcb : Option Sbp) :
    AtRest content t { pdp with descsStatus := status, fetching := fetching, xcb := xcb } descs :=
  { rest with rests := rest.rests.noted status fetching xcb }

theorem Tracked.noted (tracked : Tracked content t pdp) (status : Option (List DescStatus)) :
    Tracked content t { pdp with descsStatus := status } where
  fine := tracked.fine
  lengths := tracked.lengths
  fresh := tracked.fresh
  rests := fun opened unread descs listed => (tracked.rests opened unread descs listed).noted status pdp.fetching pdp.xcb
  reads := fun read member descs listed => by
    have reads := tracked.reads read member descs listed
    refine ⟨reads.place, reads.counted, reads.position.imp_right fun follows => ?_⟩
    obtain ⟨offset, o, placed, position⟩ := follows
    exact ⟨offset, o, placed.noted status pdp.fetching pdp.xcb, position⟩

theorem KeepsOffsets.idle (hand : OneInHand t) (offsets : Offsets content t) : KeepsOffsets content t t := by
  refine ⟨fun _ _ _ _ reply member => ?_, offsets, hand.turn⟩
  rw [List.drop_length] at member
  exact absurd member List.not_mem_nil

/-- Without replies nothing is misplaced. -/
theorem RepliesPlaced.of_same (same : after.replies = t.replies) : RepliesPlaced content t after := by
  intro _ _ _ _ reply member
  rw [same, List.drop_length] at member
  exact absurd member List.not_mem_nil

/-- An answer to GET_INIT with the right lengths. -/
theorem KeepsOffsets.answered (hand : OneInHand t) (underway : Underway t) (offsets : Offsets content t)
    {call : InitCall} (awaited : t.opening = some call) (answers : InitAnswered t after)
    {res : Except String (List Descriptor × Bool)}
    (right : ∀ descs ended, res = .ok (descs, ended) → LengthsRight content descs) (lists : ListsMore res t after) :
    KeepsOffsets content t after := by
  have lengths : ∀ pdp' all, after.pdp = some pdp' → pdp'.descs = some all → LengthsRight content all := by
    intro pdp' all held' listed
    obtain ⟨pdp, held, same | ⟨more, ended, rfl, rfl⟩⟩ := lists pdp' all held' listed
    · exact (offsets pdp held).lengths all same
    · intro d member
      obtain old | new := List.mem_append.mp member
      · cases before : pdp.descs with
        | none =>
          rw [before] at old
          exact absurd old List.not_mem_nil
        | some descs =>
          rw [before] at old
          exact (offsets pdp held).lengths descs before d old
      · exact right more ended rfl d new
  have opening : ∀ pdp, t.pdp = some pdp → Opening t pdp := fun _ held => underway.of_awaited held awaited
  have fresh : ∀ pdp, t.pdp = some pdp → pdp.bufOffset = 0 ∧ pdp.descsCount = 0 := fun pdp held =>
    (offsets pdp held).fresh (by rw [awaited]; nofun)
  cases answers with
  | failed => exact ⟨.of_same rfl, .of_absent rfl, hand.turn⟩
  | again call' =>
    refine ⟨.of_same rfl, fun pdp held => ?_, hand.turn⟩
    exact { offsets pdp held with fresh := fun _ => fresh pdp held, rests := nofun }
  | listed pdp all held =>
    refine ⟨.of_same rfl, fun pdp' held' => ?_, hand.turn⟩
    have lengths := fun all => lengths pdp' all held'
    cases held'
    refine ⟨(opening pdp held).fine, lengths, fun _ => fresh pdp held, fun opened => ?_, ?_⟩
    · cases awaited.symm.trans opened
    · rw [show t.reads = [] from (opening pdp held).unread]
      exact fun read member => absurd member List.not_mem_nil
  | ended pdp all held =>
    refine ⟨.of_same rfl, fun pdp' held' => ?_, hand.turn⟩
    have lengths := fun all => lengths pdp' all held'
    cases held'
    obtain ⟨offset, count⟩ := fresh pdp held
    refine ⟨(opening pdp held).fine, lengths, fun opening => absurd rfl opening, fun _ _ descs listed => ?_, ?_⟩
    · refine ⟨0, ⟨offset, ?_, ?_⟩, fun _ => ⟨?_, ?_⟩⟩
      · rw [show pdp.buf = [] from (opening pdp held).drained]
        exact List.nil_prefix
      · rw [show pdp.buf = [] from (opening pdp held).drained]
        exact Nat.zero_le _
      · rw [show pdp.buf = [] from (opening pdp held).drained,
          show pdp.descsXfered = 0 from (opening pdp held).uncounted]
        rfl
      · rw [show pdp.descsCount = 0 from count, show pdp.descsXfered = 0 from (opening pdp held).uncounted]
    · rw [show t.reads = [] from (opening pdp held).unread]
      exact fun read member => absurd member List.not_mem_nil

section
variable [SendSize]

/-! ## Replies and reads -/

theorem Replied.serves (replied : Replied t pdp sbp after) (rest : AtRest content t pdp descs) :
    Serves content descs t after := by
  obtain ⟨o, placed, counted⟩ := rest.rests
  cases replied with
  | failed err failed => cases rest.fine.symm.trans failed
  | ended descs' fine listed ending =>
    refine ⟨rfl, .inr ⟨sbp, _, rfl, fun _ => ⟨o, ?_⟩⟩, .of_absent rfl⟩
    exact placed.replied (List.append_nil _) true
  | sent data left fine cut unending =>
    refine ⟨rfl, .inr ⟨sbp, _, rfl, fun _ => ⟨o, placed.replied cut false⟩⟩, ?_⟩
    have sent : AtRest content t { pdp with bufOffset := int32 (pdp.bufOffset + data.length), buf := left } descs := by
      refine { rest with rests := ⟨o + data.length, placed.rest cut, fun mode => ?_⟩ }
      obtain ⟨position, counts⟩ := counted mode
      rw [← cut, List.length_append] at position
      exact ⟨by dsimp only; omega, counts⟩
    exact AtRest.offsets { sent with } rfl

theorem Turned.serves (turned : Turned t pdp sbp after) (held : t.pdp = some pdp) (rest : AtRest content t pdp descs) :
    Serves content descs t after := by
  cases turned with
  | replied overreads after replied due =>
    have serves := replied.serves { rest with }
    exact ⟨serves.gets, serves.replies, serves.offsets⟩
  | reads overreads descs' status i count offset d fine listed known aimed place =>
    cases rest.listed.symm.trans listed
    refine ⟨rfl, .inl rfl, ?_⟩
    have alone : t.reads ++ [⟨sbp, i, offset, d⟩] = [⟨sbp, i, offset, d⟩] := by rw [rest.unread, List.nil_append]
    obtain ⟨o, placed, counted⟩ := rest.rests
    cases aimed with
    | next mode left =>
      obtain ⟨position, counts⟩ := counted mode
      refine Offsets.reading rest.opened rfl fine listed rest.lengths alone ⟨place, fun _ => ⟨counts, ?_⟩,
        .inr ⟨rfl, o, ?_⟩⟩
      · rw [counts]
      · exact ⟨{ placed with }, counts ▸ position⟩
    | first _ mode drained found =>
      refine Offsets.reading rest.opened rfl fine listed rest.lengths alone ⟨place, fun sequential => ?_,
        .inl ⟨?_, drained⟩⟩
      · cases mode.symm.trans sequential
      · exact sum_lengths rest.lengths i
  | drops mode fine drained idle => exact ⟨rfl, .inl rfl, rest.offsets held⟩

theorem Resumed.serves {turn : Prop} (resumed : Resumed t pdp turn after) (held : t.pdp = some pdp)
    (rest : AtRest content t pdp descs) : Serves content descs t after := by
  cases resumed with
  | waits overreads idle =>
    have offsets := rest.offsets held
    exact ⟨rfl, .inl rfl, fun pdp' held' => { offsets pdp' held' with }⟩
  | turned sbp overreads after parked turned due =>
    obtain ⟨o, placed, counted⟩ := rest.rests
    have serves := turned.serves rfl { rest with rests := ⟨o, { placed with }, counted⟩ }
    exact ⟨serves.gets, serves.replies, serves.offsets⟩

/-! ## Handlers -/

theorem get_data_offsets (hand : OneInHand t) (underway : Underway t) (offsets : Offsets content t)
    (opened : t.opening = none) (asked : t.gets.length = t.replies.length) :
    Ends (KeepsOffsets content t) (fun _ => True) ({ t with gets := t.gets ++ [sbp] }.getData beyond xferId sbp) := by
  have turn : (t.gets ++ [sbp]).length ≤ t.replies.length + 1 := by rw [List.length_append, asked]; rfl
  rcases Option.eq_none_or_eq_some t.pdp with absent | ⟨pdp, held⟩
  · simp only [Transfer.getData, absent]
    refine ⟨fun pdp _ held => (by cases absent.symm.trans held), .of_absent rfl, turn.trans ?_⟩
    simp only [Transfer.reply, List.length_append]
    exact Nat.le_succ _
  obtain ⟨descs, listed⟩ := underway.listed held opened
  have rest := (offsets pdp held).at_rest opened listed (hand.idle asked).1
  refine (get_data_got (t := { t with gets := t.gets ++ [sbp] }) held xferId).imp fun after got => ?_
  have keeps : ∀ overreads, Serves content descs { t with gets := t.gets ++ [sbp], overreads := overreads } after →
      KeepsOffsets content t after := fun overreads serves =>
    ⟨serves.placed (by exact held) listed, serves.offsets, serves.turn turn⟩
  cases got with
  | turned overreads after ready turned => exact keeps overreads (turned.serves held { rest with })
  | ended overreads descs' unready drained listed' full =>
    exact keeps overreads ⟨rfl, .inr ⟨sbp, _, rfl, fun some_data => absurd some_data (Nat.lt_irrefl _)⟩, .of_absent rfl⟩
  | parked overreads descs' scheduled unready drained listed' left known due =>
    have parked := rest.noted pdp.descsStatus true (some sbp)
    exact keeps overreads ⟨rfl, .inl rfl, AtRest.offsets { parked with } rfl⟩

theorem fetch_data_offsets (hand : OneInHand t) (underway : Underway t) (offsets : Offsets content t)
    (due : t.scheduled ≠ 0) (found : Descriptor → Bool) :
    Ends (KeepsOffsets content t) (fun _ => True)
      ({ t with scheduled := t.scheduled - 1 }.fetchData beyond found) := by
  rcases Option.eq_none_or_eq_some t.pdp with absent | ⟨pdp, held⟩
  · simp only [Transfer.fetchData, Transfer.deref, absent]
    trivial
  obtain ⟨descs, waiting⟩ := underway.of_scheduled held due
  have rest := (offsets pdp held).at_rest waiting.opened waiting.listed waiting.unread
  refine (fetch_data_fetched (t := { t with scheduled := t.scheduled - 1 }) held found).imp fun after fetched => ?_
  cases fetched with
  | fetched descs' after listed known resumed =>
    cases waiting.listed.symm.trans listed
    have fetched := rest.noted (some (fetchedStatus found descs)) pdp.fetching pdp.xcb
    have serves : Serves content descs t after := by
      have serves := resumed.serves rfl { fetched with }
      exact ⟨serves.gets, serves.replies, serves.offsets⟩
    have keeps := serves.keeps held listed hand.turn
    exact ⟨keeps.placed, fun pdp' held' => { keeps.offsets pdp' held' with }, keeps.turn⟩

theorem xp_fetch_data_cb_offsets (hand : OneInHand t) (underway : Underway t) (offsets : Offsets content t) {index : ℕ}
    {d : Descriptor} (inFlight : t.requested[index]? = some d) {data : List UInt8} (filled : data ≠ []) :
    Ends (KeepsOffsets content t) (fun _ => True)
      ({ t with requested := t.requested.eraseIdx index }.xpFetchDataCb beyond (.ok (d, data))) := by
  rcases Option.eq_none_or_eq_some t.pdp with absent | ⟨pdp, held⟩
  · simp only [Transfer.xpFetchDataCb, absent]
    refine ⟨fun pdp _ held => (by cases absent.symm.trans held), .of_absent rfl, hand.turn⟩
  obtain ⟨descs, status, fetching⟩ := underway.of_requested held (List.ne_nil_of_mem (List.mem_of_getElem? inFlight))
  refine (xp_fetch_data_cb_arrived (t := { t with requested := t.requested.eraseIdx index }) held (.ok (d, data))).imp
    fun after arrived => ?_
  cases arrived with
  | noted _ err failed | told _ err sbp failed =>
    cases data with
    | nil => exact absurd rfl filled
    | cons byte rest => cases failed
  | stored _ _ status' descs' after _ known listed resumed =>
    cases fetching.listed.symm.trans listed
    have serves : Serves content descs t after := by
      cases resumed with
      | waits overreads idle =>
        refine ⟨rfl, .inl rfl, fun pdp' held' => ?_⟩
        cases held'
        exact { (offsets pdp held).noted (some (Transfer.arrive d.id descs status').1) with }
      | turned sbp overreads after parked turned turn =>
        have rest := (offsets pdp held).at_rest fetching.opened listed
          (hand.unread held (by rw [parked]; exact Option.some_ne_none _))
        have fetched := rest.noted (some (Transfer.arrive d.id descs status').1) pdp.fetching none
        have serves := turned.serves rfl { fetched with }
        exact ⟨serves.gets, serves.replies, serves.offsets⟩
    exact serves.keeps held listed hand.turn

theorem get_chunk_cb_offsets (hand : OneInHand t) (underway : Underway t) (offsets : Offsets content t) {index : ℕ}
    {read : SpRead} (inFlight : t.reads[index]? = some read) :
    Ends (KeepsOffsets content t) (fun _ => True)
      ({ t with reads := t.reads.eraseIdx index }.getChunkCb beyond read (.ok (content read.desc.id))) := by
  rcases Option.eq_none_or_eq_some t.pdp with absent | ⟨pdp, held⟩
  · simp only [Transfer.getChunkCb, Transfer.deref, absent]
    trivial
  obtain ⟨alone, none_left, _⟩ := hand.alone inFlight
  have member := List.mem_of_getElem? inFlight
  obtain ⟨descs, status, fetching⟩ := underway.of_reads held (List.ne_nil_of_mem member)
  have tracked := offsets pdp held
  have reads := tracked.reads read member descs fetching.listed
  have lengths := tracked.lengths descs fetching.listed
  refine (get_chunk_cb_landed (t := { t with reads := t.reads.eraseIdx index }) held (.ok (content read.desc.id))).imp
    fun after landed => ?_
  cases landed with
  | replied status' descs' _ overreads after known listed unchained replied =>
    cases fetching.listed.symm.trans listed
    obtain ⟨o, placed, position⟩ := reads.landed status'
    have rests : Rests content descs (pdp.landed status' read (content read.desc.id)) := by
      refine ⟨o, placed, fun mode => ?_⟩
      obtain ⟨next, counts⟩ := reads.counted mode
      simp only [XferData.landed]
      exact ⟨next ▸ position, counts⟩
    have serves := replied.serves ⟨fetching.opened, tracked.fine, listed, lengths, none_left, rests⟩
    have serves : Serves content descs t after := ⟨serves.gets, serves.replies, serves.offsets⟩
    exact serves.keeps held listed hand.turn
  | chained status' descs' _ overreads count d known listed chains place counted =>
    cases fetching.listed.symm.trans listed
    obtain ⟨o, placed, position⟩ := reads.landed status'
    have next : Reads content descs { pdp.landed status' read (content read.desc.id) with descsCount := count }
        ⟨read.sbp, read.descNo + 1, -1, d⟩ := by
      refine ⟨place, fun mode => ?_, .inr ⟨rfl, o, { placed with }, position⟩⟩
      obtain ⟨next, counts⟩ := reads.counted mode
      obtain ⟨_, _, counted⟩ | ⟨outOfOrder, _⟩ := counted
      · exact ⟨by simp only [XferData.landed, next], by simp only [XferData.landed]; omega⟩
      · cases mode.symm.trans outOfOrder
    have serves : Serves content descs t { t with
        pdp := some { pdp.landed status' read (content read.desc.id) with descsCount := count }
        copied := t.copied ++ [(read.descNo, content read.desc.id)]
        reads := t.reads.eraseIdx index ++ [⟨read.sbp, read.descNo + 1, -1, d⟩]
        overreads := overreads } := by
      refine ⟨rfl, .inl rfl, Offsets.reading fetching.opened rfl tracked.fine listed lengths ?_ next⟩
      rw [none_left, List.nil_append]
    exact serves.keeps held listed hand.turn

/-! ## Steps -/

theorem handle_offsets (hand : OneInHand t) (underway : Underway t) (offsets : Offsets content t) {event : Event}
    (inTurn : ∀ sbp asked, event = .getData sbp asked → t.opening = none ∧ t.gets.length = t.replies.length)
    (arrives : ∀ asked index res, event = .xpFetchDataCb asked index res → ∃ data, res = .ok data ∧ data ≠ [])
    (returns : ∀ asked index res, event = .getChunkCb asked index res → ∀ read, t.reads[index]? = some read →
      res = .ok (content read.desc.id)) :
    Ends (KeepsOffsets content t) (fun _ => True) (t.handle beyond stored event) := by
  have idle : KeepsOffsets content t t := .idle hand offsets
  cases event with
  | getData sbp asked =>
    obtain ⟨opened, turn⟩ := inTurn sbp asked rfl
    exact get_data_offsets hand underway offsets opened turn
  | fetchData xferId =>
    simp only [Transfer.handle]
    split
    next => exact idle
    next due => exact fetch_data_offsets hand underway offsets due _
  | xpFetchDataCb xferId index res =>
    simp only [Transfer.handle]
    split
    next => exact idle
    next d inFlight =>
      obtain ⟨data, rfl, filled⟩ := arrives xferId index res rfl
      exact xp_fetch_data_cb_offsets hand underway offsets inFlight filled
  | getChunkCb xferId index res =>
    simp only [Transfer.handle]
    split
    next => exact idle
    next read inFlight =>
      rw [returns xferId index res rfl read inFlight]
      exact get_chunk_cb_offsets hand underway offsets inFlight
  | getInit | getInitCb | putIchunk => exact idle

theorem step_offsets (stages : Stages xferId g) (hand : OneInHand (g.transfers xferId))
    (offsets : Offsets content (g.transfers xferId)) {event : Event} (fine : WithoutErrors content xferId g event) :
    Ends (fun g' => KeepsOffsets content (g.transfers xferId) (g'.transfers xferId)) (fun _ => True)
      (g.step beyond event) := by
  apply @step_rule _ _ _ (KeepsOffsets content (g.transfers xferId))
  case spared => exact fun _ => .idle hand offsets
  case opened =>
    rintro _ sbp mode hints rfl
    have unborn := stages.unborn (Nat.le_refl _)
    refine ⟨.of_same rfl, fun pdp held => ?_, hand.turn⟩
    cases held
    refine ⟨rfl, nofun, fun _ => ⟨rfl, rfl⟩, nofun, ?_⟩
    rw [show (g.transfers g.xferCounter).reads = [] from unborn.unread]
    exact fun read member => absurd member List.not_mem_nil
  case answered =>
    rintro _ call after awaited answers res rfl lists
    exact .answered hand stages.underway offsets awaited answers (fine rfl) lists
  case handled =>
    intro own
    apply handle_offsets hand stages.underway offsets
    case inTurn =>
      rintro sbp asked rfl
      cases own
      exact fine rfl
    case arrives =>
      rintro asked index res rfl
      cases own
      exact fine rfl
    case returns =>
      rintro asked index res rfl
      cases own
      exact fine rfl

/-- A client in turn never finds its own request parked. -/
theorem spares_in_turn (hand : OneInHand (g.transfers xferId)) {event : Event}
    (fine : WithoutErrors content xferId g event) : Spares xferId g beyond event := by
  intro own pdp held parked
  cases event with
  | getData sbp asked =>
    cases own
    have idle := (hand.idle (fine rfl).2).2
    rw [held, Option.bind_some] at idle
    exact absurd idle parked
  | getChunkCb reading index res =>
    have busy : ∀ read, (g.transfers xferId).reads[index]? ≠ some read := by
      intro read inFlight
      have idle := (hand.alone inFlight).2.2
      rw [held, Option.bind_some] at idle
      exact parked idle
    cases res with
    | error s => exact Option.eq_none_iff_forall_ne_some.mpr busy
    | ok data => exact fun read _ _ inFlight => absurd inFlight (busy read)
  | _ => trivial

/-! ## Runs -/

theorem replies_placed (content : List UInt8 → List UInt8) (stored : List UInt8 → Option (List UInt8))
    (xferId : XferId) (events : List ((ℕ → DescStatus) × Event))
    (fine : Runs.Always Gtcd.next (fun g event _ => WithoutErrors content xferId g event.2) (Gtcd.init stored) events) :
    Runs.Always Gtcd.next (fun g _ g' => RepliesPlaced content (g.transfers xferId) (g'.transfers xferId))
      (Gtcd.init stored) events := by
  refine (@Runs.always_iff _ _ _ (fun _ _ => True)
    (fun g => Stages xferId g ∧ OneInHand (g.transfers xferId) ∧ Offsets content (g.transfers xferId)) _
    (fun g event => WithoutErrors content xferId g event.2) _ _ ?_ ?_ ?_ fine).mpr .trivial
  · exact ⟨init_stages stored xferId, ⟨.refl _, Nat.zero_le _⟩, .of_absent rfl⟩
  · intro before event after inv fine ran
    have keeps := (step_offsets inv.1 inv.2.1 inv.2.2 fine).of_ok (next_ok ran)
    exact ⟨fun _ => trivial, fun _ => keeps.placed⟩
  · intro before event after inv fine _ ran
    have keeps := (step_offsets inv.1 inv.2.1 inv.2.2 fine).of_ok (next_ok ran)
    have accounted := (step_accounted inv.1 inv.2.1.accounted (spares_in_turn inv.2.1 fine)).of_ok (next_ok ran)
    exact ⟨(step_stages inv.1 event.2).of_ok (next_ok ran), ⟨accounted, keeps.turn⟩, keeps.offsets⟩

/-- **Every reply with data is of the part of the object at some position, and names that
position exactly if it is below 2^31**, in every run without errors in which the client
asks in turn. -/
theorem offsets_kept (content : List UInt8 → List UInt8) (stored : List UInt8 → Option (List UInt8))
    (xferId : XferId) (events : List ((ℕ → DescStatus) × Event))
    (fine : Runs.Always Gtcd.next (fun g event _ => WithoutErrors content xferId g event.2) (Gtcd.init stored) events) :
    Runs.Always Gtcd.next (fun g _ g' => OffsetsKept content (g.transfers xferId) (g'.transfers xferId))
      (Gtcd.init stored) events :=
  (replies_placed content stored xferId events fine).imp fun _ _ _ placed => placed.kept

end

/-- A download out of order whose second chunk comes first. -/
def secondFirst (size : ℕ) : List Event :=
  [.getInit 0 [0] ["gtc://peer:12000"] (some .outOfOrder), .getInitCb 1 (.ok ([⟨[1], size⟩, ⟨[2], 1⟩], true)),
    .getData 1 1, .fetchData 1, .xpFetchDataCb 1 1 (.ok [5]), .getChunkCb 1 0 (.ok [5])]

/-- Its chunks: the first has as many bytes as its descriptor says. -/
def secondContent (size : ℕ) (id : List UInt8) : List UInt8 :=
  if id = [2] then [5] else List.replicate size 0

/-- The state after some of its events. -/
def secondAfter (size n : ℕ) : Gtcd := ranOn ((secondFirst size).take n)

theorem second_ran (size : ℕ) : ∀ n event,
    ((secondFirst size).map fun event => ((fun _ => .unknown : ℕ → DescStatus), event))[n]? = some event →
      Gtcd.next (secondAfter size n) event = some (secondAfter size (n + 1)) :=
  ran_on_next rfl

/-- What is so of every step is so of the last. -/
theorem second_last {size : ℕ} {good : Gtcd → (ℕ → DescStatus) × Event → Gtcd → Prop}
    (always : Runs.Always Gtcd.next good (Gtcd.init fun _ => none) ((secondFirst size).map ((fun _ => .unknown), ·))) :
    good (secondAfter size 5) (fun _ => .unknown, .getChunkCb 1 0 (.ok [5])) (secondAfter size 6) :=
  (Runs.always_chain (second_ran size)).mp always 5 _ rfl

theorem second_without_errors (size : ℕ) :
    Runs.Always Gtcd.next (fun g event _ => WithoutErrors (secondContent size) 1 g event.2) (Gtcd.init fun _ => none)
      ((secondFirst size).map ((fun _ => .unknown), ·)) := by
  refine (Runs.always_chain (second_ran size)).mpr fun n event place => ?_
  match n with
  | 0 | 3 =>
    cases place
    trivial
  | 1 =>
    cases place
    rintro _ descs ended listed d member
    cases listed
    obtain rfl | rfl : d = _ ∨ d = _ := by simpa using member
    · simp [secondContent]
    · simp [secondContent]
  | 2 =>
    cases place
    exact fun _ => ⟨rfl, rfl⟩
  | 4 =>
    cases place
    exact fun _ => ⟨[5], rfl, by decide⟩
  | 5 =>
    cases place
    intro _ read inFlight
    have only : ((secondAfter size 5).transfers 1).reads[0]? = some ⟨1, 1, size, ⟨[2], 1⟩⟩ := rfl
    cases only.symm.trans inFlight
    rfl

/-- After one byte the second chunk names its true offset. -/
theorem offsets_kept_one :
    Runs.Always Gtcd.next (fun g _ g' => OffsetsKept (secondContent 1) (g.transfers 1) (g'.transfers 1))
      (Gtcd.init fun _ => none) ((secondFirst 1).map ((fun _ => .unknown), ·)) :=
  offsets_kept (secondContent 1) (fun _ => none) 1 _ (second_without_errors 1)

/-- The byte of the second chunk is at one place in its object. -/
theorem second_position {size o : ℕ}
    (bytes : [5] = ((objectOf (secondContent size) [⟨[1], size⟩, ⟨[2], 1⟩]).drop o).take 1) : o = size := by
  have object : objectOf (secondContent size) [⟨[1], size⟩, ⟨[2], 1⟩] = List.replicate size 0 ++ [5] := by
    simp [objectOf, secondContent]
  have byte : (List.replicate size (0 : UInt8) ++ [5])[o]? = some 5 := by
    rw [object] at bytes
    have first : (((List.replicate size (0 : UInt8) ++ [5]).drop o).take 1)[0]? = some 5 := by rw [← bytes]; rfl
    rwa [List.getElem?_take_of_lt Nat.zero_lt_one, List.getElem?_drop, Nat.add_zero] at first
  obtain before | past := Nat.lt_or_ge o size
  · rw [List.getElem?_append_left (by rwa [List.length_replicate]), List.getElem?_replicate_of_lt before] at byte
    cases byte
  · obtain ⟨inside, _⟩ := List.getElem?_eq_some_iff.mp byte
    rw [List.length_append, List.length_replicate, List.length_singleton] at inside
    omega

/-- The reply with the second chunk. -/
theorem second_replied (size : ℕ) : (∃ pdp, ((secondAfter size 5).transfers 1).pdp = some pdp ∧
      pdp.descs = some [⟨[1], size⟩, ⟨[2], 1⟩]) ∧
    ∃ reply ok, reply ∈ ((secondAfter size 6).transfers 1).replies.drop
      ((secondAfter size 5).transfers 1).replies.length ∧
      reply.2 = .ok ok ∧ ok.count = 1 ∧ ok.data = [5] := by
  have listed : ((secondAfter size 5).transfers 1).pdp.bind (·.descs) = some [⟨[1], size⟩, ⟨[2], 1⟩] := rfl
  have replied : ((secondAfter size 6).transfers 1).replies.map
      (fun reply => reply.2.toOption.map fun ok => (ok.count, ok.data)) = [some (1, [5])] := rfl
  have unreplied : ((secondAfter size 5).transfers 1).replies = [] := rfl
  -- from here on the two states are not computed again
  generalize (secondAfter size 5).transfers 1 = before at listed unreplied ⊢
  generalize (secondAfter size 6).transfers 1 = after at replied ⊢
  refine ⟨Option.bind_eq_some_iff.mp listed, ?_⟩
  obtain ⟨reply, alone, same⟩ := List.map_eq_singleton_iff.mp replied
  obtain ⟨sbp, res⟩ := reply
  cases res with
  | error s => cases same
  | ok ok =>
    obtain ⟨count, data⟩ := Prod.mk.inj (Option.some.inj same)
    refine ⟨(sbp, .ok ok), ok, ?_, rfl, count, data⟩
    rw [alone, unreplied]
    exact List.mem_singleton_self _

/-- **After 2^31 bytes it does not.** -/
theorem not_offsets_true : ¬ ∀ (content : List UInt8 → List UInt8) (stored : List UInt8 → Option (List UInt8))
    (xferId : XferId) (events : List ((ℕ → DescStatus) × Event)),
    Runs.Always Gtcd.next (fun g event _ => WithoutErrors content xferId g event.2) (Gtcd.init stored) events →
    Runs.Always Gtcd.next (fun g _ g' => OffsetsTrue content (g.transfers xferId) (g'.transfers xferId))
      (Gtcd.init stored) events := by
  intro claimed
  obtain ⟨size, large, small⟩ : ∃ size, 2 ^ 31 ≤ size ∧ size < 2 ^ 32 := ⟨2 ^ 31, by omega, by omega⟩
  have fine := second_without_errors size
  have placed := second_last (replies_placed _ (fun _ => none) 1 _ fine)
  have true_offset := second_last (claimed _ (fun _ => none) 1 _ fine)
  obtain ⟨⟨pdp, held, listed⟩, reply, ok, member, answered, count, data⟩ := second_replied size
  have some_data : 0 < ok.count := by omega
  obtain ⟨o, replied⟩ := placed pdp _ held listed reply member ok answered some_data
  have bytes := replied.bytes
  have claimed := true_offset pdp _ held listed reply member ok answered some_data
  rw [data, count] at bytes claimed
  have position := second_position bytes
  have inside : (objectOf (secondContent size) [⟨[1], size⟩, ⟨[2], 1⟩]).length < 2 ^ 62 := by
    simp only [objectOf, secondContent, List.flatMap_cons, List.length_append]
    simp
    omega
  have exactly := replied.offset inside
  rw [second_position claimed, position] at exactly
  omega

end Ditto.Downloads
