import Ditto.GtcNode
import Ditto.Sequences

/-! A chunk asked of a peer in several calls: the server's reply to one call, what the
client does with it, and the loop the two make. The client asks next from what it has
in its buffer, and the server says it is done when what it cuts off is all that is
left; so the replies are the pages of the chunk. -/
namespace Ditto.ChunkExchange
open XferGtc GtcNode Paging

/-- `remote_get_chunk_cb` with a chunk in hand, for a given `SEND_SIZE`. -/
def remoteGetChunkCb (sendSize : ℕ) (arg : GetChunkArg) (desc : Descriptor) (data : List UInt8) :
    Except String GetChunkResOk :=
  let offset := arg.offset.toNat
  if data.length ≤ offset then .error "Invalid offset for get_chunk"
  else
    let numBytes := min (data.length - offset) sendSize
    .ok {
      offset := arg.offset
      chunkId := desc.id
      data := (if 0 < offset then data.drop offset else data).take numBytes
      ended := !decide (numBytes < data.length - offset) }

/-- It is what the node answers a peer. -/
theorem serve_chunk_eq (arg : GetChunkArg) (desc : Descriptor) (data : List UInt8) :
    (serveChunk arg desc data).1 = remoteGetChunkCb sendSize arg desc data := by
  rw [serveChunk, remoteGetChunkCb]
  split <;> rfl

/-- What the client does with a reply: it calls `chunk_cb`, or it calls the peer again. -/
inductive ChunkNext where
  | called (res : Except String (Descriptor × List UInt8))
  | again (offset : ℕ) (data : List UInt8)

/-- `get_chunk_internal_cb` on a call that was answered. The function's name stands for
`__PRETTY_FUNCTION__` in its messages. -/
def getChunkInternalCb (computeChunkId : List UInt8 → List UInt8) (d : Descriptor) (data : List UInt8) :
    Except String GetChunkResOk → ChunkNext
  | .error errmsg => .called (.error ("xferPlugin_gtc::get_chunk_internal_cb" ++
      " XFERGTC_PROC_GET_CHUNK returned:\n`" ++ errmsg ++ "'\n"))
  | .ok resok =>
    let data := data ++ resok.data
    if resok.ended then
      if d.id ≠ computeChunkId data then
        .called (.error ("xferPlugin_gtc::get_chunk_internal_cb" ++
          " XFERGTC_PROC_GET_CHUNK returned invalid data\n"))
      else .called (.ok (d, data))
    else .again data.length data

/-- The reply as the client's plugin reads it. -/
def wire : Except String GetChunkResOk → Reply ChunkResOk
  | .error errmsg => .notOk errmsg
  | .ok resok => .ok ⟨resok.data, resok.ended⟩

/-- It is what the plugin does, next to its book-keeping for the connection. -/
theorem plugin_chunk_reply {κ : Type} (hash : List UInt8 → List UInt8) (p : Plugin κ) (env : Env)
    (req : ChunkReq κ) (data : List UInt8) (conn : ConnId) (res : Except String GetChunkResOk) :
    p.getChunkInternalCb hash env req data conn (wire res) =
      match getChunkInternalCb hash req.d data res with
      | .called (.error msg) => .ok (p.answer (.chunk req.cb (.error msg)))
      | .called (.ok whole) => do
        let p ← p.releaseConn conn
        (p.answer (.chunk req.cb (.ok whole))).checkOutstanding env conn
      | .again offset data => p.getChunkInt req offset data none (some conn) := by
  cases res with
  | error errmsg => rfl
  | ok resok =>
    simp only [wire, Plugin.getChunkInternalCb, getChunkInternalCb]
    split
    · split <;> rfl
    · rfl

/-- A transfer: what the client asked from, the replies, and the calls of `chunk_cb`. -/
structure Exchange where
  asked : List ℕ
  replies : List (Except String GetChunkResOk)
  called : List (Except String (Descriptor × List UInt8))

/-- `get_chunk_int` with its replies, against a peer whose storage returns a full copy each
time: at most `fuel` calls. -/
def getChunkInt (sendSize : ℕ) (computeChunkId : List UInt8 → List UInt8) (d : Descriptor)
    (hints : List String) (stored : List UInt8) : ℕ → ℕ → List UInt8 → Option Exchange
  | 0, _, _ => none
  | fuel + 1, offset, data =>
    let reply := remoteGetChunkCb sendSize ⟨d, hints, UInt64.ofNat offset⟩ d stored
    match getChunkInternalCb computeChunkId d data reply with
    | .called res => some ⟨[offset], [reply], [res]⟩
    | .again next data => do
      let rest ← getChunkInt sendSize computeChunkId d hints stored fuel next data
      some ⟨offset :: rest.asked, reply :: rest.replies, rest.called⟩

/-- A chunk in memory: its size is a `size_t`. -/
structure Chunk where
  bytes : List UInt8
  sized : bytes.length < 2 ^ 64

variable {limit fuel first : ℕ} {hash : List UInt8 → List UInt8} {d : Descriptor} {hints : List String}
  {chunk : Chunk}

/-! ## Rounds -/

/-- The server's reply is a page. -/
theorem remote_page (inside : first < chunk.bytes.length) :
    remoteGetChunkCb limit ⟨d, hints, UInt64.ofNat first⟩ d chunk.bytes = .ok {
      offset := UInt64.ofNat first
      chunkId := d.id
      data := page limit chunk.bytes first
      ended := decide (chunk.bytes.length - first ≤ limit) } := by
  have sized := chunk.sized
  have offset : (UInt64.ofNat first).toNat = first := by
    rw [UInt64.toNat_ofNat']
    omega
  have cut : (if 0 < first then chunk.bytes.drop first else chunk.bytes) = chunk.bytes.drop first := by
    split
    · rfl
    · obtain rfl : first = 0 := by omega
      rfl
  simp only [remoteGetChunkCb, offset, if_neg (Nat.not_le.mpr inside), cut, page]
  congr 2
  · rw [List.take_eq_take_iff, List.length_drop]
    omega
  · rw [Bool.eq_iff_iff]
    simp only [Bool.not_eq_true', decide_eq_false_iff_not, decide_eq_true_eq]
    omega

/-- The last round calls `chunk_cb` with the chunk. -/
theorem last_round (inside : first < chunk.bytes.length) (named : d.id = hash chunk.bytes)
    (last : chunk.bytes.length - first ≤ limit) :
    getChunkInternalCb hash d (chunk.bytes.take first)
      (remoteGetChunkCb limit ⟨d, hints, UInt64.ofNat first⟩ d chunk.bytes) = .called (.ok (d, chunk.bytes)) := by
  have whole : chunk.bytes.take first ++ page limit chunk.bytes first = chunk.bytes := by
    rw [page_last last, List.take_append_drop]
  rw [remote_page inside]
  simp [getChunkInternalCb, whole, last, named]

/-- Every other round asks from where the buffer ends. -/
theorem other_round (more : limit < chunk.bytes.length - first) :
    getChunkInternalCb hash d (chunk.bytes.take first)
      (remoteGetChunkCb limit ⟨d, hints, UInt64.ofNat first⟩ d chunk.bytes) =
        .again (first + limit) (chunk.bytes.take (first + limit)) := by
  have size : (chunk.bytes.take (first + limit)).length = first + limit := by
    rw [List.length_take]
    omega
  rw [remote_page (by omega)]
  simp only [getChunkInternalCb, take_page, size, decide_eq_false (Nat.not_le.mpr more), Bool.false_eq_true,
    if_false]

/-- **A chunk round-trips** through as many calls as it has pages, each from where the one
before ended, and `chunk_cb` is called once, with the chunk. -/
theorem chunk_round_trips (chunk : Chunk) (hints : List String) (positive : 0 < limit)
    (nonempty : 1 ≤ chunk.bytes.length) (named : d.id = hash chunk.bytes)
    (enough : (chunk.bytes.length + limit - 1) / limit ≤ fuel) :
    ∃ exchange, getChunkInt limit hash d hints chunk.bytes fuel 0 [] = some exchange ∧
      exchange.asked = (List.range ((chunk.bytes.length + limit - 1) / limit)).map (· * limit) ∧
      (∀ reply ∈ exchange.replies, ∃ resok, reply = .ok resok) ∧
      exchange.called = [.ok (d, chunk.bytes)] := by
  have rounds : ∀ fuel, (offsets limit chunk.bytes.length).length ≤ fuel → ∃ exchange,
      getChunkInt limit hash d hints chunk.bytes fuel 0 (chunk.bytes.take 0) = some exchange ∧
        exchange.asked = offsets limit chunk.bytes.length ∧
        (∀ reply ∈ exchange.replies, ∃ resok, reply = .ok resok) ∧
        exchange.called = [.ok (d, chunk.bytes)] := by
    apply @paged_induction limit chunk.bytes.length fun first asked => ∀ fuel, asked.length ≤ fuel →
      ∃ exchange, getChunkInt limit hash d hints chunk.bytes fuel first (chunk.bytes.take first) = some exchange ∧
        exchange.asked = asked ∧ (∀ reply ∈ exchange.replies, ∃ resok, reply = .ok resok) ∧
        exchange.called = [.ok (d, chunk.bytes)]
    case positive => exact positive
    case last =>
      intro first inside last fuel enough
      have inside : first < chunk.bytes.length := by omega
      obtain ⟨fuel, rfl⟩ := Nat.exists_eq_succ_of_ne_zero (Nat.ne_of_gt enough)
      rw [getChunkInt]
      simp only [last_round inside named last]
      refine ⟨_, rfl, rfl, fun reply member => ?_, rfl⟩
      rw [List.mem_singleton.mp member, remote_page inside]
      exact ⟨_, rfl⟩
    case more =>
      intro first rest more ih fuel enough
      obtain ⟨fuel, rfl⟩ := Nat.exists_eq_succ_of_ne_zero (Nat.ne_of_gt (Nat.lt_of_lt_of_le (Nat.succ_pos _) enough))
      obtain ⟨exchange, ran, asked, ok, called⟩ := ih fuel (Nat.le_of_succ_le_succ enough)
      rw [getChunkInt]
      simp only [other_round more, ran]
      refine ⟨_, rfl, congrArg _ asked, fun reply member => ?_, called⟩
      rcases List.mem_cons.mp member with rfl | member
      · rw [remote_page (by omega)]
        exact ⟨_, rfl⟩
      · exact ok reply member
  have ceil := page_count_ceil positive nonempty
  rw [length_offsets, ceil] at rounds
  obtain ⟨exchange, ran, asked, ok, called⟩ := rounds fuel enough
  exact ⟨exchange, ran, by rw [asked, offsets, ceil], ok, called⟩

/-- Five bytes, two at a time. -/
def fiveBytes : Chunk := ⟨[1, 2, 3, 4, 5], by decide⟩

theorem chunk_round_trips_five : ∃ exchange,
    getChunkInt 2 (fun data => data.take 1) ⟨[1], 5⟩ [] fiveBytes.bytes 3 0 [] = some exchange ∧
      exchange.asked = [0, 2, 4] ∧ (∀ reply ∈ exchange.replies, ∃ resok, reply = .ok resok) ∧
      exchange.called = [.ok (⟨[1], 5⟩, fiveBytes.bytes)] := by
  have rounds : (fiveBytes.bytes.length + 2 - 1) / 2 = 3 := by decide
  have trip := @chunk_round_trips 2 3 (fun data => data.take 1) ⟨[1], 5⟩ fiveBytes [] (by decide)
    (by decide) rfl (by decide)
  rwa [rounds] at trip

end Ditto.ChunkExchange
