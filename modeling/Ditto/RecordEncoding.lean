import Ditto.RecordHeaders

/-! The encoder's side of a record: the answer to a GET_CHUNK call as the transfer
plugin replies it. The sniffer's constant offsets, mask and minimum lengths read
back the chunk id and the data of every such answer. -/
namespace Ditto.RecordEncoding
open Sniffer RecordHeaders Xdr

/-- `xfergtc_get_chunk_res_ok`, with its metadata as they are encoded. -/
structure XfergtcGetChunkResOk where
  offset : UInt64
  chunkId : List UInt8
  data : List UInt8
  isEnd : Bool
  md : List UInt8

namespace XfergtcGetChunkResOk

variable (res : XfergtcGetChunkResOk) (xid : UInt32)

/-- A successful `xfergtc_get_chunk_res`: the union's case `true`, and the fields. -/
def encode : List UInt8 :=
  bool true ++ hyper res.offset.toNat ++ counted res.chunkId ++ counted res.data ++ bool res.isEnd ++ res.md

/-- The reply to a call, as one record. -/
def reply : List UInt8 := lastFragment (successReply xid.toNat res.encode)

/-- What the sniffer is meant for: an id of 20 bytes, enough data, some metadata, and a
record whose length fits the three bytes after the mark's first. -/
structure Sniffable : Prop where
  idLength : res.chunkId.length = 20
  enough : minChunkSize ≤ res.data.length
  described : 4 ≤ res.md.length
  short : (successReply xid.toNat res.encode).length < 2 ^ 24

variable {res xid}

/-- A reply from its mark on, cut at the fields that the sniffer reads. -/
theorem Sniffable.reply_eq (sniffable : Sniffable res xid) : ∃ tail, res.reply xid =
    word (2 ^ 31 + (successReply xid.toNat res.encode).length) ++ word xid.toNat ++ mask ++
      hyper res.offset.toNat ++ word 20 ++ res.chunkId ++ word res.data.length ++ res.data ++ tail := by
  have masked : word 1 ++ word 0 ++ word 0 ++ word 0 ++ word 0 ++ bool true = mask := by decide
  refine ⟨List.replicate ((4 - res.data.length % 4) % 4) 0 ++ bool res.isEnd ++ res.md, ?_⟩
  rw [← masked, reply, lastFragment]
  simp only [successReply, encode, counted, sniffable.idLength, List.append_assoc]
  rfl

theorem Sniffable.length_body (sniffable : Sniffable res xid) :
    (successReply xid.toNat res.encode).length =
      68 + res.data.length + (4 - res.data.length % 4) % 4 + res.md.length := by
  simp only [encode, length_success_reply, List.length_append, length_bool, length_hyper,
    length_counted, sniffable.idLength]
  omega

/-- The fields as the sniffer cuts them out. -/
theorem Sniffable.slices (sniffable : Sniffable res xid) :
    (res.reply xid).take 4 = word (2 ^ 31 + (successReply xid.toNat res.encode).length) ∧
    ((res.reply xid).drop 8).take maskSizeInBytes = mask ∧
    ((res.reply xid).drop 40).take 4 = word 20 ∧ ((res.reply xid).drop 44).take 20 = res.chunkId ∧
    ((res.reply xid).drop 64).take 4 = word res.data.length ∧
    ((res.reply xid).drop 68).take res.data.length = res.data := by
  obtain ⟨tail, parts⟩ := sniffable.reply_eq
  have idLength := sniffable.idLength
  have maskLength : mask.length = 24 := rfl
  have maskEnds : mask.drop 60 = [] := rfl
  have idEnds : res.chunkId.drop 24 = [] := List.drop_of_length_le (by omega)
  rw [parts]
  refine ⟨?_, ?_, ?_, ?_, ?_, ?_⟩ <;>
    simp [List.drop_append, List.take_append, idLength, maskLength, maskEnds, idEnds, maskSizeInBytes]

/-- The reply is a record with the chunk. -/
def Sniffable.record (sniffable : Sniffable res xid) : ChunkRecord where
  bytes := res.reply xid
  marked := by
    have short := sniffable.short
    obtain ⟨tail, parts⟩ := sniffable.reply_eq
    have mark : UInt8.ofNat ((2 ^ 31 + (successReply xid.toNat res.encode).length) / 2 ^ 24) = rpcHeader := by
      rw [show (2 ^ 31 + (successReply xid.toNat res.encode).length) / 2 ^ 24 = 0x80 by omega]
      rfl
    rw [parts, ← mark]
    rfl
  sized := by
    have short := sniffable.short
    rw [sniffable.slices.1, number_word (by omega), reply, length_last_fragment]
    omega
  masked := sniffable.slices.2.1
  identified := by
    rw [sniffable.slices.2.2.1, number_word (by omega)]
  filled := by
    have body := sniffable.length_body
    have short := sniffable.short
    rw [sniffable.slices.2.2.2.2.1, number_word (by omega)]
    exact sniffable.enough
  fits := by
    have body := sniffable.length_body
    have short := sniffable.short
    rw [sniffable.slices.2.2.2.2.1, number_word (by omega), reply, length_last_fragment]
    omega

theorem Sniffable.record_fields (sniffable : Sniffable res xid) :
    sniffable.record.chunkId = res.chunkId ∧ sniffable.record.data = res.data := by
  have body := sniffable.length_body
  have short := sniffable.short
  have dataLength : sniffable.record.dataLength = res.data.length := by
    show Xdr.number (((res.reply xid).drop 64).take 4) = _
    rw [sniffable.slices.2.2.2.2.1, number_word (by omega)]
  refine ⟨sniffable.slices.2.2.2.1, ?_⟩
  rw [ChunkRecord.data, dataLength]
  exact sniffable.slices.2.2.2.2.2

/-- **The decoder undoes the encoder.** Whatever follows a reply in the stream, its chunk
id is found at its start, its data is extracted, and the data ends four bytes before
the record's end or earlier. -/
theorem header_round_trip (sniffable : Sniffable res xid) (after : List UInt8) (around : ℤ → UInt8) :
    getChunkId (.ofBytes (res.reply xid ++ after) around) (res.reply xid ++ after).length =
      some (res.chunkId, 0) ∧
    extractChunkResponse (.ofBytes (res.reply xid ++ after) around) = some ⟨res.chunkId, res.data⟩ ∧
    getLengthFromByteStream (.ofBytes (res.reply xid ++ after) around) + 4 = (res.reply xid).length ∧
    68 + res.data.length ≤ getLengthFromByteStream (.ofBytes (res.reply xid ++ after) around) := by
  obtain ⟨chunkId, data⟩ := sniffable.record_fields
  have holds : (Pointer.ofBytes (res.reply xid ++ after) around).bytes sniffable.record.bytes.length =
      sniffable.record.bytes := by
    show Pointer.bytes _ (res.reply xid).length = res.reply xid
    rw [bytes_of_front _ (by simp), List.take_left]
  have header := sniffable.record.header_of_bytes holds
  have length := (sniffable.record.reads header).2.2.1
  have body := sniffable.length_body
  have described := sniffable.described
  refine ⟨?_, ?_, length, ?_⟩
  · rw [← chunkId]
    refine sniffable.record.get_chunk_id header ?_
    rw [List.length_append, reply, length_last_fragment, Nat.add_assoc]
    exact Nat.add_pos_left (by decide) _
  · rw [sniffable.record.extract holds, chunkId, data]
  · have total : sniffable.record.bytes.length = 4 + (successReply xid.toNat res.encode).length :=
      length_last_fragment _
    omega

/-- A reply with 1025 bytes of data, padded by three. -/
def oddReply : XfergtcGetChunkResOk where
  offset := 0
  chunkId := .replicate 20 7
  data := .replicate 1025 9
  isEnd := true
  md := .replicate 4 0

theorem header_round_trip_of_odd_reply :
    getChunkId (.ofBytes (oddReply.reply 3 ++ [1, 2]) (fun _ => 0)) (oddReply.reply 3 ++ [1, 2]).length =
        some (.replicate 20 7, 0) ∧
      extractChunkResponse (.ofBytes (oddReply.reply 3 ++ [1, 2]) (fun _ => 0)) =
        some ⟨.replicate 20 7, .replicate 1025 9⟩ := by
  have idLength : oddReply.chunkId.length = 20 := List.length_replicate ..
  have dataLength : oddReply.data.length = 1025 := List.length_replicate ..
  have described : oddReply.md.length = 4 := List.length_replicate ..
  have sniffable : Sniffable oddReply 3 := by
    refine ⟨idLength, by rw [dataLength]; decide, Nat.le_of_eq described.symm, ?_⟩
    simp only [length_success_reply, encode, List.length_append, length_bool, length_hyper,
      length_counted, idLength, dataLength, described]
    decide
  obtain ⟨found, extracted, _⟩ := header_round_trip sniffable [1, 2] (fun _ => 0)
  exact ⟨found, extracted⟩

end XfergtcGetChunkResOk
end Ditto.RecordEncoding
