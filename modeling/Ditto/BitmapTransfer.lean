import Ditto.Words

/-! The bitmap part of `xferPlugin_gtc`: the server's reply to one GET_BITMAP
call, what the client does with it, and the loop the two make. The offset in a
call counts bits; the server packs the bits into bytes before it looks at the
offset. -/
namespace Ditto.XferGtc
open PackedBits Words

/-- `SEND_SIZE`, with `MAX_PKTSIZE` from the protocol file. -/
def sendSize : ℕ := 0x10400 - 0x1000

/-- The most bits one reply carries. -/
def maxbits : UInt32 := (UInt32.ofNat (sendSize / 2)) * 8

/-- `xfergtc_get_bitmap_res_ok`. -/
structure BitmapResOk where
  offset : UInt64
  count : UInt32
  numDescs : UInt32
  bmp : List UInt8
  ended : Bool
  deriving DecidableEq, Repr

/-- The number of bytes that hold a number of bits. -/
def bytesFor (bits : UInt32) : UInt32 := if bits % 8 = 0 then bits / 8 else bits / 8 + 1

/-- `convert_from_bitvec`, when its `malloc` succeeds. -/
def convertFromBitvec (descCount : UInt32) (bmp : List Bool) : List UInt8 :=
  (List.range descCount.toNat).foldl (fun tmp i => if bmp.getD i false then setBit tmp i else tmp)
    (List.replicate (bytesFor descCount).toNat 0)

/-- `convert_to_bitvec`. A negative `int` count is a size no vector can be given,
and a count beyond the bytes makes it read past them: neither has a result. -/
def convertToBitvec (bmp : List UInt8) (descCount : UInt32) : Option (List Bool) :=
  if toInt descCount < 0 ∨ 8 * bmp.length < descCount.toNat then none
  else some ((List.range descCount.toNat).map (readBit bmp))

/-- `bitvec::zsetsize`: cut off, or filled up with zeros. -/
def zsetsize (bmp : List Bool) (size : ℕ) : List Bool :=
  bmp.take size ++ List.replicate (size - bmp.length) false

/-- `remote_get_bitmap_cb`: `s` is the storage's error, `bmp` its answer. -/
def remoteGetBitmapCb (offset : UInt32) (s : Option String) (bmp : List Bool) :
    Except String BitmapResOk :=
  match s with
  | some s => .error s
  | none =>
    let bmpRet := convertFromBitvec (UInt32.ofNat bmp.length) bmp
    if 0 < offset ∧ bmpRet.length ≤ offset.toNat then
      .error "Too large offset for GET_BITMAP"
    else
      let totalbits := UInt32.ofNat bmp.length - offset
      let sendbits := if maxbits < totalbits then maxbits else totalbits
      .ok {
        offset := offset.toUInt64
        count := sendbits
        numDescs := UInt32.ofNat bmp.length
        bmp := (bmpRet.drop (offset / 8).toNat).take (bytesFor sendbits).toNat
        ended := !decide (maxbits < totalbits) }

/-- What the client does with a reply: it gives up, calls again from an offset,
or hands the bit vector on. -/
inductive BitmapNext where
  | failed (msg : String)
  | again (offset : ℤ) (bmp : List Bool)
  | finished (bmp : List Bool)
  deriving DecidableEq, Repr

/-- A message about an RPC that was answered with an error. The function's name stands for
`__PRETTY_FUNCTION__`, whose text is the compiler's. -/
def bitmapReturned (errmsg : String) : String :=
  "xferPlugin_gtc::get_bitmap_internal_cb XFERGTC_PROC_GET_BITMAP returned:\n`" ++ errmsg ++ "'\n"

/-- The client's loop over the bits of a reply. -/
def storeBits (bmp bmpTmp : List Bool) (offset count : ℕ) : List Bool :=
  (List.range count).foldl (fun bmp i => bmp.set (i + offset) (bmpTmp.getD i false)) bmp

/-- `get_bitmap_internal_cb` on a call that was answered. There is no next step
if the reply's bits run past its bytes or its offset wraps. -/
def getBitmapInternalCb (res : Except String BitmapResOk) (bmp : List Bool) : Option BitmapNext :=
  match res with
  | .error errmsg => some (.failed (bitmapReturned errmsg))
  | .ok resok => do
    let bmpTmp ← convertToBitvec resok.bmp resok.count
    let next := resok.count.toUInt64 + resok.offset
    if next < resok.offset then none
    else
      let bmp := storeBits (zsetsize bmp next.toNat) bmpTmp resok.offset.toNat resok.count.toNat
      some (if resok.ended then .finished bmp else .again (toInt next.toUInt32) bmp)

/-- `get_bitmap_int` with its replies, against a server whose storage always
answers `stored`: at most `fuel` calls. The `int` offset travels as a
`dot_offset` and is cut to an `unsigned int` again. -/
def getBitmapInt (stored : List Bool) : ℕ → ℤ → List Bool → Option (Except String (List Bool))
  | 0, _, _ => none
  | fuel + 1, offset, bmp => do
    let next ← getBitmapInternalCb
      (remoteGetBitmapCb (UInt64.ofInt offset).toUInt32 none stored) bmp
    match next with
    | .failed msg => some (.error msg)
    | .again offset bmp => getBitmapInt stored fuel offset bmp
    | .finished bmp => some (.ok bmp)

end Ditto.XferGtc
