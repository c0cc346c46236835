/-
  Frames on the wire (`proto/codec.hpp`). A frame starts with a `Header`, whose first two bytes
  are the length of the frame and whose third is its type. The structs are read in place, so
  members are little-endian, as on the machines the code is built for.

  A read through a pointer is modelled as a read of the bytes that are left, `load` and `loadBytes`
  faulting where these are too few. `tryDecode_eq`: `tryDecode` never reads beyond them.
  `decode_stable`, `decode_invalid`: what it finds stays when more bytes arrive.
-/
import LiteExchange.Lib.Checked
import LiteExchange.Proto.Messages

namespace LiteExchange.Proto

open Lib

/-! ## Bytes -/

/-- The number little-endian bytes spell. -/
def leNat : List UInt8 → Nat
  | [] => 0
  | b :: bs => b.toNat + 256 * leNat bs

/-- The `n`-byte member at offset `off`. -/
def field (buf : List UInt8) (off n : Nat) : Nat := leNat ((buf.drop off).take n)

/-- Read that member through a pointer to the bytes `buf`. -/
def load (buf : List UInt8) (off n : Nat) : Except Fault Nat :=
  if off + n ≤ buf.length then .ok (field buf off n) else .error .outOfRange

/-- Copy `n` bytes out. -/
def loadBytes (buf : List UInt8) (n : Nat) : Except Fault (List UInt8) :=
  if n ≤ buf.length then .ok (buf.take n) else .error .outOfRange

theorem load_of_le {buf : List UInt8} {off n : Nat} (h : off + n ≤ buf.length) :
    load buf off n = .ok (field buf off n) := if_pos h

theorem loadBytes_of_le {buf : List UInt8} {n : Nat} (h : n ≤ buf.length) :
    loadBytes buf n = .ok (buf.take n) := if_pos h

/-- A member is read from its own bytes. -/
theorem field_append {buf : List UInt8} {off n : Nat} (h : off + n ≤ buf.length)
    (more : List UInt8) : field (buf ++ more) off n = field buf off n := by
  unfold field
  rw [List.drop_append_of_le_length (by omega),
    List.take_append_of_le_length (by rw [List.length_drop]; omega)]

theorem field_take {buf : List UInt8} {off n k : Nat} (h : off + n ≤ k) :
    field (buf.take k) off n = field buf off n := by
  unfold field
  rw [List.drop_take, List.take_take, Nat.min_eq_left (by omega)]

/-! ## Decoding -/

/-- `MIN_FRAME_LEN`, the size of a header. -/
def minFrameLen : Nat := 8

/-- `MAX_FRAME_LEN`. -/
def maxFrameLen : Nat := 256

/-- The message type of a byte. -/
def MsgType.ofByte : Nat → Option MsgType
  | 0x01 => some .logon
  | 0x02 => some .newOrder
  | 0x03 => some .cancelOrder
  | 0x81 => some .ack
  | 0x82 => some .reject
  | 0x83 => some .fill
  | _ => none

/-- `DecodeResult`, `OK` with the type and length it sets. -/
inductive DecodeResult where
  | ok (type : MsgType) (frameLen : Nat)
  | needMore
  | invalid
  deriving DecidableEq, Repr

/-- `tryDecode(buf, avail, type, frame_len)`, `buf` being the available bytes. -/
def tryDecode (buf : List UInt8) : Except Fault DecodeResult := do
  if buf.length < minFrameLen then
    return .needMore
  let len ← load buf 0 2
  if len < minFrameLen ∨ maxFrameLen < len then
    return .invalid
  let type ← load buf 2 1
  match MsgType.ofByte type with
  | none => return .invalid
  | some type =>
    if buf.length < len then
      return .needMore
    return .ok type len

/-- What `tryDecode` finds. -/
def decode (buf : List UInt8) : DecodeResult :=
  if buf.length < minFrameLen then .needMore
  else if field buf 0 2 < minFrameLen ∨ maxFrameLen < field buf 0 2 then .invalid
  else
    match MsgType.ofByte (field buf 2 1) with
    | none => .invalid
    | some type => if buf.length < field buf 0 2 then .needMore else .ok type (field buf 0 2)

/-- `tryDecode` reads only available bytes. -/
theorem tryDecode_eq (buf : List UInt8) : tryDecode buf = .ok (decode buf) := by
  unfold tryDecode decode
  split
  · rfl
  · rename_i hlen
    unfold minFrameLen at hlen
    rw [load_of_le (show 0 + 2 ≤ buf.length by omega), ok_bind]
    split
    · rfl
    · rw [load_of_le (show 2 + 1 ≤ buf.length by omega), ok_bind]
      split
      · rfl
      · split <;> rfl

section Decode

variable {buf : List UInt8} {type : MsgType} {len : Nat}

theorem decode_ok (h : decode buf = .ok type len) : 8 ≤ len ∧ len ≤ buf.length ∧
    len ≤ 256 ∧ field buf 0 2 = len ∧ MsgType.ofByte (field buf 2 1) = some type := by
  unfold decode minFrameLen maxFrameLen at h
  split at h
  · cases h
  · split at h
    · cases h
    · split at h
      · cases h
      · rename_i htype
        split at h
        · cases h
        · cases h
          exact ⟨by omega, by omega, by omega, rfl, htype⟩

theorem decode_ok_of (h8 : 8 ≤ len) (hlen : len ≤ buf.length) (h256 : len ≤ 256)
    (hfield : field buf 0 2 = len) (htype : MsgType.ofByte (field buf 2 1) = some type) :
    decode buf = .ok type len := by
  unfold decode minFrameLen maxFrameLen
  rw [if_neg (by omega), if_neg (by omega), htype]
  dsimp only
  rw [if_neg (by omega), hfield]

/-- A frame is found by its own bytes. -/
theorem decode_stable (h : decode buf = .ok type len) (more : List UInt8) :
    decode (buf.take len ++ more) = .ok type len := by
  obtain ⟨h8, hlen, h256, hfield, htype⟩ := decode_ok h
  have htake : (buf.take len).length = len := List.length_take_of_le hlen
  refine decode_ok_of h8 (by rw [List.length_append, htake]; omega) h256 ?_ ?_
  · rw [field_append (by omega), field_take (by omega), hfield]
  · rw [field_append (by omega), field_take (by omega), htype]

/-- What is no frame does not become one. -/
theorem decode_invalid (h : decode buf = .invalid) (more : List UInt8) :
    decode (buf ++ more) = .invalid := by
  unfold decode at h ⊢
  split at h
  · cases h
  · rename_i hlen
    unfold minFrameLen at hlen
    rw [field_append (by omega), field_append (by omega),
      if_neg (by rw [List.length_append]; unfold minFrameLen; omega)]
    split at h
    · rename_i hbad
      rw [if_pos hbad]
    · rename_i hgood
      rw [if_neg hgood]
      split at h
      · rfl
      · split at h <;> cases h

end Decode

/-! ## Structs -/

/-- A `Header` whose type byte is known. -/
def Header.ofBytes (type : MsgType) (bs : List UInt8) : Header where
  len := UInt16.ofNat (field bs 0 2)
  type := type
  flags := UInt8.ofNat (field bs 3 1)
  sessionId := UInt32.ofNat (field bs 4 4)

/-- `sizeof(NewOrder)`. -/
def sizeofNewOrder : Nat := 32

/-- `sizeof(CancelOrder)`. -/
def sizeofCancelOrder : Nat := 16

def NewOrder.ofBytes (bs : List UInt8) : NewOrder where
  hdr := Header.ofBytes .newOrder bs
  orderId := UInt64.ofNat (field bs 8 8)
  price := (UInt64.ofNat (field bs 16 8)).toInt64
  qty := UInt32.ofNat (field bs 24 4)
  symbolId := UInt16.ofNat (field bs 28 2)
  side := ⟨UInt8.ofNat (field bs 30 1)⟩
  tif := ⟨UInt8.ofNat (field bs 31 1)⟩

def CancelOrder.ofBytes (bs : List UInt8) : CancelOrder where
  hdr := Header.ofBytes .cancelOrder bs
  orderToken := UInt64.ofNat (field bs 8 8)

/-! ## Outbound frames -/

/-- The `n` little-endian bytes of a number. -/
def leBytes : Nat → Nat → List UInt8
  | 0, _ => []
  | n + 1, v => UInt8.ofNat v :: leBytes n (v / 256)

def MsgType.toByte : MsgType → UInt8
  | .logon => 0x01
  | .newOrder => 0x02
  | .cancelOrder => 0x03
  | .ack => 0x81
  | .reject => 0x82
  | .fill => 0x83

def RejectReason.toByte : RejectReason → UInt8
  | .unknownSymbol => 0
  | .invalidPrice => 1
  | .invalidQty => 2
  | .unknownOrder => 3

def Header.bytes (h : Header) : List UInt8 :=
  leBytes 2 h.len.toNat ++ [h.type.toByte, h.flags] ++ leBytes 4 h.sessionId.toNat

/-- The bytes of the member in use, with its padding. -/
def OutboundMsg.member : OutboundMsg → List UInt8
  | .ack m => m.hdr.bytes ++ leBytes 8 m.orderId.toNat ++ leBytes 8 m.orderToken.toNat
  | .reject m => m.hdr.bytes ++ leBytes 8 m.orderId.toNat ++ [m.reason.toByte] ++ leBytes 7 0
  | .fill m => m.hdr.bytes ++ leBytes 8 m.aggressorId.toNat ++ leBytes 8 m.restingId.toNat ++
      leBytes 8 m.price.toUInt64.toNat ++ leBytes 4 m.qty.toNat ++ leBytes 4 0

/-- The `hdr.len` bytes a gateway sends of a message. -/
def OutboundMsg.frame (m : OutboundMsg) : List UInt8 := m.member.take m.hdr.len.toNat

end LiteExchange.Proto
