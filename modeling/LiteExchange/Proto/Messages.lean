/-
  Wire messages (`proto/messages.hpp`). Fixed-width fields keep their widths; the padding
  members, which no function reads, are left out.

  `enum class Side : uint8_t` and `TimeInForce : uint8_t` are copied from the frame byte for
  byte, so a message may carry any of the 256 values. The engine only ever compares them with
  `BUY` and `IOC`, and `Side.cls` is the two-way split it makes of the byte.
-/
import Mathlib

namespace LiteExchange.Proto

/-- `enum class MsgType : uint8_t`. -/
inductive MsgType where
  | logon | newOrder | cancelOrder | ack | reject | fill
  deriving DecidableEq, Repr

/-- `enum class Side : uint8_t`, any byte. -/
structure Side where
  val : UInt8
  deriving DecidableEq, Repr

def Side.buy : Side := ⟨0⟩

def Side.sell : Side := ⟨1⟩

/-- `enum class TimeInForce : uint8_t`, any byte. -/
structure TimeInForce where
  val : UInt8
  deriving DecidableEq, Repr

def TimeInForce.gtc : TimeInForce := ⟨0⟩

def TimeInForce.ioc : TimeInForce := ⟨1⟩

inductive RejectReason where
  | unknownSymbol | invalidPrice | invalidQty
  /-- cancel token names no live order (stale or forged) -/
  | unknownOrder
  deriving DecidableEq, Repr

structure Header where
  len : UInt16
  type : MsgType
  flags : UInt8
  sessionId : UInt32
  deriving DecidableEq, Repr

structure NewOrder where
  hdr : Header
  orderId : UInt64
  price : Int64
  qty : UInt32
  symbolId : UInt16
  side : Side
  tif : TimeInForce
  deriving DecidableEq, Repr

structure CancelOrder where
  hdr : Header
  orderToken : UInt64
  deriving DecidableEq, Repr

structure Ack where
  hdr : Header
  orderId : UInt64
  orderToken : UInt64
  deriving DecidableEq, Repr

structure Reject where
  hdr : Header
  orderId : UInt64
  reason : RejectReason
  deriving DecidableEq, Repr

structure Fill where
  hdr : Header
  aggressorId : UInt64
  restingId : UInt64
  price : Int64
  qty : UInt32
  deriving DecidableEq, Repr

/-- `union InboundMsg`. The engine reads the member that `hdr.type` names; the constructor is
    that type, `other` standing for every type the engine drops. -/
inductive InboundMsg where
  | newOrder (m : NewOrder)
  | cancel (m : CancelOrder)
  | other (hdr : Header)
  deriving DecidableEq, Repr

/-- `hdr`, which every member starts with. -/
def InboundMsg.hdr : InboundMsg → Header
  | .newOrder m => m.hdr
  | .cancel m => m.hdr
  | .other hdr => hdr

/-- `union OutboundMsg`, read through `hdr.type` as above. -/
inductive OutboundMsg where
  | ack (m : Ack)
  | reject (m : Reject)
  | fill (m : Fill)
  deriving DecidableEq, Repr

def OutboundMsg.hdr : OutboundMsg → Header
  | .ack m => m.hdr
  | .reject m => m.hdr
  | .fill m => m.hdr

/-- The messages for a session. -/
def toSession (k : UInt32) (ms : List OutboundMsg) : List OutboundMsg :=
  ms.filter fun m => m.hdr.sessionId = k

/-! ## The two sides of a book -/

/-- The bid and the ask half of a book. -/
inductive SideClass where
  | bid | ask
  deriving DecidableEq, Repr

/-- The other half. -/
def SideClass.opp : SideClass → SideClass
  | .bid => .ask
  | .ask => .bid

@[simp] theorem SideClass.opp_opp (S : SideClass) : S.opp.opp = S := by cases S <;> rfl

theorem SideClass.opp_ne (S : SideClass) : S.opp ≠ S := by cases S <;> decide

/-- Where an order with this side byte rests: `BUY` on the bid half, anything else on the
    ask half (the `else` branch of `add_order` and `cancel_order`). -/
def Side.cls (s : Side) : SideClass := if s = Side.buy then .bid else .ask

end LiteExchange.Proto
