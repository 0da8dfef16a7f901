import Mathlib.Data.UInt

/-!
# ITCH messages

The packed message structs of `messages.hpp`, field by field. Multi-byte fields hold the value that a
little-endian host loads from the big-endian wire bytes; handlers read them through `be16`, `be32`
and `be64` only.

* `be16`, `be32`, `be64`: the byte swaps; `readTs`: the 48-bit timestamp;
* `SystemEventMsg` … `TradeMsg`, and the tagged union `ParsedMessage`.
-/

namespace L2Book

/-! ## Byte order -/

/-- `__builtin_bswap16`. -/
def be16 (v : UInt16) : UInt16 := (v <<< 8) ||| (v >>> 8)

/-- `__builtin_bswap32`. -/
def be32 (v : UInt32) : UInt32 :=
  let b : UInt32 := 0xff00
  (v <<< 24) ||| ((v &&& b) <<< 8) ||| ((v >>> 8) &&& b) ||| (v >>> 24)

/-- `__builtin_bswap64`. -/
def be64 (v : UInt64) : UInt64 :=
  let b₁ : UInt64 := 0xff00
  let b₂ : UInt64 := 0xff0000
  let b₃ : UInt64 := 0xff000000
  (v <<< 56) ||| ((v &&& b₁) <<< 40) ||| ((v &&& b₂) <<< 24) ||| ((v &&& b₃) <<< 8) |||
    ((v >>> 8) &&& b₃) ||| ((v >>> 24) &&& b₂) ||| ((v >>> 40) &&& b₁) ||| (v >>> 56)

/-- The 6-byte big-endian timestamp, nanoseconds since midnight. -/
def readTs (ts : Vector UInt8 6) : UInt64 :=
  ts.foldl (fun v b => (v <<< 8) ||| b.toUInt64) 0

/-! ## Message structs -/

/-- 'S' — System Event. -/
structure SystemEventMsg where
  msgType : UInt8
  stockLocate : UInt16
  trackingNumber : UInt16
  timestamp : Vector UInt8 6
  eventCode : UInt8
  deriving DecidableEq

/-- 'A' — Add Order (no MPID). -/
structure AddOrderMsg where
  msgType : UInt8
  stockLocate : UInt16
  trackingNumber : UInt16
  timestamp : Vector UInt8 6
  orderRefNum : UInt64
  buySell : UInt8
  shares : UInt32
  stock : Vector UInt8 8
  price : UInt32
  deriving DecidableEq

/-- 'F' — Add Order with MPID. -/
structure AddOrderMPIDMsg where
  msgType : UInt8
  stockLocate : UInt16
  trackingNumber : UInt16
  timestamp : Vector UInt8 6
  orderRefNum : UInt64
  buySell : UInt8
  shares : UInt32
  stock : Vector UInt8 8
  price : UInt32
  attribution : Vector UInt8 4
  deriving DecidableEq

/-- 'E' — Order Executed. -/
structure ExecuteOrderMsg where
  msgType : UInt8
  stockLocate : UInt16
  trackingNumber : UInt16
  timestamp : Vector UInt8 6
  orderRefNum : UInt64
  executedShares : UInt32
  matchNumber : UInt64
  deriving DecidableEq

/-- 'C' — Order Executed With Price. -/
structure ExecuteOrderWithPriceMsg where
  msgType : UInt8
  stockLocate : UInt16
  trackingNumber : UInt16
  timestamp : Vector UInt8 6
  orderRefNum : UInt64
  executedShares : UInt32
  matchNumber : UInt64
  printable : UInt8
  executionPrice : UInt32
  deriving DecidableEq

/-- 'X' — Order Cancel (partial). -/
structure CancelOrderMsg where
  msgType : UInt8
  stockLocate : UInt16
  trackingNumber : UInt16
  timestamp : Vector UInt8 6
  orderRefNum : UInt64
  cancelledShares : UInt32
  deriving DecidableEq

/-- 'D' — Order Delete (full cancel). -/
structure DeleteOrderMsg where
  msgType : UInt8
  stockLocate : UInt16
  trackingNumber : UInt16
  timestamp : Vector UInt8 6
  orderRefNum : UInt64
  deriving DecidableEq

/-- 'U' — Order Replace (delete and new order in one message). -/
structure ReplaceOrderMsg where
  msgType : UInt8
  stockLocate : UInt16
  trackingNumber : UInt16
  timestamp : Vector UInt8 6
  originalOrderRefNum : UInt64
  newOrderRefNum : UInt64
  shares : UInt32
  price : UInt32
  deriving DecidableEq

/-- 'P' — Trade Message (informational only). -/
structure TradeMsg where
  msgType : UInt8
  stockLocate : UInt16
  trackingNumber : UInt16
  timestamp : Vector UInt8 6
  orderRefNum : UInt64
  buySell : UInt8
  shares : UInt32
  stock : Vector UInt8 8
  price : UInt32
  matchNumber : UInt64
  deriving DecidableEq

/-- `std::variant` of all message types; `monostate` is an unknown or ignored message. -/
inductive ParsedMessage
  | monostate
  | systemEvent (m : SystemEventMsg)
  | addOrder (m : AddOrderMsg)
  | addOrderMPID (m : AddOrderMPIDMsg)
  | executeOrder (m : ExecuteOrderMsg)
  | executeOrderWithPrice (m : ExecuteOrderWithPriceMsg)
  | cancelOrder (m : CancelOrderMsg)
  | deleteOrder (m : DeleteOrderMsg)
  | replaceOrder (m : ReplaceOrderMsg)
  | trade (m : TradeMsg)
  deriving DecidableEq

end L2Book
