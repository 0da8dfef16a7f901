import Mathlib.Data.List.Basic
import L2Book.Itch.Messages

/-!
# The message parser

`parse_message` of `parser.cpp`. A pointer into a buffer is the list of the bytes from there to the end
of the buffer. Callers keep `len` within it and a message is copied only if its packed size is at most
`len`, so all bytes read lie below `len`.

* `loadLE`: what a little-endian host loads; `load8`, `load16`, `load32`, `load64`, `loadBytes`;
* `SystemEventMsg.copyMsg` … `TradeMsg.copyMsg`: `copy_msg<T>`, field by field at its packed offset, and the
  packed sizes `sizeof(T)`;
* `parseMessage`.
-/

namespace L2Book

/-! ## Loads -/

/-- The value of `w` bytes from offset `i`, the first one lowest. -/
def loadLE (data : List UInt8) : ℕ → ℕ → UInt64
  | _, 0 => 0
  | i, w + 1 => (data.getD i 0).toUInt64 ||| (loadLE data (i + 1) w <<< 8)

def load8 (data : List UInt8) (i : ℕ) : UInt8 := data.getD i 0

def load16 (data : List UInt8) (i : ℕ) : UInt16 := (loadLE data i 2).toUInt16

def load32 (data : List UInt8) (i : ℕ) : UInt32 := (loadLE data i 4).toUInt32

def load64 (data : List UInt8) (i : ℕ) : UInt64 := loadLE data i 8

def loadBytes (w : ℕ) (data : List UInt8) (i : ℕ) : Vector UInt8 w := .ofFn fun j => load8 data (i + j)

/-! ## Packed structs -/

def SystemEventMsg.sizeof : ℕ := 12

def SystemEventMsg.copyMsg (data : List UInt8) : SystemEventMsg where
  msgType := load8 data 0
  stockLocate := load16 data 1
  trackingNumber := load16 data 3
  timestamp := loadBytes 6 data 5
  eventCode := load8 data 11

def AddOrderMsg.sizeof : ℕ := 36

def AddOrderMsg.copyMsg (data : List UInt8) : AddOrderMsg where
  msgType := load8 data 0
  stockLocate := load16 data 1
  trackingNumber := load16 data 3
  timestamp := loadBytes 6 data 5
  orderRefNum := load64 data 11
  buySell := load8 data 19
  shares := load32 data 20
  stock := loadBytes 8 data 24
  price := load32 data 32

def AddOrderMPIDMsg.sizeof : ℕ := 40

def AddOrderMPIDMsg.copyMsg (data : List UInt8) : AddOrderMPIDMsg where
  msgType := load8 data 0
  stockLocate := load16 data 1
  trackingNumber := load16 data 3
  timestamp := loadBytes 6 data 5
  orderRefNum := load64 data 11
  buySell := load8 data 19
  shares := load32 data 20
  stock := loadBytes 8 data 24
  price := load32 data 32
  attribution := loadBytes 4 data 36

def ExecuteOrderMsg.sizeof : ℕ := 31

def ExecuteOrderMsg.copyMsg (data : List UInt8) : ExecuteOrderMsg where
  msgType := load8 data 0
  stockLocate := load16 data 1
  trackingNumber := load16 data 3
  timestamp := loadBytes 6 data 5
  orderRefNum := load64 data 11
  executedShares := load32 data 19
  matchNumber := load64 data 23

def ExecuteOrderWithPriceMsg.sizeof : ℕ := 36

def ExecuteOrderWithPriceMsg.copyMsg (data : List UInt8) : ExecuteOrderWithPriceMsg where
  msgType := load8 data 0
  stockLocate := load16 data 1
  trackingNumber := load16 data 3
  timestamp := loadBytes 6 data 5
  orderRefNum := load64 data 11
  executedShares := load32 data 19
  matchNumber := load64 data 23
  printable := load8 data 31
  executionPrice := load32 data 32

def CancelOrderMsg.sizeof : ℕ := 23

def CancelOrderMsg.copyMsg (data : List UInt8) : CancelOrderMsg where
  msgType := load8 data 0
  stockLocate := load16 data 1
  trackingNumber := load16 data 3
  timestamp := loadBytes 6 data 5
  orderRefNum := load64 data 11
  cancelledShares := load32 data 19

def DeleteOrderMsg.sizeof : ℕ := 19

def DeleteOrderMsg.copyMsg (data : List UInt8) : DeleteOrderMsg where
  msgType := load8 data 0
  stockLocate := load16 data 1
  trackingNumber := load16 data 3
  timestamp := loadBytes 6 data 5
  orderRefNum := load64 data 11

def ReplaceOrderMsg.sizeof : ℕ := 35

def ReplaceOrderMsg.copyMsg (data : List UInt8) : ReplaceOrderMsg where
  msgType := load8 data 0
  stockLocate := load16 data 1
  trackingNumber := load16 data 3
  timestamp := loadBytes 6 data 5
  originalOrderRefNum := load64 data 11
  newOrderRefNum := load64 data 19
  shares := load32 data 27
  price := load32 data 31

def TradeMsg.sizeof : ℕ := 44

def TradeMsg.copyMsg (data : List UInt8) : TradeMsg where
  msgType := load8 data 0
  stockLocate := load16 data 1
  trackingNumber := load16 data 3
  timestamp := loadBytes 6 data 5
  orderRefNum := load64 data 11
  buySell := load8 data 19
  shares := load32 data 20
  stock := loadBytes 8 data 24
  price := load32 data 32
  matchNumber := load64 data 36

/-! ## The parser -/

/-- One case of the `switch`: copy the message if all of it is there. -/
def parseCase {T : Type} (size : ℕ) (wrap : T → ParsedMessage) (copy : List UInt8 → T)
    (data : List UInt8) (len : UInt16) : ParsedMessage :=
  if size ≤ len.toNat then wrap (copy data) else .monostate

/-- `parse_message(data, len)`. -/
def parseMessage (data : Option (List UInt8)) (len : UInt16) : ParsedMessage :=
  match data with
  | none => .monostate
  | some d =>
    if len = 0 then .monostate
    else
      match Char.ofUInt8 (load8 d 0) with
      | 'S' => parseCase SystemEventMsg.sizeof .systemEvent SystemEventMsg.copyMsg d len
      | 'A' => parseCase AddOrderMsg.sizeof .addOrder AddOrderMsg.copyMsg d len
      | 'F' => parseCase AddOrderMPIDMsg.sizeof .addOrderMPID AddOrderMPIDMsg.copyMsg d len
      | 'E' => parseCase ExecuteOrderMsg.sizeof .executeOrder ExecuteOrderMsg.copyMsg d len
      | 'C' =>
        parseCase ExecuteOrderWithPriceMsg.sizeof .executeOrderWithPrice
          ExecuteOrderWithPriceMsg.copyMsg d len
      | 'X' => parseCase CancelOrderMsg.sizeof .cancelOrder CancelOrderMsg.copyMsg d len
      | 'D' => parseCase DeleteOrderMsg.sizeof .deleteOrder DeleteOrderMsg.copyMsg d len
      | 'U' => parseCase ReplaceOrderMsg.sizeof .replaceOrder ReplaceOrderMsg.copyMsg d len
      | 'P' => parseCase TradeMsg.sizeof .trade TradeMsg.copyMsg d len
      | _ => .monostate

end L2Book
