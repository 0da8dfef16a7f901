import Mathlib.Data.List.AList
import L2Book.Itch.Messages
import L2Book.Lib.DList

/-!
# The order book

The order book of `order.hpp`, `price_level.hpp` and `order_book.cpp`. Order pointers are slots of
the pool (`Fin n`, `nullptr` is `none`), so the heap is the function `OrderPool.slots`. Every
function that can abort or run into undefined behaviour returns in `Except Fault`; assertions abort
in a debug build only (`Build.check`).

* `Order`, `OrderPool`: the slab and its free list (`alloc`, `free`);
* `PriceLevel`: `addOrder`, `removeOrder`, `reduceShares` on the intrusive list;
* `BookSide`, `OrderBook`: the level array, reference price and best index of each side;
* `insertAt`, `insertOrder`, `removeOrder`, `reduceShares`, `advanceBest`, `recentre`: the internal
  helpers. The bid and ask versions of the source differ in names only and are instances of one
  definition, indexed by `Side`;
* `onSystemEvent`, `onAdd`, `onExecute`, `onCancel`, `onDelete`, `onReplace`, `dispatch`;
* `bestBidOffer`, `bidLevel`, `askLevel`, `orderCount`, `hasOrder`.

The loop over `order_map_` in a re-centre runs in the order an `IterOrder` gives; the hash table may
use a different one at every message.
-/

namespace L2Book

/-- Ways in which a call does not return. -/
inductive Fault
  | assertion
  | outOfBounds
  | nullDeref
  | signedOverflow
  deriving DecidableEq, Repr

/-- `NDEBUG` is defined in a release build. -/
inductive Build
  | debug
  | release
  deriving DecidableEq, Repr

/-- `assert(c)`. -/
def Build.check (b : Build) (c : Prop) [Decidable c] : Except Fault Unit :=
  if b = .debug ∧ ¬ c then .error .assertion else .ok ()

/-! ## Orders and the pool -/

/-- A single resting order. -/
structure Order (n : ℕ) where
  orderRef : UInt64 := 0
  shares : UInt32 := 0
  price : UInt32 := 0
  side : UInt8 := 0
  levelIdx : ℤ := -1
  next : Option (Fin n) := none
  prev : Option (Fin n) := none

/-- Write through an order pointer. -/
def modify {n : ℕ} (h : Fin n → Order n) (o : Fin n) (f : Order n → Order n) : Fin n → Order n :=
  Function.update h o (f (h o))

/-- The slab of orders and the head of the free list threaded through `Order.next`. -/
structure OrderPool (n : ℕ) where
  slots : Fin n → Order n
  freeHead : Option (Fin n)

namespace OrderPool

variable {n : ℕ}

variable (n) in
/-- `OrderPool(capacity)`: slot `i` points to slot `i + 1`, the last one to `nullptr`. -/
def init : OrderPool n where
  slots i := { next := if h : i.val + 1 < n then some ⟨i.val + 1, h⟩ else none }
  freeHead := if h : 0 < n then some ⟨0, h⟩ else none

/-- `alloc()`. -/
def alloc (b : Build) (pool : OrderPool n) : Except Fault (OrderPool n × Fin n) := do
  b.check (pool.freeHead.isSome = true)
  match pool.freeHead with
  | none => .error .nullDeref
  | some o => .ok ({ slots := modify pool.slots o fun x => { x with next := none, prev := none },
                     freeHead := (pool.slots o).next }, o)

/-- `free(o)`. -/
def free (pool : OrderPool n) (o : Fin n) : OrderPool n where
  slots := modify pool.slots o fun _ => { next := pool.freeHead }
  freeHead := some o

end OrderPool

/-! ## Price levels -/

/-- One price level: an intrusive FIFO list with its length and total quantity. -/
structure PriceLevel (n : ℕ) where
  totalQty : UInt64 := 0
  orderCount : UInt32 := 0
  head : Option (Fin n) := none
  tail : Option (Fin n) := none

namespace PriceLevel

variable {n : ℕ}

/-- `empty()`. -/
def empty (lvl : PriceLevel n) : Bool := lvl.orderCount == 0

/-- `add_order(o)`: append to the back of the FIFO. -/
def addOrder (lvl : PriceLevel n) (h : Fin n → Order n) (o : Fin n) :
    PriceLevel n × (Fin n → Order n) :=
  let h := modify h o fun x => { x with prev := lvl.tail, next := none }
  let (lvl, h) := match lvl.tail with
    | some t => (lvl, modify h t fun x => { x with next := some o })
    | none => ({ lvl with head := some o }, h)
  ({ lvl with tail := some o, totalQty := lvl.totalQty + (h o).shares.toUInt64,
              orderCount := lvl.orderCount + 1 }, h)

/-- `remove_order(o)`: unlink from any position. -/
def removeOrder (b : Build) (lvl : PriceLevel n) (h : Fin n → Order n) (o : Fin n) :
    Except Fault (PriceLevel n × (Fin n → Order n)) := do
  b.check (lvl.orderCount > 0)
  b.check (lvl.totalQty ≥ (h o).shares.toUInt64)
  let (lvl, h) := match (h o).prev with
    | some p => (lvl, modify h p fun x => { x with next := (h o).next })
    | none => ({ lvl with head := (h o).next }, h)
  let (lvl, h) := match (h o).next with
    | some q => (lvl, modify h q fun x => { x with prev := (h o).prev })
    | none => ({ lvl with tail := (h o).prev }, h)
  .ok ({ lvl with totalQty := lvl.totalQty - (h o).shares.toUInt64,
                  orderCount := lvl.orderCount - 1 },
    modify h o fun x => { x with next := none, prev := none })

/-- `reduce_shares(o, by)`: the order stays in the list even at zero shares. -/
def reduceShares (b : Build) (lvl : PriceLevel n) (h : Fin n → Order n) (o : Fin n)
    (qty : UInt32) : Except Fault (PriceLevel n × (Fin n → Order n)) := do
  b.check (qty ≤ (h o).shares ∧ qty.toUInt64 ≤ lvl.totalQty)
  .ok ({ lvl with totalQty := lvl.totalQty - qty.toUInt64 },
    modify h o fun x => { x with shares := x.shares - qty })

end PriceLevel

/-! ## The book -/

/-- Price ticks tracked per side. -/
def kLevels : ℕ := 8192

/-- The two sides; the array names of the source are `bid_…` and `ask_…`. -/
inductive Side
  | bid
  | ask
  deriving DecidableEq, Repr

/-- The byte a re-centre of the side filters on. -/
def Side.byte : Side → UInt8
  | .bid => 'B'.toUInt8
  | .ask => 'S'.toUInt8

/-- The side an order is inserted on: every byte other than 'B' is an ask. -/
def sideOf (c : UInt8) : Side := if c = 'B'.toUInt8 then .bid else .ask

/-- Best bid and offer. -/
structure BBO where
  bidPrice : UInt32 := 0
  bidQty : UInt32 := 0
  askPrice : UInt32 := 0
  askQty : UInt32 := 0
  deriving DecidableEq, Repr

/-- `levels`, `ref` and `bestIdx` of the bid side are `bid_levels_`, `bid_ref_` and
`best_bid_idx_`; likewise for the asks. -/
structure BookSide (n : ℕ) where
  levels : Fin kLevels → PriceLevel n := fun _ => {}
  ref : UInt32 := 0
  bestIdx : ℤ := -1

/-- `order_map_`: from order references to slots. -/
abbrev OrderMap (n : ℕ) := AList fun _ : UInt64 => Fin n

/-- One iteration order of the hash table: every entry of the map is met exactly once. -/
structure IterOrder (n : ℕ) where
  order : OrderMap n → List (Σ _ : UInt64, Fin n)
  perm : ∀ m, (order m).Perm m.entries

/-- The order book with a pool of `n` slots. -/
structure OrderBook (n : ℕ) where
  sides : Side → BookSide n
  orderMap : OrderMap n
  pool : OrderPool n
  isOpen : Bool

/-! ## Index arithmetic -/

/-- `static_cast<int>` of a 32-bit unsigned value. -/
def castInt (v : UInt32) : ℤ := v.toInt32.toInt

/-- Subtraction of two `int`s. -/
def subInt (a b : ℤ) : Except Fault ℤ :=
  if -2 ^ 31 ≤ a - b ∧ a - b < 2 ^ 31 then .ok (a - b) else .error .signedOverflow

/-- `bid_idx(price)` at `bid_ref_ = ref`. -/
def bidIdx (ref price : UInt32) : Except Fault ℤ := subInt (castInt ref) (castInt price)

/-- `ask_idx(price)` at `ask_ref_ = ref`. -/
def askIdx (ref price : UInt32) : Except Fault ℤ := subInt (castInt price) (castInt ref)

def priceIdx : Side → UInt32 → UInt32 → Except Fault ℤ
  | .bid => bidIdx
  | .ask => askIdx

/-- `price_from_bid_idx(i)` at `bid_ref_ = ref`. -/
def priceFromBidIdx (ref : UInt32) (i : ℤ) : UInt32 := ref - UInt32.ofInt i

/-- `price_from_ask_idx(i)` at `ask_ref_ = ref`. -/
def priceFromAskIdx (ref : UInt32) (i : ℤ) : UInt32 := ref + UInt32.ofInt i

def priceFromIdx : Side → UInt32 → ℤ → UInt32
  | .bid => priceFromBidIdx
  | .ask => priceFromAskIdx

/-- The index lies in the level array. -/
def InArray (idx : ℤ) : Prop := 0 ≤ idx ∧ idx < kLevels

instance (idx : ℤ) : Decidable (InArray idx) := by unfold InArray; infer_instance

/-- Indexing the level array. -/
def levelAt (idx : ℤ) : Except Fault (Fin kLevels) :=
  if h : InArray idx then .ok ⟨idx.toNat, by have := h.1; have := h.2; omega⟩
  else .error .outOfBounds

/-- The scan of `advance_best_bid` and `advance_best_ask`: the first non-empty level from `i` on. -/
def firstNonEmpty {n : ℕ} (levels : Fin kLevels → PriceLevel n) (i : ℕ) : ℤ :=
  if h : i < kLevels then
    if (levels ⟨i, h⟩).empty then firstNonEmpty levels (i + 1) else i
  else -1
  termination_by kLevels - i

namespace OrderBook

variable {n : ℕ}

variable (n) in
/-- `OrderBook(pool_size)`. -/
def init : OrderBook n where
  sides _ := {}
  orderMap := ∅
  pool := OrderPool.init n
  isOpen := false

/-- The order behind a pointer. -/
def order (s : OrderBook n) (o : Fin n) : Order n := s.pool.slots o

/-- Write through an order pointer. -/
def modifyOrder (s : OrderBook n) (o : Fin n) (f : Order n → Order n) : OrderBook n :=
  { s with pool := { s.pool with slots := modify s.pool.slots o f } }

/-- Replace the state of one side. -/
def setSide (s : OrderBook n) (d : Side) (b : BookSide n) : OrderBook n :=
  { s with sides := Function.update s.sides d b }

/-- Write back one level of side `d` and the heap after a `PriceLevel` call. -/
def setLevel (s : OrderBook n) (d : Side) (i : Fin kLevels)
    (r : PriceLevel n × (Fin n → Order n)) : OrderBook n :=
  { s with
    sides := Function.update s.sides d
      { s.sides d with levels := Function.update (s.sides d).levels i r.1 }
    pool := { s.pool with slots := r.2 } }

/-! ## Internal helpers -/

/-- `insert_at(o, idx)`. -/
def insertAt (s : OrderBook n) (o : Fin n) (idx : ℤ) : Except Fault (OrderBook n) := do
  let s := s.modifyOrder o fun x => { x with levelIdx := idx }
  let d := sideOf (s.order o).side
  let i ← levelAt idx
  let s := s.setLevel d i (((s.sides d).levels i).addOrder s.pool.slots o)
  if (s.sides d).bestIdx < 0 ∨ idx < (s.sides d).bestIdx then
    .ok (s.setSide d { s.sides d with bestIdx := idx })
  else .ok s

/-- The loop body of `recentre_bids` and `recentre_asks`. -/
def recentreStep (d : Side) (s : OrderBook n) (e : Σ _ : UInt64, Fin n) :
    Except Fault (OrderBook n) := do
  if (s.order e.2).side ≠ d.byte then .ok s else
    let s := s.modifyOrder e.2 fun x => { x with next := none, prev := none, levelIdx := -1 }
    let idx ← priceIdx d (s.sides d).ref (s.order e.2).price
    if InArray idx then s.insertAt e.2 idx else .ok s

/-- Re-centre side `d` on a new reference price. -/
def recentre (it : IterOrder n) (d : Side) (newRef : UInt32) (s : OrderBook n) :
    Except Fault (OrderBook n) :=
  let s := s.setSide d { levels := fun _ => {}, bestIdx := -1, ref := newRef }
  (it.order s.orderMap).foldlM (recentreStep d) s

/-- `recentre_bids(new_ref)`. -/
def recentreBids (it : IterOrder n) : UInt32 → OrderBook n → Except Fault (OrderBook n) :=
  recentre it .bid

/-- `recentre_asks(new_ref)`. -/
def recentreAsks (it : IterOrder n) : UInt32 → OrderBook n → Except Fault (OrderBook n) :=
  recentre it .ask

/-- The branch of `insert_order` for side `d`. -/
def insertOn (b : Build) (d : Side)
    (rec : UInt32 → OrderBook n → Except Fault (OrderBook n)) (s : OrderBook n) (o : Fin n) :
    Except Fault (OrderBook n) := do
  let s := if (s.sides d).ref = 0 then s.setSide d { s.sides d with ref := (s.order o).price }
    else s
  let idx ← priceIdx d (s.sides d).ref (s.order o).price
  if idx < 0 ∨ idx ≥ kLevels then
    let s ← rec (s.order o).price s
    let idx ← priceIdx d (s.sides d).ref (s.order o).price
    b.check (InArray idx)
    s.insertAt o idx
  else
    b.check (InArray idx)
    s.insertAt o idx

/-- `insert_order(o)`. -/
def insertOrder (b : Build) (it : IterOrder n) (s : OrderBook n) (o : Fin n) :
    Except Fault (OrderBook n) :=
  match sideOf (s.order o).side with
  | .bid => insertOn b .bid (recentreBids it) s o
  | .ask => insertOn b .ask (recentreAsks it) s o

/-- `advance_best_bid()` and `advance_best_ask()`. The best index is at least `-1`. -/
def advanceBest (d : Side) (s : OrderBook n) : OrderBook n :=
  s.setSide d { s.sides d with
    bestIdx := firstNonEmpty (s.sides d).levels ((s.sides d).bestIdx + 1).toNat }

/-- `remove_order(o)`. -/
def removeOrder (b : Build) (s : OrderBook n) (o : Fin n) : Except Fault (OrderBook n) := do
  b.check ((s.order o).levelIdx ≥ 0)
  let idx := (s.order o).levelIdx
  let d := sideOf (s.order o).side
  let i ← levelAt idx
  let r ← ((s.sides d).levels i).removeOrder b s.pool.slots o
  let s := s.setLevel d i r
  let s := if idx = (s.sides d).bestIdx ∧ ((s.sides d).levels i).empty then advanceBest d s else s
  .ok (s.modifyOrder o fun x => { x with levelIdx := -1 })

/-- `reduce_shares(o, qty)`. -/
def reduceShares (b : Build) (s : OrderBook n) (o : Fin n) (qty : UInt32) :
    Except Fault (OrderBook n) := do
  b.check ((s.order o).levelIdx ≥ 0)
  let d := sideOf (s.order o).side
  let i ← levelAt (s.order o).levelIdx
  let r ← ((s.sides d).levels i).reduceShares b s.pool.slots o qty
  .ok (s.setLevel d i r)

/-- `order_map_.erase(it); pool_.free(o);` -/
def eraseFree (s : OrderBook n) (ref : UInt64) (o : Fin n) : OrderBook n :=
  { s with orderMap := s.orderMap.erase ref, pool := s.pool.free o }

/-- `make_order`, `insert_order` and `order_map_[ref] = o`: how `on_add` and `on_replace` end. -/
def addNew (b : Build) (it : IterOrder n) (s : OrderBook n) (ref : UInt64) (shares price : UInt32)
    (side : UInt8) : Except Fault (OrderBook n) := do
  let (pool, o) ← s.pool.alloc b
  let s := { s with pool := pool }
  let s := s.modifyOrder o fun x =>
    { x with orderRef := ref, shares := shares, price := price, side := side }
  let s ← s.insertOrder b it o
  .ok { s with orderMap := s.orderMap.insert ref o }

/-- The body shared by both `on_execute` overloads and `on_cancel`. -/
def reduceBy (b : Build) (s : OrderBook n) (ref : UInt64) (qty : UInt32) :
    Except Fault (OrderBook n) :=
  match s.orderMap.lookup ref with
  | none => .ok s
  | some o => do
    let s ← s.reduceShares b o qty
    if (s.order o).shares = 0 then
      let s ← s.removeOrder b o
      .ok (s.eraseFree ref o)
    else .ok s

/-- `on_delete` behind the decoding of its message. -/
def deleteRef (b : Build) (s : OrderBook n) (ref : UInt64) : Except Fault (OrderBook n) :=
  match s.orderMap.lookup ref with
  | none => .ok s
  | some o => do
    let s ← s.removeOrder b o
    .ok (s.eraseFree ref o)

/-- `on_replace` behind the decoding of its message: neither the session state nor the new reference
is checked. -/
def replaceRef (b : Build) (it : IterOrder n) (s : OrderBook n) (oldRef newRef : UInt64)
    (shares price : UInt32) : Except Fault (OrderBook n) :=
  match s.orderMap.lookup oldRef with
  | none => .ok s
  | some oldO => do
    let side := (s.order oldO).side
    let s ← s.removeOrder b oldO
    (s.eraseFree oldRef oldO).addNew b it newRef shares price side

/-- The body shared by both `on_add` overloads. -/
def addRef (b : Build) (it : IterOrder n) (s : OrderBook n) (ref : UInt64) (side : UInt8)
    (shares price : UInt32) : Except Fault (OrderBook n) :=
  if !s.isOpen then .ok s else s.addNew b it ref shares price side

/-- The branch 'H' of `on_system_event`: the reference prices are kept. -/
def halt (it : IterOrder n) (s : OrderBook n) : OrderBook n :=
  let s := { s with isOpen := false }
  let s := (it.order s.orderMap).foldl
    (fun s e => s.modifyOrder e.2 fun x => { x with next := none, prev := none, levelIdx := -1 }) s
  { s with
    sides := fun d => { s.sides d with levels := fun _ => {}, bestIdx := -1 }
    orderMap := ∅
    pool := OrderPool.init n }

/-! ## Message handlers -/

/-- `on_system_event(msg)`. -/
def onSystemEvent (it : IterOrder n) (s : OrderBook n) (msg : SystemEventMsg) : OrderBook n :=
  if msg.eventCode = 'O'.toUInt8 then { s with isOpen := true }
  else if msg.eventCode = 'C'.toUInt8 then { s with isOpen := false }
  else if msg.eventCode = 'H'.toUInt8 then s.halt it
  else s

/-- `on_add(AddOrderMsg)`. -/
def onAdd (b : Build) (it : IterOrder n) (s : OrderBook n) (msg : AddOrderMsg) :
    Except Fault (OrderBook n) :=
  s.addRef b it (be64 msg.orderRefNum) msg.buySell (be32 msg.shares) (be32 msg.price)

/-- `on_add(AddOrderMPIDMsg)`. -/
def onAddMPID (b : Build) (it : IterOrder n) (s : OrderBook n) (msg : AddOrderMPIDMsg) :
    Except Fault (OrderBook n) :=
  s.addRef b it (be64 msg.orderRefNum) msg.buySell (be32 msg.shares) (be32 msg.price)

/-- `on_execute(ExecuteOrderMsg)`. -/
def onExecute (b : Build) (s : OrderBook n) (msg : ExecuteOrderMsg) : Except Fault (OrderBook n) :=
  s.reduceBy b (be64 msg.orderRefNum) (be32 msg.executedShares)

/-- `on_execute(ExecuteOrderWithPriceMsg)`. -/
def onExecuteWithPrice (b : Build) (s : OrderBook n) (msg : ExecuteOrderWithPriceMsg) :
    Except Fault (OrderBook n) :=
  s.reduceBy b (be64 msg.orderRefNum) (be32 msg.executedShares)

/-- `on_cancel(CancelOrderMsg)`. -/
def onCancel (b : Build) (s : OrderBook n) (msg : CancelOrderMsg) : Except Fault (OrderBook n) :=
  s.reduceBy b (be64 msg.orderRefNum) (be32 msg.cancelledShares)

/-- `on_delete(DeleteOrderMsg)`. -/
def onDelete (b : Build) (s : OrderBook n) (msg : DeleteOrderMsg) : Except Fault (OrderBook n) :=
  s.deleteRef b (be64 msg.orderRefNum)

/-- `on_replace(ReplaceOrderMsg)`. -/
def onReplace (b : Build) (it : IterOrder n) (s : OrderBook n) (msg : ReplaceOrderMsg) :
    Except Fault (OrderBook n) :=
  s.replaceRef b it (be64 msg.originalOrderRefNum) (be64 msg.newOrderRefNum) (be32 msg.shares)
    (be32 msg.price)

/-- `dispatch(book, msg)`. -/
def dispatch (b : Build) (it : IterOrder n) (s : OrderBook n) :
    ParsedMessage → Except Fault (OrderBook n)
  | .systemEvent m => .ok (s.onSystemEvent it m)
  | .addOrder m => s.onAdd b it m
  | .addOrderMPID m => s.onAddMPID b it m
  | .executeOrder m => s.onExecute b m
  | .executeOrderWithPrice m => s.onExecuteWithPrice b m
  | .cancelOrder m => s.onCancel b m
  | .deleteOrder m => s.onDelete b m
  | .replaceOrder m => s.onReplace b it m
  | .trade _ => .ok s
  | .monostate => .ok s

/-! ## Queries -/

/-- One side of `best_bid_offer()`: price and quantity, both `0` without orders. -/
def quote (s : OrderBook n) (d : Side) : Except Fault (UInt32 × UInt32) :=
  let side := s.sides d
  if side.bestIdx ≥ 0 then do
    let i ← levelAt side.bestIdx
    .ok (priceFromIdx d side.ref side.bestIdx, (side.levels i).totalQty.toUInt32)
  else .ok (0, 0)

/-- `best_bid_offer()`. -/
def bestBidOffer (s : OrderBook n) : Except Fault BBO := do
  let bid ← s.quote .bid
  let ask ← s.quote .ask
  .ok { bidPrice := bid.1, bidQty := bid.2, askPrice := ask.1, askQty := ask.2 }

/-- `order_count()`. -/
def orderCount (s : OrderBook n) : ℕ := s.orderMap.keys.length

/-- `has_order(ref)`. -/
def hasOrder (s : OrderBook n) (ref : UInt64) : Bool := (s.orderMap.lookup ref).isSome

def levelPtr (s : OrderBook n) (d : Side) (idx : ℤ) : Option (PriceLevel n) :=
  match levelAt idx with
  | .ok i => some ((s.sides d).levels i)
  | .error _ => none

/-- `bid_level(idx)`. -/
def bidLevel (s : OrderBook n) : ℤ → Option (PriceLevel n) := s.levelPtr .bid

/-- `ask_level(idx)`. -/
def askLevel (s : OrderBook n) : ℤ → Option (PriceLevel n) := s.levelPtr .ask

end OrderBook

end L2Book
