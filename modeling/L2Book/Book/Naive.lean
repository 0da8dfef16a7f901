import L2Book.Book.Insert
import L2Book.Lib.Run

/-!
# The naive book

What an order book is for: a finite map from order references to side, price and shares, and whether
the session is open. Messages act on it through their decoded content.

* `Event`, `ParsedMessage.event`: the decoded content; **`dispatch_eq_apply`**: the handlers depend on
  nothing else;
* `NaiveBook`, `NaiveBook.step`: the naive book and its transitions;
* `NaiveBook.inserts`: the order that an event inserts, if any;
* `WfEvent`: well-formed events. Events that the book ignores are not constrained;
* `RefBook`: the naive book and the reference prices, `RefBook.Reaches`;
* `WellFormed`, `OrderBook.replay`, `NaiveBook.replay`, `RefBook.replay`: whole feeds.
-/

namespace L2Book

/-- What a message says, decoded. -/
inductive Event
  | system (code : UInt8)
  | add (ref : UInt64) (side : UInt8) (shares price : UInt32)
  | reduce (ref : UInt64) (qty : UInt32)
  | delete (ref : UInt64)
  | replace (oldRef newRef : UInt64) (shares price : UInt32)
  | ignore
  deriving DecidableEq

/-- The event of a message. -/
def ParsedMessage.event : ParsedMessage → Event
  | .systemEvent m => .system m.eventCode
  | .addOrder m => .add (be64 m.orderRefNum) m.buySell (be32 m.shares) (be32 m.price)
  | .addOrderMPID m => .add (be64 m.orderRefNum) m.buySell (be32 m.shares) (be32 m.price)
  | .executeOrder m => .reduce (be64 m.orderRefNum) (be32 m.executedShares)
  | .executeOrderWithPrice m => .reduce (be64 m.orderRefNum) (be32 m.executedShares)
  | .cancelOrder m => .reduce (be64 m.orderRefNum) (be32 m.cancelledShares)
  | .deleteOrder m => .delete (be64 m.orderRefNum)
  | .replaceOrder m =>
    .replace (be64 m.originalOrderRefNum) (be64 m.newOrderRefNum) (be32 m.shares) (be32 m.price)
  | .trade _ => .ignore
  | .monostate => .ignore

/-- The live order an event refers to. -/
def Event.target : Event → Option UInt64
  | .reduce ref _ => some ref
  | .delete ref => some ref
  | .replace oldRef _ _ _ => some oldRef
  | _ => none

/-- The handlers on decoded content. -/
def OrderBook.apply {n : ℕ} (b : Build) (it : IterOrder n) (s : OrderBook n) :
    Event → Except Fault (OrderBook n)
  | .system code =>
    .ok (if code = 'O'.toUInt8 then { s with isOpen := true }
      else if code = 'C'.toUInt8 then { s with isOpen := false }
      else if code = 'H'.toUInt8 then s.halt it
      else s)
  | .add ref side shares price => s.addRef b it ref side shares price
  | .reduce ref qty => s.reduceBy b ref qty
  | .delete ref => s.deleteRef b ref
  | .replace oldRef newRef shares price => s.replaceRef b it oldRef newRef shares price
  | .ignore => .ok s

theorem OrderBook.dispatch_eq_apply {n : ℕ} (b : Build) (it : IterOrder n) (s : OrderBook n)
    (m : ParsedMessage) : s.dispatch b it m = s.apply b it m.event := by
  cases m <;> rfl

/-! ## The naive model -/

/-- A live order. -/
structure NaiveOrder where
  side : UInt8
  price : UInt32
  shares : UInt32
  deriving DecidableEq

/-- **The naive book.** -/
structure NaiveBook where
  orders : AList fun _ : UInt64 => NaiveOrder
  isOpen : Bool

namespace NaiveBook

/-- The book before the first message. -/
def init : NaiveBook := ⟨∅, false⟩

/-- One event. -/
def step (a : NaiveBook) : Event → NaiveBook
  | .system code =>
    if code = 'O'.toUInt8 then { a with isOpen := true }
    else if code = 'C'.toUInt8 then { a with isOpen := false }
    else if code = 'H'.toUInt8 then ⟨∅, false⟩
    else a
  | .add ref side shares price =>
    if a.isOpen then { a with orders := a.orders.insert ref ⟨side, price, shares⟩ } else a
  | .reduce ref qty =>
    match a.orders.lookup ref with
    | none => a
    | some o =>
      if o.shares - qty = 0 then { a with orders := a.orders.erase ref }
      else { a with orders := a.orders.insert ref { o with shares := o.shares - qty } }
  | .delete ref => { a with orders := a.orders.erase ref }
  | .replace oldRef newRef shares price =>
    match a.orders.lookup oldRef with
    | none => a
    | some o => { a with orders := (a.orders.erase oldRef).insert newRef ⟨o.side, price, shares⟩ }
  | .ignore => a

/-- The reference, side and price of the order that an event inserts. -/
def inserts (a : NaiveBook) : Event → Option (UInt64 × Side × UInt32)
  | .add ref side _ price => if a.isOpen then some (ref, sideOf side, price) else none
  | .replace oldRef newRef _ price =>
    (a.orders.lookup oldRef).map fun o => (newRef, sideOf o.side, price)
  | _ => none

/-- The number of live orders. -/
def size (a : NaiveBook) : ℕ := a.orders.keys.length

end NaiveBook

/-- The price range of a well-formed feed. -/
def PriceOk (price : UInt32) : Prop := 1 ≤ price.toNat ∧ price.toNat < 2 ^ 31

/-- **Well-formed events** for a pool of `n` slots: new references are not live, sides are 'B' or
'S', prices lie in `[1, 2 ^ 31)`, executions and cancels take at most what is there, and the live
orders fit into the pool. -/
def WfEvent (n : ℕ) (a : NaiveBook) : Event → Prop
  | .add ref side _ price => a.isOpen = true →
    a.orders.lookup ref = none ∧ (side = 'B'.toUInt8 ∨ side = 'S'.toUInt8) ∧ PriceOk price ∧
      a.size < n
  | .reduce ref qty => ∀ o, a.orders.lookup ref = some o → qty ≤ o.shares
  | .replace oldRef newRef _ price => (a.orders.lookup oldRef).isSome = true →
    (a.orders.erase oldRef).lookup newRef = none ∧ PriceOk price
  | _ => True

/-- An order that is live after an event was inserted by it or was live before with the same side and
price. -/
theorem NaiveBook.lookup_step {a : NaiveBook} {e : Event} {ref : UInt64} {o : NaiveOrder}
    (h : (a.step e).orders.lookup ref = some o) :
    a.inserts e = some (ref, sideOf o.side, o.price) ∨
      ∃ o', a.orders.lookup ref = some o' ∧ o'.side = o.side ∧ o'.price = o.price ∧
        (a.inserts e ≠ none → e.target ≠ some ref) := by
  cases e with
  | system code =>
    simp only [step] at h
    split_ifs at h
    · exact .inr ⟨o, h, rfl, rfl, fun hn => absurd rfl hn⟩
    · exact .inr ⟨o, h, rfl, rfl, fun hn => absurd rfl hn⟩
    · cases h
    · exact .inr ⟨o, h, rfl, rfl, fun hn => absurd rfl hn⟩
  | add r side shares price =>
    simp only [step] at h
    split_ifs at h with hopen
    · by_cases e : ref = r
      · subst e
        rw [AList.lookup_insert] at h
        cases h
        exact .inl (if_pos hopen)
      · rw [AList.lookup_insert_ne e] at h
        exact .inr ⟨o, h, rfl, rfl, nofun⟩
    · exact .inr ⟨o, h, rfl, rfl, nofun⟩
  | reduce r qty =>
    simp only [step] at h
    cases hr : a.orders.lookup r with
    | none =>
      rw [hr] at h
      exact .inr ⟨o, h, rfl, rfl, fun hn => absurd rfl hn⟩
    | some o' =>
      simp only [hr] at h
      split_ifs at h
      · by_cases e : ref = r
        · rw [e, AList.lookup_erase] at h
          cases h
        · rw [AList.lookup_erase_ne e] at h
          exact .inr ⟨o, h, rfl, rfl, fun hn => absurd rfl hn⟩
      · by_cases e : ref = r
        · subst e
          rw [AList.lookup_insert] at h
          cases h
          exact .inr ⟨o', hr, rfl, rfl, fun hn => absurd rfl hn⟩
        · rw [AList.lookup_insert_ne e] at h
          exact .inr ⟨o, h, rfl, rfl, fun hn => absurd rfl hn⟩
  | delete r =>
    simp only [step] at h
    by_cases e : ref = r
    · rw [e, AList.lookup_erase] at h
      cases h
    · rw [AList.lookup_erase_ne e] at h
      exact .inr ⟨o, h, rfl, rfl, fun hn => absurd rfl hn⟩
  | replace r r' shares price =>
    simp only [step] at h
    cases hr : a.orders.lookup r with
    | none =>
      rw [hr] at h
      refine .inr ⟨o, h, rfl, rfl, fun _ ht => ?_⟩
      cases ht
      rw [hr] at h
      cases h
    | some o' =>
      simp only [hr] at h
      by_cases e : ref = r'
      · subst e
        rw [AList.lookup_insert] at h
        cases h
        exact .inl (by simp only [inserts, hr, Option.map_some])
      · rw [AList.lookup_insert_ne e] at h
        by_cases e' : ref = r
        · rw [e', AList.lookup_erase] at h
          cases h
        · rw [AList.lookup_erase_ne e'] at h
          exact .inr ⟨o, h, rfl, rfl, fun _ ht => e' (Option.some.inj ht).symm⟩
  | ignore => exact .inr ⟨o, h, rfl, rfl, fun hn => absurd rfl hn⟩

theorem priceOk_of_inserts {n : ℕ} {a : NaiveBook} {e : Event} (hw : WfEvent n a e) {ref : UInt64}
    {d : Side} {price : UInt32} (h : a.inserts e = some (ref, d, price)) : PriceOk price := by
  cases e with
  | add r side shares p =>
    simp only [NaiveBook.inserts] at h
    split_ifs at h with hopen
    cases h
    exact (hw hopen).2.2.1
  | replace r r' shares p =>
    simp only [NaiveBook.inserts, Option.map_eq_some_iff] at h
    obtain ⟨o, ho, heq⟩ := h
    cases heq
    exact (hw (by rw [ho]; rfl)).2
  | system code => cases h
  | reduce r qty => cases h
  | delete r => cases h
  | ignore => cases h

theorem ne_zero_of_priceOk {price : UInt32} (h : PriceOk price) : price ≠ 0 := by
  rintro rfl
  exact absurd h.1 (by decide)

/-! ## Reference prices -/

theorem nextRef_ne_zero {d : Side} {ref price : UInt32} (hp : PriceOk price) :
    nextRef d ref price ≠ 0 := by
  unfold nextRef
  split_ifs with h₁ h₂
  · exact ne_zero_of_priceOk hp
  · exact h₁
  · exact ne_zero_of_priceOk hp

theorem nextRef_of_not_recentres {d : Side} {ref price : UInt32} (hz : ref ≠ 0)
    (h : ¬ Recentres d ref price) : nextRef d ref price = ref := by
  have hi : InArray (tick d ref price) := not_not.mp fun hi => h ⟨hz, hi⟩
  rw [nextRef, if_neg hz, if_pos hi]

/-- The reference price of side `d` after an event. -/
def refAfter (a : NaiveBook) (e : Event) (d : Side) (ref : UInt32) : UInt32 :=
  match a.inserts e with
  | none => ref
  | some (_, d', price) => if d = d' then nextRef d ref price else ref

theorem refAfter_of_quiet {a : NaiveBook} {e : Event} (hins : a.inserts e = none) (d : Side)
    (ref : UInt32) : refAfter a e d ref = ref := by
  unfold refAfter
  rw [hins]

theorem refAfter_of_inserts {a : NaiveBook} {e : Event} {r : UInt64} {d' : Side} {price : UInt32}
    (hins : a.inserts e = some (r, d', price)) (d : Side) (ref : UInt32) :
    refAfter a e d ref = if d = d' then nextRef d ref price else ref := by
  unfold refAfter
  rw [hins]

/-- The naive book together with the reference prices of the sides. The feed alone determines both. -/
structure RefBook where
  book : NaiveBook
  ref : Side → UInt32

namespace RefBook

def init : RefBook := ⟨.init, fun _ => 0⟩

def step (r : RefBook) (e : Event) : RefBook :=
  ⟨r.book.step e, fun d => refAfter r.book e d (r.ref d)⟩

/-- The index of the order's price lies in the array of its side. -/
def Holds (r : RefBook) (o : NaiveOrder) : Prop :=
  InArray (tick (sideOf o.side) (r.ref (sideOf o.side)) o.price)

/-- The live order that the event refers to lies in the array. -/
def Reaches (r : RefBook) (e : Event) : Prop :=
  ∀ ref o, e.target = some ref → r.book.orders.lookup ref = some o → r.Holds o

end RefBook

/-! ## Feeds -/

/-- A message together with the iteration order the hash table uses while it is handled. -/
abbrev Input (n : ℕ) := ParsedMessage × IterOrder n

/-- A book that handles a list of messages. -/
def OrderBook.replay {n : ℕ} (b : Build) : OrderBook n → List (Input n) → Except Fault (OrderBook n) :=
  run fun s x => s.dispatch b x.2 x.1

/-- The naive book after a list of messages. -/
def NaiveBook.replay {n : ℕ} (a : NaiveBook) (feed : List (Input n)) : NaiveBook :=
  feed.foldl (fun a x => a.step x.1.event) a

def RefBook.replay {n : ℕ} (r : RefBook) (feed : List (Input n)) : RefBook :=
  feed.foldl (fun r x => r.step x.1.event) r

/-- `W` holds of every message of the feed. -/
def RefBook.Along {n : ℕ} (W : RefBook → Input n → Prop) : RefBook → List (Input n) → Prop :=
  Guided (fun r x => r.step x.1.event) W

/-- **A well-formed feed** from the naive state `a` on. -/
def WellFormedFrom {n : ℕ} (a : NaiveBook) (feed : List (Input n)) : Prop :=
  Guided (fun a x => a.step x.1.event) (fun a x => WfEvent n a x.1.event) a feed

/-- A well-formed feed for a fresh book. -/
def WellFormed {n : ℕ} (feed : List (Input n)) : Prop := WellFormedFrom NaiveBook.init feed

theorem NaiveBook.replay_snoc {n : ℕ} (a : NaiveBook) (feed : List (Input n)) (x : Input n) :
    a.replay (feed ++ [x]) = (a.replay feed).step x.1.event := by
  unfold NaiveBook.replay
  rw [List.foldl_append, List.foldl_cons, List.foldl_nil]

theorem RefBook.replay_book {n : ℕ} (r : RefBook) (feed : List (Input n)) :
    (r.replay feed).book = r.book.replay feed := by
  induction feed generalizing r with
  | nil => rfl
  | cons x feed ih => exact ih (r.step x.1.event)

theorem NaiveBook.init_replay {n : ℕ} (feed : List (Input n)) :
    NaiveBook.init.replay feed = (RefBook.init.replay feed).book :=
  (RefBook.init.replay_book feed).symm

theorem RefBook.along_wellFormed {n : ℕ} (r : RefBook) (feed : List (Input n)) :
    r.Along (fun r x => WfEvent n r.book x.1.event) feed ↔ WellFormedFrom r.book feed := by
  unfold Along WellFormedFrom
  refine Guided.comap (V := fun a x => WfEvent n a x.1.event) RefBook.book ?_ r feed
  exact fun _ _ => rfl

/-! ## Messages with a given content -/

/-- A system event. -/
def sysMsg (code : UInt8) : ParsedMessage :=
  .systemEvent ⟨'S'.toUInt8, 0, 0, .replicate 6 0, code⟩

/-- An add without MPID. -/
def addMsg (ref : UInt64) (side : UInt8) (shares price : UInt32) : ParsedMessage :=
  .addOrder ⟨'A'.toUInt8, 0, 0, .replicate 6 0, be64 ref, side, be32 shares, .replicate 8 0,
    be32 price⟩

/-- A delete. -/
def delMsg (ref : UInt64) : ParsedMessage :=
  .deleteOrder ⟨'D'.toUInt8, 0, 0, .replicate 6 0, be64 ref⟩

/-- The iteration order that lists the newest entry first. -/
def IterOrder.newest (n : ℕ) : IterOrder n := ⟨AList.entries, fun _ => .refl _⟩

/-- The iteration order that lists the oldest entry first. -/
def IterOrder.oldest (n : ℕ) : IterOrder n :=
  ⟨fun m => m.entries.reverse, fun m => m.entries.reverse_perm⟩

end L2Book
