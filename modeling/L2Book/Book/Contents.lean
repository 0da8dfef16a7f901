import L2Book.Book.Window
import L2Book.Lib.Trace

/-!
# The contents of a book

An order book is a partial function from references to orders and a flag. The naive book is one way to
store it, the linked book another; the live orders, the quote and the totals at the prices of either depend on
the contents alone.

* `Contents`, `Contents.step`: the abstract book; **`contents_step`**: the naive book refines it;
* `NaiveBook.size_congr`, `prices_congr`, `qtyAt_congr`, `countAt_congr`, `wfEvent_congr`: queries and
  conditions that depend on the contents;
* `FeedOk`: a feed that the book can follow, by its events; `FeedOk.exists_replay`;
* `SameTotals`, **`Agrees.sameTotals`**: books with the same contents have the same totals;
* `Event.concerns`, **`replay_reordered`**: messages may change places unless they concern one reference.
-/

namespace L2Book

/-! ## The abstract book -/

/-- **The contents**: an order for each live reference, and whether the session is open. -/
@[ext] structure Contents where
  order : UInt64 → Option NaiveOrder
  isOpen : Bool

namespace Contents

def init : Contents := ⟨fun _ => none, false⟩

/-- What an execution or a cancel leaves of an order. -/
def reduced (qty : UInt32) (o : NaiveOrder) : Option NaiveOrder :=
  if o.shares - qty = 0 then none else some { o with shares := o.shares - qty }

/-- One event. -/
def step (c : Contents) : Event → Contents
  | .system code =>
    if code = 'O'.toUInt8 then { c with isOpen := true }
    else if code = 'C'.toUInt8 then { c with isOpen := false }
    else if code = 'H'.toUInt8 then init
    else c
  | .add ref side shares price =>
    if c.isOpen then { c with order := Function.update c.order ref (some ⟨side, price, shares⟩) } else c
  | .reduce ref qty => { c with order := Function.update c.order ref ((c.order ref).bind (reduced qty)) }
  | .delete ref => { c with order := Function.update c.order ref none }
  | .replace oldRef newRef shares price =>
    match c.order oldRef with
    | none => c
    | some o => { c with
        order := Function.update (Function.update c.order oldRef none) newRef
          (some ⟨o.side, price, shares⟩) }
  | .ignore => c

end Contents

namespace NaiveBook

/-- What a naive book stores. -/
def contents (a : NaiveBook) : Contents := ⟨fun ref => a.orders.lookup ref, a.isOpen⟩

theorem lookup_insert_eq_update (m : AList fun _ : UInt64 => NaiveOrder) (ref : UInt64) (o : NaiveOrder) :
    (fun r => (m.insert ref o).lookup r) = Function.update (fun r => m.lookup r) ref (some o) := by
  funext r
  by_cases h : r = ref
  · subst h
    rw [AList.lookup_insert, Function.update_self]
  · rw [AList.lookup_insert_ne h, Function.update_of_ne h]

theorem lookup_erase_eq_update (m : AList fun _ : UInt64 => NaiveOrder) (ref : UInt64) :
    (fun r => (m.erase ref).lookup r) = Function.update (fun r => m.lookup r) ref none := by
  funext r
  by_cases h : r = ref
  · subst h
    rw [AList.lookup_erase, Function.update_self]
  · rw [AList.lookup_erase_ne h, Function.update_of_ne h]

/-- **The naive book refines the abstract one.** -/
theorem contents_step (a : NaiveBook) (e : Event) : (a.step e).contents = a.contents.step e := by
  cases e with
  | system code =>
    simp only [step, Contents.step]
    split_ifs <;> rfl
  | add ref side shares price =>
    cases hopen : a.isOpen with
    | true => simp only [step, Contents.step, contents, hopen, if_true, lookup_insert_eq_update]
    | false => simp only [step, Contents.step, contents, hopen, Bool.false_eq_true, if_false]
  | reduce ref qty =>
    simp only [step, Contents.step, contents]
    cases h : a.orders.lookup ref with
    | none =>
      ext1
      · exact (Function.update_eq_self_iff.mpr h.symm).symm
      · rfl
    | some o =>
      simp only [Option.bind_some, Contents.reduced]
      split_ifs
      · rw [lookup_erase_eq_update]
      · rw [lookup_insert_eq_update]
  | delete ref => simp only [step, Contents.step, contents, lookup_erase_eq_update]
  | replace oldRef newRef shares price =>
    simp only [step, Contents.step, contents]
    cases h : a.orders.lookup oldRef with
    | none => rfl
    | some o => simp only [lookup_insert_eq_update, lookup_erase_eq_update]
  | ignore => rfl

/-- The naive book of a list of events. -/
def after (es : List Event) : NaiveBook := es.foldl step .init

theorem contents_foldl (a : NaiveBook) (es : List Event) :
    (es.foldl step a).contents = es.foldl Contents.step a.contents := by
  induction es generalizing a with
  | nil => rfl
  | cons e es ih => rw [List.foldl_cons, List.foldl_cons, ih, contents_step]

theorem contents_after (es : List Event) : (after es).contents = es.foldl Contents.step .init :=
  contents_foldl _ es

/-! ## What depends on the contents alone -/

section Congr

variable {a a' : NaiveBook}

theorem lookup_congr (h : a.contents = a'.contents) (ref : UInt64) :
    a.orders.lookup ref = a'.orders.lookup ref := congrFun (congrArg Contents.order h) ref

theorem isOpen_congr (h : a.contents = a'.contents) : a.isOpen = a'.isOpen := congrArg Contents.isOpen h

theorem entries_perm (h : a.contents = a'.contents) : a.orders.entries.Perm a'.orders.entries :=
  List.lookup_ext a.orders.nodupKeys a'.orders.nodupKeys fun ref o => by
    have := lookup_congr h ref
    unfold AList.lookup at this
    rw [this]

theorem size_congr (h : a.contents = a'.contents) : a.size = a'.size :=
  ((entries_perm h).map Sigma.fst).length_eq

theorem prices_congr (h : a.contents = a'.contents) (d : Side) : a.prices d = a'.prices d := by
  simp only [prices, lookup_congr h]

theorem restingAt_perm (h : a.contents = a'.contents) (d : Side) (price : UInt32) :
    (a.restingAt d price).Perm (a'.restingAt d price) := ((entries_perm h).map _).filter _

theorem qtyAt_congr (h : a.contents = a'.contents) (d : Side) (price : UInt32) :
    a.qtyAt d price = a'.qtyAt d price := ((restingAt_perm h d price).map _).sum_eq

theorem countAt_congr (h : a.contents = a'.contents) (d : Side) (price : UInt32) :
    a.countAt d price = a'.countAt d price := (restingAt_perm h d price).length_eq

theorem inserts_congr (h : a.contents = a'.contents) (e : Event) : a.inserts e = a'.inserts e := by
  cases e <;> simp only [inserts, isOpen_congr h, lookup_congr h]

end Congr

end NaiveBook

theorem wfEvent_congr {n m : ℕ} {a a' : NaiveBook} (hnm : n ≤ m) (h : a.contents = a'.contents)
    {e : Event} (hw : WfEvent n a e) : WfEvent m a' e := by
  cases e with
  | add ref side shares price =>
    intro hopen
    rw [← NaiveBook.isOpen_congr h] at hopen
    obtain ⟨hnew, hside, hprice, hsize⟩ := hw hopen
    rw [← NaiveBook.lookup_congr h, ← NaiveBook.size_congr h]
    exact ⟨hnew, hside, hprice, hsize.trans_le hnm⟩
  | reduce ref qty =>
    intro o ho
    exact hw o ((NaiveBook.lookup_congr h ref).trans ho)
  | replace oldRef newRef shares price =>
    intro hold
    rw [← NaiveBook.lookup_congr h] at hold
    obtain ⟨hnew, hprice⟩ := hw hold
    refine ⟨?_, hprice⟩
    have herase := congrFun (NaiveBook.lookup_erase_eq_update a'.orders oldRef) newRef
    have herase' := congrFun (NaiveBook.lookup_erase_eq_update a.orders oldRef) newRef
    have horders : (fun r => a.orders.lookup r) = fun r => a'.orders.lookup r :=
      congrArg Contents.order h
    rw [herase, ← horders, ← herase']
    exact hnew
  | _ => trivial

/-! ## Feeds by their events -/

/-- The event inserts no order outside the windows. -/
def InsertsWithin (lo : Side → ℕ) (a : NaiveBook) (e : Event) : Prop :=
  ∀ ref d price, a.inserts e = some (ref, d, price) → InWindow lo d price

/-- **A feed that the book can follow** from the naive state `a` on: its events are well formed for a pool
of `n` slots, and the orders that they insert lie in one window of prices for each side. -/
structure FeedOkFrom (n : ℕ) (lo : Side → ℕ) (a : NaiveBook) (es : List Event) : Prop where
  wellFormed : Guided NaiveBook.step (WfEvent n) a es
  windowed : Guided NaiveBook.step (InsertsWithin lo) a es

/-- The same for a fresh book. -/
abbrev FeedOk (n : ℕ) (lo : Side → ℕ) (es : List Event) : Prop := FeedOkFrom n lo .init es

section Feed

variable {n m : ℕ} {lo : Side → ℕ} {a a' : NaiveBook} {es es' : List Event} {feed : List (Input n)}

theorem guided_congr {W W' : NaiveBook → Event → Prop}
    (hW : ∀ a a' e, a.contents = a'.contents → W a e → W' a' e) (h : a.contents = a'.contents)
    (hg : Guided NaiveBook.step W a es) : Guided NaiveBook.step W' a' es := by
  induction es generalizing a a' with
  | nil => trivial
  | cons e es ih =>
    refine ⟨hW a a' e h hg.1, ih ?_ hg.2⟩
    rw [NaiveBook.contents_step, NaiveBook.contents_step, h]

theorem FeedOkFrom.congr (h : FeedOkFrom n lo a es) (hnm : n ≤ m) (hc : a.contents = a'.contents) :
    FeedOkFrom m lo a' es :=
  ⟨guided_congr (fun _ _ _ hc hw => wfEvent_congr hnm hc hw) hc h.wellFormed,
    guided_congr (fun _ _ _ hc hw => by rwa [InsertsWithin, ← NaiveBook.inserts_congr hc]) hc h.windowed⟩

theorem feedOkFrom_append :
    FeedOkFrom n lo a (es ++ es') ↔
      FeedOkFrom n lo a es ∧ FeedOkFrom n lo (es.foldl NaiveBook.step a) es' := by
  constructor
  · intro h
    obtain ⟨h₁, h₂⟩ := Guided.append.mp h.wellFormed
    obtain ⟨h₃, h₄⟩ := Guided.append.mp h.windowed
    exact ⟨⟨h₁, h₃⟩, ⟨h₂, h₄⟩⟩
  · rintro ⟨⟨h₁, h₃⟩, ⟨h₂, h₄⟩⟩
    exact ⟨Guided.append.mpr ⟨h₁, h₂⟩, Guided.append.mpr ⟨h₃, h₄⟩⟩

theorem FeedOkFrom.of_isPrefix {pre : List Event} (h : FeedOkFrom n lo a es) (hp : pre <+: es) :
    FeedOkFrom n lo a pre := ⟨h.wellFormed.of_isPrefix hp, h.windowed.of_isPrefix hp⟩

/-- The events of a feed. -/
def events (feed : List (Input n)) : List Event := feed.map fun x => x.1.event

theorem replay_eq_after (feed : List (Input n)) :
    NaiveBook.init.replay feed = .after (events feed) := by
  rw [NaiveBook.replay, NaiveBook.after, events, List.foldl_map]

theorem feedOk_iff : FeedOk n lo (events feed) ↔ WellFormed feed ∧ Windowed lo feed := by
  constructor
  · rintro ⟨hw, hwin⟩
    exact ⟨(Guided.map _ _ _).mp hw, (Guided.map _ _ _).mp hwin⟩
  · rintro ⟨hw, hwin⟩
    exact ⟨(Guided.map _ _ _).mpr hw, (Guided.map _ _ _).mpr hwin⟩

/-- **A fresh book handles such a feed**, or a part of it, and agrees with the naive book. -/
theorem FeedOkFrom.exists_replay (h : FeedOk n lo es) (hn : n < 2 ^ 32) (b : Build)
    (hfeed : events feed <+: es) :
    ∃ s, (OrderBook.init n).replay b feed = .ok s ∧ OrderBook.Agrees s (.after (events feed)) := by
  obtain ⟨hw, hwin⟩ := feedOk_iff.mp (h.of_isPrefix hfeed)
  obtain ⟨s, hs, hsim, hheld⟩ := OrderBook.exists_replay_of_windowed (fun _ => hn) hw hwin
  have hagrees := hsim.agrees hheld hn
  rw [RefBook.replay_book] at hagrees
  exact ⟨s, hs, replay_eq_after feed ▸ hagrees⟩

theorem FeedOkFrom.sim {b : Build} {s : OrderBook n} (h : FeedOk n lo (events feed))
    (hs : (OrderBook.init n).replay b feed = .ok s) :
    ∃ r, OrderBook.Sim s r ∧ r.AllHeld ∧ r.book = .after (events feed) := by
  obtain ⟨hw, hwin⟩ := feedOk_iff.mp h
  refine ⟨RefBook.init.replay feed, OrderBook.sim_init.of_replay hw hs,
    OrderBook.allHeld_of_windowed hw hwin, ?_⟩
  rw [← NaiveBook.init_replay, replay_eq_after]

end Feed

/-! ## Books with the same totals -/

/-- **The books agree** in `has_order`, `order_count`, `is_open` and `best_bid_offer`, and in the quantity and
the count of the level at each price below `2 ^ 31` that lies in both arrays. The queues may differ, and so
may the reference prices, the levels by index and the analytics of the first levels. -/
structure SameTotals {n m : ℕ} (s : OrderBook n) (t : OrderBook m) : Prop where
  hasOrder : ∀ ref, s.hasOrder ref = t.hasOrder ref
  orderCount : s.orderCount = t.orderCount
  isOpen : s.isOpen = t.isOpen
  bbo : s.bestBidOffer = t.bestBidOffer
  level : ∀ d price i j, price.toNat < 2 ^ 31 → priceIdx d (s.sides d).ref price = .ok i → InArray i →
    priceIdx d (t.sides d).ref price = .ok j → InArray j → ∃ lvl lvl', s.levelPtr d i = some lvl ∧
      t.levelPtr d j = some lvl' ∧ lvl.totalQty = lvl'.totalQty ∧ lvl.orderCount = lvl'.orderCount

namespace OrderBook

variable {n m : ℕ} {s : OrderBook n} {t : OrderBook m} {a a' : NaiveBook}

theorem Quotes.unique {d : Side} {price qty price' qty' : UInt32} (h : Quotes a d price qty)
    (h' : Quotes a' d price' qty') (hc : a.contents = a'.contents) : price = price' ∧ qty = qty' := by
  have hprices := NaiveBook.prices_congr hc d
  by_cases he : a.prices d = ∅
  · have he' : a'.prices d = ∅ := hprices ▸ he
    rw [h.zero_iff.mpr he, h'.zero_iff.mpr he', h.qty_zero he, h'.qty_zero he']
    exact ⟨rfl, rfl⟩
  · have he' : a'.prices d ≠ ∅ := hprices ▸ he
    have hbest := h'.best he'
    rw [← hprices] at hbest
    obtain rfl : price = price' := (h.best he).unique hbest
    refine ⟨rfl, UInt32.toNat_inj.mp ?_⟩
    rw [h.qty_eq he, h'.qty_eq he', NaiveBook.qtyAt_congr hc]

theorem Agrees.sameTotals (hs : Agrees s a) (ht : Agrees t a') (hc : a.contents = a'.contents) :
    SameTotals s t := by
  refine ⟨fun ref => ?_, ?_, ?_, ?_, fun d price i j hp hi hin hj hjn => ?_⟩
  · rw [hs.hasOrder, ht.hasOrder, NaiveBook.lookup_congr hc]
  · rw [hs.orderCount, ht.orderCount, NaiveBook.size_congr hc]
  · rw [hs.isOpen, ht.isOpen, NaiveBook.isOpen_congr hc]
  · obtain ⟨q, hq, hbid, hask⟩ := hs.bbo
    obtain ⟨q', hq', hbid', hask'⟩ := ht.bbo
    obtain ⟨h₁, h₂⟩ := hbid.unique hbid' hc
    obtain ⟨h₃, h₄⟩ := hask.unique hask' hc
    rw [hq, hq']
    cases q
    cases q'
    simp only at h₁ h₂ h₃ h₄
    rw [h₁, h₂, h₃, h₄]
  · obtain ⟨lvl, hlvl, hqty, hcount⟩ := hs.level d price i hp hi hin
    obtain ⟨lvl', hlvl', hqty', hcount'⟩ := ht.level d price j hp hj hjn
    refine ⟨lvl, lvl', hlvl, hlvl', UInt64.toNat_inj.mp ?_, UInt32.toNat_inj.mp ?_⟩
    · rw [hqty, hqty', NaiveBook.qtyAt_congr hc]
    · rw [hcount, hcount', NaiveBook.countAt_congr hc]

end OrderBook

/-! ## Reordering -/

/-- The event may read or change the order of the reference. System events concern all of them. -/
def Event.concerns (ref : UInt64) : Event → Bool
  | .system _ => true
  | .add r _ _ _ => r == ref
  | .reduce r _ => r == ref
  | .delete r => r == ref
  | .replace oldRef newRef _ _ => oldRef == ref || newRef == ref
  | .ignore => false

namespace Contents

variable {c c' : Contents} {e : Event} {ref : UInt64}

theorem step_isOpen_congr (h : c.isOpen = c'.isOpen) (e : Event) :
    (c.step e).isOpen = (c'.step e).isOpen := by
  cases e with
  | system code =>
    simp only [step]
    split_ifs <;> first | rfl | exact h
  | add r side shares price =>
    simp only [step]
    split_ifs <;> exact h
  | replace oldRef newRef shares price =>
    simp only [step]
    cases c.order oldRef <;> cases c'.order oldRef <;> exact h
  | _ => exact h

/-- **An event is local**: what it does to an order depends on the orders it concerns. -/
theorem step_order_congr (hopen : c.isOpen = c'.isOpen)
    (h : ∀ r, e.concerns r = true → c.order r = c'.order r) (href : c.order ref = c'.order ref) :
    (c.step e).order ref = (c'.step e).order ref := by
  cases e with
  | system code =>
    simp only [step]
    split_ifs <;> first | rfl | exact href
  | add r side shares price =>
    simp only [step, hopen]
    split_ifs
    · simp only [Function.update_apply, href]
    · exact href
  | reduce r qty =>
    have hr := h r (by simp [Event.concerns])
    simp only [step, Function.update_apply, hr, href]
  | delete r => simp only [step, Function.update_apply, href]
  | replace oldRef newRef shares price =>
    have hr := h oldRef (by simp [Event.concerns])
    simp only [step, hr]
    cases c'.order oldRef with
    | none => exact href
    | some o => simp only [Function.update_apply, href]
  | ignore => exact href

theorem step_order_of_not_concerns (h : e.concerns ref = false) : (c.step e).order ref = c.order ref := by
  cases e with
  | system code => cases h
  | add r side shares price =>
    have hne : ref ≠ r := (beq_eq_false_iff_ne.mp h).symm
    simp only [step]
    split_ifs
    · exact Function.update_of_ne hne _ _
    · rfl
  | reduce r qty =>
    have hne : ref ≠ r := (beq_eq_false_iff_ne.mp h).symm
    exact Function.update_of_ne hne _ _
  | delete r =>
    have hne : ref ≠ r := (beq_eq_false_iff_ne.mp h).symm
    exact Function.update_of_ne hne _ _
  | replace oldRef newRef shares price =>
    obtain ⟨hold, hnew⟩ := Bool.or_eq_false_iff.mp h
    simp only [step]
    cases c.order oldRef with
    | none => rfl
    | some o =>
      show Function.update (Function.update c.order oldRef none) newRef _ ref = c.order ref
      rw [Function.update_of_ne (beq_eq_false_iff_ne.mp hnew).symm,
        Function.update_of_ne (beq_eq_false_iff_ne.mp hold).symm]
  | ignore => rfl

/-- An event that leaves some order alone leaves the session alone. -/
theorem step_isOpen_of_not_concerns (h : e.concerns ref = false) : (c.step e).isOpen = c.isOpen := by
  cases e with
  | system code => cases h
  | add r side shares price =>
    simp only [step]
    split_ifs <;> rfl
  | replace oldRef newRef shares price =>
    simp only [step]
    cases c.order oldRef <;> rfl
  | _ => rfl

/-- The orders of one event pass the other event unchanged. -/
theorem step_order_comm {x y : Event} (h : Independent Event.concerns x y) (hx : x.concerns ref = true) :
    ((c.step x).step y).order ref = ((c.step y).step x).order ref := by
  have hopen : (c.step y).isOpen = c.isOpen := step_isOpen_of_not_concerns (h ref hx)
  rw [step_order_of_not_concerns (h ref hx)]
  refine (step_order_congr hopen (fun r hr => ?_) ?_).symm
  · exact step_order_of_not_concerns (h r hr)
  · exact step_order_of_not_concerns (h ref hx)

theorem independent_symm {x y : Event} (h : Independent Event.concerns x y) :
    Independent Event.concerns y x := by
  intro ref hy
  by_contra hx
  rw [Bool.not_eq_false] at hx
  rw [h ref hx] at hy
  cases hy

/-- **Events that concern different references commute.** -/
theorem step_comm (c : Contents) {x y : Event} (h : Independent Event.concerns x y) :
    (c.step x).step y = (c.step y).step x := by
  ext1
  · funext ref
    cases hx : x.concerns ref with
    | true => exact step_order_comm h hx
    | false =>
      cases hy : y.concerns ref with
      | true => exact (step_order_comm (independent_symm h) hy).symm
      | false =>
        rw [step_order_of_not_concerns hy, step_order_of_not_concerns hx, step_order_of_not_concerns hx,
          step_order_of_not_concerns hy]
  · -- one of the two is no system event
    cases hx : x.concerns 0 with
    | true =>
      have hy := h 0 hx
      rw [step_isOpen_of_not_concerns hy]
      exact (step_isOpen_congr (step_isOpen_of_not_concerns hy) x).symm
    | false =>
      rw [step_isOpen_of_not_concerns hx]
      exact step_isOpen_congr (step_isOpen_of_not_concerns hx) y

end Contents

/-- **Messages may change places unless they concern one reference.** Let two feeds, both of which the book
can follow, consist of the same events, and for each reference list the events that concern it, session
events included, in the same order. After both feeds the books have the same totals, whatever the pool sizes,
the builds and the iteration orders; the queues and the reference prices may differ. -/
theorem replay_reordered {n m : ℕ} (hn : n < 2 ^ 32) (hm : m < 2 ^ 32) (b b' : Build) {lo lo' : Side → ℕ}
    (feed : List (Input n)) (feed' : List (Input m)) (hok : FeedOk n lo (events feed))
    (hok' : FeedOk m lo' (events feed')) (hsame : SameOrder Event.concerns (events feed) (events feed')) :
    ∃ s t, (OrderBook.init n).replay b feed = .ok s ∧ (OrderBook.init m).replay b' feed' = .ok t ∧
      SameTotals s t := by
  obtain ⟨s, hs, ha⟩ := hok.exists_replay hn b List.prefix_rfl
  obtain ⟨t, ht, ha'⟩ := hok'.exists_replay hm b' List.prefix_rfl
  refine ⟨s, t, hs, ht, ha.sameTotals ha' ?_⟩
  rw [NaiveBook.contents_after, NaiveBook.contents_after]
  exact hsame.foldl_eq (fun c _ _ h => c.step_comm h) _

/-- A bid and an ask. -/
def bidThenAsk : List (Input 2) :=
  [(sysMsg 'O'.toUInt8, .newest 2), (addMsg 1 'B'.toUInt8 10 5, .newest 2),
    (addMsg 2 'S'.toUInt8 20 7, .newest 2)]

/-- The same in the other order. -/
def askThenBid : List (Input 3) :=
  [(sysMsg 'O'.toUInt8, .oldest 3), (addMsg 2 'S'.toUInt8 20 7, .oldest 3),
    (addMsg 1 'B'.toUInt8 10 5, .oldest 3)]

theorem replay_reordered_bidAsk :
    ∃ s t, (OrderBook.init 2).replay .debug bidThenAsk = .ok s ∧
      (OrderBook.init 3).replay .release askThenBid = .ok t ∧ SameTotals s t := by
  have hok : FeedOk 2 (fun _ => 1) (events bidThenAsk) := by
    refine ⟨⟨trivial, fun _ => ⟨rfl, .inl rfl, ⟨by decide, by decide⟩, by decide⟩,
      fun _ => ⟨rfl, .inr rfl, ⟨by decide, by decide⟩, by decide⟩, trivial⟩,
      ⟨fun _ _ _ h => (by cases h), fun _ _ _ h => ?_, fun _ _ _ h => ?_, trivial⟩⟩ <;>
      · cases h
        exact ⟨by decide, by decide⟩
  have hok' : FeedOk 3 (fun _ => 1) (events askThenBid) := by
    refine ⟨⟨trivial, fun _ => ⟨rfl, .inr rfl, ⟨by decide, by decide⟩, by decide⟩,
      fun _ => ⟨rfl, .inl rfl, ⟨by decide, by decide⟩, by decide⟩, trivial⟩,
      ⟨fun _ _ _ h => (by cases h), fun _ _ _ h => ?_, fun _ _ _ h => ?_, trivial⟩⟩ <;>
      · cases h
        exact ⟨by decide, by decide⟩
  refine replay_reordered (by decide) (by decide) .debug .release bidThenAsk askThenBid hok hok'
    ⟨(List.Perm.swap _ _ _).cons _, fun ref => ?_⟩
  show (events bidThenAsk).filter (Event.concerns ref) = (events askThenBid).filter (Event.concerns ref)
  -- no reference is that of both orders
  have h₁ : (events bidThenAsk) = [.system 79, .add 1 66 10 5, .add 2 83 20 7] := rfl
  have h₂ : (events askThenBid) = [.system 79, .add 2 83 20 7, .add 1 66 10 5] := rfl
  rw [h₁, h₂]
  by_cases hr : (1 : UInt64) = ref
  · subst hr
    rfl
  · have hf : Event.concerns ref (.add 1 66 10 5) = false := beq_eq_false_iff_ne.mpr hr
    simp [List.filter_cons, hf]

end L2Book
