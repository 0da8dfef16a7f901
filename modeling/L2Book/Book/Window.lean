import L2Book.Book.Quote

/-!
# Refinement of the naive book

* `RefBook.NoDrop`: a re-centre leaves every live order of its side in the array;
  **`RefBook.AllHeld`** is the invariant it preserves;
* **`bestBidOffer_optimal`**: without dropped orders the quote is optimal after every message;
  `far_bid_quote`: a feed where it is not;
* `Windowed`: prices of one side within `kLevels` consecutive values, `exists_replay_of_windowed`;
* **`Agrees`**, `replay_agrees`: on such feeds the book simulates the naive book step by step.
-/

namespace L2Book

/-! ## Dropped orders -/

namespace RefBook

/-- A re-centre that the event causes keeps every other live order of the side in the array. -/
def NoDrop (r : RefBook) (e : Event) : Prop :=
  ∀ ref d price, r.book.inserts e = some (ref, d, price) → Recentres d (r.ref d) price →
    ∀ ref' o, e.target ≠ some ref' → r.book.orders.lookup ref' = some o → sideOf o.side = d →
      InArray (tick d price o.price)

/-- Every live order lies in the array of its side. -/
def AllHeld (r : RefBook) : Prop :=
  ∀ ref o, r.book.orders.lookup ref = some o → r.ref (sideOf o.side) ≠ 0 ∧ r.Holds o

theorem AllHeld.reaches {r : RefBook} (h : r.AllHeld) (e : Event) : r.Reaches e :=
  fun ref o _ ho => (h ref o ho).2

theorem AllHeld.heldPrices_eq {r : RefBook} (h : r.AllHeld) (d : Side) :
    r.heldPrices d = r.book.prices d := by
  ext price
  constructor
  · rintro ⟨ref, o, ho, hd, hp, -⟩
    exact ⟨ref, o, ho, hd, hp⟩
  · rintro ⟨ref, o, ho, hd, hp⟩
    exact ⟨ref, o, ho, hd, hp, (h ref o ho).2⟩

end RefBook

theorem RefBook.AllHeld.step {n : ℕ} {r : RefBook} {e : Event} (h : r.AllHeld)
    (hw : WfEvent n r.book e) (hnd : r.NoDrop e) : (r.step e).AllHeld := by
  intro ref o ho
  rcases NaiveBook.lookup_step ho with hins | ⟨o', ho', hside, hprice, hne⟩
  · -- the new order
    have href : (r.step e).ref (sideOf o.side) =
        nextRef (sideOf o.side) (r.ref (sideOf o.side)) o.price :=
      (refAfter_of_inserts hins _ _).trans (if_pos rfl)
    unfold Holds
    rw [href]
    exact ⟨nextRef_ne_zero (priceOk_of_inserts hw hins), inArray_nextRef _ _ _⟩
  · obtain ⟨hz, hh⟩ := h ref o' ho'
    unfold Holds at hh ⊢
    rw [hside] at hz hh
    rw [hprice] at hh
    cases hins : r.book.inserts e with
    | none =>
      have href : (r.step e).ref (sideOf o.side) = r.ref (sideOf o.side) := refAfter_of_quiet hins _ _
      rw [href]
      exact ⟨hz, hh⟩
    | some i =>
      obtain ⟨ref₁, d, price⟩ := i
      have href : (r.step e).ref (sideOf o.side) = _ := refAfter_of_inserts hins _ _
      rw [href]
      by_cases hd : sideOf o.side = d
      · subst hd
        rw [if_pos rfl]
        by_cases hrc : Recentres (sideOf o.side) (r.ref (sideOf o.side)) price
        · rw [nextRef_of_recentres hrc, ← hprice]
          refine ⟨ne_zero_of_priceOk (priceOk_of_inserts hw hins), ?_⟩
          exact hnd _ _ _ hins hrc ref o' (hne (by rw [hins]; nofun)) ho' (by rw [hside])
        · rw [nextRef_of_not_recentres hz hrc]
          exact ⟨hz, hh⟩
      · rw [if_neg hd]
        exact ⟨hz, hh⟩

theorem RefBook.AllHeld.replay {n : ℕ} {r : RefBook} {feed : List (Input n)} (h : r.AllHeld)
    (hw : WellFormedFrom r.book feed) (hnd : r.Along (fun r x => r.NoDrop x.1.event) feed) :
    (r.replay feed).AllHeld := by
  induction feed generalizing r with
  | nil => exact h
  | cons x feed ih => exact ih (h.step hw.1 hnd.1) hw.2 hnd.2

theorem RefBook.AllHeld.along_reaches {n : ℕ} {r : RefBook} {feed : List (Input n)} (h : r.AllHeld)
    (hw : WellFormedFrom r.book feed) (hnd : r.Along (fun r x => r.NoDrop x.1.event) feed) :
    r.Along (fun r x => r.Reaches x.1.event) feed := by
  induction feed generalizing r with
  | nil => trivial
  | cons x feed ih => exact ⟨h.reaches _, ih (h.step hw.1 hnd.1) hw.2 hnd.2⟩

namespace OrderBook

variable {n : ℕ}

/-- **A well-formed feed without dropped orders** never faults and keeps every live order in the
array. -/
theorem Sim.replay_of_noDrop {b : Build} {s : OrderBook n} {r : RefBook} {feed : List (Input n)}
    (h : Sim s r) (hr : r.AllHeld) (hb : b = .debug → n < 2 ^ 32) (hw : WellFormedFrom r.book feed)
    (hnd : r.Along (fun r x => r.NoDrop x.1.event) feed) :
    ∃ s', s.replay b feed = .ok s' ∧ Sim s' (r.replay feed) ∧ (r.replay feed).AllHeld := by
  obtain ⟨s', hs', hsim⟩ := h.replay hb hw (h.refersLinkedAll hw (hr.along_reaches hw hnd))
  exact ⟨s', hs', hsim, hr.replay hw hnd⟩

theorem Sim.inArray_of_allHeld {s : OrderBook n} {r : RefBook} (h : Sim s r) (hr : r.AllHeld) :
    ∀ p ∈ s.liveSet, InArray (s.tickOf p) := by
  intro p hp
  obtain ⟨ref, href⟩ := mem_liveSet.mp hp
  exact (h.inArray_iff p).mpr (hr ref _ (h.abs.lookup_some href)).2

theorem Sim.price_inArray {s : OrderBook n} {r : RefBook} (h : Sim s r) (hr : r.AllHeld) {d : Side}
    {price : UInt32} (hp : price ∈ r.book.prices d) :
    price.toNat < 2 ^ 31 ∧ price ≠ 0 ∧ InArray (tick d (s.sides d).ref price) := by
  obtain ⟨ref, o, ho, hd, rfl⟩ := hp
  have hh := (hr ref o ho).2
  rw [h.abs.lookup, Option.map_eq_some_iff] at ho
  obtain ⟨p, hp, rfl⟩ := ho
  have hlive : p ∈ s.liveSet := mem_liveSet.mpr ⟨ref, hp⟩
  refine ⟨h.rep.linked.price_lt p hlive, fun e => ?_, ?_⟩
  · have hpos := h.rep.linked.price_pos p hlive
    change (s.order p).price = 0 at e
    rw [e] at hpos
    exact absurd hpos (by decide)
  · unfold RefBook.Holds at hh
    rw [hd, ← h.ref] at hh
    exact hh

end OrderBook

/-! ## Windows -/

/-- The price lies in the window of `kLevels` values of side `d`. -/
def InWindow (lo : Side → ℕ) (d : Side) (price : UInt32) : Prop :=
  lo d ≤ price.toNat ∧ price.toNat < lo d + kLevels

/-- All inserted orders have prices in the windows. -/
def WindowedFrom {n : ℕ} (lo : Side → ℕ) (a : NaiveBook) (feed : List (Input n)) : Prop :=
  Guided (fun a x => a.step x.1.event)
    (fun a x => ∀ ref d price, a.inserts x.1.event = some (ref, d, price) → InWindow lo d price) a feed

/-- The same for a fresh book. -/
def Windowed {n : ℕ} (lo : Side → ℕ) (feed : List (Input n)) : Prop :=
  WindowedFrom lo NaiveBook.init feed

namespace RefBook

/-- Reference prices and live orders stay in the windows. -/
structure WindowInv (lo : Side → ℕ) (r : RefBook) : Prop where
  ref : ∀ d, r.ref d = 0 ∨ InWindow lo d (r.ref d)
  live : ∀ ref o, r.book.orders.lookup ref = some o → InWindow lo (sideOf o.side) o.price

theorem WindowInv.step {lo : Side → ℕ} {r : RefBook} {e : Event} (h : r.WindowInv lo)
    (he : ∀ ref d price, r.book.inserts e = some (ref, d, price) → InWindow lo d price) :
    (r.step e).WindowInv lo := by
  refine ⟨fun d => ?_, fun ref o ho => ?_⟩
  · cases hins : r.book.inserts e with
    | none =>
      have href : (r.step e).ref d = r.ref d := refAfter_of_quiet hins _ _
      rw [href]
      exact h.ref d
    | some i =>
      obtain ⟨ref₁, d', price⟩ := i
      have href : (r.step e).ref d = _ := refAfter_of_inserts hins _ _
      rw [href]
      split_ifs with hd
      · subst hd
        unfold nextRef
        split_ifs
        · exact .inr (he _ _ _ hins)
        · exact h.ref d
        · exact .inr (he _ _ _ hins)
      · exact h.ref d
  · rcases NaiveBook.lookup_step ho with hins | ⟨o', ho', hside, hprice, -⟩
    · exact he _ _ _ hins
    · rw [← hside, ← hprice]
      exact h.live ref o' ho'

/-- **Within a window a re-centre only moves towards better prices**, so it keeps every order. -/
theorem WindowInv.inArray_of_recentres {lo : Side → ℕ} {r : RefBook} (h : r.WindowInv lo)
    (hheld : r.AllHeld) {ref : UInt64} {o : NaiveOrder} (ho : r.book.orders.lookup ref = some o)
    {price : UInt32} (hnew : InWindow lo (sideOf o.side) price)
    (hrc : Recentres (sideOf o.side) (r.ref (sideOf o.side)) price) :
    InArray (tick (sideOf o.side) price o.price) := by
  have hold := h.live ref o ho
  have hin := (hheld ref o ho).2
  have href := (h.ref (sideOf o.side)).resolve_left hrc.1
  have hout := hrc.2
  unfold Holds at hin
  unfold InWindow at hnew hold href
  unfold InArray at hin hout ⊢
  cases hd : sideOf o.side <;> simp only [hd, tick] at hnew hold href hin hout ⊢ <;> omega

theorem WindowInv.noDrop {lo : Side → ℕ} {r : RefBook} {e : Event} (h : r.WindowInv lo)
    (hheld : r.AllHeld)
    (he : ∀ ref d price, r.book.inserts e = some (ref, d, price) → InWindow lo d price) :
    r.NoDrop e := by
  rintro ref d price hins hrc ref' o _ ho rfl
  exact h.inArray_of_recentres hheld ho (he ref _ price hins) hrc

end RefBook

namespace OrderBook

variable {n : ℕ}

/-- A windowed feed drops no order. -/
theorem along_noDrop_of_windowed {lo : Side → ℕ} {r : RefBook} {feed : List (Input n)}
    (hr : r.WindowInv lo) (hheld : r.AllHeld) (hw : WellFormedFrom r.book feed)
    (hwin : WindowedFrom lo r.book feed) : r.Along (fun r x => r.NoDrop x.1.event) feed := by
  induction feed generalizing r with
  | nil => trivial
  | cons x feed ih =>
    have hnd := hr.noDrop hheld hwin.1
    exact ⟨hnd, ih (hr.step hwin.1) (hheld.step hw.1 hnd) hw.2 hwin.2⟩

theorem allHeld_init : RefBook.init.AllHeld := nofun

theorem windowInv_init (lo : Side → ℕ) : RefBook.init.WindowInv lo := ⟨fun _ => .inl rfl, nofun⟩

section Windowed

variable {lo : Side → ℕ} {feed : List (Input n)}

theorem noDrop_of_windowed (hw : WellFormed feed) (hwin : Windowed lo feed) :
    RefBook.init.Along (fun r x => r.NoDrop x.1.event) feed :=
  along_noDrop_of_windowed (windowInv_init lo) allHeld_init hw hwin

theorem allHeld_of_windowed (hw : WellFormed feed) (hwin : Windowed lo feed) :
    (RefBook.init.replay feed).AllHeld := allHeld_init.replay hw (noDrop_of_windowed hw hwin)

/-- **A fresh book handles a windowed feed** and keeps every live order in the array. -/
theorem exists_replay_of_windowed {b : Build} (hb : b = .debug → n < 2 ^ 32) (hw : WellFormed feed)
    (hwin : Windowed lo feed) : ∃ s, (OrderBook.init n).replay b feed = .ok s ∧
      Sim s (RefBook.init.replay feed) ∧ (RefBook.init.replay feed).AllHeld :=
  sim_init.replay_of_noDrop allHeld_init hb hw (noDrop_of_windowed hw hwin)

end Windowed

theorem windowed_sampleFeed : Windowed (fun _ => 1) sampleFeed := by
  refine ⟨nofun, fun ref d price h => ?_, fun ref d price h => ?_, nofun, trivial⟩ <;>
    · cases h
      exact ⟨by decide, by decide⟩

/-! ## Optimal quotes -/

/-- The prices of the orders in `order_map_` on side `d`. -/
def livePrices (s : OrderBook n) (d : Side) : Set UInt32 :=
  {price | ∃ r p, s.orderMap.lookup r = some p ∧ sideOf (s.order p).side = d ∧
    (s.order p).price = price}

theorem Abs.prices_eq {s : OrderBook n} {a : NaiveBook} (h : Abs s a) (d : Side) :
    a.prices d = s.livePrices d := by
  ext price
  constructor
  · rintro ⟨r, o, ho, hd, hp⟩
    rw [h.lookup, Option.map_eq_some_iff] at ho
    obtain ⟨p, hr, rfl⟩ := ho
    exact ⟨r, p, hr, hd, hp⟩
  · rintro ⟨r, p, hr, hd, hp⟩
    exact ⟨r, _, h.lookup_some hr, hd, hp⟩

/-- `price` is the best price over all live orders of side `d`, and `0` exactly without any. -/
def OptimalQuote (s : OrderBook n) (d : Side) (price : UInt32) : Prop :=
  (price = 0 ↔ s.livePrices d = ∅) ∧
    (s.livePrices d ≠ ∅ → IsBestPrice d (s.livePrices d) price)

theorem Sim.bestBidOffer_eq {s : OrderBook n} {r : RefBook} (h : Sim s r) (hn : n < 2 ^ 32) :
    ∃ q, s.bestBidOffer = .ok q ∧ s.quote .bid = .ok (q.bidPrice, q.bidQty) ∧
      s.quote .ask = .ok (q.askPrice, q.askQty) := by
  obtain ⟨p, v, hb, -⟩ := h.quote_eq hn .bid
  obtain ⟨p', v', ha, -⟩ := h.quote_eq hn .ask
  exact ⟨⟨p, v, p', v'⟩, by simp only [bestBidOffer, hb, ha, ok_bind], hb, ha⟩

theorem Sim.livePrices_ne_zero {s : OrderBook n} {r : RefBook} (h : Sim s r) {d : Side}
    {price : UInt32} (hp : price ∈ s.livePrices d) : price ≠ 0 := by
  obtain ⟨ref, p, hr, -, rfl⟩ := hp
  intro hz
  have := h.rep.linked.price_pos p (mem_liveSet.mpr ⟨ref, hr⟩)
  rw [hz] at this
  exact absurd this (by decide)

theorem Sim.optimalQuote {s : OrderBook n} {r : RefBook} (h : Sim s r) (hr : r.AllHeld)
    (hn : n < 2 ^ 32) {d : Side} {price qty : UInt32} (hq : s.quote d = .ok (price, qty)) :
    OptimalQuote s d price := by
  obtain ⟨p, v, hpv, hspec⟩ := h.quote_eq hn d
  rw [hq] at hpv
  cases hpv
  rw [hr.heldPrices_eq, h.abs.prices_eq] at hspec
  rcases hspec with ⟨hempty, hz, -⟩ | ⟨hbest, -⟩
  · exact ⟨⟨fun _ => hempty, fun _ => hz⟩, fun hne => absurd hempty hne⟩
  · refine ⟨⟨fun hz => absurd hz (h.livePrices_ne_zero hbest.mem), fun hempty => ?_⟩,
      fun _ => hbest⟩
    have := hbest.mem
    rw [hempty] at this
    cases this

/-- **Optimal quotes.** In every state of a well-formed feed in which no re-centre drops an order,
`best_bid_offer` returns the best prices over all live orders. -/
theorem bestBidOffer_optimal (hn : n < 2 ^ 32) (b : Build) (feed : List (Input n))
    (hw : WellFormed feed) (hnd : RefBook.init.Along (fun r x => r.NoDrop x.1.event) feed)
    (pre : List (Input n)) (hpre : pre <+: feed) :
    ∃ s q, (OrderBook.init n).replay b pre = .ok s ∧ s.bestBidOffer = .ok q ∧
      OptimalQuote s .bid q.bidPrice ∧ OptimalQuote s .ask q.askPrice := by
  obtain ⟨s, hs, hsim, hheld⟩ := sim_init.replay_of_noDrop allHeld_init (fun _ => hn)
    (Guided.of_isPrefix hw hpre) (Guided.of_isPrefix hnd hpre)
  obtain ⟨q, hq, hbid, hask⟩ := hsim.bestBidOffer_eq hn
  exact ⟨s, q, hs, hq, hsim.optimalQuote hheld hn hbid, hsim.optimalQuote hheld hn hask⟩

theorem bestBidOffer_optimal_sampleFeed : ∃ s q, (OrderBook.init 2).replay .debug sampleFeed = .ok s ∧
    s.bestBidOffer = .ok q ∧ OptimalQuote s .bid q.bidPrice ∧ OptimalQuote s .ask q.askPrice :=
  bestBidOffer_optimal (by decide) .debug sampleFeed wellFormed_sampleFeed
    (noDrop_of_windowed wellFormed_sampleFeed windowed_sampleFeed) sampleFeed List.prefix_rfl

/-- A bid further below the best bid than the array is long. -/
def farBid : List (Input 2) :=
  [(sysMsg 'O'.toUInt8, .newest 2), (addMsg 1 'B'.toUInt8 10 100000, .newest 2),
    (addMsg 2 'B'.toUInt8 10 1, .newest 2)]

theorem wellFormed_farBid : WellFormed farBid := by
  refine ⟨trivial, fun _ => ⟨rfl, .inl rfl, ⟨?_, ?_⟩, ?_⟩, fun _ => ⟨rfl, .inl rfl, ⟨?_, ?_⟩, ?_⟩,
    trivial⟩ <;> decide

/-- The quote is the new bid although the higher one is live. -/
theorem far_bid_quote : WellFormed farBid ∧ ∃ s q, (OrderBook.init 2).replay .debug farBid = .ok s ∧
    s.bestBidOffer = .ok q ∧ q.bidPrice = 1 ∧ s.hasOrder 1 = true ∧ ¬ OptimalQuote s .bid q.bidPrice := by
  refine ⟨wellFormed_farBid, _, ⟨1, 10, 0, 0⟩, rfl, rfl, rfl, rfl, fun hopt => ?_⟩
  have hbest := hopt.2 (Set.nonempty_iff_ne_empty.mp ⟨100000, 1, 0, rfl, rfl, rfl⟩)
  have hle : (100000 : UInt32) ≤ 1 := hbest.2 ⟨1, 0, rfl, rfl, rfl⟩
  exact absurd hle (by decide)

/-! ## The refinement -/

/-- A quote is the best price of the naive book with its quantity modulo `2 ^ 32`, and zero on an empty
side. -/
structure Quotes (a : NaiveBook) (d : Side) (price qty : UInt32) : Prop where
  zero_iff : price = 0 ↔ a.prices d = ∅
  qty_zero : a.prices d = ∅ → qty = 0
  best : a.prices d ≠ ∅ → IsBestPrice d (a.prices d) price
  qty_eq : a.prices d ≠ ∅ → qty.toNat = a.qtyAt d price % 2 ^ 32

/-- **The book shows exactly what the naive book holds.** -/
structure Agrees (s : OrderBook n) (a : NaiveBook) : Prop where
  hasOrder : ∀ r, s.hasOrder r = (a.orders.lookup r).isSome
  orderCount : s.orderCount = a.size
  isOpen : s.isOpen = a.isOpen
  inRange : ∀ r o, a.orders.lookup r = some o → ∃ idx,
    priceIdx (sideOf o.side) (s.sides (sideOf o.side)).ref o.price = .ok idx ∧ InArray idx
  level : ∀ d price idx, price.toNat < 2 ^ 31 → priceIdx d (s.sides d).ref price = .ok idx →
    InArray idx → ∃ lvl, s.levelPtr d idx = some lvl ∧
      lvl.totalQty.toNat = a.qtyAt d price ∧ lvl.orderCount.toNat = a.countAt d price
  bbo : ∃ q, s.bestBidOffer = .ok q ∧ Quotes a .bid q.bidPrice q.bidQty ∧
    Quotes a .ask q.askPrice q.askQty

theorem Sim.quotes {s : OrderBook n} {r : RefBook} (h : Sim s r) (hr : r.AllHeld) (hn : n < 2 ^ 32)
    {d : Side} {price qty : UInt32} (hq : s.quote d = .ok (price, qty)) :
    Quotes r.book d price qty := by
  have hopt := h.optimalQuote hr hn hq
  unfold OptimalQuote at hopt
  rw [← h.abs.prices_eq] at hopt
  obtain ⟨p, v, hpv, hspec⟩ := h.quote_eq hn d
  rw [hq] at hpv
  cases hpv
  rw [hr.heldPrices_eq] at hspec
  refine ⟨hopt.1, fun he => ?_, hopt.2, fun hne => ?_⟩
  · rcases hspec with ⟨-, -, hz⟩ | ⟨hbest, -⟩
    · exact hz
    · have := hbest.mem
      rw [he] at this
      cases this
  · rcases hspec with ⟨he, -, -⟩ | ⟨-, hv⟩
    · exact absurd he hne
    · exact hv

theorem levelPtr_of_inArray (s : OrderBook n) (d : Side) {idx : ℤ} (hi : InArray idx) :
    s.levelPtr d idx = some ((s.sides d).levels (slotOf idx hi)) := by
  unfold levelPtr
  rw [levelAt_of_mem hi]

theorem Sim.agrees {s : OrderBook n} {r : RefBook} (h : Sim s r) (hr : r.AllHeld)
    (hn : n < 2 ^ 32) : Agrees s r.book := by
  refine ⟨fun ref => ?_, h.abs.size_eq.symm, h.abs.isOpen.symm, fun ref o ho => ?_,
    fun d price idx hp hidx hi => ?_, ?_⟩
  · rw [OrderBook.hasOrder, h.abs.lookup, Option.isSome_map]
  · rw [h.abs.lookup, Option.map_eq_some_iff] at ho
    obtain ⟨p, hp, rfl⟩ := ho
    refine ⟨s.tickOf p, h.rep.priceIdx_eq (mem_liveSet.mpr ⟨ref, hp⟩), ?_⟩
    exact (h.inArray_iff p).mpr (hr ref _ (h.abs.lookup_some hp)).2
  · rw [priceIdx_eq d (h.rep.linked.ref_lt d) hp] at hidx
    cases hidx
    have hprice : priceFromIdx d (s.sides d).ref ((slotOf _ hi : ℕ) : ℤ) = price := by
      rw [slotOf_val]
      exact price_of_tick hi
    refine ⟨_, levelPtr_of_inArray s d hi, ?_, ?_⟩
    · rw [h.level_qty hn, hprice]
    · rw [h.level_count hn, hprice]
  · obtain ⟨q, hq, hbid, hask⟩ := h.bestBidOffer_eq hn
    exact ⟨q, hq, h.quotes hr hn hbid, h.quotes hr hn hask⟩

/-- **Refinement of the naive book.** On a well-formed feed with the prices of each side in one window
the book agrees with the naive book after every message, in both builds and for every iteration order
of the hash table. -/
theorem replay_agrees (hn : n < 2 ^ 32) (b : Build) (feed : List (Input n)) (hw : WellFormed feed)
    (lo : Side → ℕ) (hwin : Windowed lo feed) (pre : List (Input n)) (hpre : pre <+: feed) :
    ∃ s, (OrderBook.init n).replay b pre = .ok s ∧ Agrees s (NaiveBook.init.replay pre) := by
  have hw' : WellFormed pre := Guided.of_isPrefix hw hpre
  have hwin' : Windowed lo pre := Guided.of_isPrefix hwin hpre
  obtain ⟨s, hs, hsim, hheld⟩ := exists_replay_of_windowed (fun _ => hn) hw' hwin'
  have hagrees := hsim.agrees hheld hn
  rw [RefBook.replay_book] at hagrees
  exact ⟨s, hs, hagrees⟩

theorem replay_agrees_sampleFeed : ∃ s, (OrderBook.init 2).replay .debug sampleFeed = .ok s ∧
    Agrees s (NaiveBook.init.replay sampleFeed) :=
  replay_agrees (by decide) .debug sampleFeed wellFormed_sampleFeed (fun _ => 1) windowed_sampleFeed
    sampleFeed List.prefix_rfl

end OrderBook

end L2Book
