import L2Book.Book.Reduction

/-!
# Published quantities

A level counts its shares in 64 bits, `best_bid_offer` publishes them in 32.

* `ExactQty`: the published quantities are the sums of the live shares;
* `TopFits`: the levels at the best indices hold sums of 32 bits; `BestQtyFits`: so do the best prices;
* **`bestBelow_of_replay`**: a run that returned has its best indices in the arrays;
* `Sim.quote_exact_iff`: one side of one state;
* **`bestQty_iff`**: after every message of a windowed feed the quantities are exact exactly when they fit.
-/

namespace L2Book

/-- The quantities of `q` are the sums of the shares of all live orders at its prices. -/
def ExactQty (a : NaiveBook) (q : BBO) : Prop :=
  q.bidQty.toNat = a.qtyAt .bid q.bidPrice ∧ q.askQty.toNat = a.qtyAt .ask q.askPrice

/-- The live orders at the best price of each side hold fewer than `2 ^ 32` shares. -/
def BestQtyFits (a : NaiveBook) : Prop :=
  ∀ d price, IsBestPrice d (a.prices d) price → a.qtyAt d price < 2 ^ 32

theorem Side.forall_iff {P : Side → Prop} : (∀ d, P d) ↔ P .bid ∧ P .ask := by
  constructor
  · exact fun h => ⟨h .bid, h .ask⟩
  · rintro ⟨hbid, hask⟩ d
    cases d with
    | bid => exact hbid
    | ask => exact hask

namespace OrderBook

variable {n : ℕ}

theorem Quotes.exact_iff {a : NaiveBook} {d : Side} {price qty : UInt32} (h : Quotes a d price qty) :
    qty.toNat = a.qtyAt d price ↔ ∀ p, IsBestPrice d (a.prices d) p → a.qtyAt d p < 2 ^ 32 := by
  by_cases hempty : a.prices d = ∅
  · have hnone : ∀ p, p ∉ a.prices d := fun p hp => by
      rw [hempty] at hp
      cases hp
    rw [h.qty_zero hempty, NaiveBook.qtyAt_of_not_mem (hnone price)]
    exact ⟨fun _ p hp => absurd hp.mem (hnone p), fun _ => rfl⟩
  · have hbest := h.best hempty
    rw [h.qty_eq hempty, Nat.mod_eq_iff_lt (by decide)]
    constructor
    · intro hlt p hp
      rw [hp.unique hbest]
      exact hlt
    · exact fun hfit => hfit price hbest

/-! ## Best indices -/

theorem firstNonEmpty_lt (levels : Fin kLevels → PriceLevel n) (i : ℕ) :
    firstNonEmpty levels i < kLevels := by
  fun_induction firstNonEmpty levels i with
  | case1 i hi hempty ih => exact ih
  | case2 i hi hempty => exact Int.ofNat_lt.mpr hi
  | case3 i hi => decide

theorem bestAfter_lt {d : Side} {ref price : UInt32} {best best' : ℤ} (hbest : best < kLevels)
    (h : bestAfter d ref price best = .ok best') : best' < kLevels := by
  unfold bestAfter at h
  obtain ⟨idx, -, h⟩ := of_bind_eq_ok h
  split_ifs at h with hout
  · cases h
    decide
  · cases h
    unfold insertBest
    split_ifs <;> omega

/-- No best index lies behind its array. -/
def BestBelow (s : OrderBook n) : Prop := ∀ d, (s.sides d).bestIdx < kLevels

section BestBelow

variable {b : Build} {it : IterOrder n} {s s' : OrderBook n} {o : Fin n} {ref : UInt64}
  {qty shares price : UInt32} {side : UInt8} {e : Event}

theorem BestBelow.addNew (h : s.BestBelow) (hs : s.addNew b it ref shares price side = .ok s') :
    s'.BestBelow := by
  intro d
  obtain ⟨-, hother, hbest⟩ := addNew_ok hs
  by_cases hd : d = sideOf side
  · subst hd
    exact bestAfter_lt (h _) hbest
  · rw [hother d hd]
    exact h d

theorem BestBelow.removeOrder (h : s.BestBelow) (hs : s.removeOrder b o = .ok s') : s'.BestBelow := by
  intro d
  obtain ⟨-, hother, i, -, hbest⟩ := removeOrder_ok hs
  by_cases hd : d = s.sideAt o
  · subst hd
    rw [hbest]
    split_ifs
    · exact firstNonEmpty_lt _ _
    · exact h _
  · rw [hother d hd]
    exact h d

theorem BestBelow.reduceBy (h : s.BestBelow) (hs : s.reduceBy b ref qty = .ok s') : s'.BestBelow := by
  unfold OrderBook.reduceBy at hs
  cases hr : s.orderMap.lookup ref with
  | none =>
    simp only [hr] at hs
    cases hs
    exact h
  | some o =>
    simp only [hr] at hs
    obtain ⟨s₁, hs₁, hs⟩ := of_bind_eq_ok hs
    obtain ⟨-, -, hbest⟩ := reduceShares_ok hs₁
    have h₁ : s₁.BestBelow := fun d => by
      rw [hbest]
      exact h d
    split_ifs at hs
    · obtain ⟨s₂, hs₂, hs⟩ := of_bind_eq_ok hs
      cases hs
      have h₂ : s₂.BestBelow := h₁.removeOrder hs₂
      exact fun d => h₂ d
    · cases hs
      exact h₁

theorem BestBelow.deleteRef (h : s.BestBelow) (hs : s.deleteRef b ref = .ok s') : s'.BestBelow := by
  unfold OrderBook.deleteRef at hs
  cases hr : s.orderMap.lookup ref with
  | none =>
    simp only [hr] at hs
    cases hs
    exact h
  | some o =>
    simp only [hr] at hs
    obtain ⟨s₁, hs₁, hs⟩ := of_bind_eq_ok hs
    cases hs
    have h₁ : s₁.BestBelow := h.removeOrder hs₁
    exact fun d => h₁ d

/-- **A message that returned** keeps the best indices in the arrays. -/
theorem BestBelow.apply (h : s.BestBelow) (hs : s.apply b it e = .ok s') : s'.BestBelow := by
  cases e with
  | system code =>
    simp only [OrderBook.apply] at hs
    cases hs
    split_ifs
    · exact h
    · exact h
    · intro d
      rw [halt_eq]
      show (-1 : ℤ) < kLevels
      decide
    · exact h
  | add ref side shares price =>
    simp only [OrderBook.apply, addRef] at hs
    split_ifs at hs
    · cases hs
      exact h
    · exact h.addNew hs
  | reduce ref qty => exact h.reduceBy hs
  | delete ref => exact h.deleteRef hs
  | replace oldRef newRef shares price =>
    cases hr : s.orderMap.lookup oldRef with
    | none =>
      simp only [OrderBook.apply, replaceRef, hr] at hs
      cases hs
      exact h
    | some o =>
      obtain ⟨s₁, hs₁, hs⟩ := deleteRef_of_replaceRef hr hs
      exact (h.deleteRef hs₁).addNew hs
  | ignore =>
    cases hs
    exact h

/-- **Best indices stay in the arrays** in every run that returned. -/
theorem bestBelow_of_replay {feed : List (Input n)} (hs : (OrderBook.init n).replay b feed = .ok s) :
    s.BestBelow := by
  refine run_invariant BestBelow (fun s x s' h hs => ?_) (fun d => ?_) hs
  · rw [dispatch_eq_apply] at hs
    exact h.apply hs
  · show (-1 : ℤ) < kLevels
    decide

end BestBelow

/-! ## Quantities -/

/-- The level at each best index holds fewer than `2 ^ 32` shares. -/
def TopFits (s : OrderBook n) : Prop :=
  ∀ d (i : Fin kLevels), (s.sides d).bestIdx = (i : ℕ) → s.levelSum d i < 2 ^ 32

theorem Sim.not_mem_prices_zero {s : OrderBook n} {r : RefBook} (h : Sim s r) (d : Side) :
    (0 : UInt32) ∉ r.book.prices d := by
  rintro ⟨ref, o, ho, -, hprice⟩
  rw [h.abs.lookup, Option.map_eq_some_iff] at ho
  obtain ⟨p, hp, rfl⟩ := ho
  have hpos := h.rep.linked.price_pos p (mem_liveSet.mpr ⟨ref, hp⟩)
  change (s.order p).price = 0 at hprice
  rw [hprice] at hpos
  exact absurd hpos (by decide)

/-- **One quote**, whatever the size of the pool. -/
theorem Sim.quote_exact_iff {s : OrderBook n} {r : RefBook} (h : Sim s r) (hbest : s.BestBelow) (d : Side) :
    ∃ price qty, s.quote d = .ok (price, qty) ∧ (qty.toNat = r.book.qtyAt d price ↔
      ∀ i : Fin kLevels, (s.sides d).bestIdx = (i : ℕ) → s.levelSum d i < 2 ^ 32) := by
  by_cases hneg : (s.sides d).bestIdx < 0
  · refine ⟨0, 0, ?_, ?_⟩
    · unfold quote
      rw [if_neg (by omega)]
    · rw [NaiveBook.qtyAt_of_not_mem (h.not_mem_prices_zero d)]
      refine ⟨fun _ i hi => ?_, fun _ => rfl⟩
      omega
  · obtain ⟨i, hi⟩ : ∃ i : Fin kLevels, (s.sides d).bestIdx = (i : ℕ) :=
      ⟨slotOf _ ⟨not_lt.mp hneg, hbest d⟩, (slotOf_val _).symm⟩
    refine ⟨priceFromIdx d (s.sides d).ref (i : ℕ), ((s.sides d).levels i).totalQty.toUInt32, ?_, ?_⟩
    · unfold quote
      simp only [hi, levelAt_coe, ok_bind]
      rw [if_pos (by omega)]
    · have hsum : s.levelSum d i = r.book.qtyAt d (priceFromIdx d (s.sides d).ref (i : ℕ)) :=
        h.sharesSum_eq d i
      rw [UInt64.toNat_toUInt32, h.rep.totalQty_eq, UInt64.toNat_ofNat', ← hsum,
        Nat.mod_mod_of_dvd _ (by decide), Nat.mod_eq_iff_lt (by decide)]
      constructor
      · intro hlt j hj
        rw [hi, Int.natCast_inj, Fin.val_inj] at hj
        rw [← hj]
        exact hlt
      · exact fun hfit => hfit i hi

theorem Sim.exactQty_iff {s : OrderBook n} {r : RefBook} (h : Sim s r) (hbest : s.BestBelow) :
    ∃ q, s.bestBidOffer = .ok q ∧ (ExactQty r.book q ↔ s.TopFits) := by
  obtain ⟨bidPrice, bidQty, hbid, hbidQty⟩ := h.quote_exact_iff hbest .bid
  obtain ⟨askPrice, askQty, hask, haskQty⟩ := h.quote_exact_iff hbest .ask
  refine ⟨⟨bidPrice, bidQty, askPrice, askQty⟩, ?_, ?_⟩
  · unfold bestBidOffer
    rw [hbid, hask]
    rfl
  · unfold ExactQty TopFits
    rw [hbidQty, haskQty, Side.forall_iff]

theorem Agrees.exactQty_iff {s : OrderBook n} {a : NaiveBook} (h : Agrees s a) {q : BBO}
    (hq : s.bestBidOffer = .ok q) : ExactQty a q ↔ BestQtyFits a := by
  obtain ⟨q', hq', hbid, hask⟩ := h.bbo
  rw [hq] at hq'
  cases hq'
  unfold ExactQty BestQtyFits
  rw [hbid.exact_iff, hask.exact_iff, Side.forall_iff]

/-- **When the published quantities are exact.** After every message of a well-formed feed whose prices stay
in one window a side, `best_bid_offer` reports exact quantities if and only if the level at each best index
holds fewer than `2 ^ 32` shares. In a pool of fewer than `2 ^ 32` slots these are the live orders at the
best price of each side. -/
theorem bestQty_iff (b : Build) (feed : List (Input n)) (hw : WellFormed feed) (lo : Side → ℕ)
    (hwin : Windowed lo feed) (pre : List (Input n)) (hpre : pre <+: feed) :
    ((b = .debug → n < 2 ^ 32) → ∃ s, (OrderBook.init n).replay b pre = .ok s) ∧
    ∀ s, (OrderBook.init n).replay b pre = .ok s → ∃ q, s.bestBidOffer = .ok q ∧
      (ExactQty (NaiveBook.init.replay pre) q ↔ s.TopFits) ∧
      (n < 2 ^ 32 → (s.TopFits ↔ BestQtyFits (NaiveBook.init.replay pre))) := by
  have hw' : WellFormed pre := Guided.of_isPrefix hw hpre
  have hwin' : Windowed lo pre := Guided.of_isPrefix hwin hpre
  refine ⟨fun hb => ?_, fun s hs => ?_⟩
  · obtain ⟨s, hs, -⟩ := exists_replay_of_windowed hb hw' hwin'
    exact ⟨s, hs⟩
  · have hsim : Sim s (RefBook.init.replay pre) := sim_init.of_replay hw' hs
    obtain ⟨-, -, -, hheld⟩ := exists_replay_of_windowed (b := .release) nofun hw' hwin'
    obtain ⟨q, hq, hexact⟩ := hsim.exactQty_iff (bestBelow_of_replay hs)
    rw [NaiveBook.init_replay]
    exact ⟨q, hq, hexact, fun hn => hexact.symm.trans ((hsim.agrees hheld hn).exactQty_iff hq)⟩

/-- Two bids of `2 ^ 31` shares at one price. -/
def halfBids : List (Input 2) :=
  [(sysMsg 'O'.toUInt8, .newest 2), (addMsg 1 'B'.toUInt8 0x80000000 100, .newest 2),
    (addMsg 2 'B'.toUInt8 0x80000000 100, .newest 2)]

theorem wellFormed_halfBids : WellFormed halfBids := by
  refine ⟨trivial, fun _ => ⟨rfl, .inl rfl, ⟨?_, ?_⟩, ?_⟩, fun _ => ⟨rfl, .inl rfl, ⟨?_, ?_⟩, ?_⟩,
    trivial⟩ <;> decide

theorem windowed_halfBids : Windowed (fun _ => 1) halfBids := by
  refine ⟨nofun, fun ref d price h => ?_, fun ref d price h => ?_, trivial⟩ <;>
    · cases h
      exact ⟨by decide, by decide⟩

/-- The quote shows no shares where `2 ^ 32` rest. -/
theorem half_bids_quote : WellFormed halfBids ∧ Windowed (fun _ => 1) halfBids ∧
    ∃ s q, (OrderBook.init 2).replay .debug halfBids = .ok s ∧ s.bestBidOffer = .ok q ∧
      q.bidPrice = 100 ∧ q.bidQty = 0 ∧ (NaiveBook.init.replay halfBids).qtyAt .bid 100 = 2 ^ 32 ∧
      ¬ ExactQty (NaiveBook.init.replay halfBids) q := by
  have hqty : (NaiveBook.init.replay halfBids).qtyAt .bid 100 = 2 ^ 32 := by decide
  refine ⟨wellFormed_halfBids, windowed_halfBids, _, ⟨100, 0, 0, 0⟩, rfl, rfl, rfl, rfl, hqty, ?_⟩
  rintro ⟨hbid, -⟩
  rw [hqty] at hbid
  exact absurd hbid (by decide)

theorem bestQty_iff_sampleFeed : ∃ s q, (OrderBook.init 2).replay .debug sampleFeed = .ok s ∧
    s.bestBidOffer = .ok q ∧ (ExactQty (NaiveBook.init.replay sampleFeed) q ↔ s.TopFits) ∧
    (s.TopFits ↔ BestQtyFits (NaiveBook.init.replay sampleFeed)) := by
  obtain ⟨hrun, hqty⟩ := bestQty_iff .debug sampleFeed wellFormed_sampleFeed (fun _ => 1)
    windowed_sampleFeed sampleFeed List.prefix_rfl
  obtain ⟨s, hs⟩ := hrun fun _ => by decide
  obtain ⟨q, hq, hexact, hbest⟩ := hqty s hs
  exact ⟨s, q, hs, hq, hexact, hbest (by decide)⟩

end OrderBook

end L2Book
