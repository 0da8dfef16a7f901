import L2Book.Lib.Double
import L2Book.Book.Analytics
import L2Book.Book.Restart

/-!
# Metrics in doubles

`bbo.hpp` and `analytics.hpp`, with the arithmetic of doubles.

* `BBO.valid`, `BBO.spreadTicks`, `BBO.midPrice`; `Analytics.midPrice`, `Analytics.spread`,
  `Analytics.orderFlowImbalance`: what the code computes;
* `NaiveBook.Uncrossed`: both sides have orders, and every bid is below every ask;
* **`imbalance_bounds`**: the imbalance lies in `[-1, 1]` and has the sign of the difference, also after
  rounding;
* **`topOfBook_exact`**: on every feed that the book can follow, mid and spread are the exact ones;
* `Analytics.vwapDouble`: the loops of `vwap`; **`abs_vwapDouble_sub_le`**: how far it is from the exact
  average.
-/

namespace L2Book

/-! ## What the code computes -/

namespace BBO

/-- `valid()`. -/
def valid (q : BBO) : Bool := decide (q.bidPrice > 0 ∧ q.askPrice > 0 ∧ q.bidPrice < q.askPrice)

/-- `spread_ticks()`. -/
def spreadTicks (q : BBO) : ℚ := if q.valid then (q.askPrice - q.bidPrice).toNat else 0

/-- `mid_price()`: the sum is one of 32-bit values. -/
def midPrice (q : BBO) : ℚ := if q.valid then roundDouble ((q.bidPrice + q.askPrice).toNat / 2) else 0

end BBO

namespace Analytics

variable {n : ℕ}

/-- `mid_price()`. -/
def midPrice (book : OrderBook n) : Except Fault ℚ := do
  let bbo ← book.bestBidOffer
  .ok (if !bbo.valid then 0 else roundDouble ((bbo.bidPrice + bbo.askPrice).toNat / 2))

/-- `spread()`. -/
def spread (book : OrderBook n) : Except Fault ℚ := do
  let bbo ← book.bestBidOffer
  .ok (if !bbo.valid then 0 else (bbo.askPrice - bbo.bidPrice).toNat)

/-- The arithmetic of `order_flow_imbalance()`. -/
def imbalance (bid ask : ℚ) : ℚ :=
  let total := roundDouble (bid + ask)
  if total = 0 then 0 else roundDouble (roundDouble (bid - ask) / total)

/-- `order_flow_imbalance()`. -/
def orderFlowImbalance (book : OrderBook n) : Except Fault ℚ := do
  let bbo ← book.bestBidOffer
  .ok (imbalance bbo.bidQty.toNat bbo.askQty.toNat)

end Analytics

/-! ## The imbalance -/

namespace Analytics

theorem roundDouble_intCast {m : ℤ} (hm : |m| ≤ 2 ^ 53) : roundDouble m = m := by
  have h := roundDouble_exact hm 0
  rwa [zpow_zero, mul_one] at h

theorem imbalance_eq {bid ask : ℕ} (hbid : bid < 2 ^ 32) (hask : ask < 2 ^ 32) :
    imbalance bid ask = roundDouble ((bid - ask) / (bid + ask)) := by
  have hsum : roundDouble ((bid : ℚ) + ask) = bid + ask := by
    have h := roundDouble_intCast (m := bid + ask) (by rw [abs_le]; omega)
    exact_mod_cast h
  have hdiff : roundDouble ((bid : ℚ) - ask) = bid - ask := by
    have h := roundDouble_intCast (m := bid - ask) (by rw [abs_le]; omega)
    exact_mod_cast h
  unfold imbalance
  dsimp only
  rw [hsum, hdiff]
  split_ifs with hzero
  · rw [hzero, div_zero]
    exact_mod_cast (roundDouble_intCast (m := 0) (by norm_num)).symm
  · rfl

theorem imbalance_swap {bid ask : ℕ} (hbid : bid < 2 ^ 32) (hask : ask < 2 ^ 32) :
    imbalance ask bid = -imbalance bid ask := by
  rw [imbalance_eq hbid hask, imbalance_eq hask hbid, ← roundDouble_neg, ← neg_div, neg_sub,
    add_comm (bid : ℚ)]

/-- More bids give a positive imbalance: the quotient does not vanish in rounding. -/
theorem imbalance_pos {bid ask : ℕ} (hbid : bid < 2 ^ 32) (hlt : ask < bid) : 0 < imbalance bid ask := by
  rw [imbalance_eq hbid (hlt.trans hbid)]
  have hquot : (1 : ℤ) * (2 : ℚ) ^ (-33 : ℤ) ≤ ((bid : ℚ) - ask) / (bid + ask) := by
    have h₁ : (ask : ℚ) + 1 ≤ bid := by exact_mod_cast hlt
    have h₂ : (bid : ℚ) < 2 ^ 32 := by exact_mod_cast hbid
    have h₃ : (0 : ℚ) ≤ ask := ask.cast_nonneg
    rw [le_div_iff₀ (by linarith)]
    norm_num
    linarith
  refine lt_of_lt_of_le ?_ (roundDouble_mono hquot)
  rw [roundDouble_exact (by norm_num)]
  norm_num

theorem imbalance_self {bid : ℕ} (hbid : bid < 2 ^ 32) : imbalance bid bid = 0 := by
  rw [imbalance_eq hbid hbid, sub_self, zero_div]
  exact_mod_cast roundDouble_intCast (m := 0) (by norm_num)

/-- With asks left the imbalance stays below one. -/
theorem imbalance_lt_one {bid ask : ℕ} (hbid : bid < 2 ^ 32) (hask : ask < 2 ^ 32) (hpos : 0 < ask) :
    imbalance bid ask < 1 := by
  rw [imbalance_eq hbid hask]
  have hquot : ((bid : ℚ) - ask) / (bid + ask) ≤ (2 ^ 32 - 1 : ℤ) * (2 : ℚ) ^ (-32 : ℤ) := by
    have h₁ : (bid : ℚ) < 2 ^ 32 := by exact_mod_cast hbid
    have h₂ : (ask : ℚ) < 2 ^ 32 := by exact_mod_cast hask
    have h₃ : (1 : ℚ) ≤ ask := by exact_mod_cast hpos
    have h₄ : (0 : ℚ) ≤ bid := bid.cast_nonneg
    rw [div_le_iff₀ (by linarith)]
    norm_num
    linarith
  refine lt_of_le_of_lt (roundDouble_mono hquot) ?_
  rw [roundDouble_exact (by norm_num)]
  norm_num

theorem imbalance_of_zero {bid : ℕ} (hbid : bid < 2 ^ 32) (hpos : 0 < bid) :
    imbalance bid (0 : ℕ) = 1 := by
  have hne : (bid : ℚ) ≠ 0 := by exact_mod_cast hpos.ne'
  rw [imbalance_eq hbid (by norm_num), Nat.cast_zero, sub_zero, add_zero, div_self hne]
  exact_mod_cast roundDouble_intCast (m := 1) (by norm_num)

theorem imbalance_le_one {bid ask : ℕ} (hbid : bid < 2 ^ 32) (hask : ask < 2 ^ 32) :
    imbalance bid ask ≤ 1 := by
  rcases ask.eq_zero_or_pos with rfl | hpos
  · rcases bid.eq_zero_or_pos with rfl | hb
    · rw [imbalance_self hask]
      exact zero_le_one
    · exact (imbalance_of_zero hbid hb).le
  · exact (imbalance_lt_one hbid hask hpos).le

/-- **The imbalance** lies in `[-1, 1]`, its sign is that of the difference, and it is one exactly without
asks. -/
structure Imbalance (x : ℚ) (bid ask : ℕ) : Prop where
  lower : -1 ≤ x
  upper : x ≤ 1
  pos_iff : 0 < x ↔ ask < bid
  neg_iff : x < 0 ↔ bid < ask
  one_iff : x = 1 ↔ ask = 0 ∧ 0 < bid

theorem imbalance_spec {bid ask : ℕ} (hbid : bid < 2 ^ 32) (hask : ask < 2 ^ 32) :
    Imbalance (imbalance bid ask) bid ask := by
  have hswap := imbalance_swap hbid hask
  have hneg : bid < ask → imbalance bid ask < 0 := fun hlt => by
    have := imbalance_pos hask hlt
    linarith
  have hpos : ask < bid → 0 < imbalance bid ask := imbalance_pos hbid
  have hzero : bid = ask → imbalance bid ask = 0 := fun h => h ▸ imbalance_self hbid
  refine ⟨?_, imbalance_le_one hbid hask, ⟨fun h => ?_, hpos⟩, ⟨fun h => ?_, hneg⟩, ⟨fun h => ?_, ?_⟩⟩
  · have := imbalance_le_one hask hbid
    linarith
  · rcases lt_trichotomy ask bid with hlt | heq | hlt
    · exact hlt
    · exact absurd (hzero heq.symm) h.ne'
    · exact absurd (hneg hlt) h.not_gt
  · rcases lt_trichotomy ask bid with hlt | heq | hlt
    · exact absurd (hpos hlt) h.not_gt
    · exact absurd (hzero heq.symm) h.ne
    · exact hlt
  · have hask0 : ask = 0 := by
      by_contra hne
      exact (imbalance_lt_one hbid hask (Nat.pos_of_ne_zero hne)).ne h
    refine ⟨hask0, Nat.pos_of_ne_zero fun hb => ?_⟩
    rw [hzero (hb.trans hask0.symm)] at h
    exact zero_ne_one h
  · rintro ⟨rfl, hb⟩
    exact imbalance_of_zero hbid hb

end Analytics

/-! ## Reachable books -/

/-- Both sides have orders, and every bid is below every ask. -/
def NaiveBook.Uncrossed (a : NaiveBook) : Prop :=
  (a.prices .bid).Nonempty ∧ (a.prices .ask).Nonempty ∧
    ∀ p ∈ a.prices .bid, ∀ q ∈ a.prices .ask, p < q

/-- **What the metrics show**, by the live orders. -/
structure TopOfBook {n : ℕ} (s : OrderBook n) (a : NaiveBook) : Prop where
  uncrossed : ∀ bid ask, a.Uncrossed → IsBestPrice .bid (a.prices .bid) bid →
    IsBestPrice .ask (a.prices .ask) ask →
    Analytics.midPrice s = .ok (((bid.toNat : ℚ) + ask.toNat) / 2) ∧
      Analytics.spread s = .ok ((ask.toNat : ℚ) - bid.toNat)
  otherwise : ¬ a.Uncrossed → Analytics.midPrice s = .ok 0 ∧ Analytics.spread s = .ok 0
  imbalance : ∃ q x, s.bestBidOffer = .ok q ∧ Analytics.orderFlowImbalance s = .ok x ∧
    Analytics.Imbalance x q.bidQty.toNat q.askQty.toNat

namespace OrderBook

variable {n : ℕ} {s : OrderBook n} {a : NaiveBook} {q : BBO}

theorem valid_iff (hbid : Quotes a .bid q.bidPrice q.bidQty) (hask : Quotes a .ask q.askPrice q.askQty) :
    q.valid = true ↔ a.Uncrossed := by
  have hpos : ∀ p : UInt32, p > 0 ↔ p ≠ 0 := by
    intro p
    constructor
    · rintro h rfl
      exact absurd h (by decide)
    · intro h
      exact UInt32.lt_iff_toNat_lt.mpr (Nat.pos_of_ne_zero fun e => h (UInt32.toNat_inj.mp e))
  have hne : ∀ d, a.prices d ≠ ∅ ↔ (a.prices d).Nonempty := fun d => Set.nonempty_iff_ne_empty.symm
  unfold BBO.valid NaiveBook.Uncrossed
  rw [decide_eq_true_iff, hpos, hpos, Ne, hbid.zero_iff, Ne, hask.zero_iff, ← Ne, ← Ne, hne, hne]
  refine and_congr_right fun hb => and_congr_right fun ha => ?_
  have hbest := hbid.best ((hne .bid).mpr hb)
  have hbest' := hask.best ((hne .ask).mpr ha)
  constructor
  · intro hlt p hp p' hp'
    exact UInt32.lt_of_le_of_lt (hbest.2 hp) (UInt32.lt_of_lt_of_le hlt (hbest'.2 hp'))
  · intro hall
    exact hall _ hbest.mem _ hbest'.mem

theorem roundDouble_half {m : ℕ} (hm : m < 2 ^ 32) : roundDouble (m / 2) = m / 2 := by
  have h := roundDouble_exact (m := m) (by rw [Nat.abs_cast]; omega) (-1)
  rw [zpow_neg_one] at h
  exact_mod_cast h

theorem midPrice_of_quote (hq : s.bestBidOffer = .ok q) : Analytics.midPrice s = .ok q.midPrice := by
  simp only [Analytics.midPrice, hq, ok_bind, BBO.midPrice]
  cases q.valid <;> rfl

theorem spread_of_quote (hq : s.bestBidOffer = .ok q) : Analytics.spread s = .ok q.spreadTicks := by
  simp only [Analytics.spread, hq, ok_bind, BBO.spreadTicks]
  cases q.valid <;> rfl

/-- **The metrics of a book** that agrees with a naive book of valid prices. -/
theorem Agrees.topOfBook (h : Agrees s a) (hprice : ∀ d, ∀ p ∈ a.prices d, p.toNat < 2 ^ 31) :
    TopOfBook s a := by
  obtain ⟨q, hq, hbid, hask⟩ := h.bbo
  have hmid := midPrice_of_quote hq
  have hspread := spread_of_quote hq
  have hvalid := valid_iff hbid hask
  refine ⟨fun bid ask hu hb ha => ?_, fun hu => ?_, q, _, hq, ?_, Analytics.imbalance_spec
    q.bidQty.toNat_lt q.askQty.toNat_lt⟩
  · obtain ⟨hnb, hna, hlt⟩ := hu
    obtain rfl : q.bidPrice = bid := (hbid.best hnb.ne_empty).unique hb
    obtain rfl : q.askPrice = ask := (hask.best hna.ne_empty).unique ha
    have hv : q.valid = true := hvalid.mpr ⟨hnb, hna, hlt⟩
    have hb31 := hprice .bid _ hb.mem
    have ha31 := hprice .ask _ ha.mem
    have hle := UInt32.lt_iff_toNat_lt.mp (hlt _ hb.mem _ ha.mem)
    have hsum : (q.bidPrice + q.askPrice).toNat = q.bidPrice.toNat + q.askPrice.toNat := by
      rw [UInt32.toNat_add, Nat.mod_eq_of_lt (by omega)]
    have hdiff : (q.askPrice - q.bidPrice).toNat = q.askPrice.toNat - q.bidPrice.toNat :=
      UInt32.toNat_sub_of_le _ _ (UInt32.le_iff_toNat_le.mpr hle.le)
    rw [hmid, hspread, BBO.midPrice, BBO.spreadTicks, if_pos hv, if_pos hv, hsum, hdiff,
      roundDouble_half (by omega), Nat.cast_sub hle.le, Nat.cast_add]
    exact ⟨rfl, rfl⟩
  · have hv : ¬ q.valid = true := hvalid.not.mpr hu
    rw [hmid, hspread, BBO.midPrice, BBO.spreadTicks, if_neg hv, if_neg hv]
    exact ⟨rfl, rfl⟩
  · simp only [Analytics.orderFlowImbalance, hq, ok_bind]

/-- **The metrics of the top of the book** are exact on every feed that the book can follow: mid and spread
are those of the best live prices if the book is uncrossed, and `0` otherwise. No sum of prices wraps. -/
theorem topOfBook_exact (hn : n < 2 ^ 32) (b : Build) {lo : Side → ℕ} (feed : List (Input n))
    (hok : FeedOk n lo (events feed)) : ∃ s, (OrderBook.init n).replay b feed = .ok s ∧
      TopOfBook s (.after (events feed)) := by
  obtain ⟨s, hs, ha⟩ := hok.exists_replay hn b List.prefix_rfl
  have htidy : Tidy n lo (.after (events feed)) := tidy_after tidy_init hok
  refine ⟨s, hs, ha.topOfBook fun d p hp => ?_⟩
  obtain ⟨ref, o, ho, -, rfl⟩ := hp
  exact (htidy.order ref o ho).2.1.2

theorem topOfBook_exact_sampleFeed : ∃ s, (OrderBook.init 2).replay .release sampleFeed = .ok s ∧
    TopOfBook s (.after (events sampleFeed)) :=
  topOfBook_exact (by decide) .release sampleFeed
    (feedOk_iff.mpr ⟨wellFormed_sampleFeed, windowed_sampleFeed⟩)

end OrderBook

/-! ## The weighted average -/

namespace Analytics

variable {n : ℕ}

/-- The body of the loops of `vwap`, in doubles: `price_qty_sum += price * qty` may be fused. -/
def addDouble (fused : Bool) (price : UInt32) (lvl : Option (PriceLevel n)) (sums : ℚ × ℚ) : ℚ × ℚ :=
  match lvl with
  | some lvl =>
    if lvl.empty then sums
    else
      let qty := roundDouble lvl.totalQty.toNat
      (mulAdd fused price.toNat qty sums.1, roundDouble (sums.2 + qty))
  | none => sums

def vwapDoubleSums (fused : ℕ → Bool) (book : OrderBook n) (side : UInt8) (levels : ℤ) : ℚ × ℚ :=
  (List.range (depth levels)).foldl
    (fun sums (i : ℕ) => addDouble (fused i) (priceFromIdx (sideOf side) (book.sides (sideOf side)).ref i)
      (book.levelPtr (sideOf side) i) sums) (0, 0)

/-- `vwap(side, levels)`, where the iterations `i` with `fused i` are fused. -/
def vwapDouble (fused : ℕ → Bool) (book : OrderBook n) (side : UInt8) (levels : ℤ) : ℚ :=
  let sums := vwapDoubleSums fused book side levels
  if sums.2 > 0 then roundDouble (sums.1 / sums.2) else 0

theorem depth_le (levels : ℤ) : depth levels ≤ kLevels := by
  unfold depth
  split_ifs <;> omega

/-- The sums in doubles are near the exact ones. -/
structure NearSums (k : ℕ) (c : ℚ × ℚ) (sums : ℕ × ℕ) : Prop where
  value : Near k c.1 sums.1
  qty : Near k c.2 sums.2

/-- **An iteration** adds one rounding error to both sums. -/
theorem NearSums.add {k : ℕ} {c : ℚ × ℚ} {sums : ℕ × ℕ} (h : NearSums k c sums) (hk : 2 ≤ k)
    (fused : Bool) (price : UInt32) (lvl : Option (PriceLevel n)) :
    NearSums (k + 1) (addDouble fused price lvl c) (addValue price lvl sums) := by
  have hsame : NearSums (k + 1) c sums := ⟨h.value.mono k.le_succ, h.qty.mono k.le_succ⟩
  cases lvl with
  | none => exact hsame
  | some lvl =>
    unfold addDouble addValue
    dsimp only
    split_ifs
    · exact hsame
    · have hqty : Near 1 (roundDouble lvl.totalQty.toNat) lvl.totalQty.toNat :=
        (Near.refl (Nat.cast_nonneg _)).round
      refine ⟨?_, ?_⟩
      · push_cast
        rw [add_comm (sums.1 : ℚ)]
        exact hqty.mulAdd fused (Nat.cast_nonneg _) h.value hk
      · push_cast
        exact (h.qty.add (hqty.mono (one_le_two.trans hk))).round

/-- **The loop.** -/
theorem nearSums_loop (fused : ℕ → Bool) (f : ℕ → UInt32) (g : ℕ → Option (PriceLevel n)) (is : List ℕ)
    {k : ℕ} {c : ℚ × ℚ} {sums : ℕ × ℕ} (h : NearSums k c sums) (hk : 2 ≤ k) :
    NearSums (k + is.length) (is.foldl (fun c i => addDouble (fused i) (f i) (g i) c) c)
      (is.foldl (fun sums i => addValue (f i) (g i) sums) sums) := by
  induction is generalizing k c sums with
  | nil => exact h
  | cons i is ih =>
    have hrest := ih (h.add hk (fused i) (f i) (g i)) (hk.trans k.le_succ)
    rw [Nat.add_right_comm] at hrest
    exact hrest

/-- **The average in doubles** has a relative error of at most `2 ^ (-37)`, for every book, side byte and
number of levels, whichever multiply-adds are fused; it is `0` for the same books as the exact one. -/
theorem abs_vwapDouble_sub_le (fused : ℕ → Bool) (book : OrderBook n) (side : UInt8) (levels : ℤ) :
    |vwapDouble fused book side levels - vwap book side levels| ≤ vwap book side levels / 2 ^ 37 := by
  have hinit : NearSums 2 (0, 0) (0, 0) := by
    have hzero : Near 2 0 ((0 : ℕ) : ℚ) := by
      rw [Nat.cast_zero]
      exact (Near.refl le_rfl).mono (Nat.zero_le 2)
    exact ⟨hzero, hzero⟩
  have hsums : NearSums (2 + depth levels) (vwapDoubleSums fused book side levels)
      (vwapSums book side levels) := by
    have hloop := nearSums_loop fused (fun i => priceFromIdx (sideOf side) (book.sides (sideOf side)).ref i)
      (fun i => book.levelPtr (sideOf side) i) (List.range (depth levels)) hinit le_rfl
    rwa [List.length_range] at hloop
  have hdepth := depth_le levels
  have hk : kLevels = 8192 := rfl
  unfold vwapDouble vwap
  dsimp only
  have hpos : (vwapDoubleSums fused book side levels).2 > 0 ↔ (vwapSums book side levels).2 > 0 := by
    rw [gt_iff_lt, hsums.qty.pos_iff]
    exact Nat.cast_pos
  by_cases hq : (vwapSums book side levels).2 > 0
  · rw [if_pos hq, if_pos (hpos.mpr hq)]
    exact ((hsums.value.div hsums.qty (Nat.cast_pos.mpr hq)).round).abs_sub_le (by omega)
  · rw [if_neg hq, if_neg (hpos.not.mpr hq), sub_zero, abs_zero, zero_div]

end Analytics

end L2Book
