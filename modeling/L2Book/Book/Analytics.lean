import Mathlib.Algebra.BigOperators.Group.Finset.Basic
import Mathlib.Algebra.Order.BigOperators.Group.Finset
import Mathlib.Algebra.Order.Field.Rat
import L2Book.Book.Validator

/-!
# Depth analytics

* `Analytics.visibleQty`, `Analytics.vwap`: the loops of `analytics.hpp` over the first slots of the
  array, with exact sums in place of doubles;
* `NaiveBook.topPrices`: the best occupied prices, `topQty` and `topValue` their sums;
* `sum_slots`: a sum over the first slots is a sum over the occupied prices near the reference;
* `StartsAtBest`: the analytics describe the best prices;
* **`startsAtBest_iff`**: they do exactly if the best prices lie near the reference.
-/

namespace L2Book

/-! ## The loops -/

namespace Analytics

variable {n : ℕ}

/-- The bound of both loops. -/
def depth (levels : ℤ) : ℕ := (if levels > kLevels then (kLevels : ℤ) else levels).toNat

/-- The body of the loop of `visible_qty`. -/
def addQty (lvl : Option (PriceLevel n)) (total : UInt64) : UInt64 :=
  match lvl with
  | some lvl => total + lvl.totalQty
  | none => total

/-- `visible_qty(side, levels)`. -/
def visibleQty (book : OrderBook n) (side : UInt8) (levels : ℤ) : UInt64 :=
  (List.range (depth levels)).foldl
    (fun total (i : ℕ) => addQty (book.levelPtr (sideOf side) i) total) 0

/-- The body of the loops of `vwap`: `price_qty_sum` and `qty_sum`. -/
def addValue (price : UInt32) (lvl : Option (PriceLevel n)) (sums : ℕ × ℕ) : ℕ × ℕ :=
  match lvl with
  | some lvl =>
    if lvl.empty then sums
    else (sums.1 + price.toNat * lvl.totalQty.toNat, sums.2 + lvl.totalQty.toNat)
  | none => sums

def vwapSums (book : OrderBook n) (side : UInt8) (levels : ℤ) : ℕ × ℕ :=
  (List.range (depth levels)).foldl
    (fun sums (i : ℕ) => addValue (priceFromIdx (sideOf side) (book.sides (sideOf side)).ref i)
      (book.levelPtr (sideOf side) i) sums) (0, 0)

/-- `vwap(side, levels)`. -/
def vwap (book : OrderBook n) (side : UInt8) (levels : ℤ) : ℚ :=
  let sums := vwapSums book side levels
  if sums.2 > 0 then (sums.1 : ℚ) / sums.2 else 0

theorem depth_of_le {N : ℕ} (hN : N ≤ kLevels) : depth N = N := by
  unfold depth
  rw [if_neg (by omega), Int.toNat_natCast]

end Analytics

/-! ## The best prices -/

instance (d : Side) (p q : UInt32) : Decidable (Better d p q) :=
  match d with
  | .bid => inferInstanceAs (Decidable (q < p))
  | .ask => inferInstanceAs (Decidable (p < q))

namespace NaiveBook

/-- The prices of the live orders of side `d`. -/
def levelPrices (a : NaiveBook) (d : Side) : Finset UInt32 :=
  (((a.orders.entries.map (·.2)).filter fun o => sideOf o.side = d).map (·.price)).toFinset

/-- **The best `N` occupied prices**: fewer than `N` are better. -/
def topPrices (a : NaiveBook) (d : Side) (N : ℕ) : Finset UInt32 :=
  (a.levelPrices d).filter fun p => ((a.levelPrices d).filter fun q => Better d q p).card < N

/-- The quantity that rests at them. -/
def topQty (a : NaiveBook) (d : Side) (N : ℕ) : ℕ := ∑ p ∈ a.topPrices d N, a.qtyAt d p

/-- Its value. -/
def topValue (a : NaiveBook) (d : Side) (N : ℕ) : ℕ :=
  ∑ p ∈ a.topPrices d N, p.toNat * a.qtyAt d p

/-- No share is live on side `d`. -/
def NoQty (a : NaiveBook) (d : Side) : Prop :=
  ∀ r o, a.orders.lookup r = some o → sideOf o.side = d → o.shares = 0

theorem mem_levelPrices {a : NaiveBook} {d : Side} {price : UInt32} :
    price ∈ a.levelPrices d ↔ price ∈ a.prices d := by
  unfold levelPrices
  rw [List.mem_toFinset, List.mem_map]
  constructor
  · rintro ⟨o, ho, rfl⟩
    obtain ⟨hmem, hd⟩ := List.mem_filter.mp ho
    obtain ⟨e, he, rfl⟩ := List.mem_map.mp hmem
    exact ⟨e.1, e.2, AList.mem_lookup_iff.mpr he, of_decide_eq_true hd, rfl⟩
  · rintro ⟨r, o, ho, hd, rfl⟩
    have hmem : o ∈ a.orders.entries.map (·.2) :=
      List.mem_map_of_mem (AList.mem_lookup_iff.mp ho)
    exact ⟨o, List.mem_filter.mpr ⟨hmem, decide_eq_true hd⟩, rfl⟩

theorem qtyAt_eq_zero {a : NaiveBook} {d : Side} {price : UInt32} (h : price ∉ a.levelPrices d) :
    a.qtyAt d price = 0 :=
  qtyAt_of_not_mem fun hp => h (mem_levelPrices.mpr hp)

/-- What `vwap` counts at a price: it goes by the 32-bit count of the level and its 64-bit total. -/
def countedAt (a : NaiveBook) (d : Side) (price : UInt32) : ℕ :=
  if a.countAt d price % 2 ^ 32 = 0 then 0 else a.qtyAt d price % 2 ^ 64

theorem countedAt_le (a : NaiveBook) (d : Side) (price : UInt32) :
    a.countedAt d price ≤ a.qtyAt d price := by
  unfold countedAt
  split_ifs
  · exact Nat.zero_le _
  · exact Nat.mod_le _ _

theorem countedAt_eq_zero {a : NaiveBook} {d : Side} {price : UInt32} (h : price ∉ a.levelPrices d) :
    a.countedAt d price = 0 :=
  Nat.eq_zero_of_le_zero ((a.countedAt_le d price).trans (qtyAt_eq_zero h).le)

end NaiveBook

namespace OrderBook

variable {n : ℕ} {s : OrderBook n} {r : RefBook}

/-! ## Slots and prices -/

section Slots

theorem Sim.empty_iff_countAt (h : Sim s r) (d : Side) (i : Fin kLevels) :
    ((s.sides d).levels i).empty = true ↔
      r.book.countAt d (priceFromIdx d (s.sides d).ref (i : ℕ)) % 2 ^ 32 = 0 := by
  have hcount := h.rep.orderCount_toNat d i
  rw [← List.length_map (fun p => (s.order p).view), ← (h.resting_perm d i).length_eq] at hcount
  unfold PriceLevel.empty NaiveBook.countAt
  rw [beq_iff_eq, ← UInt32.toNat_inj, hcount]
  rfl

theorem levelPtr_natCast (s : OrderBook n) (d : Side) {i : ℕ} (hi : i < kLevels) :
    s.levelPtr d i = some ((s.sides d).levels ⟨i, hi⟩) := by
  have hin : InArray i := inArray_coe ⟨i, hi⟩
  rw [levelPtr_of_inArray s d hin]
  congr 2

theorem Sim.addQty_eq (h : Sim s r) (d : Side) {i : ℕ} (hi : i < kLevels) (total : UInt64) :
    Analytics.addQty (s.levelPtr d i) total =
      total + UInt64.ofNat (r.book.qtyAt d (priceFromIdx d (s.sides d).ref i)) := by
  rw [levelPtr_natCast s d hi, ← h.totalQty_eq d ⟨i, hi⟩]
  rfl

theorem Sim.addValue_eq (h : Sim s r) (d : Side) {i : ℕ} (hi : i < kLevels) (sums : ℕ × ℕ) :
    Analytics.addValue (priceFromIdx d (s.sides d).ref i) (s.levelPtr d i) sums =
      (sums.1 + (priceFromIdx d (s.sides d).ref i).toNat *
          r.book.countedAt d (priceFromIdx d (s.sides d).ref i),
        sums.2 + r.book.countedAt d (priceFromIdx d (s.sides d).ref i)) := by
  have hempty := h.empty_iff_countAt d ⟨i, hi⟩
  have hqty := h.totalQty_eq d ⟨i, hi⟩
  rw [levelPtr_natCast s d hi, Analytics.addValue, hqty, UInt64.toNat_ofNat', NaiveBook.countedAt]
  by_cases he : ((s.sides d).levels ⟨i, hi⟩).empty = true
  · rw [if_pos he, if_pos (hempty.mp he), Nat.mul_zero, Nat.add_zero, Nat.add_zero]
  · rw [if_neg he, if_neg fun hz => he (hempty.mpr hz)]

theorem Sim.visibleQty_eq (h : Sim s r) (side : UInt8) {N : ℕ} (hN : N ≤ kLevels) :
    Analytics.visibleQty s side N = UInt64.ofNat (∑ i ∈ Finset.range N,
      r.book.qtyAt (sideOf side) (priceFromIdx (sideOf side) (s.sides (sideOf side)).ref i)) := by
  rw [Analytics.visibleQty, Analytics.depth_of_le hN]
  induction N with
  | zero => rfl
  | succ N ih =>
    rw [List.range_succ, List.foldl_append, ih (by omega), Finset.sum_range_succ, UInt64.ofNat_add,
      List.foldl_cons, List.foldl_nil, h.addQty_eq _ (by omega)]

theorem Sim.vwapSums_eq (h : Sim s r) (side : UInt8) {N : ℕ} (hN : N ≤ kLevels) :
    Analytics.vwapSums s side N =
      (∑ i ∈ Finset.range N,
          (priceFromIdx (sideOf side) (s.sides (sideOf side)).ref i).toNat * r.book.countedAt
            (sideOf side) (priceFromIdx (sideOf side) (s.sides (sideOf side)).ref i),
        ∑ i ∈ Finset.range N, r.book.countedAt
          (sideOf side) (priceFromIdx (sideOf side) (s.sides (sideOf side)).ref i)) := by
  rw [Analytics.vwapSums, Analytics.depth_of_le hN]
  induction N with
  | zero => rfl
  | succ N ih =>
    rw [List.range_succ, List.foldl_append, ih (by omega), Finset.sum_range_succ,
      Finset.sum_range_succ, List.foldl_cons, List.foldl_nil, h.addValue_eq _ (by omega)]

theorem eq_of_slot_eq {d : Side} {ref p q : UInt32} (hp : InArray (tick d ref p))
    (hq : InArray (tick d ref q)) (h : (tick d ref p).toNat = (tick d ref q).toNat) : p = q := by
  have ht : tick d ref p = tick d ref q := by
    have := hp.1
    have := hq.1
    omega
  rw [← price_of_tick hp, ht, price_of_tick hq]

theorem Sim.inArray_levelPrices (h : Sim s r) (hr : r.AllHeld) {d : Side} {p : UInt32}
    (hp : p ∈ r.book.levelPrices d) : InArray (tick d (s.sides d).ref p) :=
  (h.price_inArray hr (NaiveBook.mem_levelPrices.mp hp)).2.2

/-- An occupied price in slot `k` has at most `k` better ones. -/
theorem Sim.mem_topPrices_of_tick (h : Sim s r) (hr : r.AllHeld) {d : Side} {N : ℕ} {p : UInt32}
    (hp : p ∈ r.book.levelPrices d) (hlt : tick d (s.sides d).ref p < N) :
    p ∈ r.book.topPrices d N := by
  have hpos := (h.inArray_levelPrices hr hp).1
  have hlt' : (tick d (s.sides d).ref p).toNat < N := by omega
  refine Finset.mem_filter.mpr ⟨hp, lt_of_le_of_lt ?_ hlt'⟩
  rw [← Finset.card_range (tick d (s.sides d).ref p).toNat]
  refine Finset.card_le_card_of_injOn (fun q => (tick d (s.sides d).ref q).toNat) ?_ ?_
  · intro q hq
    obtain ⟨hq, hb⟩ := Finset.mem_filter.mp hq
    have hbetter := (better_iff_tick (s.sides d).ref).mp hb
    have hposq := (h.inArray_levelPrices hr hq).1
    refine Finset.mem_coe.mpr (Finset.mem_range.mpr ?_)
    change (tick d (s.sides d).ref q).toNat < _
    omega
  · intro q hq q' hq' heq
    exact eq_of_slot_eq (h.inArray_levelPrices hr (Finset.mem_filter.mp hq).1)
      (h.inArray_levelPrices hr (Finset.mem_filter.mp hq').1) heq

/-- **A sum over the first slots** is a sum over the best prices that lie in them. -/
theorem Sim.sum_slots (h : Sim s r) (hr : r.AllHeld) (d : Side) {N : ℕ} (hN : N ≤ kLevels)
    {f : UInt32 → ℕ} (hf : ∀ p, p ∉ r.book.levelPrices d → f p = 0) :
    ∑ i ∈ Finset.range N, f (priceFromIdx d (s.sides d).ref i) =
      ∑ p ∈ r.book.topPrices d N, if tick d (s.sides d).ref p < N then f p else 0 := by
  have hin : ∀ p ∈ (r.book.topPrices d N).filter fun p => tick d (s.sides d).ref p < N,
      InArray (tick d (s.sides d).ref p) := fun p hp =>
    h.inArray_levelPrices hr (Finset.mem_filter.mp (Finset.mem_filter.mp hp).1).1
  rw [← Finset.sum_filter]
  symm
  refine Finset.sum_bij_ne_zero (fun p _ _ => (tick d (s.sides d).ref p).toNat) ?_ ?_ ?_ ?_
  · intro p hp _
    have hlt := (Finset.mem_filter.mp hp).2
    have hpos := (hin p hp).1
    exact Finset.mem_range.mpr (by omega)
  · intro p hp _ q hq _ heq
    exact eq_of_slot_eq (hin p hp) (hin q hq) heq
  · intro i hi hne
    have hi' := Finset.mem_range.mp hi
    have hp : priceFromIdx d (s.sides d).ref i ∈ r.book.levelPrices d := by
      by_contra hp
      exact hne (hf _ hp)
    have hlt := (h.price_inArray hr (NaiveBook.mem_levelPrices.mp hp)).1
    have htick : tick d (s.sides d).ref (priceFromIdx d (s.sides d).ref i) = i :=
      (tick_eq_iff (h.rep.linked.ref_lt d) hlt ⟨i, by omega⟩).mpr rfl
    refine ⟨priceFromIdx d (s.sides d).ref i, ?_, hne, ?_⟩
    · refine Finset.mem_filter.mpr ⟨h.mem_topPrices_of_tick hr hp ?_, ?_⟩ <;> omega
    · rw [htick, Int.toNat_natCast]
  · intro p hp _
    rw [Int.toNat_of_nonneg (hin p hp).1, price_of_tick (hin p hp)]

end Slots

/-! ## The best levels -/

/-- **The analytics start at the best price**: they add up the best `N` occupied levels, and are zero only
without live quantity. -/
structure StartsAtBest (book : OrderBook n) (a : NaiveBook) (side : UInt8) (N : ℕ) : Prop where
  visible : (Analytics.visibleQty book side N).toNat = a.topQty (sideOf side) N
  sums : Analytics.vwapSums book side N = (a.topValue (sideOf side) N, a.topQty (sideOf side) N)
  zero : Analytics.visibleQty book side N = 0 ∨ Analytics.vwap book side N = 0 → a.NoQty (sideOf side)

/-- The quantity of the best `N` levels lies in the first `N` slots from the reference price, in levels
whose counts have not wrapped to zero, and fits in 64 bits; only an empty side has none. -/
structure NearRef (r : RefBook) (d : Side) (N : ℕ) : Prop where
  slot : ∀ p ∈ r.book.topPrices d N, 0 < r.book.qtyAt d p →
    tick d (r.ref d) p < N ∧ r.book.countAt d p % 2 ^ 32 ≠ 0
  fits : r.book.topQty d N < 2 ^ 64
  shares : r.book.topQty d N = 0 → r.book.NoQty d

section Best

variable {d : Side} {N : ℕ}

theorem NearRef.countedAt_eq (h : NearRef r d N) {p : UInt32} (hp : p ∈ r.book.topPrices d N) :
    (if tick d (r.ref d) p < N then r.book.countedAt d p else 0) = r.book.qtyAt d p := by
  have hle : r.book.qtyAt d p ≤ r.book.topQty d N :=
    Finset.single_le_sum (fun _ _ => Nat.zero_le _) hp
  have hfits := h.fits
  rcases Nat.eq_zero_or_pos (r.book.qtyAt d p) with hz | hpos
  · have hc := r.book.countedAt_le d p
    split_ifs <;> omega
  · obtain ⟨hlt, hcount⟩ := h.slot p hp hpos
    rw [if_pos hlt, NaiveBook.countedAt, if_neg hcount, Nat.mod_eq_of_lt (by omega)]

theorem NearRef.qtyAt_eq (h : NearRef r d N) {p : UInt32} (hp : p ∈ r.book.topPrices d N) :
    (if tick d (r.ref d) p < N then r.book.qtyAt d p else 0) = r.book.qtyAt d p := by
  have hc := h.countedAt_eq hp
  split_ifs at hc ⊢
  · rfl
  · exact hc

theorem Sim.visibleQty_toNat (h : Sim s r) (hr : r.AllHeld) (side : UInt8) (hN : N ≤ kLevels) :
    (Analytics.visibleQty s side N).toNat =
      (∑ p ∈ r.book.topPrices (sideOf side) N,
        if tick (sideOf side) (r.ref (sideOf side)) p < N then r.book.qtyAt (sideOf side) p else 0) %
          2 ^ 64 := by
  rw [h.visibleQty_eq side hN, UInt64.toNat_ofNat',
    h.sum_slots hr _ hN fun p hp => NaiveBook.qtyAt_eq_zero hp, h.ref]

theorem Sim.vwapSums_top (h : Sim s r) (hr : r.AllHeld) (side : UInt8) (hN : N ≤ kLevels) :
    Analytics.vwapSums s side N =
      (∑ p ∈ r.book.topPrices (sideOf side) N,
          if tick (sideOf side) (r.ref (sideOf side)) p < N then
            p.toNat * r.book.countedAt (sideOf side) p else 0,
        ∑ p ∈ r.book.topPrices (sideOf side) N,
          if tick (sideOf side) (r.ref (sideOf side)) p < N then
            r.book.countedAt (sideOf side) p else 0) := by
  have hzero : ∀ p, p ∉ r.book.levelPrices (sideOf side) →
      p.toNat * r.book.countedAt (sideOf side) p = 0 := fun p hp => by
    rw [NaiveBook.countedAt_eq_zero hp, Nat.mul_zero]
  rw [h.vwapSums_eq side hN, h.sum_slots hr _ hN hzero,
    h.sum_slots hr _ hN fun p hp => NaiveBook.countedAt_eq_zero hp, h.ref]

theorem Sim.topValue_pos (h : Sim s r) (hr : r.AllHeld) (hq : 0 < r.book.topQty d N) :
    0 < r.book.topValue d N := by
  obtain ⟨p, hp, hpos⟩ := Finset.exists_ne_zero_of_sum_ne_zero hq.ne'
  have hne := (h.price_inArray hr (NaiveBook.mem_levelPrices.mp (Finset.mem_filter.mp hp).1)).2.1
  have hp0 : p.toNat ≠ 0 := fun e => hne (UInt32.toNat_inj.mp e)
  calc
    0 < p.toNat * r.book.qtyAt d p := Nat.pos_of_ne_zero (Nat.mul_ne_zero hp0 hpos)
    _ ≤ r.book.topValue d N :=
      Finset.single_le_sum (f := fun p => p.toNat * r.book.qtyAt d p) (fun _ _ => Nat.zero_le _) hp

theorem Sim.startsAtBest_of_nearRef (h : Sim s r) (hr : r.AllHeld) {side : UInt8} (hN : N ≤ kLevels)
    (hnear : NearRef r (sideOf side) N) : StartsAtBest s r.book side N := by
  have hvisible : (Analytics.visibleQty s side N).toNat = r.book.topQty (sideOf side) N := by
    rw [h.visibleQty_toNat hr side hN, Finset.sum_congr rfl fun p hp => hnear.qtyAt_eq hp]
    exact Nat.mod_eq_of_lt hnear.fits
  have hvalue : ∀ p ∈ r.book.topPrices (sideOf side) N,
      (if tick (sideOf side) (r.ref (sideOf side)) p < N then
        p.toNat * r.book.countedAt (sideOf side) p else 0) =
          p.toNat * r.book.qtyAt (sideOf side) p := by
    intro p hp
    rw [← hnear.countedAt_eq hp]
    split_ifs
    · rfl
    · rw [Nat.mul_zero]
  have hsums : Analytics.vwapSums s side N =
      (r.book.topValue (sideOf side) N, r.book.topQty (sideOf side) N) := by
    rw [h.vwapSums_top hr side hN, Finset.sum_congr rfl hvalue,
      Finset.sum_congr rfl fun p hp => hnear.countedAt_eq hp]
    rfl
  refine ⟨hvisible, hsums, fun hz => hnear.shares ?_⟩
  by_contra hne
  have hq := Nat.pos_of_ne_zero hne
  rcases hz with hz | hz
  · rw [hz] at hvisible
    exact hne hvisible.symm
  · have hv := h.topValue_pos hr hq
    rw [Analytics.vwap, hsums, if_pos hq, div_eq_zero_iff] at hz
    rcases hz with hz | hz
    · exact hv.ne' (Nat.cast_eq_zero.mp hz)
    · exact hne (Nat.cast_eq_zero.mp hz)

theorem Sim.nearRef_of_startsAtBest (h : Sim s r) (hr : r.AllHeld) {side : UInt8} (hN : N ≤ kLevels)
    (hbest : StartsAtBest s r.book side N) : NearRef r (sideOf side) N := by
  have hsums := congrArg Prod.snd hbest.sums
  rw [h.vwapSums_top hr side hN] at hsums
  -- no term of the sum exceeds the quantity of its price, so none falls short of it
  have hterm : ∀ p ∈ r.book.topPrices (sideOf side) N,
      (if tick (sideOf side) (r.ref (sideOf side)) p < N then r.book.countedAt (sideOf side) p else 0) =
        r.book.qtyAt (sideOf side) p := by
    refine (Finset.sum_eq_sum_iff_of_le fun p _ => ?_).mp hsums
    have hc := r.book.countedAt_le (sideOf side) p
    split_ifs
    · exact hc
    · exact Nat.zero_le _
  refine ⟨fun p hp hpos => ?_, ?_, fun hz => hbest.zero (.inl ?_)⟩
  · have hp := hterm p hp
    split_ifs at hp with hlt
    · refine ⟨hlt, fun hcount => ?_⟩
      rw [NaiveBook.countedAt, if_pos hcount] at hp
      omega
    · omega
  · rw [← hbest.visible]
    exact (Analytics.visibleQty s side N).toNat_lt
  · exact UInt64.toNat_inj.mp (hbest.visible.trans hz)

end Best

/-- **When the analytics start at the best price.** In a state reached by a well-formed feed whose prices
stay in one window a side, they describe the best `N` occupied levels if and only if the quantity of
these levels lies in the first `N` slots from the reference price. -/
theorem startsAtBest_iff {lo : Side → ℕ} (b : Build) (feed : List (Input n)) (hw : WellFormed feed)
    (hwin : Windowed lo feed) {s : OrderBook n} (hs : (OrderBook.init n).replay b feed = .ok s)
    (side : UInt8) {N : ℕ} (hN : N ≤ kLevels) :
    StartsAtBest s (NaiveBook.init.replay feed) side N ↔
      NearRef (RefBook.init.replay feed) (sideOf side) N := by
  have h := sim_init.of_replay hw hs
  have hheld := allHeld_of_windowed hw hwin
  rw [NaiveBook.init_replay]
  exact ⟨h.nearRef_of_startsAtBest hheld hN, h.startsAtBest_of_nearRef hheld hN⟩

/-- Two bids with a gap between them. -/
def gapBids : List (Input 2) :=
  [(sysMsg 'O'.toUInt8, .newest 2), (addMsg 1 'B'.toUInt8 10 100, .newest 2),
    (addMsg 2 'B'.toUInt8 5 98, .newest 2)]

theorem wellFormed_gapBids : WellFormed gapBids := by
  refine ⟨trivial, fun _ => ⟨rfl, .inl rfl, ⟨?_, ?_⟩, ?_⟩, fun _ => ⟨rfl, .inl rfl, ⟨?_, ?_⟩, ?_⟩,
    trivial⟩ <;> decide

theorem windowed_gapBids : Windowed (fun _ => 1) gapBids := by
  refine ⟨nofun, fun ref d price h => ?_, fun ref d price h => ?_, trivial⟩ <;>
    · cases h
      exact ⟨by decide, by decide⟩

theorem topQty_gapBids : (NaiveBook.init.replay gapBids).topQty .bid 2 = 15 := by decide

/-- Of the best two bids only the first is counted. -/
theorem gap_bids_missed : WellFormed gapBids ∧ Windowed (fun _ => 1) gapBids ∧ 2 ≤ kLevels ∧
    ∃ s, (OrderBook.init 2).replay .debug gapBids = .ok s ∧
      ¬ StartsAtBest s (NaiveBook.init.replay gapBids) 'B'.toUInt8 2 := by
  obtain ⟨s, hs, hten⟩ : ∃ s, (OrderBook.init 2).replay .debug gapBids = .ok s ∧
      (Analytics.visibleQty s 'B'.toUInt8 2).toNat = 10 := ⟨_, rfl, rfl⟩
  refine ⟨wellFormed_gapBids, windowed_gapBids, by decide, s, hs, fun h => ?_⟩
  have hvisible := h.visible
  rw [show ((2 : ℕ) : ℤ) = 2 from rfl, hten] at hvisible
  exact absurd (hvisible.trans topQty_gapBids) (by decide)

theorem topPrices_gapBids :
    (RefBook.init.replay gapBids).book.topPrices .bid 3 = {100, 98} := by decide

theorem startsAtBest_iff_gapBids : ∃ s, (OrderBook.init 2).replay .debug gapBids = .ok s ∧
    StartsAtBest s (NaiveBook.init.replay gapBids) 'B'.toUInt8 3 := by
  obtain ⟨s, hs⟩ : ∃ s, (OrderBook.init 2).replay .debug gapBids = .ok s := ⟨_, rfl⟩
  refine ⟨s, hs, (startsAtBest_iff .debug gapBids wellFormed_gapBids windowed_gapBids hs 'B'.toUInt8
    (show 3 ≤ kLevels by decide)).mpr ⟨?_, ?_, ?_⟩⟩
  · intro p hp hpos
    have hp : p ∈ ({100, 98} : Finset UInt32) := topPrices_gapBids ▸ hp
    rw [Finset.mem_insert, Finset.mem_singleton] at hp
    rcases hp with rfl | rfl
    · exact ⟨by decide, by decide⟩
    · exact ⟨by decide, by decide⟩
  · decide
  · exact fun hz => absurd hz (by decide)

end OrderBook

end L2Book
