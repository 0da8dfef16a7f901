import Mathlib.Order.Bounds.Basic
import L2Book.Book.Invariant

/-!
# Levels and quotes

* `NaiveBook.restingAt`, `qtyAt`, `countAt`, `prices`: what a naive book says about a price;
* `RefBook.heldPrices`: the prices of the live orders that lie in the array;
* **`Sim.resting_perm`**: a level holds exactly the live orders of its price; `Sim.level_qty` and
  `Sim.level_count`;
* **`Sim.quote_eq`**: `best_bid_offer` quotes the best price of the array.
-/

namespace L2Book

/-! ## The naive side -/

namespace NaiveBook

/-- The live orders of side `d` at a price. -/
def restingAt (a : NaiveBook) (d : Side) (price : UInt32) : List NaiveOrder :=
  (a.orders.entries.map (·.2)).filter fun o => sideOf o.side = d ∧ o.price = price

/-- Their shares. -/
def qtyAt (a : NaiveBook) (d : Side) (price : UInt32) : ℕ :=
  ((a.restingAt d price).map fun o => o.shares.toNat).sum

/-- Their number. -/
def countAt (a : NaiveBook) (d : Side) (price : UInt32) : ℕ := (a.restingAt d price).length

/-- The prices of the live orders of side `d`. -/
def prices (a : NaiveBook) (d : Side) : Set UInt32 :=
  {price | ∃ r o, a.orders.lookup r = some o ∧ sideOf o.side = d ∧ o.price = price}

theorem mem_restingAt {a : NaiveBook} {d : Side} {price : UInt32} {o : NaiveOrder} :
    o ∈ a.restingAt d price ↔
      (∃ r, a.orders.lookup r = some o) ∧ sideOf o.side = d ∧ o.price = price := by
  unfold restingAt
  rw [List.mem_filter, decide_eq_true_iff, List.mem_map]
  refine and_congr_left fun _ => ?_
  constructor
  · rintro ⟨⟨r, o'⟩, he, rfl⟩
    exact ⟨r, AList.mem_lookup_iff.mpr he⟩
  · rintro ⟨r, hr⟩
    exact ⟨⟨r, o⟩, AList.mem_lookup_iff.mp hr, rfl⟩

theorem qtyAt_of_not_mem {a : NaiveBook} {d : Side} {price : UInt32} (h : price ∉ a.prices d) :
    a.qtyAt d price = 0 := by
  have hnil : a.restingAt d price = [] := List.eq_nil_iff_forall_not_mem.mpr fun o ho => by
    obtain ⟨⟨r, hr⟩, hd, hp⟩ := mem_restingAt.mp ho
    exact h ⟨r, o, hr, hd, hp⟩
  rw [qtyAt, hnil]
  rfl

end NaiveBook

/-- The prices of the live orders of side `d` in the array. -/
def RefBook.heldPrices (r : RefBook) (d : Side) : Set UInt32 :=
  {price | ∃ ref o, r.book.orders.lookup ref = some o ∧ sideOf o.side = d ∧ o.price = price ∧ r.Holds o}

/-- The highest bid or the lowest ask of a set of prices. -/
def IsBestPrice : Side → Set UInt32 → UInt32 → Prop
  | .bid => IsGreatest
  | .ask => IsLeast

theorem IsBestPrice.unique {d : Side} {ps : Set UInt32} {p q : UInt32} (hp : IsBestPrice d ps p)
    (hq : IsBestPrice d ps q) : p = q := by
  cases d with
  | bid => exact UInt32.le_antisymm (hq.2 hp.1) (hp.2 hq.1)
  | ask => exact UInt32.le_antisymm (hp.2 hq.1) (hq.2 hp.1)

theorem IsBestPrice.mem {d : Side} {ps : Set UInt32} {p : UInt32} (hp : IsBestPrice d ps p) :
    p ∈ ps := by
  cases d with
  | bid => exact hp.1
  | ask => exact hp.1

/-- A price is best when no other one has a smaller index. -/
theorem isBestPrice_of_tick {d : Side} (ref : UInt32) {p : UInt32} {ps : Set UInt32} (hp : p ∈ ps)
    (h : ∀ q ∈ ps, tick d ref p ≤ tick d ref q) : IsBestPrice d ps p := by
  cases d with
  | bid =>
    refine ⟨hp, fun q hq => UInt32.le_iff_toNat_le.mpr ?_⟩
    have := h q hq
    simp only [tick] at this
    omega
  | ask =>
    refine ⟨hp, fun q hq => UInt32.le_iff_toNat_le.mpr ?_⟩
    have := h q hq
    simp only [tick] at this
    omega

theorem tick_eq_iff {d : Side} {ref price : UInt32} (hr : ref.toNat < 2 ^ 31)
    (hp : price.toNat < 2 ^ 31) (i : Fin kLevels) :
    tick d ref price = (i : ℕ) ↔ price = priceFromIdx d ref (i : ℕ) := by
  constructor
  · intro h
    rw [← h]
    exact (price_of_tick (h ▸ inArray_coe i)).symm
  · intro h
    have hi := ofInt_toNat (inArray_coe i)
    have hk : (i : ℕ) < 8192 := i.2
    have h' := congrArg UInt32.toNat h
    cases d with
    | bid =>
      simp only [priceFromIdx, priceFromBidIdx, UInt32.toNat_sub] at h'
      simp only [tick]
      omega
    | ask =>
      simp only [priceFromIdx, priceFromAskIdx, UInt32.toNat_add] at h'
      simp only [tick]
      omega

namespace OrderBook

variable {n : ℕ}

/-! ## Levels -/

section Levels

variable {s : OrderBook n} {r : RefBook}

theorem Abs.entries_perm {a : NaiveBook} (h : Abs s a) :
    (a.orders.entries.map (·.2)).Perm (s.liveSlots.map fun p => (s.order p).view) := by
  have hnd : (s.orderMap.entries.map fun e => (⟨e.1, (s.order e.2).view⟩ :
      Σ _ : UInt64, NaiveOrder)).NodupKeys := by
    have : (s.orderMap.entries.map fun e => (⟨e.1, (s.order e.2).view⟩ :
        Σ _ : UInt64, NaiveOrder)).keys = s.orderMap.keys := by
      simp [List.keys, AList.keys, Function.comp_def]
    rw [List.NodupKeys, this]
    exact s.orderMap.keys_nodup
  have hperm : a.orders.entries.Perm (s.orderMap.entries.map fun e =>
      (⟨e.1, (s.order e.2).view⟩ : Σ _ : UInt64, NaiveOrder)) := by
    refine List.lookup_ext a.orders.nodupKeys hnd fun ref o => ?_
    have hl : o ∈ a.orders.entries.dlookup ref ↔ a.orders.lookup ref = some o := Iff.rfl
    rw [hl, h.lookup, List.mem_dlookup_iff hnd, Option.map_eq_some_iff, List.mem_map]
    constructor
    · rintro ⟨p, hp, rfl⟩
      exact ⟨⟨ref, p⟩, AList.mem_lookup_iff.mp hp, rfl⟩
    · rintro ⟨⟨ref', p⟩, he, heq⟩
      cases heq
      exact ⟨p, AList.mem_lookup_iff.mpr he, rfl⟩
  refine (hperm.map (·.2)).trans (List.Perm.of_eq ?_)
  simp [liveSlots, Function.comp_def]

/-- **A level holds exactly the live orders of its price.** -/
theorem Sim.resting_perm (h : Sim s r) (d : Side) (i : Fin kLevels) :
    (r.book.restingAt d (priceFromIdx d (s.sides d).ref (i : ℕ))).Perm
      ((s.queue d i).map fun p => (s.order p).view) := by
  have hq : (s.queue d i).Perm (s.liveSlots.filter fun p =>
      s.sideAt p = d ∧ (s.order p).price = priceFromIdx d (s.sides d).ref (i : ℕ)) := by
    refine (List.perm_ext_iff_of_nodup (h.rep.linked.level d i).list.nodup
      (h.rep.nodup.filter _)).mpr fun p => ?_
    rw [h.rep.linked.mem_queue, List.mem_filter, decide_eq_true_iff]
    refine and_congr_right fun hp => and_congr_right fun hd => ?_
    rw [tickOf, hd]
    exact tick_eq_iff (h.rep.linked.ref_lt d) (h.rep.linked.price_lt p hp) i
  have hview : (r.book.restingAt d (priceFromIdx d (s.sides d).ref (i : ℕ))).Perm
      ((s.liveSlots.map fun p => (s.order p).view).filter fun o =>
        sideOf o.side = d ∧ o.price = priceFromIdx d (s.sides d).ref (i : ℕ)) :=
    h.abs.entries_perm.filter _
  refine hview.trans ?_
  rw [List.filter_map]
  exact (hq.map _).symm

theorem Rep.orderCount_toNat (h : Rep s) (d : Side) (i : Fin kLevels) :
    ((s.sides d).levels i).orderCount.toNat = (s.queue d i).length % 2 ^ 32 := by
  rw [(h.linked.level d i).count, UInt32.toNat_ofNat']

theorem Sim.level_count (h : Sim s r) (hn : n < 2 ^ 32) (d : Side) (i : Fin kLevels) :
    ((s.sides d).levels i).orderCount.toNat =
      r.book.countAt d (priceFromIdx d (s.sides d).ref (i : ℕ)) := by
  rw [(h.bookInvariant hn).count, NaiveBook.countAt, (h.resting_perm d i).length_eq,
    List.length_map]

theorem Sim.sharesSum_eq (h : Sim s r) (d : Side) (i : Fin kLevels) :
    sharesSum s.pool.slots (s.queue d i) =
      r.book.qtyAt d (priceFromIdx d (s.sides d).ref (i : ℕ)) := by
  rw [NaiveBook.qtyAt, ((h.resting_perm d i).map _).sum_eq, List.map_map]
  rfl

/-- A total is the quantity at its price, modulo `2 ^ 64`. -/
theorem Sim.totalQty_eq (h : Sim s r) (d : Side) (i : Fin kLevels) :
    ((s.sides d).levels i).totalQty =
      UInt64.ofNat (r.book.qtyAt d (priceFromIdx d (s.sides d).ref (i : ℕ))) := by
  rw [(h.rep.linked.level d i).qty, h.sharesSum_eq]

theorem Sim.level_qty (h : Sim s r) (hn : n < 2 ^ 32) (d : Side) (i : Fin kLevels) :
    ((s.sides d).levels i).totalQty.toNat =
      r.book.qtyAt d (priceFromIdx d (s.sides d).ref (i : ℕ)) := by
  rw [(h.bookInvariant hn).qty, h.sharesSum_eq]

/-! ## Quotes -/

theorem Sim.mem_heldPrices (h : Sim s r) {d : Side} {price : UInt32} :
    price ∈ r.heldPrices d ↔ ∃ i : Fin kLevels, ∃ p ∈ s.queue d i, (s.order p).price = price := by
  constructor
  · rintro ⟨ref, o, ho, hd, hprice, hh⟩
    rw [h.abs.lookup, Option.map_eq_some_iff] at ho
    obtain ⟨p, hp, rfl⟩ := ho
    have hlive : p ∈ s.liveSet := mem_liveSet.mpr ⟨ref, hp⟩
    have hi := (h.inArray_iff p).mpr hh
    have hat : s.sideAt p = d := hd
    refine ⟨slotOf _ hi, p, ?_, hprice⟩
    exact (h.rep.linked.mem_queue _ _ p).mpr ⟨hlive, hat, (slotOf_val hi).symm⟩
  · rintro ⟨i, p, hp, rfl⟩
    obtain ⟨hlive, hd, ht⟩ := (h.rep.linked.mem_queue d i p).mp hp
    obtain ⟨ref, hr⟩ := mem_liveSet.mp hlive
    refine ⟨ref, _, h.abs.lookup_some hr, hd, rfl, (h.inArray_iff p).mp ?_⟩
    rw [ht]
    exact inArray_coe i

theorem Sim.empty_iff (h : Sim s r) (hn : n < 2 ^ 32) (d : Side) (i : Fin kLevels) :
    ((s.sides d).levels i).empty = true ↔ s.queue d i = [] :=
  (h.rep.linked.level d i).empty_iff (h.rep.linked.queue_length_lt hn d i)

/-- **What one side of `best_bid_offer` returns**: the best price of the array with its quantity modulo
`2 ^ 32`, and zeros without an order in the array. -/
theorem Sim.quote_eq (h : Sim s r) (hn : n < 2 ^ 32) (d : Side) :
    ∃ price qty, s.quote d = .ok (price, qty) ∧
      ((r.heldPrices d = ∅ ∧ price = 0 ∧ qty = 0) ∨
        (IsBestPrice d (r.heldPrices d) price ∧ qty.toNat = r.book.qtyAt d price % 2 ^ 32)) := by
  rcases h.best hn d with ⟨hbest, hall⟩ | ⟨i, hbest, hi, hlt⟩
  · refine ⟨0, 0, ?_, .inl ⟨Set.eq_empty_of_forall_notMem fun price hp => ?_, rfl, rfl⟩⟩
    · unfold quote
      simp only [hbest]
      rw [if_neg (by omega)]
    · obtain ⟨j, p, hq, -⟩ := h.mem_heldPrices.mp hp
      rw [(h.empty_iff hn d j).mp (hall j)] at hq
      cases hq
  · have hne : s.queue d i ≠ [] := fun e => by
      rw [(h.empty_iff hn d i).mpr e] at hi
      cases hi
    obtain ⟨p, hp⟩ := List.exists_mem_of_ne_nil _ hne
    -- the price of every order in the best level is the quoted one
    have hprice : ∀ j : Fin kLevels, ∀ q ∈ s.queue d j,
        tick d (s.sides d).ref (s.order q).price = (j : ℕ) := by
      intro j q hq
      obtain ⟨-, hd, ht⟩ := (h.rep.linked.mem_queue d j q).mp hq
      rw [← ht, tickOf, hd]
    refine ⟨priceFromIdx d (s.sides d).ref (i : ℕ), ((s.sides d).levels i).totalQty.toUInt32, ?_,
      .inr ⟨?_, ?_⟩⟩
    · unfold quote
      simp only [hbest, levelAt_coe, ok_bind]
      rw [if_pos (by omega)]
    · have hpi : (s.order p).price = priceFromIdx d (s.sides d).ref (i : ℕ) := by
        rw [← hprice i p hp]
        exact (price_of_tick (hprice i p hp ▸ inArray_coe i)).symm
      refine isBestPrice_of_tick (s.sides d).ref
        (h.mem_heldPrices.mpr ⟨i, p, hp, hpi⟩) fun q hq => ?_
      obtain ⟨j, p', hp', rfl⟩ := h.mem_heldPrices.mp hq
      have hij : i ≤ j := not_lt.mp fun hji => by
        rw [(h.empty_iff hn d j).mp (hlt j hji)] at hp'
        cases hp'
      rw [← hpi, hprice i p hp, hprice j p' hp']
      exact_mod_cast hij
    · rw [UInt64.toNat_toUInt32, h.level_qty hn]

end Levels

end OrderBook

end L2Book
