import L2Book.Book.Quote

/-!
# Re-centring from the map alone

What `recentre_bids` and `recentre_asks` leave behind, whatever the levels, the links and the cached
indices held before: not even well-formed lists are assumed.

* `sidePrices`: the prices of the orders of a side; `Rebuilt`: the side is rebuilt from the map;
* `Recentred.level_bucket`, `Recentred.best_eq`, `Recentred.free`: its parts, read off the loop invariant;
* **`recentre_rebuilds`**: every re-centre meets it, for every iteration order.
-/

namespace L2Book

namespace OrderBook

variable {n : ℕ}

/-- The prices of the orders of `order_map_` that carry the byte of side `d` and whose index at the
reference price `ref` lies in the array. -/
def sidePrices (s : OrderBook n) (d : Side) (ref : UInt32) : Set UInt32 :=
  {price | ∃ p ∈ s.liveSlots, (s.order p).side = d.byte ∧ InArray (tick d ref (s.order p).price) ∧
    (s.order p).price = price}

/-- **The side is rebuilt**: its lists, counters, cached indices and best index are those of the orders in
`order_map_`, and nothing else changes. -/
structure Rebuilt (d : Side) (newRef : UInt32) (s s' : OrderBook n) : Prop where
  ref : (s'.sides d).ref = newRef
  level : ∀ i : Fin kLevels, ∃ l, (links s'.pool.slots).IsList ((s'.sides d).levels i).head
      ((s'.sides d).levels i).tail l ∧
    (∀ p, p ∈ l ↔ p ∈ s.liveSlots ∧ (s.order p).side = d.byte ∧
      tick d newRef (s.order p).price = (i : ℕ)) ∧
    (∀ p ∈ l, (s'.order p).levelIdx = (i : ℕ)) ∧
    ((s'.sides d).levels i).orderCount.toNat = l.length ∧
    ((s'.sides d).levels i).totalQty.toNat = sharesSum s.pool.slots l
  outside : ∀ p ∈ s.liveSlots, (s.order p).side = d.byte → ¬ InArray (tick d newRef (s.order p).price) →
    (s'.order p).levelIdx = -1 ∧ (s'.order p).next = none ∧ (s'.order p).prev = none
  best : ((s'.sides d).bestIdx = -1 ∧ s.sidePrices d newRef = ∅) ∨
    ∃ price, IsBestPrice d (s.sidePrices d newRef) price ∧ (s'.sides d).bestIdx = tick d newRef price
  orderMap : s'.orderMap = s.orderMap
  isOpen : s'.isOpen = s.isOpen
  data : SameData s.pool.slots s'.pool.slots
  untouched : ∀ p, ¬ (p ∈ s.liveSlots ∧ (s.order p).side = d.byte) → s'.order p = s.order p
  free : ∀ l, IsChain (fun p => (s.order p).next) s.pool.freeHead l → (∀ p ∈ s.liveSlots, p ∉ l) →
    IsChain (fun p => (s'.order p).next) s'.pool.freeHead l
  other : ∀ d', d' ≠ d → s'.sides d' = s.sides d'

section Recentred

variable {d : Side} {newRef : UInt32} {it : IterOrder n} {s s' : OrderBook n}

theorem mem_cleared_bucket {i : Fin kLevels} {p : Fin n} :
    p ∈ (s.cleared d newRef).bucket d (s.visited it) i ↔
      p ∈ s.liveSlots ∧ (s.order p).side = d.byte ∧ tick d newRef (s.order p).price = (i : ℕ) := by
  rw [mem_bucket, (s.visited_perm it).mem_iff, tickAt, cleared_ref_self]
  exact Iff.rfl

theorem length_bucket_lt (hcount : s.orderCount < 2 ^ 32) (i : Fin kLevels) :
    ((s.cleared d newRef).bucket d (s.visited it) i).length < 2 ^ 32 := by
  have hle : ((s.cleared d newRef).bucket d (s.visited it) i).length ≤ (s.visited it).length :=
    List.length_filter_le _ _
  rw [(s.visited_perm it).length_eq, liveSlots_length] at hle
  omega

theorem Recentred.level_bucket (h : Recentred d (s.cleared d newRef) s' (s.visited it))
    (hcount : s.orderCount < 2 ^ 32) (i : Fin kLevels) :
    ∃ l, (links s'.pool.slots).IsList ((s'.sides d).levels i).head ((s'.sides d).levels i).tail l ∧
      (∀ p, p ∈ l ↔ p ∈ s.liveSlots ∧ (s.order p).side = d.byte ∧
        tick d newRef (s.order p).price = (i : ℕ)) ∧
      (∀ p ∈ l, (s'.order p).levelIdx = (i : ℕ)) ∧
      ((s'.sides d).levels i).orderCount.toNat = l.length ∧
      ((s'.sides d).levels i).totalQty.toNat = sharesSum s.pool.slots l := by
  have hrep := h.level i
  have hlen : ((s.cleared d newRef).bucket d (s.visited it) i).length < 2 ^ 32 :=
    length_bucket_lt hcount i
  refine ⟨_, hrep.list, fun p => mem_cleared_bucket, fun p hp => ?_, hrep.count_toNat hlen, ?_⟩
  · obtain ⟨hvis, hside, htick⟩ := mem_bucket.mp hp
    have hidx := h.levelIdx p hvis hside
    rwa [htick, if_pos (inArray_coe i)] at hidx
  · rw [hrep.qty_toNat hlen]
    exact sharesSum_congr fun p _ => h.frame.data.shares p

theorem Recentred.empty_iff (h : Recentred d (s.cleared d newRef) s' (s.visited it))
    (hcount : s.orderCount < 2 ^ 32) (i : Fin kLevels) : ((s'.sides d).levels i).empty = true ↔
      ∀ p ∈ s.liveSlots, (s.order p).side = d.byte → tick d newRef (s.order p).price ≠ (i : ℕ) := by
  rw [(h.level i).empty_iff (length_bucket_lt hcount i), List.eq_nil_iff_forall_not_mem]
  constructor
  · exact fun hno p hp hside htick => hno p (mem_cleared_bucket.mpr ⟨hp, hside, htick⟩)
  · intro hno p hp
    obtain ⟨hlive, hside, htick⟩ := mem_cleared_bucket.mp hp
    exact hno p hlive hside htick

theorem Recentred.best_eq (h : Recentred d (s.cleared d newRef) s' (s.visited it))
    (hcount : s.orderCount < 2 ^ 32) :
    ((s'.sides d).bestIdx = -1 ∧ s.sidePrices d newRef = ∅) ∨
      ∃ price, IsBestPrice d (s.sidePrices d newRef) price ∧
        (s'.sides d).bestIdx = tick d newRef price := by
  have hvis : (s.visited it).length < 2 ^ 32 := by
    rw [(s.visited_perm it).length_eq, liveSlots_length]
    exact hcount
  rcases h.best hvis with ⟨hbest, hall⟩ | ⟨i, hbest, hne, hlt⟩
  · refine .inl ⟨hbest, Set.eq_empty_of_forall_notMem ?_⟩
    rintro price ⟨p, hp, hside, hin, -⟩
    exact (h.empty_iff hcount (slotOf _ hin)).mp (hall _) p hp hside (slotOf_val hin).symm
  · have hsome : ¬ ∀ p ∈ s.liveSlots, (s.order p).side = d.byte →
        tick d newRef (s.order p).price ≠ (i : ℕ) := by
      rw [← h.empty_iff hcount i, hne]
      exact Bool.false_ne_true
    push Not at hsome
    obtain ⟨p, hp, hside, htick⟩ := hsome
    have hin : InArray (tick d newRef (s.order p).price) := htick ▸ inArray_coe i
    refine .inr ⟨(s.order p).price, isBestPrice_of_tick newRef ⟨p, hp, hside, hin, rfl⟩ ?_,
      hbest.trans htick.symm⟩
    rintro price ⟨q, hq, hqside, hqin, rfl⟩
    -- An order at a smaller index would make an earlier level non-empty.
    by_contra hlt'
    have hji : slotOf _ hqin < i := by
      rw [Fin.lt_def]
      have hval := slotOf_val hqin
      omega
    exact (h.empty_iff hcount _).mp (hlt _ hji) q hq hqside (slotOf_val hqin).symm

/-- A free list that holds no order of the map is not touched. -/
theorem Recentred.free (h : Recentred d (s.cleared d newRef) s' (s.visited it)) {l : List (Fin n)}
    (hl : IsChain (fun p => (s.order p).next) s.pool.freeHead l) (hdisj : ∀ p ∈ s.liveSlots, p ∉ l) :
    IsChain (fun p => (s'.order p).next) s'.pool.freeHead l := by
  have hhead : s'.pool.freeHead = s.pool.freeHead := h.frame.freeHead
  rw [hhead]
  refine hl.congr fun p hp => ?_
  rw [h.untouched p fun hp' => hdisj p ((s.visited_perm it).mem_iff.mp hp'.1) hp]
  rfl

end Recentred

/-- **A re-centre rebuilds its side from the map alone.** Whatever the levels of the side and the links and
cached indices of its orders held before, a re-centre over a map of fewer than `2 ^ 32` distinct orders
with prices below `2 ^ 31` returns, in every iteration order, with the side rebuilt. -/
theorem recentre_rebuilds (it : IterOrder n) (d : Side) (newRef : UInt32) {s : OrderBook n}
    (hnd : s.liveSlots.Nodup) (hcount : s.orderCount < 2 ^ 32)
    (hlt : ∀ p ∈ s.liveSlots, (s.order p).side = d.byte → (s.order p).price.toNat < 2 ^ 31)
    (href : newRef.toNat < 2 ^ 31) :
    ∃ s', recentre it d newRef s = .ok s' ∧ Rebuilt d newRef s s' := by
  obtain ⟨s', hs', h⟩ := recentre_spec it d newRef hnd hlt href
  have hvis : ∀ {p}, p ∈ s.visited it ↔ p ∈ s.liveSlots := (s.visited_perm it).mem_iff
  refine ⟨s', hs', h.ref_self, h.level_bucket hcount, fun p hp hside hout => ?_, h.best_eq hcount,
    h.frame.orderMap, h.frame.isOpen, h.frame.data, fun p hp => ?_, fun l => h.free,
    fun d' hd => h.sides_of_ne hd⟩
  · have hout' : ¬ InArray ((s.cleared d newRef).tickAt d p) := by
      rw [tickAt, cleared_ref_self]
      exact hout
    have hidx := h.levelIdx p (hvis.mpr hp) hside
    rw [if_neg hout'] at hidx
    exact ⟨hidx, h.null p (hvis.mpr hp) hside hout'⟩
  · exact h.untouched p fun hp' => hp ⟨hvis.mp hp'.1, hp'.2⟩

/-- Two bids whose links run in circles and whose levels are stale. -/
def staleBids : OrderBook 2 where
  sides _ := { levels := fun _ => { totalQty := 7, orderCount := 9, head := some 1, tail := some 0 },
               ref := 3, bestIdx := 8000 }
  orderMap := (AList.insert 6 1 ∅).insert 5 0
  pool := { slots := fun p => { orderRef := if p = 0 then 5 else 6, shares := 10,
                                price := if p = 0 then 100 else 90, side := 'B'.toUInt8,
                                levelIdx := 77, next := some p, prev := some 0 }
            freeHead := none }
  isOpen := true

theorem recentre_rebuilds_staleBids :
    ∃ s', recentre (.newest 2) .bid 100 staleBids = .ok s' ∧ Rebuilt .bid 100 staleBids s' :=
  recentre_rebuilds (.newest 2) .bid 100 (by decide) (by decide) (by decide) (by decide)

end OrderBook

end L2Book
