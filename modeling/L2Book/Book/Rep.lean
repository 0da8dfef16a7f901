import L2Book.Book.Naive
import L2Book.Book.Pool

/-!
# The book invariant

* `liveSet s`: the slots held by `order_map_`;
* **`Rep s`**: the level arrays and the free list represent exactly the orders of the map;
* `RemoveSpec`, `AddSpec`: what removing a live order (`remove_order`, `erase`, `free`) and inserting
  a new one (`make_order`, `insert_order`, `order_map_[ref] = o`) do to the whole book;
* `Rep.place`: what an insertion does, whether or not its reference is live;
* **`Rep.remove`**, **`Rep.add`**, **`Rep.reduce`**: the three building blocks of the handlers.
-/

namespace L2Book

namespace OrderBook

variable {n : ℕ}

/-- The slots held by the order map. -/
def liveSet (s : OrderBook n) : Set (Fin n) := {p | p ∈ s.liveSlots}

theorem mem_liveSet {s : OrderBook n} {p : Fin n} :
    p ∈ s.liveSet ↔ ∃ r, s.orderMap.lookup r = some p := by
  simp only [liveSet, liveSlots, Set.mem_ofPred_eq, List.mem_map]
  constructor
  · rintro ⟨⟨r, q⟩, he, rfl⟩
    exact ⟨r, AList.mem_lookup_iff.mpr he⟩
  · rintro ⟨r, hr⟩
    exact ⟨⟨r, p⟩, AList.mem_lookup_iff.mp hr, rfl⟩

/-- **The book invariant.** -/
structure Rep (s : OrderBook n) : Prop where
  linked : Linked s.liveSet s
  pool : PoolOk s.liveSet s.pool
  orderRef : ∀ r p, s.orderMap.lookup r = some p → (s.order p).orderRef = r

/-- Every best index is the least non-empty level. -/
def BestOk (s : OrderBook n) : Prop := ∀ d, IsBest (s.sides d).levels (s.sides d).bestIdx

/-- Two orders agree in the fields that come from messages. -/
def SameFields (x y : Order n) : Prop :=
  x.orderRef = y.orderRef ∧ x.shares = y.shares ∧ x.price = y.price ∧ x.side = y.side

theorem sameFields_of_sameData {h h' : Fin n → Order n} (hd : SameData h h') (p : Fin n) :
    SameFields (h' p) (h p) := ⟨hd.orderRef p, hd.shares p, hd.price p, hd.side p⟩

section RepLemmas

variable {s : OrderBook n}

theorem Rep.lookup_inj (h : Rep s) {r r' : UInt64} {p : Fin n}
    (hr : s.orderMap.lookup r = some p) (hr' : s.orderMap.lookup r' = some p) : r = r' :=
  (h.orderRef r p hr).symm.trans (h.orderRef r' p hr')

theorem Rep.lookup_orderRef (h : Rep s) {p : Fin n} (hp : p ∈ s.liveSet) :
    s.orderMap.lookup (s.order p).orderRef = some p := by
  obtain ⟨r, hr⟩ := mem_liveSet.mp hp
  rw [h.orderRef r p hr, hr]

theorem Rep.nodup (h : Rep s) : s.liveSlots.Nodup := by
  refine List.Nodup.map_on ?_ s.orderMap.nodupKeys.nodup
  rintro ⟨r, p⟩ hr ⟨r', p'⟩ hr' rfl
  have : r = r' := h.lookup_inj (AList.mem_lookup_iff.mpr hr) (AList.mem_lookup_iff.mpr hr')
  rw [this]

end RepLemmas

/-- A linked book depends on its sides and its orders only. -/
theorem Linked.of_eq_on {A : Set (Fin n)} {s : OrderBook n} (h : Linked A s)
    (s' : OrderBook n) (hs : s'.sides = s.sides) (ho : ∀ p ∈ A, s'.order p = s.order p) :
    Linked A s' ∧ ∀ d j, s'.queue d j = s.queue d j := by
  have hqueue : ∀ d j, LevelRep s'.pool.slots ((s'.sides d).levels j) (s.queue d j) := by
    intro d j
    have heq : ∀ p ∈ s.queue d j, s'.pool.slots p = s.pool.slots p := fun p hp =>
      ho p (h.mem_of_queue hp)
    rw [hs]
    refine (h.level d j).congr ?_ ?_ ?_ <;> intro p hp <;> rw [heq p hp]
  have hq : ∀ d j, s'.queue d j = s.queue d j := fun d j => queue_eq (hqueue d j)
  have hat : ∀ p ∈ A, s'.sideAt p = s.sideAt p := fun p hp => by unfold sideAt; rw [ho p hp]
  have htick : ∀ p ∈ A, s'.tickOf p = s.tickOf p := fun p hp => by
    unfold tickOf
    rw [hat p hp, hs, ho p hp]
  refine ⟨⟨⟨fun p hp => ?_, fun p hp => ?_, fun p hp => ?_, fun d => ?_, fun p hp => ?_⟩,
    fun d j => hq d j ▸ hqueue d j, fun d j p => ?_, fun p hp => ?_⟩, hq⟩
  · rw [ho p hp, hat p hp]; exact h.side_byte p hp
  · rw [ho p hp]; exact h.price_pos p hp
  · rw [ho p hp]; exact h.price_lt p hp
  · rw [hs]; exact h.ref_lt d
  · rw [hat p hp, hs]; exact h.ref_ne p hp
  · rw [hq, h.mem_queue]
    refine and_congr_right fun hp => ?_
    rw [hat p hp, htick p hp]
  · rw [ho p hp, htick p hp]; exact h.levelIdx p hp

/-! ## Removing a live order -/

/-- **What removing the live order `o` with reference `r` does.** -/
structure RemoveSpec (s : OrderBook n) (r : UInt64) (o : Fin n) (s' : OrderBook n) : Prop where
  rep : Rep s'
  orderMap : s'.orderMap = s.orderMap.erase r
  isOpen : s'.isOpen = s.isOpen
  ref : ∀ d, (s'.sides d).ref = (s.sides d).ref
  fields : ∀ p, p ≠ o → SameFields (s'.order p) (s.order p)
  queue : ∀ d j, s'.queue d j = (s.queue d j).erase o
  liveSet : s'.liveSet = s.liveSet \ {o}
  other_side : ∀ d, d ≠ s.sideAt o → s'.sides d = s.sides d
  other_orders : ∀ p ∈ s.liveSet, s.sideAt p ≠ s.sideAt o → s'.order p = s.order p
  best : n < 2 ^ 32 → BestOk s → BestOk s'

theorem liveSet_erase {s : OrderBook n} (h : Rep s) {r : UInt64} {o : Fin n}
    (hr : s.orderMap.lookup r = some o) (m : OrderMap n) (hm : m = s.orderMap.erase r) (p : Fin n) :
    (∃ r', m.lookup r' = some p) ↔ p ∈ s.liveSet \ {o} := by
  subst hm
  rw [Set.mem_sdiff, mem_liveSet, Set.mem_singleton_iff]
  constructor
  · rintro ⟨r', hr'⟩
    have hne : r' ≠ r := fun e => by rw [e, AList.lookup_erase] at hr'; cases hr'
    rw [AList.lookup_erase_ne hne] at hr'
    exact ⟨⟨r', hr'⟩, fun e => hne (h.lookup_inj hr' (e ▸ hr))⟩
  · rintro ⟨⟨r', hr'⟩, hne⟩
    have hrr : r' ≠ r := fun e => by
      rw [e, hr] at hr'
      exact hne (Option.some.inj hr').symm
    exact ⟨r', by rw [AList.lookup_erase_ne hrr, hr']⟩

/-- `pool_.free` clears the slot of the order it returns. -/
theorem eraseFree_order_of_ne (s : OrderBook n) (r : UInt64) {o p : Fin n} (hp : p ≠ o) :
    (s.eraseFree r o).order p = s.order p := by
  simp only [order, eraseFree, OrderPool.free, modify_of_ne _ hp]

/-- **Removing a live order** whose price index lies in the array. -/
theorem Rep.remove {b : Build} {s : OrderBook n} (hb : b = .debug → n < 2 ^ 32) (h : Rep s)
    {r : UInt64} {o : Fin n} (hr : s.orderMap.lookup r = some o) (hi : InArray (s.tickOf o)) :
    ∃ s₁, s.removeOrder b o = .ok s₁ ∧ RemoveSpec s r o (s₁.eraseFree r o) := by
  have ho : o ∈ s.liveSet := mem_liveSet.mpr ⟨r, hr⟩
  obtain ⟨s₁, hs₁, hlink, hfr, hq, hord, hside, hbest⟩ := h.linked.removeOrder hb ho hi
  set s' := s₁.eraseFree r o
  have hmap : s'.orderMap = s.orderMap.erase r := by
    show s₁.orderMap.erase r = _
    rw [hfr.orderMap]
  have hlive : s'.liveSet = s.liveSet \ {o} := Set.ext fun p =>
    mem_liveSet.trans (liveSet_erase h hr _ hmap p)
  have hne : ∀ p, p ≠ o → s'.order p = s₁.order p := fun p hp => s₁.eraseFree_order_of_ne r hp
  have hin : ∀ p ∈ s.liveSet \ {o}, s'.order p = s₁.order p := fun p hp =>
    hne p fun e => hp.2 (Set.mem_singleton_iff.mpr e)
  obtain ⟨hlink', hq'⟩ := hlink.of_eq_on s' rfl hin
  have hpool : PoolOk s.liveSet s₁.pool := by
    refine h.pool.congr hfr.freeHead fun p hp => ?_
    have : s₁.pool.slots p = s.pool.slots p := hord p fun hq => hp (h.linked.mem_of_queue hq)
    rw [this]
  have hfields : ∀ p, p ≠ o → SameFields (s'.order p) (s.order p) := fun p hp => by
    rw [hne p hp]
    exact sameFields_of_sameData hfr.data p
  refine ⟨s₁, hs₁, ⟨hlive ▸ hlink', hlive ▸ hpool.free ho, fun r' p hp => ?_⟩, hmap, hfr.isOpen,
    hfr.ref, hfields, fun d j => (hq' d j).trans (hq d j), hlive, hside, fun p hp hpo => ?_,
    fun hn hbs d => hbest hn d (hbs d)⟩
  · have hp' : p ∈ s'.liveSet := mem_liveSet.mpr ⟨r', hp⟩
    rw [hlive] at hp'
    rw [hmap] at hp
    have hrr : r' ≠ r := fun e => by rw [e, AList.lookup_erase] at hp; cases hp
    rw [AList.lookup_erase_ne hrr] at hp
    rw [(hfields p fun e => hp'.2 e).1]
    exact h.orderRef r' p hp
  · rw [hne p fun e => hpo (by rw [e])]
    exact hord p fun hp' => hpo ((h.linked.mem_queue _ _ p).mp hp').2.1

/-! ## Inserting a new order -/

/-- **What inserting a new order does**; `o` is the slot it got. -/
structure AddSpec (it : IterOrder n) (s : OrderBook n) (r : UInt64) (shares price : UInt32)
    (side : UInt8) (o : Fin n) (s' : OrderBook n) : Prop where
  rep : Rep s'
  fresh : o ∉ s.liveSet
  orderMap : s'.orderMap = s.orderMap.insert r o
  isOpen : s'.isOpen = s.isOpen
  new : SameFields (s'.order o) { orderRef := r, shares := shares, price := price, side := side }
  fields : ∀ p ∈ s.liveSet, SameFields (s'.order p) (s.order p)
  liveSet : s'.liveSet = insert o s.liveSet
  ref : ∀ d, (s'.sides d).ref =
    if d = sideOf side then nextRef d (s.sides d).ref price else (s.sides d).ref
  other_side : ∀ d, d ≠ sideOf side → s'.sides d = s.sides d
  other_orders : ∀ p ∈ s.liveSet, s.sideAt p ≠ sideOf side → s'.order p = s.order p
  queue_append : ¬ Recentres (sideOf side) (s.sides (sideOf side)).ref price → ∀ d j,
    s'.queue d j = if d = sideOf side ∧ ((j : ℕ) : ℤ) = tick d (nextRef d (s.sides d).ref price) price
      then s.queue d j ++ [o] else s.queue d j
  queue_recentre : Recentres (sideOf side) (s.sides (sideOf side)).ref price → ∀ d j,
    s'.queue d j = if d = sideOf side then (s.cleared d price).bucket d (s.visited it) j ++
        (if (j : ℕ) = 0 then [o] else []) else s.queue d j
  best : n < 2 ^ 32 → BestOk s → BestOk s'

theorem bucket_congr {s t : OrderBook n} {d : Side} {price : UInt32} {ps : List (Fin n)}
    (h : ∀ p ∈ ps, t.order p = s.order p) (j : Fin kLevels) :
    (t.cleared d price).bucket d ps j = (s.cleared d price).bucket d ps j := by
  unfold bucket tickAt
  refine List.filter_congr fun p hp => ?_
  have : (t.cleared d price).order p = (s.cleared d price).order p := h p hp
  rw [this, cleared_ref_self, cleared_ref_self]

/-- The state in which `insert_order` runs: the slot is allocated and filled. -/
def filled (s : OrderBook n) (pool : OrderPool n) (o : Fin n) (r : UInt64) (shares price : UInt32)
    (side : UInt8) : OrderBook n :=
  { s with pool := { pool with slots := modify pool.slots o fun x =>
      { x with orderRef := r, shares := shares, price := price, side := side } } }

section Filled

variable {b : Build} {it : IterOrder n} {s : OrderBook n} {pool : OrderPool n} {o p : Fin n} {r : UInt64}
  {shares price : UInt32} {side : UInt8}

theorem filled_order_of_ne
    (hslots : pool.slots = modify s.pool.slots o fun x => { x with next := none, prev := none })
    (hp : p ≠ o) : (s.filled pool o r shares price side).order p = s.order p := by
  simp only [order, filled, modify_of_ne _ hp, hslots]

theorem filled_order_self : SameFields ((s.filled pool o r shares price side).order o)
    { orderRef := r, shares := shares, price := price, side := side } := by
  simp only [order, filled, modify_self]
  exact ⟨rfl, rfl, rfl, rfl⟩

theorem filled_sideAt_self : (s.filled pool o r shares price side).sideAt o = sideOf side := by
  unfold sideAt
  rw [filled_order_self.2.2.2]

theorem addNew_eq_ok {s₁ : OrderBook n} (halloc : s.pool.alloc b = .ok (pool, o))
    (hins : (s.filled pool o r shares price side).insertOrder b it o = .ok s₁) :
    s.addNew b it r shares price side = .ok { s₁ with orderMap := s₁.orderMap.insert r o } := by
  unfold addNew
  rw [halloc]
  show (do
    let s ← (s.filled pool o r shares price side).insertOrder b it o
    Except.ok { s with orderMap := s.orderMap.insert r o }) = _
  rw [hins]
  rfl

end Filled

/-- **Placing an order**: what an insertion does, whether or not its reference is live. -/
structure PlaceSpec (it : IterOrder n) (s : OrderBook n) (r : UInt64) (shares price : UInt32)
    (side : UInt8) (o : Fin n) (s' : OrderBook n) : Prop where
  fresh : o ∉ s.liveSet
  linked : Linked (insert o s.liveSet) s'
  pool : PoolOk (insert o s.liveSet) s'.pool
  orderMap : s'.orderMap = s.orderMap.insert r o
  isOpen : s'.isOpen = s.isOpen
  new : SameFields (s'.order o) { orderRef := r, shares := shares, price := price, side := side }
  fields : ∀ p ∈ s.liveSet, SameFields (s'.order p) (s.order p)
  ref : ∀ d, (s'.sides d).ref =
    if d = sideOf side then nextRef d (s.sides d).ref price else (s.sides d).ref
  other_side : ∀ d, d ≠ sideOf side → s'.sides d = s.sides d
  other_orders : ∀ p ∈ s.liveSet, s.sideAt p ≠ sideOf side → s'.order p = s.order p
  queue_append : ¬ Recentres (sideOf side) (s.sides (sideOf side)).ref price → ∀ d j,
    s'.queue d j = if d = sideOf side ∧ ((j : ℕ) : ℤ) = tick d (nextRef d (s.sides d).ref price) price
      then s.queue d j ++ [o] else s.queue d j
  queue_recentre : Recentres (sideOf side) (s.sides (sideOf side)).ref price → ∀ d j,
    s'.queue d j = if d = sideOf side then (s.cleared d price).bucket d (s.visited it) j ++
        (if (j : ℕ) = 0 then [o] else []) else s.queue d j
  best : n < 2 ^ 32 → BestOk s → BestOk s'

theorem Rep.place (b : Build) (it : IterOrder n) {s : OrderBook n} (h : Rep s) (r : UInt64)
    (shares : UInt32) {price : UInt32} {side : UInt8} (hside : side = (sideOf side).byte)
    (hprice : PriceOk price) (hfree : ∃ p, p ∉ s.liveSet) :
    ∃ s' o, s.addNew b it r shares price side = .ok s' ∧
      PlaceSpec it s r shares price side o s' := by
  obtain ⟨pool, o, halloc, ho, hpool, hslots⟩ := h.pool.alloc b hfree
  set t := s.filled pool o r shares price side with ht
  have hto : SameFields (t.order o)
      { orderRef := r, shares := shares, price := price, side := side } := filled_order_self
  have hin : ∀ p ∈ s.liveSet, t.order p = s.order p := fun p hp =>
    filled_order_of_ne hslots fun e => ho (e ▸ hp)
  obtain ⟨hlink, hq⟩ := h.linked.of_eq_on t rfl hin
  have hat : t.sideAt o = sideOf side := filled_sideAt_self
  obtain ⟨s₁, hs₁, hspec⟩ := hlink.insertOrder (o := o) b it (fun p => Iff.rfl) h.nodup ho
    (by rw [hto.2.2.2, hat]; exact hside) (by rw [hto.2.2.1]; exact hprice.1)
    (by rw [hto.2.2.1]; exact hprice.2)
  set s' : OrderBook n := { s₁ with orderMap := s₁.orderMap.insert r o } with hs'
  have hmap : s'.orderMap = s.orderMap.insert r o := by
    show s₁.orderMap.insert r o = _
    rw [hspec.orderMap]
    rfl
  have hnew : SameFields (s'.order o)
      { orderRef := r, shares := shares, price := price, side := side } := by
    have hf := sameFields_of_sameData hspec.data o
    exact ⟨hf.1.trans hto.1, hf.2.1.trans hto.2.1, hf.2.2.1.trans hto.2.2.1,
      hf.2.2.2.trans hto.2.2.2⟩
  have hfields : ∀ p ∈ s.liveSet, SameFields (s'.order p) (s.order p) := fun p hp => by
    have hf := sameFields_of_sameData hspec.data p
    have e : t.pool.slots p = s.order p := hin p hp
    rw [e] at hf
    exact hf
  have hvis : ∀ p ∈ s.visited it, t.order p = s.order p := fun p hp =>
    hin p ((s.visited_perm it).mem_iff.mp hp)
  refine ⟨s', o, addNew_eq_ok halloc hs₁, ⟨ho, ?_, ?_, hmap, hspec.isOpen, hnew, hfields, fun d => ?_,
    fun d hd => ?_, fun p hp hpo => ?_, fun hnr d j => ?_, fun hrc d j => ?_, fun hn hbs => ?_⟩⟩
  · exact (hspec.linked.of_eq_on s' rfl fun _ _ => rfl).1
  · refine hpool.congr hspec.freeHead fun p hp => ?_
    have hpo : p ≠ o := fun e => hp (.inl e)
    have e : s'.order p = t.order p := hspec.outside p (fun e => hp (.inr e)) hpo
    have e' : t.pool.slots p = pool.slots p := by
      simp only [ht, filled, modify_of_ne _ hpo]
    show (s'.order p).next = _
    rw [e, ← e']
    rfl
  · show (s₁.sides d).ref = _
    rw [hspec.ref, hat, hto.2.2.1]
    rfl
  · exact hspec.other_side d (by rw [hat]; exact hd)
  · have e : s'.order p = t.order p := hspec.other_orders p hp (by
      have : t.sideAt p = s.sideAt p := by unfold sideAt; rw [hin p hp]
      rw [this, hat]
      exact hpo)
    rw [e, hin p hp]
  · show s₁.queue d j = _
    rw [hspec.queue_append (by rw [hat, hto.2.2.1]; exact hnr), hat, hto.2.2.1, hq]
    rfl
  · show s₁.queue d j = _
    rw [hspec.queue_recentre (by rw [hat, hto.2.2.1]; exact hrc), hat, hto.2.2.1, hq]
    refine if_congr Iff.rfl (congrArg (· ++ _) ?_) rfl
    exact bucket_congr hvis j
  · exact hspec.best hn hbs

/-- **Inserting a new order.** -/
theorem Rep.add (b : Build) (it : IterOrder n) {s : OrderBook n} (h : Rep s) (r : UInt64)
    (shares : UInt32) {price : UInt32} {side : UInt8} (hr : s.orderMap.lookup r = none)
    (hside : side = (sideOf side).byte) (hprice : PriceOk price) (hfree : ∃ p, p ∉ s.liveSet) :
    ∃ s' o, s.addNew b it r shares price side = .ok s' ∧
      AddSpec it s r shares price side o s' := by
  obtain ⟨s', o, hs', hspec⟩ := h.place b it r shares hside hprice hfree
  have hlive : s'.liveSet = insert o s.liveSet := by
    ext p
    rw [mem_liveSet, hspec.orderMap, Set.mem_insert_iff, mem_liveSet]
    constructor
    · rintro ⟨r', hr'⟩
      by_cases e : r' = r
      · subst e
        rw [AList.lookup_insert] at hr'
        exact .inl (Option.some.inj hr').symm
      · rw [AList.lookup_insert_ne e] at hr'
        exact .inr ⟨r', hr'⟩
    · rintro (rfl | ⟨r', hr'⟩)
      · exact ⟨r, AList.lookup_insert _⟩
      · have e : r' ≠ r := fun e => by rw [e, hr] at hr'; cases hr'
        exact ⟨r', by rw [AList.lookup_insert_ne e, hr']⟩
  have hrep : Rep s' := by
    refine ⟨hlive ▸ hspec.linked, hlive ▸ hspec.pool, fun r' p hp => ?_⟩
    rw [hspec.orderMap] at hp
    by_cases e : r' = r
    · subst e
      rw [AList.lookup_insert] at hp
      cases hp
      exact hspec.new.1
    · rw [AList.lookup_insert_ne e] at hp
      rw [(hspec.fields p (mem_liveSet.mpr ⟨r', hp⟩)).1]
      exact h.orderRef r' p hp
  exact ⟨s', o, hs', hrep, hspec.fresh, hspec.orderMap, hspec.isOpen, hspec.new, hspec.fields, hlive,
    hspec.ref, hspec.other_side, hspec.other_orders, hspec.queue_append, hspec.queue_recentre,
    hspec.best⟩

/-! ## Reducing a live order -/

/-- **What reducing the live order `o` by `qty` shares does.** -/
structure ReduceSpec (s : OrderBook n) (o : Fin n) (qty : UInt32) (s' : OrderBook n) : Prop where
  rep : Rep s'
  orderMap : s'.orderMap = s.orderMap
  isOpen : s'.isOpen = s.isOpen
  slots : s'.pool.slots = modify s.pool.slots o fun x => { x with shares := x.shares - qty }
  ref : ∀ d, (s'.sides d).ref = (s.sides d).ref
  queue : ∀ d j, s'.queue d j = s.queue d j
  other_side : ∀ d, d ≠ s.sideAt o → s'.sides d = s.sides d
  best : BestOk s → BestOk s'

theorem Rep.reduce {b : Build} {s : OrderBook n} (hb : b = .debug → n < 2 ^ 32) (h : Rep s)
    {r : UInt64} {o : Fin n} {qty : UInt32} (hr : s.orderMap.lookup r = some o)
    (hi : InArray (s.tickOf o)) (hq : qty ≤ (s.order o).shares) :
    ∃ s', s.reduceShares b o qty = .ok s' ∧ ReduceSpec s o qty s' := by
  have ho : o ∈ s.liveSet := mem_liveSet.mpr ⟨r, hr⟩
  obtain ⟨s', hs', hlink, hslots, hmap, hopen, hhead, href, hqu, hside, hbest⟩ :=
    h.linked.reduceShares hb ho hi hq
  have hlive : s'.liveSet = s.liveSet := by
    unfold liveSet liveSlots
    rw [hmap]
  refine ⟨s', hs', ⟨hlive ▸ hlink, ?_, fun r' p hp => ?_⟩, hmap, hopen, hslots, href, hqu, hside,
    fun hbs d => hbest d (hbs d)⟩
  · rw [hlive]
    refine h.pool.congr hhead fun p _ => ?_
    rw [hslots, modify_apply]
    split_ifs <;> rfl
  · rw [hmap] at hp
    have : (s'.order p).orderRef = (s.order p).orderRef := by
      unfold order
      rw [hslots, modify_apply]
      split_ifs <;> rfl
    rw [this]
    exact h.orderRef r' p hp

theorem ReduceSpec.order_self {s s' : OrderBook n} {o : Fin n} {qty : UInt32}
    (h : ReduceSpec s o qty s') : s'.order o = { s.order o with shares := (s.order o).shares - qty } := by
  unfold order
  rw [h.slots, modify_self]

theorem ReduceSpec.order_of_ne {s s' : OrderBook n} {o p : Fin n} {qty : UInt32}
    (h : ReduceSpec s o qty s') (hp : p ≠ o) : s'.order p = s.order p := by
  unfold order
  rw [h.slots, modify_of_ne _ hp]

end OrderBook

end L2Book
