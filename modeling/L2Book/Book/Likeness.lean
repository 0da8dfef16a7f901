import L2Book.Book.Effects
import L2Book.Book.Step

/-!
# Like books

Two books with the same links, counters and slots may differ in the side bytes and prices of their orders
and in the reference prices of their sides. The helpers of the book keep such books alike as long as they
compute the same indices.

* `Likeness`: how bytes, prices and reference prices may differ;
* `Order.Like`, `HeapLike`, `LevelLike`, `BookSide.Like`, **`Like`**: orders, heaps, results of
  `PriceLevel` calls, sides and books;
* `NaiveBook.Mapped`: naive books that differ by a function on orders;
* `Like.insertAt`, `Like.removeOrder`, `Like.reduceShares`, `Like.reduceBy`, `Like.deleteRef`: helpers that
  read no price;
* `SameVisit`, `SamePlace`: a re-centre and an insertion meet the same indices in both books;
  **`Like.insertOrder`**, **`Like.addNew`**: they keep like books alike then.
-/

namespace L2Book

variable {n : ℕ}

/-- How the side byte and price of an order and the reference price of a side may differ. -/
structure Likeness where
  order : UInt8 × UInt32 → UInt8 × UInt32 → Prop
  ref : Side → UInt32 → UInt32 → Prop
  side : ∀ {x y}, order x y → sideOf y.1 = sideOf x.1
  free : order (0, 0) (0, 0)

variable {L : Likeness}

/-! ## Like orders -/

/-- The orders agree up to byte and price. -/
structure Order.Like (L : Likeness) (x y : Order n) : Prop where
  orderRef : y.orderRef = x.orderRef
  shares : y.shares = x.shares
  data : L.order (x.side, x.price) (y.side, y.price)
  levelIdx : y.levelIdx = x.levelIdx
  next : y.next = x.next
  prev : y.prev = x.prev

/-- Two heaps of like orders. -/
def HeapLike (L : Likeness) (h h' : Fin n → Order n) : Prop := ∀ p, (h p).Like L (h' p)

section Heaps

variable {h h' : Fin n → Order n}

theorem HeapLike.modify (ha : HeapLike L h h') (o : Fin n) {f g : Order n → Order n}
    (hf : (f (h o)).Like L (g (h' o))) : HeapLike L (modify h o f) (modify h' o g) := by
  intro p
  rw [modify_apply, modify_apply]
  split_ifs with hp
  · rw [hp]
    exact hf
  · exact ha p

theorem HeapLike.links_eq (ha : HeapLike L h h') : links h' = links h := by
  unfold links
  congr 1
  · exact funext fun p => (ha p).next
  · exact funext fun p => (ha p).prev

theorem HeapLike.withLinks (ha : HeapLike L h h') (K : Links (Fin n)) :
    HeapLike L (withLinks h K) (withLinks h' K) :=
  fun p => ⟨(ha p).orderRef, (ha p).shares, (ha p).data, (ha p).levelIdx, rfl, rfl⟩

theorem HeapLike.levelRep (ha : HeapLike L h h') {lvl : PriceLevel n} {l : List (Fin n)}
    (hr : LevelRep h' lvl l) : LevelRep h lvl l :=
  hr.congr (fun p _ => (ha p).next.symm) (fun p _ => (ha p).prev.symm) fun p _ => (ha p).shares.symm

/-- The results of a `PriceLevel` call. -/
def LevelLike (L : Likeness) (r r' : PriceLevel n × (Fin n → Order n)) : Prop :=
  r'.1 = r.1 ∧ HeapLike L r.2 r'.2

theorem HeapLike.addOrder (ha : HeapLike L h h') (lvl : PriceLevel n) (o : Fin n) :
    LevelLike L (lvl.addOrder h o) (lvl.addOrder h' o) := by
  refine ⟨?_, ?_⟩
  · rw [addOrder_level, addOrder_level, (ha o).shares]
  · rw [addOrder_heap, addOrder_heap, ha.links_eq]
    exact ha.withLinks _

theorem HeapLike.setNext (ha : HeapLike L h h') (p : Fin n) (a : Option (Fin n)) :
    HeapLike L (L2Book.modify h p fun x => { x with next := a })
      (L2Book.modify h' p fun x => { x with next := a }) :=
  have hp := ha p
  ha.modify p ⟨hp.orderRef, hp.shares, hp.data, hp.levelIdx, rfl, hp.prev⟩

theorem HeapLike.setPrev (ha : HeapLike L h h') (p : Fin n) (a : Option (Fin n)) :
    HeapLike L (L2Book.modify h p fun x => { x with prev := a })
      (L2Book.modify h' p fun x => { x with prev := a }) :=
  have hp := ha p
  ha.modify p ⟨hp.orderRef, hp.shares, hp.data, hp.levelIdx, hp.next, rfl⟩

/-- The counters of a level and the links of the order it lost. -/
theorem HeapLike.unlinked (ha : HeapLike L h h') (lvl : PriceLevel n) (o : Fin n) :
    LevelLike L
      ({ lvl with totalQty := lvl.totalQty - (h o).shares.toUInt64, orderCount := lvl.orderCount - 1 },
        L2Book.modify h o fun x => { x with next := none, prev := none })
      ({ lvl with totalQty := lvl.totalQty - (h' o).shares.toUInt64, orderCount := lvl.orderCount - 1 },
        L2Book.modify h' o fun x => { x with next := none, prev := none }) := by
  have ho := ha o
  refine ⟨by rw [ho.shares], fun p => ?_⟩
  exact ha.modify o (f := fun x => { x with next := none, prev := none })
    (g := fun x => { x with next := none, prev := none })
    ⟨ho.orderRef, ho.shares, ho.data, ho.levelIdx, rfl, rfl⟩ p

theorem HeapLike.removeOrder (ha : HeapLike L h h') (b : Build) (lvl : PriceLevel n) (o : Fin n) :
    Together (LevelLike L) (lvl.removeOrder b h o) (lvl.removeOrder b h' o) := by
  unfold PriceLevel.removeOrder
  rw [(ha o).shares]
  refine (Together.refl _).bind fun _ _ _ => (Together.refl _).bind fun _ _ _ => ?_
  rw [(ha o).prev, (ha o).next]
  cases (h o).prev with
  | none =>
    simp only
    rw [(ha o).prev, (ha o).next]
    cases (h o).next with
    | none => exact ha.unlinked _ o
    | some q => exact (ha.setPrev q _).unlinked _ o
  | some p =>
    have ha' := ha.setNext p (h o).next
    simp only
    rw [(ha' o).prev, (ha' o).next]
    cases ((L2Book.modify h p fun x => { x with next := (h o).next }) o).next with
    | none => exact ha'.unlinked _ o
    | some q => exact (ha'.setPrev q _).unlinked _ o

theorem HeapLike.reduceShares (ha : HeapLike L h h') (b : Build) (lvl : PriceLevel n) (o : Fin n)
    (qty : UInt32) :
    Together (LevelLike L) (lvl.reduceShares b h o qty) (lvl.reduceShares b h' o qty) := by
  unfold PriceLevel.reduceShares
  rw [(ha o).shares]
  refine (Together.refl _).bind fun _ _ _ => ?_
  have ho := ha o
  have hq : (h' o).shares - qty = (h o).shares - qty := by rw [ho.shares]
  have hm : HeapLike L (L2Book.modify h o fun x => { x with shares := x.shares - qty })
      (L2Book.modify h' o fun x => { x with shares := x.shares - qty }) :=
    ha.modify o ⟨ho.orderRef, hq, ho.data, ho.levelIdx, ho.next, ho.prev⟩
  exact ⟨rfl, hm⟩

end Heaps

/-! ## Like sides -/

/-- The levels and the best index of the side are the same. -/
structure BookSide.Like (L : Likeness) (d : Side) (x y : BookSide n) : Prop where
  levels : y.levels = x.levels
  bestIdx : y.bestIdx = x.bestIdx
  ref : L.ref d x.ref y.ref

/-! ## Naive books that differ by a function on orders -/

namespace NaiveBook

/-- The orders of `a'` are those of `a` under `g`. -/
structure Mapped (g : NaiveOrder → NaiveOrder) (a a' : NaiveBook) : Prop where
  lookup : ∀ ref, a'.orders.lookup ref = (a.orders.lookup ref).map g
  isOpen : a'.isOpen = a.isOpen

section Mapped

variable {g : NaiveOrder → NaiveOrder} {a a' : NaiveBook}

theorem Mapped.lookup_none (h : Mapped g a a') {ref : UInt64} :
    a'.orders.lookup ref = none ↔ a.orders.lookup ref = none := by
  rw [h.lookup, Option.map_eq_none_iff]

theorem Mapped.size_eq (h : Mapped g a a') : a'.size = a.size := by
  have hperm : a'.orders.keys.Perm a.orders.keys := by
    rw [List.perm_ext_iff_of_nodup a'.orders.keys_nodup a.orders.keys_nodup]
    intro r
    rw [← AList.mem_keys, ← AList.mem_keys, ← AList.lookup_isSome, ← AList.lookup_isSome, h.lookup,
      Option.isSome_map]
  exact hperm.length_eq

theorem Mapped.insert (h : Mapped g a a') (ref : UInt64) (o : NaiveOrder) :
    Mapped g { a with orders := a.orders.insert ref o } { a' with orders := a'.orders.insert ref (g o) } := by
  refine ⟨fun r => ?_, h.isOpen⟩
  by_cases e : r = ref
  · rw [e, AList.lookup_insert, AList.lookup_insert, Option.map_some]
  · rw [AList.lookup_insert_ne e, AList.lookup_insert_ne e, h.lookup]

theorem Mapped.erase (h : Mapped g a a') (ref : UInt64) :
    Mapped g { a with orders := a.orders.erase ref } { a' with orders := a'.orders.erase ref } := by
  refine ⟨fun r => ?_, h.isOpen⟩
  by_cases e : r = ref
  · rw [e, AList.lookup_erase, AList.lookup_erase, Option.map_none]
  · rw [AList.lookup_erase_ne e, AList.lookup_erase_ne e, h.lookup]

/-- The function leaves the shares alone and does not look at them. -/
def KeepsShares (g : NaiveOrder → NaiveOrder) : Prop :=
  ∀ o q, g { o with shares := q } = { g o with shares := q }

theorem KeepsShares.shares (hg : KeepsShares g) (o : NaiveOrder) : (g o).shares = o.shares := by
  have h : (g o).shares = { g o with shares := o.shares }.shares := congrArg NaiveOrder.shares (hg o o.shares)
  exact h

theorem Mapped.step (h : Mapped g a a') (hg : KeepsShares g) {e : Event} (he : a.inserts e = none) :
    Mapped g (a.step e) (a'.step e) ∧ a'.inserts e = none := by
  cases e with
  | system code =>
    refine ⟨?_, rfl⟩
    simp only [NaiveBook.step]
    split_ifs
    · exact ⟨h.lookup, rfl⟩
    · exact ⟨h.lookup, rfl⟩
    · exact ⟨fun _ => rfl, rfl⟩
    · exact h
  | add ref side shares price =>
    have hopen : ¬ a.isOpen = true := fun ho => by simp only [inserts, ho, if_true, reduceCtorEq] at he
    have hopen' : ¬ a'.isOpen = true := by rw [h.isOpen]; exact hopen
    simp only [NaiveBook.step, inserts]
    rw [if_neg hopen, if_neg hopen', if_neg hopen']
    exact ⟨h, rfl⟩
  | reduce ref qty =>
    refine ⟨?_, rfl⟩
    simp only [NaiveBook.step]
    rw [h.lookup]
    cases a.orders.lookup ref with
    | none => exact h
    | some o =>
      simp only [Option.map_some]
      rw [hg.shares, ← hg]
      split_ifs
      · exact h.erase ref
      · exact h.insert ref { o with shares := o.shares - qty }
  | delete ref => exact ⟨h.erase ref, rfl⟩
  | replace oldRef newRef shares price =>
    have hold : a.orders.lookup oldRef = none := by
      simpa only [inserts, Option.map_eq_none_iff] using he
    simp only [NaiveBook.step, inserts]
    rw [h.lookup_none.mpr hold, hold]
    exact ⟨h, rfl⟩
  | ignore => exact ⟨h, rfl⟩

end Mapped

end NaiveBook

namespace OrderBook

/-! ## The whole book -/

/-- **The books agree up to bytes, prices and reference prices.** -/
structure Like (L : Likeness) (s t : OrderBook n) : Prop where
  sides : ∀ d, (s.sides d).Like L d (t.sides d)
  orderMap : t.orderMap = s.orderMap
  isOpen : t.isOpen = s.isOpen
  freeHead : t.pool.freeHead = s.pool.freeHead
  heap : HeapLike L s.pool.slots t.pool.slots

section Helpers

variable {b : Build} {it : IterOrder n} {d : Side} {s t : OrderBook n} {o : Fin n}

theorem Like.order (h : Like L s t) (p : Fin n) : (s.order p).Like L (t.order p) := h.heap p

theorem Like.sideAt (h : Like L s t) (p : Fin n) : t.sideAt p = s.sideAt p := L.side (h.order p).data

theorem Like.queue (h : Like L s t) (d : Side) (i : Fin kLevels) : t.queue d i = s.queue d i := by
  unfold OrderBook.queue
  rw [h.heap.links_eq, (h.sides d).levels]

theorem Like.liveSlots (h : Like L s t) : t.liveSlots = s.liveSlots := by
  unfold OrderBook.liveSlots
  rw [h.orderMap]

theorem Like.liveSet (h : Like L s t) : t.liveSet = s.liveSet := by
  unfold OrderBook.liveSet
  rw [h.liveSlots]

theorem Like.modifyOrder (h : Like L s t) (o : Fin n) {f g : Order n → Order n}
    (hf : (f (s.order o)).Like L (g (t.order o))) : Like L (s.modifyOrder o f) (t.modifyOrder o g) :=
  ⟨h.sides, h.orderMap, h.isOpen, h.freeHead, h.heap.modify o hf⟩

theorem Like.updateSides (h : Like L s t) {x y : BookSide n} (hxy : x.Like L d y) (d' : Side) :
    (Function.update s.sides d x d').Like L d' (Function.update t.sides d y d') := by
  by_cases hd : d' = d
  · subst hd
    rw [Function.update_self, Function.update_self]
    exact hxy
  · rw [Function.update_of_ne hd, Function.update_of_ne hd]
    exact h.sides d'

theorem Like.setSide (h : Like L s t) {x y : BookSide n} (hxy : x.Like L d y) :
    Like L (s.setSide d x) (t.setSide d y) :=
  ⟨h.updateSides hxy, h.orderMap, h.isOpen, h.freeHead, h.heap⟩

theorem Like.setLevel (h : Like L s t) (d : Side) (i : Fin kLevels)
    {r r' : PriceLevel n × (Fin n → Order n)} (hr : LevelLike L r r') :
    Like L (s.setLevel d i r) (t.setLevel d i r') := by
  have hside := h.sides d
  exact ⟨h.updateSides ⟨by rw [hside.levels, hr.1], hside.bestIdx, hside.ref⟩, h.orderMap, h.isOpen,
    h.freeHead, hr.2⟩

theorem Like.insertAt (h : Like L s t) (o : Fin n) (idx : ℤ) :
    Together (Like L) (s.insertAt o idx) (t.insertAt o idx) := by
  by_cases hi : InArray idx
  · rw [insertAt_eq hi, insertAt_eq hi, h.sideAt]
    have ho := h.order o
    have hm : HeapLike L (modify s.pool.slots o fun x => { x with levelIdx := (slotOf idx hi : ℕ) })
        (modify t.pool.slots o fun x => { x with levelIdx := (slotOf idx hi : ℕ) }) :=
      h.heap.modify o ⟨ho.orderRef, ho.shares, ho.data, rfl, ho.next, ho.prev⟩
    have hside := h.sides (s.sideAt o)
    have hadd := hm.addOrder ((s.sides (s.sideAt o)).levels (slotOf idx hi)) o
    refine ⟨h.updateSides ⟨?_, ?_, hside.ref⟩, h.orderMap, h.isOpen, h.freeHead, ?_⟩
    · simp only [hside.levels, hadd.1]
    · simp only [hside.bestIdx]
    · unfold inserted
      simp only [hside.levels]
      exact hadd.2
  · unfold OrderBook.insertAt
    rw [levelAt_of_not_mem hi]
    trivial

theorem Like.advanceBest (h : Like L s t) (d : Side) :
    Like L (OrderBook.advanceBest d s) (OrderBook.advanceBest d t) := by
  have hside := h.sides d
  refine h.setSide ⟨hside.levels, ?_, hside.ref⟩
  simp only [hside.levels, hside.bestIdx]

theorem Like.removeOrder (h : Like L s t) (o : Fin n) :
    Together (Like L) (s.removeOrder b o) (t.removeOrder b o) := by
  have hat : sideOf (t.order o).side = sideOf (s.order o).side := h.sideAt o
  unfold OrderBook.removeOrder
  simp only
  rw [(h.order o).levelIdx, hat, (h.sides _).levels]
  refine (Together.refl _).bind fun _ _ _ => (Together.refl _).bind ?_
  rintro i _ rfl
  refine (h.heap.removeOrder b _ o).bind fun r r' hr => ?_
  have hlevel := h.setLevel (sideOf (s.order o).side) i hr
  rw [(hlevel.sides _).levels, (hlevel.sides _).bestIdx]
  split_ifs
  · have h₁ := hlevel.advanceBest (sideOf (s.order o).side)
    have ho := h₁.order o
    exact h₁.modifyOrder o (f := fun x => { x with levelIdx := -1 })
      (g := fun x => { x with levelIdx := -1 })
      ⟨ho.orderRef, ho.shares, ho.data, rfl, ho.next, ho.prev⟩
  · have ho := hlevel.order o
    exact hlevel.modifyOrder o (f := fun x => { x with levelIdx := -1 })
      (g := fun x => { x with levelIdx := -1 })
      ⟨ho.orderRef, ho.shares, ho.data, rfl, ho.next, ho.prev⟩

theorem Like.reduceShares (h : Like L s t) (o : Fin n) (qty : UInt32) :
    Together (Like L) (s.reduceShares b o qty) (t.reduceShares b o qty) := by
  have hat : sideOf (t.order o).side = sideOf (s.order o).side := h.sideAt o
  unfold OrderBook.reduceShares
  simp only
  rw [(h.order o).levelIdx, hat, (h.sides _).levels]
  refine (Together.refl _).bind fun _ _ _ => (Together.refl _).bind ?_
  rintro i _ rfl
  exact (h.heap.reduceShares b _ o qty).bind fun r r' hr => h.setLevel _ i hr

theorem Like.eraseFree (h : Like L s t) (ref : UInt64) (o : Fin n) :
    Like L (s.eraseFree ref o) (t.eraseFree ref o) := by
  refine ⟨h.sides, ?_, h.isOpen, rfl, ?_⟩
  · show t.orderMap.erase ref = s.orderMap.erase ref
    rw [h.orderMap]
  · exact h.heap.modify o (f := fun _ => { next := s.pool.freeHead })
      (g := fun _ => { next := t.pool.freeHead }) ⟨rfl, rfl, L.free, rfl, h.freeHead, rfl⟩

theorem Like.reduceBy (h : Like L s t) (ref : UInt64) (qty : UInt32) :
    Together (Like L) (s.reduceBy b ref qty) (t.reduceBy b ref qty) := by
  unfold OrderBook.reduceBy
  rw [h.orderMap]
  cases s.orderMap.lookup ref with
  | none => exact h
  | some o =>
    refine (h.reduceShares o qty).bind fun s₁ t₁ h₁ => ?_
    rw [(h₁.order o).shares]
    split_ifs
    · exact (h₁.removeOrder o).bind fun s₂ t₂ h₂ => h₂.eraseFree ref o
    · exact h₁

theorem Like.deleteRef (h : Like L s t) (ref : UInt64) :
    Together (Like L) (s.deleteRef b ref) (t.deleteRef b ref) := by
  unfold OrderBook.deleteRef
  rw [h.orderMap]
  cases s.orderMap.lookup ref with
  | none => exact h
  | some o => exact (h.removeOrder o).bind fun s₁ t₁ h₁ => h₁.eraseFree ref o

theorem Like.halt (h : Like L s t) (it : IterOrder n) : Like L (s.halt it) (t.halt it) := by
  rw [halt_eq, halt_eq]
  exact ⟨fun d => ⟨rfl, rfl, (h.sides d).ref⟩, rfl, rfl, rfl, fun p => ⟨rfl, rfl, L.free, rfl, rfl, rfl⟩⟩

/-! ## Re-centring -/

/-- A re-centre on `ref` and `ref'` treats the two orders alike. -/
structure SameVisit (d : Side) (ref ref' : UInt32) (x y : Order n) : Prop where
  byte : x.side = d.byte ↔ y.side = d.byte
  idx : x.side = d.byte → priceIdx d ref' y.price = priceIdx d ref x.price

theorem Like.recentreStep (h : Like L s t) {e : Σ _ : UInt64, Fin n}
    (he : SameVisit d (s.sides d).ref (t.sides d).ref (s.order e.2) (t.order e.2)) :
    Together (Like L) (recentreStep d s e) (recentreStep d t e) := by
  unfold OrderBook.recentreStep
  by_cases hs : (s.order e.2).side = d.byte
  · have ht := he.byte.mp hs
    have ho := h.order e.2
    have hreset : Like L (s.reset e.2) (t.reset e.2) :=
      h.modifyOrder e.2 ⟨ho.orderRef, ho.shares, ho.data, rfl, rfl, rfl⟩
    have hidx : priceIdx d ((t.reset e.2).sides d).ref ((t.reset e.2).order e.2).price =
        priceIdx d ((s.reset e.2).sides d).ref ((s.reset e.2).order e.2).price := by
      rw [reset_order_self, reset_order_self]
      exact he.idx hs
    rw [if_neg (not_not.mpr hs), if_neg (not_not.mpr ht)]
    simp only
    rw [← reset, ← reset, hidx]
    refine (Together.refl _).bind ?_
    rintro idx _ rfl
    split_ifs
    · exact hreset.insertAt e.2 idx
    · exact hreset
  · rw [if_pos hs, if_pos fun ht => hs (he.byte.mpr ht)]
    exact h

theorem SameVisit.of_frame {s' t' : OrderBook n} {p : Fin n}
    (h : SameVisit d (s.sides d).ref (t.sides d).ref (s.order p) (t.order p)) (hs : Frame s s')
    (ht : Frame t t') : SameVisit d (s'.sides d).ref (t'.sides d).ref (s'.order p) (t'.order p) := by
  have hside : (s'.order p).side = (s.order p).side := hs.data.side p
  have hside' : (t'.order p).side = (t.order p).side := ht.data.side p
  have hprice : (s'.order p).price = (s.order p).price := hs.data.price p
  have hprice' : (t'.order p).price = (t.order p).price := ht.data.price p
  refine ⟨?_, ?_⟩
  · rw [hside, hside']
    exact h.byte
  · rw [hside, hprice, hprice', hs.ref, ht.ref]
    exact h.idx

theorem Like.recentreLoop (h : Like L s t) (es : List (Σ _ : UInt64, Fin n))
    (hes : ∀ e ∈ es, SameVisit d (s.sides d).ref (t.sides d).ref (s.order e.2) (t.order e.2)) :
    Together (Like L) (es.foldlM (OrderBook.recentreStep d) s) (es.foldlM (OrderBook.recentreStep d) t) := by
  induction es generalizing s t with
  | nil => exact h
  | cons e es ih =>
    rw [List.foldlM_cons, List.foldlM_cons]
    refine (h.recentreStep (hes e List.mem_cons_self)).results.bind fun s₁ t₁ h₁ => ?_
    obtain ⟨h₁, hs, ht⟩ := h₁
    refine ih h₁ fun e' he' => ?_
    exact (hes e' (List.mem_cons_of_mem _ he')).of_frame (recentreStep_ok hs).1 (recentreStep_ok ht).1

theorem Like.recentre (h : Like L s t) {ref ref' : UInt32} (href : L.ref d ref ref')
    (hes : ∀ p ∈ s.liveSlots, SameVisit d ref ref' (s.order p) (t.order p)) :
    Together (Like L) (recentre it d ref s) (recentre it d ref' t) := by
  unfold OrderBook.recentre
  have hmap : (t.setSide d { levels := fun _ => {}, bestIdx := -1, ref := ref' }).orderMap = s.orderMap :=
    h.orderMap
  have hclear : Like L (s.setSide d { levels := fun _ => {}, bestIdx := -1, ref := ref })
      (t.setSide d { levels := fun _ => {}, bestIdx := -1, ref := ref' }) := h.setSide ⟨rfl, rfl, href⟩
  simp only
  rw [hmap]
  refine hclear.recentreLoop (it.order s.orderMap) fun e he => ?_
  simp only [OrderBook.setSide, Function.update_self]
  exact hes e.2 (List.mem_map_of_mem ((it.perm s.orderMap).mem_iff.mp he))

/-! ## Insertion -/

/-- The reference price an insertion starts with. -/
def startRef (ref price : UInt32) : UInt32 := if ref = 0 then price else ref

/-- The side has a reference price. -/
def started (s : OrderBook n) (d : Side) (price : UInt32) : OrderBook n :=
  if (s.sides d).ref = 0 then s.withRef d price else s

theorem started_ref (s : OrderBook n) (d : Side) (price : UInt32) :
    ((s.started d price).sides d).ref = startRef (s.sides d).ref price := by
  unfold started startRef
  split_ifs
  · rw [withRef_ref, if_pos rfl]
  · rfl

theorem started_eq (s : OrderBook n) (d : Side) (price : UInt32) :
    s.started d price = s.setSide d { s.sides d with ref := startRef (s.sides d).ref price } := by
  unfold started startRef
  split_ifs
  · rfl
  · unfold OrderBook.setSide
    rw [Function.update_eq_self]

theorem started_order (s : OrderBook n) (d : Side) (price : UInt32) (p : Fin n) :
    (s.started d price).order p = s.order p := by
  rw [started_eq]
  rfl

theorem started_liveSlots (s : OrderBook n) (d : Side) (price : UInt32) :
    (s.started d price).liveSlots = s.liveSlots := by
  rw [started_eq]
  rfl

/-- `insert_order` behind the initialisation of the reference price. -/
def insertFrom (b : Build) (it : IterOrder n) (d : Side) (s : OrderBook n) (o : Fin n) :
    Except Fault (OrderBook n) := do
  let idx ← priceIdx d (s.sides d).ref (s.order o).price
  if idx < 0 ∨ idx ≥ kLevels then
    let s ← OrderBook.recentre it d (s.order o).price s
    let idx ← priceIdx d (s.sides d).ref (s.order o).price
    b.check (InArray idx)
    s.insertAt o idx
  else
    b.check (InArray idx)
    s.insertAt o idx

theorem insertOrder_eq_insertFrom (b : Build) (it : IterOrder n) (s : OrderBook n) (o : Fin n) :
    s.insertOrder b it o = insertFrom b it (s.sideAt o) (s.started (s.sideAt o) (s.order o).price) o :=
  insertOrder_eq b it s o

theorem Like.started (h : Like L s t) {price price' : UInt32}
    (href : L.ref d (startRef (s.sides d).ref price) (startRef (t.sides d).ref price')) :
    Like L (s.started d price) (t.started d price') := by
  rw [started_eq, started_eq]
  exact h.setSide ⟨(h.sides d).levels, (h.sides d).bestIdx, href⟩

theorem Like.insertFrom (h : Like L s t)
    (hidx : priceIdx d (t.sides d).ref (t.order o).price = priceIdx d (s.sides d).ref (s.order o).price)
    (hvisits : ∀ idx, priceIdx d (s.sides d).ref (s.order o).price = .ok idx → ¬ InArray idx →
      L.ref d (s.order o).price (t.order o).price ∧
        ∀ p ∈ s.liveSlots, SameVisit d (s.order o).price (t.order o).price (s.order p) (t.order p)) :
    Together (Like L) (insertFrom b it d s o) (insertFrom b it d t o) := by
  unfold OrderBook.insertFrom
  rw [hidx]
  refine (Together.refl _).results.bind ?_
  rintro idx _ ⟨rfl, hs, -⟩
  by_cases hout : idx < 0 ∨ idx ≥ kLevels
  · obtain ⟨href, hes⟩ := hvisits idx hs (not_inArray.mp hout)
    rw [if_pos hout, if_pos hout]
    refine (h.recentre href hes).results.bind fun s₁ t₁ h₁ => ?_
    obtain ⟨h₁, hs₁, ht₁⟩ := h₁
    obtain ⟨hframe, -⟩ := recentre_ok hs₁
    obtain ⟨hframe', -⟩ := recentre_ok ht₁
    -- the order itself is at index `0` now
    have hself : ∀ {s s₁ : OrderBook n}, Frame (s.cleared d (s.order o).price) s₁ →
        priceIdx d (s₁.sides d).ref (s₁.order o).price = .ok 0 := by
      intro s s₁ hf
      have hprice : (s₁.order o).price = (s.order o).price := hf.data.price o
      rw [hf.ref, cleared_ref_self, hprice, priceIdx_self]
    rw [hself hframe, hself hframe', ok_bind, ok_bind]
    exact (Together.refl _).bind fun _ _ _ => h₁.insertAt o 0
  · rw [if_neg hout, if_neg hout]
    exact (Together.refl _).bind fun _ _ _ => h.insertAt o idx

/-- An insertion at `price` and `price'` on side `d` meets the same indices in both books. -/
structure SamePlace (L : Likeness) (d : Side) (s t : OrderBook n) (price price' : UInt32) : Prop where
  ref : L.ref d (startRef (s.sides d).ref price) (startRef (t.sides d).ref price')
  idx : priceIdx d (startRef (t.sides d).ref price') price' =
    priceIdx d (startRef (s.sides d).ref price) price
  visits : ∀ idx, priceIdx d (startRef (s.sides d).ref price) price = .ok idx → ¬ InArray idx →
    L.ref d price price' ∧ ∀ p ∈ s.liveSlots, SameVisit d price price' (s.order p) (t.order p)

theorem Like.insertOrder (h : Like L s t)
    (hp : SamePlace L (s.sideAt o) s t (s.order o).price (t.order o).price) :
    Together (Like L) (s.insertOrder b it o) (t.insertOrder b it o) := by
  rw [insertOrder_eq_insertFrom, insertOrder_eq_insertFrom, h.sideAt]
  refine (h.started hp.ref).insertFrom ?_ ?_
  · rw [started_ref, started_ref, started_order, started_order]
    exact hp.idx
  · rw [started_ref, started_order, started_order, started_liveSlots]
    simp only [started_order]
    exact hp.visits

theorem Like.alloc (h : Like L s t) (b : Build) :
    Together (fun x y => y.2 = x.2 ∧ s.pool.freeHead = some x.2 ∧ y.1.freeHead = x.1.freeHead ∧
        HeapLike L x.1.slots y.1.slots ∧ ∀ p, p ≠ x.2 → x.1.slots p = s.order p ∧ y.1.slots p = t.order p)
      (s.pool.alloc b) (t.pool.alloc b) := by
  unfold OrderPool.alloc
  rw [h.freeHead]
  refine (Together.refl _).bind fun _ _ _ => ?_
  cases hf : s.pool.freeHead with
  | none => trivial
  | some o =>
    have ho := h.order o
    refine ⟨rfl, rfl, ho.next, ?_, fun p hp => ?_⟩
    · exact h.heap.modify o (f := fun x => { x with next := none, prev := none })
        (g := fun x => { x with next := none, prev := none })
        ⟨ho.orderRef, ho.shares, ho.data, ho.levelIdx, rfl, rfl⟩
    · have hother : ∀ h : Fin n → Order n,
          L2Book.modify h o (fun x => { x with next := none, prev := none }) p = h p :=
        fun h => modify_of_ne h hp _
      exact ⟨hother s.pool.slots, hother t.pool.slots⟩

/-- **Inserting like orders into like books.** -/
theorem Like.addNew (h : Like L s t) (r : UInt64) (shares : UInt32) {price price' : UInt32}
    {side side' : UInt8} (hdata : L.order (side, price) (side', price'))
    (hfree : ∀ o, s.pool.freeHead = some o → o ∉ s.liveSlots)
    (hp : SamePlace L (sideOf side) s t price price') :
    Together (Like L) (s.addNew b it r shares price side) (t.addNew b it r shares price' side') := by
  unfold OrderBook.addNew
  refine (h.alloc b).bind ?_
  rintro ⟨pool, o⟩ ⟨pool', o'⟩ ⟨rfl, hhead, hnext, hheap, hother⟩
  have ho := hheap o'
  set s₁ := s.filled pool o' r shares price side with hs₁
  set t₁ := t.filled pool' o' r shares price' side' with ht₁
  have hfill : Like L s₁ t₁ := by
    refine ⟨h.sides, h.orderMap, h.isOpen, hnext, ?_⟩
    exact hheap.modify o'
      (f := fun x => { x with orderRef := r, shares := shares, price := price, side := side })
      (g := fun x => { x with orderRef := r, shares := shares, price := price', side := side' })
      ⟨rfl, rfl, hdata, ho.levelIdx, ho.next, ho.prev⟩
  have hself : (s₁.order o').price = price ∧ s₁.sideAt o' = sideOf side ∧ (t₁.order o').price = price' := by
    simp only [hs₁, ht₁, filled, OrderBook.sideAt, OrderBook.order, modify_self, and_self]
  have horder : ∀ p ∈ s.liveSlots, s₁.order p = s.order p ∧ t₁.order p = t.order p := by
    intro p hp'
    have hpo : p ≠ o' := by
      rintro rfl
      exact hfree p hhead hp'
    simp only [hs₁, ht₁, filled, OrderBook.order, modify_of_ne _ hpo]
    exact hother p hpo
  have hins : Together (Like L) (s₁.insertOrder b it o') (t₁.insertOrder b it o') := by
    refine hfill.insertOrder ?_
    rw [hself.1, hself.2.1, hself.2.2]
    refine ⟨hp.ref, hp.idx, fun idx hidx hi => ?_⟩
    obtain ⟨href, hes⟩ := hp.visits idx hidx hi
    refine ⟨href, fun p hp' => ?_⟩
    rw [(horder p hp').1, (horder p hp').2]
    exact hes p hp'
  refine hins.bind fun s₂ t₂ h₂ => ?_
  refine ⟨h₂.sides, ?_, h₂.isOpen, h₂.freeHead, h₂.heap⟩
  show t₂.orderMap.insert r o' = s₂.orderMap.insert r o'
  rw [h₂.orderMap]

end Helpers

end OrderBook

end L2Book
