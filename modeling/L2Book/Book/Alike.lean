import L2Book.Book.Likeness

/-!
# Books that differ in side bytes

`insert_at`, `remove_order` and `reduce_shares` ask whether the side byte of an order is 'B', whereas a
re-centre of the asks keeps the orders whose byte is 'S'. Two books are alike if they agree up to bytes of
the same side.

* `Order.Alike`, `HeapAlike`, **`Alike`**: orders, heaps and books; `sameSide`, `Alike.like`, `Like.alike`:
  the likeness they are an instance of;
* `Alike.removeOrder`, `Alike.reduceBy`, `Alike.deleteRef`, `Alike.halt`: the helpers keep alike books
  alike;
* **`Alike.addNew`**: so does an insertion, if a re-centre meets bytes that pass its filter in both books
  or in none.
-/

namespace L2Book

variable {n : ℕ}

/-- The orders agree, except that their bytes may be two bytes of one side. -/
structure Order.Alike (x y : Order n) : Prop where
  orderRef : y.orderRef = x.orderRef
  shares : y.shares = x.shares
  price : y.price = x.price
  side : sideOf y.side = sideOf x.side
  levelIdx : y.levelIdx = x.levelIdx
  next : y.next = x.next
  prev : y.prev = x.prev

theorem Order.Alike.refl (x : Order n) : x.Alike x := ⟨rfl, rfl, rfl, rfl, rfl, rfl, rfl⟩

/-- Two heaps of alike orders. -/
def HeapAlike (h h' : Fin n → Order n) : Prop := ∀ p, (h p).Alike (h' p)

/-- Bytes of one side, the same prices and the same reference prices. -/
def sameSide : Likeness where
  order x y := sideOf y.1 = sideOf x.1 ∧ y.2 = x.2
  ref _ r r' := r' = r
  side h := h.1
  free := ⟨rfl, rfl⟩

theorem Order.Alike.like {x y : Order n} (h : x.Alike y) : x.Like sameSide y :=
  ⟨h.orderRef, h.shares, ⟨h.side, h.price⟩, h.levelIdx, h.next, h.prev⟩

theorem Order.Like.alike {x y : Order n} (h : x.Like sameSide y) : x.Alike y :=
  ⟨h.orderRef, h.shares, h.data.2, h.data.1, h.levelIdx, h.next, h.prev⟩

theorem BookSide.Like.eq {d : Side} {x y : BookSide n} (h : x.Like sameSide d y) : y = x := by
  cases x
  cases y
  obtain ⟨hlevels, hbest, href⟩ := h
  cases hlevels
  cases hbest
  cases href
  rfl

namespace OrderBook

/-- **The books agree up to bytes of the same side.** -/
structure Alike (s t : OrderBook n) : Prop where
  sides : t.sides = s.sides
  orderMap : t.orderMap = s.orderMap
  isOpen : t.isOpen = s.isOpen
  freeHead : t.pool.freeHead = s.pool.freeHead
  heap : HeapAlike s.pool.slots t.pool.slots

section Helpers

variable {b : Build} {it : IterOrder n} {d : Side} {s t : OrderBook n} {o : Fin n}

theorem Alike.like (h : Alike s t) : Like sameSide s t := by
  refine ⟨fun d => ?_, h.orderMap, h.isOpen, h.freeHead, fun p => (h.heap p).like⟩
  rw [h.sides]
  exact ⟨rfl, rfl, rfl⟩

theorem Like.alike (h : Like sameSide s t) : Alike s t :=
  ⟨funext fun d => (h.sides d).eq, h.orderMap, h.isOpen, h.freeHead, fun p => (h.heap p).alike⟩

theorem alike_of_like {x y : Except Fault (OrderBook n)} (h : Together (Like sameSide) x y) :
    Together Alike x y :=
  h.mono fun _ _ => Like.alike

theorem Alike.order (h : Alike s t) (p : Fin n) : (s.order p).Alike (t.order p) := h.heap p

theorem Alike.sideAt (h : Alike s t) (p : Fin n) : t.sideAt p = s.sideAt p := (h.order p).side

theorem Alike.queue (h : Alike s t) (d : Side) (i : Fin kLevels) : t.queue d i = s.queue d i :=
  h.like.queue d i

theorem Alike.liveSlots (h : Alike s t) : t.liveSlots = s.liveSlots := h.like.liveSlots

theorem Alike.liveSet (h : Alike s t) : t.liveSet = s.liveSet := h.like.liveSet

theorem Alike.removeOrder (h : Alike s t) (o : Fin n) :
    Together Alike (s.removeOrder b o) (t.removeOrder b o) := alike_of_like (h.like.removeOrder o)

theorem Alike.eraseFree (h : Alike s t) (ref : UInt64) (o : Fin n) :
    Alike (s.eraseFree ref o) (t.eraseFree ref o) := (h.like.eraseFree ref o).alike

theorem Alike.reduceBy (h : Alike s t) (ref : UInt64) (qty : UInt32) :
    Together Alike (s.reduceBy b ref qty) (t.reduceBy b ref qty) := alike_of_like (h.like.reduceBy ref qty)

theorem Alike.deleteRef (h : Alike s t) (ref : UInt64) :
    Together Alike (s.deleteRef b ref) (t.deleteRef b ref) := alike_of_like (h.like.deleteRef ref)

theorem Alike.halt (h : Alike s t) (it : IterOrder n) : Alike (s.halt it) (t.halt it) :=
  (h.like.halt it).alike

/-- The bytes of the other orders matter in a re-centre only. -/
theorem Alike.samePlace (h : Alike s t) {price : UInt32} (hlt : price.toNat < 2 ^ 31)
    (href : (s.sides d).ref.toNat < 2 ^ 31)
    (hes : Recentres d (s.sides d).ref price → ∀ p ∈ s.liveSlots,
      (s.order p).side = d.byte ↔ (t.order p).side = d.byte) :
    SamePlace sameSide d s t price price := by
  refine ⟨?_, ?_, fun idx hidx hout => ⟨rfl, fun p hp => ?_⟩⟩
  · show startRef (t.sides d).ref price = _
    rw [h.sides]
  · rw [h.sides]
  · -- the first order of a side is at index `0`
    have hz : (s.sides d).ref ≠ 0 := by
      intro hz
      rw [startRef, if_pos hz, priceIdx_self] at hidx
      cases hidx
      exact hout inArray_zero
    rw [startRef, if_neg hz, priceIdx_eq d href hlt] at hidx
    cases hidx
    refine ⟨hes ⟨hz, hout⟩ p hp, fun _ => ?_⟩
    rw [(h.order p).price]

theorem Alike.addNew (h : Alike s t) (r : UInt64) (shares : UInt32) {price : UInt32} (side : UInt8)
    (hprice : PriceOk price) (href : (s.sides (sideOf side)).ref.toNat < 2 ^ 31)
    (hfree : ∀ o, s.pool.freeHead = some o → o ∉ s.liveSlots)
    (hes : Recentres (sideOf side) (s.sides (sideOf side)).ref price → ∀ p ∈ s.liveSlots,
      (s.order p).side = (sideOf side).byte ↔ (t.order p).side = (sideOf side).byte) :
    Together Alike (s.addNew b it r shares price side)
      (t.addNew b it r shares price (sideOf side).byte) :=
  alike_of_like (h.like.addNew r shares ⟨sideOf_byte _, rfl⟩ hfree (h.samePlace hprice.2 href hes))

end Helpers

end OrderBook

end L2Book
