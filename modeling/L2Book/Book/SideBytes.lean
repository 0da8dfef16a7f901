import L2Book.Book.Alike
import L2Book.Book.Window

/-!
# Any side byte

A book that takes any byte as a side is compared with the book that reads the same messages with every byte
replaced by 'B' or 'S'.

* `Event.plain`: the replacement; `AnySides`: feeds that are well formed up to it;
* `NaiveAlike`: two naive books that differ by it; `NaiveAlike.wfEvent`: the replaced event is well formed;
* `PlainAsks`: a re-centre of the asks meets no byte other than 'B' and 'S';
* **`Alike.apply`**: events that meet it keep the two books alike;
* `LinkedOnce`: every live order is linked in exactly one level, that of its price on its side;
* `apply_unlinks`: an event that does not meet `PlainAsks` leaves a live order in no level;
* `Plained`: the book and its plain companion, kept by events that meet `PlainAsks`;
* **`linkedOnce_iff`**: the orders stay linked in whole runs exactly if all events meet it.
-/

namespace L2Book

variable {n : ℕ}

/-! ## The filter of a re-centre -/

theorem sideOf_eq_bid {c : UInt8} : sideOf c = .bid ↔ c = 'B'.toUInt8 := by
  unfold sideOf
  split_ifs with h
  · exact ⟨fun _ => h, fun _ => rfl⟩
  · exact ⟨nofun, fun he => absurd he h⟩

/-- The filter of a re-centre treats alike orders alike if neither has a strange byte. -/
theorem Order.Alike.byte_iff {x y : Order n} (h : x.Alike y) {d : Side}
    (hx : d = .ask → x.side = 'B'.toUInt8 ∨ x.side = 'S'.toUInt8) (hy : y.side = (sideOf y.side).byte) :
    x.side = d.byte ↔ y.side = d.byte := by
  have hyd : y.side = d.byte ↔ sideOf y.side = d := by
    refine ⟨fun he => by rw [he, OrderBook.sideOf_byte], fun he => by rw [hy, he]⟩
  rw [hyd, h.side]
  cases d with
  | bid => exact sideOf_eq_bid.symm
  | ask =>
    rcases hx rfl with hb | hs
    · rw [hb]
      decide
    · rw [hs]
      decide

/-! ## Plain bytes -/

/-- The event with its byte replaced by that of its side. -/
def Event.plain : Event → Event
  | .add ref side shares price => .add ref (sideOf side).byte shares price
  | e => e

def NaiveOrder.plain (o : NaiveOrder) : NaiveOrder := { o with side := (sideOf o.side).byte }

/-- Well-formed events, whatever their side byte. -/
def AnySideEvent (n : ℕ) (a : NaiveBook) : Event → Prop
  | .add ref _ _ price => a.isOpen = true →
    a.orders.lookup ref = none ∧ PriceOk price ∧ a.size < n
  | .reduce ref qty => ∀ o, a.orders.lookup ref = some o → qty ≤ o.shares
  | .replace oldRef newRef _ price => (a.orders.lookup oldRef).isSome = true →
    (a.orders.erase oldRef).lookup newRef = none ∧ PriceOk price
  | _ => True

/-- **Feeds with arbitrary side bytes**, well formed otherwise. -/
def AnySides (feed : List (Input n)) : Prop :=
  Guided (fun a x => a.step x.1.event) (fun a x => AnySideEvent n a x.1.event) NaiveBook.init feed

/-- The orders of `a'` are those of `a` with plain bytes. -/
structure NaiveAlike (a a' : NaiveBook) : Prop where
  lookup : ∀ ref, a'.orders.lookup ref = (a.orders.lookup ref).map NaiveOrder.plain
  isOpen : a'.isOpen = a.isOpen

section Naive

variable {a a' : NaiveBook}

theorem NaiveAlike.mapped (h : NaiveAlike a a') : NaiveBook.Mapped NaiveOrder.plain a a' :=
  ⟨h.lookup, h.isOpen⟩

theorem NaiveBook.Mapped.alike (h : NaiveBook.Mapped NaiveOrder.plain a a') : NaiveAlike a a' :=
  ⟨h.lookup, h.isOpen⟩

theorem keepsShares_plain : NaiveBook.KeepsShares NaiveOrder.plain := fun _ _ => rfl

theorem NaiveAlike.step (h : NaiveAlike a a') (e : Event) : NaiveAlike (a.step e) (a'.step e.plain) := by
  cases e with
  | add ref side shares price =>
    simp only [Event.plain, NaiveBook.step]
    by_cases hopen : a.isOpen = true
    · have hopen' : a'.isOpen = true := h.isOpen.trans hopen
      rw [if_pos hopen, if_pos hopen']
      exact (h.mapped.insert ref ⟨side, price, shares⟩).alike
    · have hopen' : ¬ a'.isOpen = true := fun ho => hopen (h.isOpen.symm.trans ho)
      rw [if_neg hopen, if_neg hopen']
      exact h
  | replace oldRef newRef shares price =>
    simp only [Event.plain, NaiveBook.step]
    rw [h.lookup]
    cases a.orders.lookup oldRef with
    | none => exact h
    | some o => exact ((h.mapped.erase oldRef).insert newRef ⟨o.side, price, shares⟩).alike
  | system code => exact (h.mapped.step keepsShares_plain (e := .system code) rfl).1.alike
  | reduce ref qty => exact (h.mapped.step keepsShares_plain (e := .reduce ref qty) rfl).1.alike
  | delete ref => exact (h.mapped.step keepsShares_plain (e := .delete ref) rfl).1.alike
  | ignore => exact h

theorem NaiveAlike.inserts_eq (h : NaiveAlike a a') (e : Event) : a'.inserts e.plain = a.inserts e := by
  cases e with
  | add ref side shares price =>
    simp only [Event.plain, NaiveBook.inserts, h.isOpen, OrderBook.sideOf_byte]
  | replace oldRef newRef shares price =>
    simp only [Event.plain, NaiveBook.inserts, h.lookup, Option.map_map]
    refine congrArg (Option.map · _) (funext fun o => ?_)
    simp only [Function.comp_apply, NaiveOrder.plain, OrderBook.sideOf_byte]
  | system code => rfl
  | reduce ref qty => rfl
  | delete ref => rfl
  | ignore => rfl

theorem NaiveAlike.wfEvent (h : NaiveAlike a a') {e : Event} (he : AnySideEvent n a e) :
    WfEvent n a' e.plain := by
  cases e with
  | add ref side shares price =>
    intro hopen
    rw [h.isOpen] at hopen
    obtain ⟨hr, hprice, hsize⟩ := he hopen
    refine ⟨h.mapped.lookup_none.mpr hr, ?_, hprice, by rw [h.mapped.size_eq]; exact hsize⟩
    cases sideOf side
    · exact .inl rfl
    · exact .inr rfl
  | reduce ref qty =>
    intro o ho
    rw [h.lookup, Option.map_eq_some_iff] at ho
    obtain ⟨o', ho', rfl⟩ := ho
    exact he o' ho'
  | replace oldRef newRef shares price =>
    intro hr
    rw [h.lookup, Option.isSome_map] at hr
    obtain ⟨hnew, hprice⟩ := he hr
    exact ⟨(h.mapped.erase oldRef).lookup_none.mpr hnew, hprice⟩
  | system code => trivial
  | delete ref => trivial
  | ignore => trivial

end Naive

namespace OrderBook

/-! ## One message -/

/-- Side and price of the order that an event inserts. -/
def insertsAt (s : OrderBook n) : Event → Option (Side × UInt32)
  | .add _ side _ price => if s.isOpen then some (sideOf side, price) else none
  | .replace oldRef _ _ price => (s.orderMap.lookup oldRef).map fun o => (s.sideAt o, price)
  | _ => none

/-- When the event re-centres the asks, the bytes of all other orders in the map are 'B' or 'S'. -/
def PlainAsks (s : OrderBook n) (e : Event) : Prop :=
  ∀ price, s.insertsAt e = some (.ask, price) → Recentres .ask (s.sides .ask).ref price →
    ∀ ref o, s.orderMap.lookup ref = some o → e.target ≠ some ref →
      (s.order o).side = 'B'.toUInt8 ∨ (s.order o).side = 'S'.toUInt8

theorem not_mem_liveSlots_of_freeHead {A : Set (Fin n)} {pool : OrderPool n} (h : PoolOk A pool) {o : Fin n}
    (ho : pool.freeHead = some o) : o ∉ A := by
  obtain ⟨l, hc, -, hmem⟩ := h
  rw [ho] at hc
  obtain ⟨l', rfl, -⟩ := hc.cons_of_some
  exact (hmem o).mp List.mem_cons_self

section Apply

variable {b : Build} {it : IterOrder n} {s t : OrderBook n} {r : RefBook} {e : Event}

theorem Alike.remove_old (h : Alike s t) (ht : Rep t) (hb : b = .debug → n < 2 ^ 32) {ref : UInt64}
    {o : Fin n} (hr : s.orderMap.lookup ref = some o) (hi : InArray (t.tickOf o)) :
    ∃ s₁ t₁, s.removeOrder b o = .ok s₁ ∧ t.removeOrder b o = .ok t₁ ∧
      Alike (s₁.eraseFree ref o) (t₁.eraseFree ref o) ∧ RemoveSpec t ref o (t₁.eraseFree ref o) ∧
      ∀ p, p ≠ o → ((s₁.eraseFree ref o).order p).side = (s.order p).side := by
  have hr' : t.orderMap.lookup ref = some o := by rw [h.orderMap, hr]
  obtain ⟨t₁, ht₁, hrem⟩ := ht.remove hb hr' hi
  have htog := h.removeOrder (b := b) o
  rw [ht₁] at htog
  cases hs₁ : s.removeOrder b o with
  | error x => rw [hs₁] at htog; exact htog.elim
  | ok s₁ =>
    rw [hs₁] at htog
    refine ⟨s₁, t₁, rfl, ht₁, htog.eraseFree ref o, hrem, fun p hp => ?_⟩
    rw [eraseFree_order_of_ne _ _ hp]
    exact (removeOrder_frame hs₁).data.side p

/-- **Events that meet `PlainAsks` keep the two books alike.** -/
theorem Alike.apply (h : Alike s t) (ht : Sim t r) (hheld : r.AllHeld) (hb : b = .debug → n < 2 ^ 32)
    (hw : WfEvent n r.book e.plain) (hp : PlainAsks s e) :
    Together Alike (s.apply b it e) (t.apply b it e.plain) := by
  cases e with
  | system code =>
    simp only [Event.plain, OrderBook.apply]
    split_ifs
    · exact ⟨h.sides, h.orderMap, rfl, h.freeHead, h.heap⟩
    · exact ⟨h.sides, h.orderMap, rfl, h.freeHead, h.heap⟩
    · exact h.halt it
    · exact h
  | add ref side shares price =>
    simp only [Event.plain, OrderBook.apply, addRef]
    rw [h.isOpen]
    by_cases hopen : s.isOpen = true
    · rw [hopen]
      have hropen : r.book.isOpen = true := by rw [ht.abs.isOpen, h.isOpen, hopen]
      obtain ⟨-, -, hprice, -⟩ := hw hropen
      refine h.addNew ref shares side hprice ?_ (fun o ho hlive => ?_) fun hrc p hplive => ?_
      · rw [← h.sides]
        exact ht.rep.linked.ref_lt _
      · rw [← h.freeHead] at ho
        exact not_mem_liveSlots_of_freeHead ht.rep.pool ho (h.liveSet ▸ hlive)
      · refine (h.order p).byte_iff (fun hd => ?_) (ht.rep.linked.side_byte p (h.liveSet ▸ hplive))
        rw [hd] at hrc
        obtain ⟨ref', href'⟩ := mem_liveSet.mp hplive
        exact hp price (by simp only [insertsAt, hopen, hd, if_true]) hrc ref' p href' fun he => by cases he
    · rw [Bool.not_eq_true] at hopen
      rw [hopen]
      exact h
  | reduce ref qty => exact h.reduceBy ref qty
  | delete ref => exact h.deleteRef ref
  | replace oldRef newRef shares price =>
    simp only [Event.plain, OrderBook.apply, replaceRef]
    rw [h.orderMap]
    cases hr : s.orderMap.lookup oldRef with
    | none => exact h
    | some o =>
      have hr' : t.orderMap.lookup oldRef = some o := by rw [h.orderMap, hr]
      have hlive : o ∈ t.liveSet := mem_liveSet.mpr ⟨oldRef, hr'⟩
      have hi : InArray (t.tickOf o) := (ht.inArray_iff o).mpr (hheld oldRef _ (ht.abs.lookup_some hr')).2
      obtain ⟨s₁, t₁, hs₁, ht₁, h₁, hrem, hside⟩ := h.remove_old ht.rep hb hr hi
      obtain ⟨-, hprice⟩ := hw (by rw [ht.abs.lookup_some hr']; rfl)
      have hbyte : (t.order o).side = (sideOf (s.order o).side).byte := by
        rw [ht.rep.linked.side_byte o hlive, h.sideAt]
        rfl
      simp only [hs₁, ht₁, ok_bind, hbyte]
      refine h₁.addNew newRef shares (s.order o).side hprice ?_ (fun p hp' hplive => ?_)
        fun hrc p hplive => ?_
      · rw [← h₁.sides]
        exact hrem.rep.linked.ref_lt _
      · rw [← h₁.freeHead] at hp'
        exact not_mem_liveSlots_of_freeHead hrem.rep.pool hp' (h₁.liveSet ▸ hplive)
      · refine (h₁.order p).byte_iff (fun hd => ?_) (hrem.rep.linked.side_byte p (h₁.liveSet ▸ hplive))
        have hplive' : p ∈ t.liveSet \ {o} := by
          rw [← hrem.liveSet, h₁.liveSet]
          exact hplive
        have hpo : p ≠ o := fun e => hplive'.2 e
        rw [← h₁.sides, hrem.ref, h.sides, hd] at hrc
        obtain ⟨ref', href'⟩ := mem_liveSet.mp hplive'.1
        have hne : oldRef ≠ ref' := by
          rintro rfl
          rw [hr'] at href'
          exact hpo (Option.some.inj href').symm
        rw [hside p hpo]
        refine hp price ?_ hrc ref' p (by rw [← h.orderMap, href']) fun e => hne (Option.some.inj e)
        have hd' : s.sideAt o = .ask := hd
        simp only [insertsAt, hr, Option.map_some, hd']
  | ignore => exact h

end Apply

/-! ## Linked orders -/

/-- **Every live order is linked in exactly one level**, that of its price on its side. -/
def LinkedOnce (s : OrderBook n) : Prop :=
  ∀ ref o, s.orderMap.lookup ref = some o → ∃ i : Fin kLevels,
    priceIdx (s.sideAt o) (s.sides (s.sideAt o)).ref (s.order o).price = .ok (i : ℕ) ∧
    ∀ d j, (s.queue d j).count o = if d = s.sideAt o ∧ j = i then 1 else 0

section Unlinking

variable {b : Build} {it : IterOrder n} {s t : OrderBook n} {r : RefBook} {e : Event}

theorem Sim.linkedOnce (h : Sim s r) (hheld : r.AllHeld) : LinkedOnce s := by
  intro ref o ho
  have hlive : o ∈ s.liveSet := mem_liveSet.mpr ⟨ref, ho⟩
  have hi : InArray (s.tickOf o) := (h.inArray_iff o).mpr (hheld ref _ (h.abs.lookup_some ho)).2
  refine ⟨slotOf _ hi, ?_, fun d j => ?_⟩
  · rw [slotOf_val, h.rep.priceIdx_eq hlive]
  · rw [h.rep.linked.count_queue hlive]
    refine if_congr (and_congr_right fun _ => ?_) rfl rfl
    rw [Fin.ext_iff, ← Int.natCast_inj, slotOf_val]
    exact eq_comm

theorem Alike.linkedOnce (h : Alike s t) (ht : LinkedOnce t) : LinkedOnce s := by
  intro ref o ho
  obtain ⟨i, hidx, hcount⟩ := ht ref o (by rw [h.orderMap, ho])
  rw [h.sideAt, h.sides, (h.order o).price] at hidx
  refine ⟨i, hidx, fun d j => ?_⟩
  rw [← h.queue, hcount, h.sideAt]

/-- **A re-centre of the asks forgets a live order with a strange byte.** -/
theorem addNew_unlinks (b : Build) (it : IterOrder n) (h : Alike s t) (ht : Rep t) {ref : UInt64}
    (hr : s.orderMap.lookup ref = none) (shares : UInt32) {price : UInt32} {side : UInt8}
    (hside : sideOf side = .ask) (hprice : PriceOk price) (hfree : ∃ p, p ∉ t.liveSet)
    (hrc : Recentres .ask (s.sides .ask).ref price) {ref' : UInt64} {p : Fin n}
    (hp : s.orderMap.lookup ref' = some p) (hB : (s.order p).side ≠ 'B'.toUInt8)
    (hS : (s.order p).side ≠ 'S'.toUInt8) :
    ∃ s', s.addNew b it ref shares price side = .ok s' ∧ ¬ LinkedOnce s' := by
  have hpoolS : PoolOk s.liveSet s.pool := by
    rw [← h.liveSet]
    exact ht.pool.congr h.freeHead.symm fun q _ => (h.order q).next.symm
  rw [h.liveSet] at hfree
  obtain ⟨pool, o, halloc, ho, -, hslots⟩ := hpoolS.alloc b hfree
  set u := s.filled pool o ref shares price side with hu
  have hother : ∀ q, q ≠ o → u.order q = s.order q := fun q hq => filled_order_of_ne hslots hq
  have hself : (u.order o).price = price ∧ u.sideAt o = .ask :=
    ⟨filled_order_self.2.2.1, filled_sideAt_self.trans hside⟩
  have hpo : p ≠ o := fun e => ho (e ▸ mem_liveSet.mpr ⟨ref', hp⟩)
  have hlive : ∀ q ∈ u.liveSlots, q ∈ t.liveSet ∧ q ≠ o := fun q hq =>
    ⟨h.liveSet ▸ hq, fun e => ho (e ▸ hq)⟩
  have hnodup : u.liveSlots.Nodup := by
    have := ht.nodup
    rw [h.liveSlots] at this
    exact this
  have hlt : ∀ q ∈ u.liveSlots, (u.order q).price.toNat < 2 ^ 31 := by
    intro q hq
    rw [hother q (hlive q hq).2, ← (h.order q).price]
    exact ht.linked.price_lt q (hlive q hq).1
  have href : (u.sides (u.sideAt o)).ref.toNat < 2 ^ 31 := by
    rw [hself.2]
    show (s.sides .ask).ref.toNat < 2 ^ 31
    rw [← h.sides]
    exact ht.linked.ref_lt .ask
  obtain ⟨u₁, hrec, -, hi, hins⟩ := insertOrder_recentred b it (s := u) hnodup ho
    (fun q hq _ => hlt q hq) href (by rw [hself.1]; exact hprice.2) (by rw [hself.1, hself.2]; exact hrc)
  rw [hself.2] at hrec
  set s' : OrderBook n := { u₁.inserted o (u₁.sideAt o) (slotOf _ hi) with
    orderMap := (u₁.inserted o (u₁.sideAt o) (slotOf _ hi)).orderMap.insert ref o } with hs'
  refine ⟨s', addNew_eq_ok halloc hins, fun hlinked => ?_⟩
  · have hframe := hrec.frame.trans (inserted_frame u₁ o (u₁.sideAt o) (slotOf _ hi))
    have hbyte : (s'.order p).side = (s.order p).side :=
      (hframe.data.side p).trans (congrArg Order.side (hother p hpo))
    have hpside : s'.sideAt p = .ask := by
      unfold sideAt sideOf
      rw [hbyte, if_neg hB]
    have hmap : s'.orderMap.lookup ref' = some p := by
      have hne : ref' ≠ ref := by
        rintro rfl
        rw [hr] at hp
        cases hp
      rw [hs', AList.lookup_insert_ne hne, hframe.orderMap]
      exact hp
    -- the filter of the re-centre passes over the order
    have hnot : ∀ j, p ∉ s'.queue .ask j := by
      intro j hq
      have hq' : p ∈ (u₁.inserted o .ask (slotOf _ hi)).queue .ask j := by
        rw [hrec.sideAt_eq, hself.2] at hs'
        rw [hs'] at hq
        exact hq
      rcases hrec.mem_inserted_queue (fun hv => ho ((u.visited_perm it).mem_iff.mp hv)) hq' with he | hb
      · exact hpo he
      · have hside' : (u.order p).side = Side.ask.byte := (mem_bucket.mp hb).2.1
        rw [hother p hpo] at hside'
        exact hS hside'
    obtain ⟨j, -, hcount⟩ := hlinked ref' p hmap
    have hone := hcount .ask j
    rw [hpside, if_pos ⟨rfl, rfl⟩] at hone
    exact hnot j (List.count_pos_iff.mp (by omega))

/-- **An event that does not meet `PlainAsks` leaves a live order in no level.** -/
theorem apply_unlinks (h : Alike s t) (ht : Sim t r) (hheld : r.AllHeld) (hb : b = .debug → n < 2 ^ 32)
    (hw : WfEvent n r.book e.plain) (hp : ¬ PlainAsks s e) :
    ∃ s', s.apply b it e = .ok s' ∧ ¬ LinkedOnce s' := by
  unfold PlainAsks at hp
  push Not at hp
  obtain ⟨price, hins, hrc, ref', p, hlook, htarget, hB, hS⟩ := hp
  cases e with
  | add ref side shares price' =>
    simp only [insertsAt] at hins
    split_ifs at hins with hopen
    simp only [Option.some.injEq, Prod.mk.injEq] at hins
    obtain ⟨hside, rfl⟩ := hins
    have hropen : r.book.isOpen = true := by rw [ht.abs.isOpen, h.isOpen, hopen]
    obtain ⟨hr, -, hprice, hsize⟩ := hw hropen
    have hr' : s.orderMap.lookup ref = none := by rw [← h.orderMap]; exact ht.abs.lookup_none.mp hr
    obtain ⟨s', hs', hnot⟩ := addNew_unlinks b it h ht.rep hr' shares hside hprice
      (ht.abs.exists_free hsize) hrc hlook hB hS
    refine ⟨s', ?_, hnot⟩
    simp only [OrderBook.apply, addRef, hopen, Bool.not_true, Bool.false_eq_true, if_false, hs']
  | replace oldRef newRef shares price' =>
    simp only [insertsAt, Option.map_eq_some_iff] at hins
    obtain ⟨o, ho, heq⟩ := hins
    simp only [Prod.mk.injEq] at heq
    obtain ⟨hside, rfl⟩ := heq
    have ho' : t.orderMap.lookup oldRef = some o := by rw [h.orderMap, ho]
    have hi : InArray (t.tickOf o) := (ht.inArray_iff o).mpr (hheld oldRef _ (ht.abs.lookup_some ho')).2
    obtain ⟨s₁, t₁, hs₁, ht₁, h₁, hrem, hbytes⟩ := h.remove_old ht.rep hb ho hi
    obtain ⟨hnew, hprice⟩ := hw (by rw [ht.abs.lookup_some ho']; rfl)
    have hpo : p ≠ o := by
      rintro rfl
      rw [← h.orderMap] at hlook
      exact htarget (congrArg some (ht.rep.lookup_inj ho' hlook))
    have hne : ref' ≠ oldRef := fun e => htarget (congrArg some e.symm)
    have habs : Abs (t₁.eraseFree oldRef o) { r.book with orders := r.book.orders.erase oldRef } :=
      hrem.abs ht.rep ht.abs ho'
    have hr' : (s₁.eraseFree oldRef o).orderMap.lookup newRef = none := by
      rw [← h₁.orderMap]
      exact habs.lookup_none.mp hnew
    have hrc₁ : Recentres .ask ((s₁.eraseFree oldRef o).sides .ask).ref price' := by
      rw [← h₁.sides, hrem.ref, h.sides]
      exact hrc
    have hlook₁ : (s₁.eraseFree oldRef o).orderMap.lookup ref' = some p := by
      rw [← h₁.orderMap, hrem.orderMap, h.orderMap, AList.lookup_erase_ne hne, hlook]
    have hfree : ∃ q, q ∉ (t₁.eraseFree oldRef o).liveSet :=
      ⟨o, by rw [hrem.liveSet]; exact fun hm => hm.2 rfl⟩
    obtain ⟨s', hs', hnot⟩ := addNew_unlinks b it h₁ hrem.rep hr' shares hside hprice hfree hrc₁ hlook₁
      (by rw [hbytes p hpo]; exact hB) (by rw [hbytes p hpo]; exact hS)
    refine ⟨s', ?_, hnot⟩
    simp only [OrderBook.apply, replaceRef, ho, hs₁, ok_bind]
    exact hs'
  | system code => cases hins
  | reduce ref qty => cases hins
  | delete ref => cases hins
  | ignore => cases hins

end Unlinking

/-! ## Runs -/

/-- Every message of the feed meets `PlainAsks`. -/
def PlainAsksAll (b : Build) : OrderBook n → List (Input n) → Prop :=
  EveryStep (fun s x => s.dispatch b x.2 x.1) fun s x => s.PlainAsks x.1.event

/-- **The book, its naive book and their companions with plain bytes.** -/
structure Plained (lo : Side → ℕ) (s : OrderBook n) (a : NaiveBook) (t : OrderBook n) (r : RefBook) :
    Prop where
  alike : Alike s t
  sim : Sim t r
  naive : NaiveAlike a r.book
  held : r.AllHeld
  window : r.WindowInv lo

section Runs

variable {b : Build} {it : IterOrder n} {lo : Side → ℕ} {s t : OrderBook n} {a : NaiveBook} {r : RefBook}
  {e : Event} {feed : List (Input n)}

theorem plained_init (lo : Side → ℕ) :
    Plained lo (OrderBook.init n) NaiveBook.init (OrderBook.init n) RefBook.init :=
  ⟨⟨rfl, rfl, rfl, rfl, fun _ => .refl _⟩, sim_init, ⟨fun _ => rfl, rfl⟩, allHeld_init, windowInv_init lo⟩

/-- **The book and its plain companion** stay side by side. -/
theorem Plained.step (it : IterOrder n) (h : Plained lo s a t r) (hb : b = .debug → n < 2 ^ 32)
    (hw : AnySideEvent n a e)
    (hwin : ∀ ref d price, a.inserts e = some (ref, d, price) → InWindow lo d price) (hp : PlainAsks s e) :
    ∃ s' t', s.apply b it e = .ok s' ∧ Plained lo s' (a.step e) t' (r.step e.plain) := by
  have hw' : WfEvent n r.book e.plain := h.naive.wfEvent hw
  have hwin' : ∀ ref d price, r.book.inserts e.plain = some (ref, d, price) → InWindow lo d price := by
    rw [h.naive.inserts_eq]
    exact hwin
  obtain ⟨t', ht', hspec⟩ := step_spec it hb h.sim.rep h.sim.abs hw'
    ((h.sim.refersLinked_iff e.plain).mpr (h.held.reaches _))
  have htog : Together Alike (s.apply b it e) (t.apply b it e.plain) :=
    h.alike.apply h.sim h.held hb hw' hp
  rw [ht'] at htog
  cases hs : s.apply b it e with
  | error f => rw [hs] at htog; exact htog.elim
  | ok s' =>
    rw [hs] at htog
    exact ⟨s', t', rfl, htog, h.sim.of_stepSpec hspec, h.naive.step e,
      h.held.step hw' (h.window.noDrop h.held hwin'), h.window.step hwin'⟩

/-- **When insertion and re-centring agree about sides.** After every message every live order is linked
in exactly one level, that of its price on its side, if and only if no re-centre of the asks meets a live
order whose byte is neither 'B' nor 'S'. -/
theorem linkedOnce_iff (feed : List (Input n)) (hw : AnySides feed) (hwin : Windowed lo feed) :
    (∀ pre, pre <+: feed → ∀ b : Build,
      ((b = .debug → n < 2 ^ 32) → ∃ s, (OrderBook.init n).replay b pre = .ok s) ∧
        ∀ s, (OrderBook.init n).replay b pre = .ok s → LinkedOnce s) ↔
      PlainAsksAll .release (OrderBook.init n) feed := by
  refine replay_prefix_iff (fun s a => ∃ t r, Plained lo s a t r) ?_ ?_ ?_ ⟨_, _, plained_init lo⟩
    (hw.and hwin)
  · rintro s a ⟨t, r, h⟩
    exact h.alike.linkedOnce (h.sim.linkedOnce h.held)
  · rintro b hb s a x ⟨t, r, h⟩ ⟨hwx, hwinx⟩ hp
    rw [dispatch_eq_apply]
    obtain ⟨s', t', hs', h'⟩ := h.step x.2 hb hwx hwinx hp
    exact ⟨s', hs', t', _, h'⟩
  · rintro s a x ⟨t, r, h⟩ ⟨hwx, -⟩ hp
    rw [dispatch_eq_apply]
    exact apply_unlinks h.alike h.sim h.held nofun (h.naive.wfEvent hwx) hp

end Runs

/-- An ask under the byte 'X' and a lower ask. -/
def strangeAsk : List (Input 2) :=
  [(sysMsg 'O'.toUInt8, .newest 2), (addMsg 1 'X'.toUInt8 10 200, .newest 2),
    (addMsg 2 'S'.toUInt8 10 100, .newest 2)]

theorem anySides_strangeAsk : AnySides strangeAsk := by
  refine ⟨trivial, fun _ => ⟨rfl, ⟨?_, ?_⟩, ?_⟩, fun _ => ⟨rfl, ⟨?_, ?_⟩, ?_⟩, trivial⟩ <;> decide

theorem windowed_strangeAsk : Windowed (fun _ => 1) strangeAsk := by
  refine ⟨nofun, fun ref d price h => ?_, fun ref d price h => ?_, trivial⟩
  · cases h
    exact ⟨by decide, by decide⟩
  · cases h
    exact ⟨by decide, by decide⟩

/-- The lower ask re-centres the side, and the other one is in no level any more. -/
theorem strange_ask_unlinked : AnySides strangeAsk ∧ Windowed (fun _ => 1) strangeAsk ∧
    ∃ s, (OrderBook.init 2).replay .debug strangeAsk = .ok s ∧ s.hasOrder 1 = true ∧ ¬ LinkedOnce s := by
  refine ⟨anySides_strangeAsk, windowed_strangeAsk, _, rfl, rfl, fun h => ?_⟩
  obtain ⟨i, hidx, hcount⟩ := h 1 0 rfl
  have hi : i = ⟨100, by decide⟩ := by
    have hval : ((100 : ℕ) : ℤ) = (i : ℕ) := Except.ok.inj hidx
    exact Fin.ext (by exact_mod_cast hval.symm)
  subst hi
  have hone := hcount .ask ⟨100, by decide⟩
  cases hone

theorem linkedOnce_iff_strangeAsk : ∃ s, (OrderBook.init 2).replay .debug (strangeAsk.take 2) = .ok s ∧
    LinkedOnce s := by
  have hpre : strangeAsk.take 2 <+: strangeAsk := List.take_prefix 2 strangeAsk
  have hplain : PlainAsksAll .release (OrderBook.init 2) (strangeAsk.take 2) := by
    refine ⟨nofun, fun s hs => ⟨fun price _ hrc => ?_, fun _ _ => trivial⟩⟩
    cases hs
    exact absurd rfl hrc.1
  have hall := (linkedOnce_iff (strangeAsk.take 2) (anySides_strangeAsk.of_isPrefix hpre)
    (Guided.of_isPrefix windowed_strangeAsk hpre)).mpr hplain
  obtain ⟨hrun, hlinked⟩ := hall _ List.prefix_rfl .debug
  obtain ⟨s, hs⟩ := hrun fun _ => by decide
  exact ⟨s, hs, hlinked s hs⟩

end OrderBook

end L2Book
