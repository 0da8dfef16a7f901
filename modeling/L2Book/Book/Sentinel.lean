import L2Book.Book.Raise

/-!
# The reference price zero

`insert_order` takes the reference price `0` for a side without one. With an order at the price `0`, or a
re-centre on it, orders rest on such a side, and the next insertion at another price moves the reference
price without moving them.

* `Indexed`: every linked order is at the index of its price, and every live order is linked;
* `ZeroPrices`: well-formed feeds in which a price may be `0`;
* `RefKept`: a message does not change the reference price `0` of a side on which other orders rest;
* `Raised.apply`: messages that meet it keep the raised book; `addNew_unindexed`, `Raised.apply_unindexed`:
  any other message leaves an order at a wrong index;
* **`indexed_iff`**: the orders stay at the indices of their prices exactly if all messages meet it.
-/

namespace L2Book

variable {n : ℕ}

/-- Well-formed events whose prices may be `0`. -/
def ZeroPriceEvent (n : ℕ) (a : NaiveBook) : Event → Prop
  | .add ref side _ price => a.isOpen = true →
    a.orders.lookup ref = none ∧ (side = 'B'.toUInt8 ∨ side = 'S'.toUInt8) ∧ price.toNat < 2 ^ 31 ∧
      a.size < n
  | .reduce ref qty => ∀ o, a.orders.lookup ref = some o → qty ≤ o.shares
  | .replace oldRef newRef _ price => (a.orders.lookup oldRef).isSome = true →
    (a.orders.erase oldRef).lookup newRef = none ∧ price.toNat < 2 ^ 31
  | _ => True

/-- **Feeds with prices in `[0, 2 ^ 31)`**, well formed otherwise. -/
def ZeroPrices (feed : List (Input n)) : Prop :=
  Guided (fun a x => a.step x.1.event) (fun a x => ZeroPriceEvent n a x.1.event) NaiveBook.init feed

namespace OrderBook

/-- **The levels are indexed by price**: an order linked at index `i` has the price `i` ticks behind the
reference price of the side, and every live order is linked on its side. -/
structure Indexed (s : OrderBook n) : Prop where
  price : ∀ d i p, p ∈ s.queue d i → s.sideAt p = d ∧ tick d (s.sides d).ref (s.order p).price = (i : ℕ)
  linked : ∀ ref p, s.orderMap.lookup ref = some p → ∃ i, p ∈ s.queue (s.sideAt p) i

/-- An insertion at a positive price on a side with the reference price `0` finds no other order there. -/
def RefKept (s : OrderBook n) (e : Event) : Prop :=
  ∀ d price, s.insertsAt e = some (d, price) → (s.sides d).ref = 0 → price ≠ 0 →
    ∀ ref p, s.orderMap.lookup ref = some p → e.target ≠ some ref → s.sideAt p ≠ d

/-- Every message of the feed meets `RefKept`. -/
def RefKeptAll (b : Build) : OrderBook n → List (Input n) → Prop :=
  EveryStep (fun s x => s.dispatch b x.2 x.1) fun s x => s.RefKept x.1.event

section Steps

variable {b : Build} {it : IterOrder n} {lo : Side → ℕ} {s t : OrderBook n} {a : NaiveBook} {r : RefBook}
  {d : Side} {e : Event}

theorem Raised.indexed (h : Raised lo s a t r) : Indexed s := by
  have hlinked := h.sim.rep.linked
  refine ⟨fun d i p hp => ?_, fun ref p hp => ?_⟩
  · rw [← h.like.queue] at hp
    obtain ⟨hlive, hside, htick⟩ := (hlinked.mem_queue d i p).mp hp
    have hne := hlinked.ref_ne p hlive
    unfold tickOf at htick
    rw [hside] at hne htick
    obtain ⟨hraise, hlt, -⟩ := h.price_live (by rw [← h.like.liveSet]; exact hlive)
    rw [← h.like.sideAt, hside] at hraise
    have href := (h.like.sides d).ref.resolve_right fun hz => hne hz.2
    refine ⟨by rw [← h.like.sideAt, hside], ?_⟩
    rw [← (priceIdx_raised d (hlinked.ref_lt d) hlt href hraise).2, htick]
  · have hlive : p ∈ t.liveSet := by
      rw [h.like.liveSet]
      exact mem_liveSet.mpr ⟨ref, hp⟩
    have hq := hlinked.mem_queue_slotOf hlive (h.sim.inArray_of_allHeld h.held p hlive)
    rw [h.like.queue, h.like.sideAt] at hq
    exact ⟨_, hq⟩

/-- The state in which `on_replace` inserts. -/
structure OldRemoved (s : OrderBook n) (ref : UInt64) (o : Fin n) (s' : OrderBook n) : Prop where
  orderMap : s'.orderMap = s.orderMap.erase ref
  ref : ∀ d, (s'.sides d).ref = (s.sides d).ref
  sideAt : ∀ p, p ≠ o → s'.sideAt p = s.sideAt p
  free : o ∉ s'.liveSet

theorem Raised.remove_old (h : Raised lo s a t r) (hb : b = .debug → n < 2 ^ 32) {ref : UInt64} {o : Fin n}
    (ho : s.orderMap.lookup ref = some o) :
    ∃ s₁ t₁ r₁, s.removeOrder b o = .ok s₁ ∧ OldRemoved s ref o (s₁.eraseFree ref o) ∧
      Raised lo (s₁.eraseFree ref o) { a with orders := a.orders.erase ref } t₁ r₁ := by
  obtain ⟨s', t₁, r₁, hs', h₁⟩ := h.quiet (.newest n) hb (e := .delete ref) rfl nofun
  simp only [OrderBook.apply, deleteRef, ho] at hs'
  obtain ⟨s₁, hs₁, hs'⟩ := of_bind_eq_ok hs'
  cases hs'
  have hframe := removeOrder_frame hs₁
  refine ⟨s₁, t₁, r₁, hs₁, ⟨congrArg (AList.erase ref) hframe.orderMap, hframe.ref, fun p hp => ?_, ?_⟩, h₁⟩
  · rw [OrderBook.sideAt, eraseFree_order_of_ne _ _ hp]
    exact hframe.sideAt p
  · intro hlive
    obtain ⟨ref', href'⟩ := mem_liveSet.mp hlive
    have hmap : (s₁.eraseFree ref o).orderMap = s.orderMap.erase ref :=
      congrArg (AList.erase ref) hframe.orderMap
    rw [hmap] at href'
    have hne : ref' ≠ ref := by
      rintro rfl
      rw [AList.lookup_erase] at href'
      cases href'
    rw [AList.lookup_erase_ne hne, ← h.like.orderMap] at href'
    rw [← h.like.orderMap] at ho
    exact hne (h.sim.rep.lookup_inj href' ho)

theorem OldRemoved.lookup {ref : UInt64} {o : Fin n} {s' : OrderBook n} (h : OldRemoved s ref o s')
    {ref' : UInt64} {p : Fin n} (hp : s'.orderMap.lookup ref' = some p) :
    ref' ≠ ref ∧ p ≠ o ∧ s.orderMap.lookup ref' = some p := by
  have hpo : p ≠ o := by
    rintro rfl
    exact h.free (mem_liveSet.mpr ⟨ref', hp⟩)
  rw [h.orderMap] at hp
  have hne : ref' ≠ ref := by
    rintro rfl
    rw [AList.lookup_erase] at hp
    cases hp
  rw [AList.lookup_erase_ne hne] at hp
  exact ⟨hne, hpo, hp⟩

/-- **Messages that meet `RefKept` keep the raised book.** -/
theorem Raised.apply (it : IterOrder n) (h : Raised lo s a t r) (hb : b = .debug → n < 2 ^ 32)
    (hw : ZeroPriceEvent n a e)
    (hwin : ∀ ref d price, a.inserts e = some (ref, d, price) → InWindow lo d price) (hk : s.RefKept e) :
    ∃ s' t' r', s.apply b it e = .ok s' ∧ Raised lo s' (a.step e) t' r' := by
  cases hins : a.inserts e with
  | none =>
    refine h.quiet it hb hins ?_
    rintro ref qty rfl
    exact hw
  | some i =>
    have hat := h.insertsAt_eq e
    rw [hins, Option.map_some] at hat
    cases e with
    | add ref side shares price =>
      simp only [NaiveBook.inserts] at hins
      split_ifs at hins with hopen
      cases hins
      obtain ⟨hr, hside, hlt, hsize⟩ := hw hopen
      have hfree : ∃ p, p ∉ s.liveSet := by
        rw [← h.like.liveSet]
        exact h.sim.abs.exists_free (by rw [h.mapped.size_eq]; exact hsize)
      obtain ⟨s', t', r', hs', h'⟩ := h.addNew b it hr shares hlt
        (hwin ref (sideOf side) price (if_pos hopen)) hfree fun hz hp p hp' => by
          obtain ⟨ref', href'⟩ := mem_liveSet.mp hp'
          exact hk _ _ hat hz hp ref' p href' fun he => by cases he
      rw [← side_byte_of_wf hside] at hs' h'
      have hsopen : s.isOpen = true := by rw [← h.like.isOpen, ← h.sim.abs.isOpen, h.mapped.isOpen, hopen]
      refine ⟨s', t', r', ?_, ?_⟩
      · simp only [OrderBook.apply, addRef, hsopen, Bool.not_true, Bool.false_eq_true, if_false, hs']
      · rw [NaiveBook.step, if_pos hopen]
        exact h'
    | replace oldRef newRef shares price =>
      simp only [NaiveBook.inserts, Option.map_eq_some_iff] at hins
      obtain ⟨x, hx, hi⟩ := hins
      cases hi
      obtain ⟨hr, hlt⟩ := hw (by rw [hx]; rfl)
      obtain ⟨o, ho⟩ := Option.ne_none_iff_exists'.mp fun hn => by
        rw [h.lookup_none.mpr hn] at hx
        cases hx
      obtain ⟨x', hx', hbyte, -⟩ := h.lookup_some ho
      rw [hx] at hx'
      cases hx'
      obtain ⟨-, -, hside⟩ := h.price_live (mem_liveSet.mpr ⟨oldRef, ho⟩)
      obtain ⟨s₁, t₁, r₁, hs₁, hold, h₁⟩ := h.remove_old hb ho
      obtain ⟨s', t', r', hs', h'⟩ := h₁.addNew b it (d := s.sideAt o) hr shares hlt
        (hwin newRef (s.sideAt o) price (by
          simp only [NaiveBook.inserts, hx, Option.map_some, hbyte]
          rfl)) ⟨o, hold.free⟩ fun hz hp p hp' => by
          obtain ⟨ref', href'⟩ := mem_liveSet.mp hp'
          obtain ⟨hne, hpo, hlook⟩ := hold.lookup href'
          rw [hold.sideAt p hpo]
          rw [hold.ref] at hz
          refine hk _ price ?_ hz hp ref' p hlook fun he => hne (Option.some.inj he).symm
          simp only [insertsAt, ho, Option.map_some]
      rw [← hside] at hs' h'
      refine ⟨s', t', r', ?_, ?_⟩
      · simp only [OrderBook.apply, replaceRef, ho, hs₁, ok_bind, hs']
      · simp only [NaiveBook.step, hx, hbyte]
        exact h'
    | system code => cases hins
    | reduce ref qty => cases hins
    | delete ref => cases hins
    | ignore => cases hins

end Steps

/-! ## The first price of a side -/

section Unindexed

variable {b : Build} {it : IterOrder n} {lo : Side → ℕ} {s t : OrderBook n} {a : NaiveBook} {r : RefBook}
  {d : Side} {o p : Fin n} {e : Event}

theorem mem_inserted_queue {i j : Fin kLevels}
    (hlevel : ∀ i, LevelRep s.pool.slots ((s.sides d).levels i) (s.queue d i))
    (hdisj : ∀ i, i ≠ j → ∀ q ∈ s.queue d i, q ∉ s.queue d j) (ho : ∀ i, o ∉ s.queue d i)
    (hp : p ∈ s.queue d i) : p ∈ (s.inserted o d j).queue d i := by
  by_cases hi : i = j
  · subst hi
    rw [queue_eq (inserted_levelRep (hlevel i) (ho i))]
    exact List.mem_append_left _ hp
  · have hrep := inserted_levelRep_of_disjoint (hlevel j) (hlevel i) (ho i) (hdisj i hi)
    have hsame : ((s.inserted o d j).sides d).levels i = (s.sides d).levels i :=
      inserted_levels_of_ne s o d j fun h => hi h.2
    rw [← hsame] at hrep
    rw [queue_eq hrep]
    exact hp

theorem Raised.poolOk (h : Raised lo s a t r) : PoolOk s.liveSet s.pool := by
  rw [← h.like.liveSet]
  exact h.sim.rep.pool.congr h.like.freeHead.symm fun q _ => (h.like.order q).next.symm

theorem Raised.levelRep (h : Raised lo s a t r) (d : Side) (i : Fin kLevels) :
    LevelRep s.pool.slots ((s.sides d).levels i) (s.queue d i) := by
  have hrep := h.like.heap.levelRep (h.sim.rep.linked.level d i)
  rw [(h.like.sides d).levels, h.like.queue] at hrep
  exact hrep

/-- **The first positive price moves the reference price only**: an order that rests on the side is at the
index of its distance from `0`. -/
theorem Raised.addNew_unindexed (b : Build) (it : IterOrder n) (h : Raised lo s a t r) {ref' : UInt64}
    (ref : UInt64) (shares : UInt32) {price : UInt32} (hp0 : price ≠ 0) (hfree : ∃ p, p ∉ s.liveSet)
    (hz : (s.sides d).ref = 0) (hp : s.orderMap.lookup ref' = some p) (hd : s.sideAt p = d) :
    ∃ s', s.addNew b it ref shares price d.byte = .ok s' ∧ ¬ Indexed s' := by
  obtain ⟨pool, o, halloc, ho, -, hslots⟩ := h.poolOk.alloc b hfree
  set u := s.filled pool o ref shares price d.byte with hu
  set v := u.withRef d price with hv
  have hother : ∀ q, q ≠ o → v.order q = s.order q := fun q hq => filled_order_of_ne hslots hq
  have hself : (u.order o).price = price ∧ u.sideAt o = d :=
    ⟨filled_order_self.2.2.1, filled_sideAt_self.trans (sideOf_byte d)⟩
  have hlive : ∀ i, ∀ q ∈ s.queue d i, q ∈ s.liveSet := fun i q hq => by
    rw [← h.like.queue] at hq
    rw [← h.like.liveSet]
    exact h.sim.rep.linked.mem_of_queue hq
  have hvlevel : ∀ i, LevelRep v.pool.slots ((v.sides d).levels i) (s.queue d i) := by
    intro i
    have heq : ∀ q ∈ s.queue d i, v.pool.slots q = s.pool.slots q := fun q hq =>
      hother q fun e => ho (e ▸ hlive i q hq)
    rw [hv, (withRef_levels u d d price).1, ← hv]
    refine (h.levelRep d i).congr ?_ ?_ ?_ <;> intro q hq <;> rw [heq q hq]
  have hq : ∀ i, v.queue d i = s.queue d i := fun i => queue_eq (hvlevel i)
  have hins : u.insertOrder b it o = .ok (v.inserted o d (slotOf 0 inArray_zero)) := by
    have hstart : u.started d price = v := if_pos hz
    have hprice : (v.order o).price = price := hself.1
    have hside : v.sideAt o = d := hself.2
    have hvref : (v.sides d).ref = price := by rw [hv, withRef_ref, if_pos rfl]
    rw [insertOrder_eq_insertFrom, hself.1, hself.2, hstart]
    unfold insertFrom
    rw [hvref, hprice, priceIdx_self, ok_bind, if_neg (not_inArray.not.mpr (not_not.mpr inArray_zero)),
      check_ok fun _ => inArray_zero, ok_bind, insertAt_eq inArray_zero, hside]
  set w := v.inserted o d (slotOf 0 inArray_zero) with hw
  refine ⟨{ w with orderMap := w.orderMap.insert ref o }, addNew_eq_ok halloc hins, fun hidx => hp0 ?_⟩
  · -- the order keeps the index it has had on the side with the reference price `0`
    obtain ⟨i, hi⟩ := h.indexed.linked ref' p hp
    rw [hd] at hi
    obtain ⟨-, hold⟩ := h.indexed.price d i p hi
    have hmem : p ∈ w.queue d i := by
      refine mem_inserted_queue (fun i => ?_) (fun i hi q hq₁ hq₂ => ?_) (fun i hoi => ?_) ?_
      · rw [hq]
        exact hvlevel i
      · rw [hq, ← h.like.queue] at hq₁ hq₂
        exact hi (h.sim.rep.linked.queue_unique hq₂ hq₁).2
      · rw [hq] at hoi
        exact ho (hlive i o hoi)
      · rw [hq]
        exact hi
    obtain ⟨-, hnew⟩ := hidx.price d i p hmem
    have hframe := inserted_frame v o d (slotOf 0 inArray_zero)
    have hpo : p ≠ o := fun e => ho (e ▸ mem_liveSet.mpr ⟨ref', hp⟩)
    have hpprice : (w.order p).price = (s.order p).price :=
      (hframe.data.price p).trans (congrArg Order.price (hother p hpo))
    have hwref : (w.sides d).ref = price := by rw [hw, hframe.ref, hv, withRef_ref, if_pos rfl]
    change tick d (w.sides d).ref (w.order p).price = (i : ℕ) at hnew
    rw [hwref, hpprice] at hnew
    rw [hz] at hold
    have hzero : price.toNat = 0 := by
      have : (0 : UInt32).toNat = 0 := rfl
      cases d <;> simp only [tick] at hold hnew <;> omega
    exact UInt32.toNat_inj.mp hzero

/-- **A message that does not meet `RefKept` leaves an order at a wrong index.** -/
theorem Raised.apply_unindexed (h : Raised lo s a t r) (hb : b = .debug → n < 2 ^ 32)
    (hw : ZeroPriceEvent n a e) (hk : ¬ s.RefKept e) : ∃ s', s.apply b it e = .ok s' ∧ ¬ Indexed s' := by
  unfold RefKept at hk
  push Not at hk
  obtain ⟨d, price, hins, hz, hp0, ref', p, hp, htarget, hd⟩ := hk
  cases e with
  | add ref side shares price' =>
    simp only [insertsAt] at hins
    split_ifs at hins with hopen
    cases hins
    have haopen : a.isOpen = true := by rw [← h.mapped.isOpen, h.sim.abs.isOpen, h.like.isOpen, hopen]
    obtain ⟨-, hside, -, hsize⟩ := hw haopen
    have hfree : ∃ p, p ∉ s.liveSet := by
      rw [← h.like.liveSet]
      exact h.sim.abs.exists_free (by rw [h.mapped.size_eq]; exact hsize)
    obtain ⟨s', hs', hnot⟩ := h.addNew_unindexed b it ref shares hp0 hfree hz hp hd
    rw [← side_byte_of_wf hside] at hs'
    refine ⟨s', ?_, hnot⟩
    simp only [OrderBook.apply, addRef, hopen, Bool.not_true, Bool.false_eq_true, if_false, hs']
  | replace oldRef newRef shares price' =>
    simp only [insertsAt, Option.map_eq_some_iff] at hins
    obtain ⟨o, ho, hi⟩ := hins
    cases hi
    obtain ⟨-, -, hside⟩ := h.price_live (mem_liveSet.mpr ⟨oldRef, ho⟩)
    obtain ⟨s₁, t₁, r₁, hs₁, hold, h₁⟩ := h.remove_old hb ho
    have hne : ref' ≠ oldRef := fun e => htarget (congrArg some e.symm)
    have hlook : (s₁.eraseFree oldRef o).orderMap.lookup ref' = some p := by
      rw [hold.orderMap, AList.lookup_erase_ne hne, hp]
    have hpo : p ≠ o := by
      rintro rfl
      exact hold.free (mem_liveSet.mpr ⟨ref', hlook⟩)
    obtain ⟨s', hs', hnot⟩ := h₁.addNew_unindexed b it newRef shares hp0
      ⟨o, hold.free⟩ (by rw [hold.ref]; exact hz) hlook (by rw [hold.sideAt p hpo]; exact hd)
    rw [← hside] at hs'
    refine ⟨s', ?_, hnot⟩
    simp only [OrderBook.apply, replaceRef, ho, hs₁, ok_bind, hs']
  | system code => cases hins
  | reduce ref qty => cases hins
  | delete ref => cases hins
  | ignore => cases hins

end Unindexed

/-! ## Runs -/

/-- **When every change of a reference price re-indexes its side.** After every message all linked orders
are at the indices of their prices and all live orders are linked, if and only if no message inserts at a
positive price on a side whose reference price is `0` while other orders rest there. -/
theorem indexed_iff {lo : Side → ℕ} (feed : List (Input n)) (hw : ZeroPrices feed) (hwin : Windowed lo feed) :
    (∀ pre, pre <+: feed → ∀ b : Build,
      ((b = .debug → n < 2 ^ 32) → ∃ s, (OrderBook.init n).replay b pre = .ok s) ∧
        ∀ s, (OrderBook.init n).replay b pre = .ok s → Indexed s) ↔
      RefKeptAll .release (OrderBook.init n) feed := by
  refine replay_prefix_iff (fun s a => ∃ t r, Raised lo s a t r) ?_ ?_ ?_
    ⟨_, _, raised_init lo⟩ (hw.and hwin)
  · rintro s a ⟨t, r, h⟩
    exact h.indexed
  · rintro b hb s a x ⟨t, r, h⟩ ⟨hwx, hwinx⟩ hk
    rw [dispatch_eq_apply]
    obtain ⟨s', t', r', hs', h'⟩ := h.apply x.2 hb hwx hwinx hk
    exact ⟨s', hs', t', r', h'⟩
  · rintro s a x ⟨t, r, h⟩ ⟨hwx, -⟩ hk
    rw [dispatch_eq_apply]
    exact h.apply_unindexed nofun hwx hk

/-- A bid at the price `0` and a bid at `5`. -/
def zeroBid : List (Input 2) :=
  [(sysMsg 'O'.toUInt8, .newest 2), (addMsg 1 'B'.toUInt8 10 0, .newest 2),
    (addMsg 2 'B'.toUInt8 10 5, .newest 2)]

theorem zeroPrices_zeroBid : ZeroPrices zeroBid := by
  refine ⟨trivial, fun _ => ⟨rfl, .inl rfl, ?_, ?_⟩, fun _ => ⟨rfl, .inl rfl, ?_, ?_⟩, trivial⟩ <;> decide

theorem windowed_zeroBid : Windowed (fun _ => 0) zeroBid := by
  refine ⟨nofun, fun ref d price h => ?_, fun ref d price h => ?_, trivial⟩
  · cases h
    exact ⟨by decide, by decide⟩
  · cases h
    exact ⟨by decide, by decide⟩

/-- The bid at `0` stays at index `0` of the reference price `5`. -/
theorem zero_bid_unindexed : ZeroPrices zeroBid ∧ Windowed (fun _ => 0) zeroBid ∧
    ∃ s, (OrderBook.init 2).replay .debug zeroBid = .ok s ∧ (s.sides .bid).ref = 5 ∧
      (0 : Fin 2) ∈ s.queue .bid ⟨0, by decide⟩ ∧ (s.order 0).price = 0 ∧ ¬ Indexed s := by
  have hmem : ∃ s, (OrderBook.init 2).replay .debug zeroBid = .ok s ∧ (s.sides .bid).ref = 5 ∧
      (0 : Fin 2) ∈ s.queue .bid ⟨0, by decide⟩ ∧ (s.order 0).price = 0 :=
    ⟨_, rfl, rfl, List.mem_cons_self, rfl⟩
  obtain ⟨s, hs, href, hq, hprice⟩ := hmem
  refine ⟨zeroPrices_zeroBid, windowed_zeroBid, s, hs, href, hq, hprice, fun h => ?_⟩
  obtain ⟨-, htick⟩ := h.price .bid _ 0 hq
  rw [href, hprice] at htick
  cases htick

theorem indexed_iff_zeroBid : ∃ s, (OrderBook.init 2).replay .debug (zeroBid.take 2) = .ok s ∧ Indexed s := by
  have hpre : zeroBid.take 2 <+: zeroBid := List.take_prefix 2 zeroBid
  have hkept : RefKeptAll .release (OrderBook.init 2) (zeroBid.take 2) := by
    refine ⟨nofun, fun s hs => ⟨fun d price hins hz hp => ?_, fun _ _ => trivial⟩⟩
    cases hs
    cases hins
    exact absurd rfl hp
  have hall := (indexed_iff (zeroBid.take 2) (Guided.of_isPrefix zeroPrices_zeroBid hpre)
    (Guided.of_isPrefix windowed_zeroBid hpre)).mpr hkept
  obtain ⟨hrun, hindexed⟩ := hall _ List.prefix_rfl .debug
  obtain ⟨s, hs⟩ := hrun fun _ => by decide
  exact ⟨s, hs, hindexed s hs⟩

end OrderBook

end L2Book
