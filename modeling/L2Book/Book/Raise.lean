import L2Book.Book.SideBytes

/-!
# Raised prices

The reference price `0` stands for a side without one, so the invariants of the book need positive prices.
A book whose windows reach down to the price `0` is compared with a book in which every price of such a
window is one tick higher, and so is the reference price once an order has set it.

* `raise`, `raised`, `NaiveOrder.raise`: the likeness and what it does to the naive book;
* **`Raised lo s a t r`**: the book `s` of the naive book `a` is like a book `t` that represents the raised
  naive book `r`;
* `Raised.quiet`: events without an insertion; `Raised.withRef`: the raised book forgets the reference price
  of an empty side; **`Raised.addNew`**: an insertion that does not start a side on which orders rest.
-/

namespace L2Book

variable {n : ℕ}

/-! ## The likeness -/

section Raise

variable (lo : Side → ℕ)

/-- How far the prices of side `d` are raised: by one tick if its window starts at `0`. -/
def raise (d : Side) : ℕ := if lo d = 0 then 1 else 0

/-- The same for the side byte of an order. A free slot is on neither side. -/
def raiseOf (c : UInt8) : ℕ :=
  if c = 'B'.toUInt8 then raise lo .bid else if c = 'S'.toUInt8 then raise lo .ask else 0

theorem raiseOf_byte (d : Side) : raiseOf lo d.byte = raise lo d := by
  cases d
  · rfl
  · rfl

/-- Where the raised window starts. -/
def raisedLo (d : Side) : ℕ := lo d + raise lo d

/-- Prices are raised, and so are reference prices unless the raised side has none. -/
def raised : Likeness where
  order x y := y.1 = x.1 ∧ y.2.toNat = x.2.toNat + raiseOf lo x.1
  ref d r r' := r'.toNat = r.toNat + raise lo d ∨ r = 0 ∧ r' = 0
  side h := congrArg sideOf h.1
  free := ⟨rfl, rfl⟩

/-- The raised price. -/
def raisedPrice (c : UInt8) (price : UInt32) : UInt32 := price + UInt32.ofNat (raiseOf lo c)

/-- The order with its price raised. -/
def NaiveOrder.raise (o : NaiveOrder) : NaiveOrder := { o with price := raisedPrice lo o.side o.price }

variable {lo}

theorem keepsShares_raise : NaiveBook.KeepsShares (NaiveOrder.raise lo) := fun _ _ => rfl

theorem raise_le (lo : Side → ℕ) (d : Side) : raise lo d ≤ 1 := by
  unfold raise
  split_ifs <;> omega

theorem raisedPrice_toNat (d : Side) {price : UInt32} (hlt : price.toNat < 2 ^ 31) :
    (raisedPrice lo d.byte price).toNat = price.toNat + raise lo d := by
  have hle := raise_le lo d
  unfold raisedPrice
  rw [raiseOf_byte, UInt32.toNat_add, UInt32.toNat_ofNat']
  omega

theorem raisedPrice_ok (d : Side) {price : UInt32} (hlt : price.toNat < 2 ^ 31)
    (hin : InWindow lo d price) :
    PriceOk (raisedPrice lo d.byte price) ∧ InWindow (raisedLo lo) d (raisedPrice lo d.byte price) := by
  obtain ⟨hlow, hhigh⟩ := hin
  unfold PriceOk InWindow raisedLo
  rw [raisedPrice_toNat d hlt]
  unfold raise
  have hk : kLevels = 8192 := rfl
  split_ifs with hz
  · omega
  · omega

theorem priceIdx_raised (d : Side) {ref ref' price price' : UInt32} (hr' : ref'.toNat < 2 ^ 31)
    (hp' : price'.toNat < 2 ^ 31) (href : ref'.toNat = ref.toNat + raise lo d)
    (hprice : price'.toNat = price.toNat + raise lo d) :
    priceIdx d ref' price' = priceIdx d ref price ∧ tick d ref' price' = tick d ref price := by
  have htick : tick d ref' price' = tick d ref price := by
    cases d <;> simp only [tick, href, hprice] <;> omega
  refine ⟨?_, htick⟩
  rw [priceIdx_eq d hr' hp', priceIdx_eq d (by omega) (by omega), htick]

end Raise

/-! ## One more order -/

namespace RefBook

/-- The order is added under `ref`, in any session state. -/
def placed (r : RefBook) (ref : UInt64) (o : NaiveOrder) : RefBook :=
  ⟨{ r.book with orders := r.book.orders.insert ref o },
    fun d => if d = sideOf o.side then nextRef d (r.ref d) o.price else r.ref d⟩

variable {lo : Side → ℕ} {r : RefBook} {ref : UInt64} {o : NaiveOrder}

/-- An order in the window drops no other order. -/
theorem AllHeld.placed (h : r.AllHeld) (hwin : r.WindowInv lo) (hr : r.book.orders.lookup ref = none)
    (hside : o.side = 'B'.toUInt8 ∨ o.side = 'S'.toUInt8) (hprice : PriceOk o.price)
    (hin : InWindow lo (sideOf o.side) o.price) :
    (r.placed ref o).AllHeld ∧ (r.placed ref o).WindowInv lo := by
  -- in an open session it is one event
  set r₁ : RefBook := ⟨{ r.book with isOpen := true }, r.ref⟩ with hr₁
  set e : Event := .add ref o.side o.shares o.price with he
  have hheld₁ : r₁.AllHeld := h
  have hwin₁ : r₁.WindowInv lo := ⟨hwin.ref, hwin.live⟩
  have hw : WfEvent (r.book.size + 1) r₁.book e := fun _ => ⟨hr, hside, hprice, Nat.lt_succ_self _⟩
  have hins : ∀ ref' d price, r₁.book.inserts e = some (ref', d, price) → InWindow lo d price := by
    intro ref' d price hins
    cases hins
    exact hin
  have hheld₂ := hheld₁.step hw (hwin₁.noDrop hheld₁ hins)
  have hwin₂ := hwin₁.step hins
  exact ⟨hheld₂, hwin₂.ref, hwin₂.live⟩

end RefBook

namespace OrderBook

section Steps

variable {b : Build} {it : IterOrder n} {L : Likeness} {s t : OrderBook n} {r : RefBook} {e : Event}

theorem Sim.addNew (b : Build) (it : IterOrder n) (h : Sim t r) {ref : UInt64} {o : NaiveOrder}
    (hr : r.book.orders.lookup ref = none) (hside : o.side = (sideOf o.side).byte)
    (hprice : PriceOk o.price) (hfree : ∃ p, p ∉ t.liveSet) :
    ∃ t', t.addNew b it ref o.shares o.price o.side = .ok t' ∧ Sim t' (r.placed ref o) := by
  obtain ⟨t', p, ht', hadd⟩ := h.rep.add b it ref o.shares (h.abs.lookup_none.mp hr) hside hprice hfree
  refine ⟨t', ht', hadd.rep, hadd.abs h.abs, fun d => ?_, fun hn => hadd.best hn (h.best hn)⟩
  rw [hadd.ref, h.ref]
  rfl

/-- Events without an insertion read no price. -/
theorem Like.apply (h : Like L s t) (he : s.insertsAt e = none) :
    Together (Like L) (s.apply b it e) (t.apply b it e) := by
  cases e with
  | system code =>
    simp only [OrderBook.apply]
    split_ifs
    · exact ⟨h.sides, h.orderMap, rfl, h.freeHead, h.heap⟩
    · exact ⟨h.sides, h.orderMap, rfl, h.freeHead, h.heap⟩
    · exact h.halt it
    · exact h
  | add ref side shares price =>
    have hopen : s.isOpen = false := by
      cases hs : s.isOpen with
      | false => rfl
      | true => simp only [insertsAt, hs, if_true, reduceCtorEq] at he
    simp only [OrderBook.apply, addRef, h.isOpen, hopen]
    exact h
  | reduce ref qty => exact h.reduceBy ref qty
  | delete ref => exact h.deleteRef ref
  | replace oldRef newRef shares price =>
    have hold : s.orderMap.lookup oldRef = none := by
      simpa only [insertsAt, Option.map_eq_none_iff] using he
    simp only [OrderBook.apply, replaceRef, h.orderMap, hold]
    exact h
  | ignore => exact h

end Steps

/-! ## The raised book -/

/-- **The book `s`, its naive book `a` and the raised books.** The raised book meets all invariants. -/
structure Raised (lo : Side → ℕ) (s : OrderBook n) (a : NaiveBook) (t : OrderBook n) (r : RefBook) :
    Prop where
  like : Like (raised lo) s t
  sim : Sim t r
  mapped : NaiveBook.Mapped (NaiveOrder.raise lo) a r.book
  held : r.AllHeld
  window : r.WindowInv (raisedLo lo)

section Raised

variable {b : Build} {it : IterOrder n} {lo : Side → ℕ} {s t : OrderBook n} {a : NaiveBook} {r : RefBook}
  {d : Side} {p : Fin n}

theorem raised_init (lo : Side → ℕ) :
    Raised lo (OrderBook.init n) NaiveBook.init (OrderBook.init n) RefBook.init :=
  ⟨⟨fun _ => ⟨rfl, rfl, .inr ⟨rfl, rfl⟩⟩, rfl, rfl, rfl,
    fun _ => ⟨rfl, rfl, (raised lo).free, rfl, rfl, rfl⟩⟩, sim_init, ⟨fun _ => rfl, rfl⟩,
    allHeld_init, windowInv_init _⟩

theorem Raised.lookup_some (h : Raised lo s a t r) {ref : UInt64} (hp : s.orderMap.lookup ref = some p) :
    ∃ o, a.orders.lookup ref = some o ∧ o.side = (s.order p).side ∧ o.shares = (s.order p).shares := by
  have hp' : t.orderMap.lookup ref = some p := by rw [h.like.orderMap, hp]
  have hlook := h.sim.abs.lookup_some hp'
  rw [h.mapped.lookup, Option.map_eq_some_iff] at hlook
  obtain ⟨o, ho, hview⟩ := hlook
  have hside : o.side = (t.order p).side := congrArg NaiveOrder.side hview
  have hshares : o.shares = (t.order p).shares := congrArg NaiveOrder.shares hview
  exact ⟨o, ho, hside.trans (h.like.order p).data.1, hshares.trans (h.like.order p).shares⟩

theorem Raised.lookup_none (h : Raised lo s a t r) {ref : UInt64} :
    a.orders.lookup ref = none ↔ s.orderMap.lookup ref = none := by
  rw [← h.mapped.lookup_none, h.sim.abs.lookup_none, h.like.orderMap]

theorem Raised.insertsAt_eq (h : Raised lo s a t r) (e : Event) :
    s.insertsAt e = (a.inserts e).map fun i => i.2 := by
  cases e with
  | add ref side shares price =>
    simp only [insertsAt, NaiveBook.inserts]
    rw [← h.like.isOpen, ← h.sim.abs.isOpen, h.mapped.isOpen]
    split_ifs
    · rfl
    · rfl
  | replace oldRef newRef shares price =>
    simp only [insertsAt, NaiveBook.inserts, Option.map_map]
    cases hp : s.orderMap.lookup oldRef with
    | none => rw [h.lookup_none.mpr hp]; rfl
    | some p =>
      obtain ⟨o, ho, hside, -⟩ := h.lookup_some hp
      rw [ho]
      simp only [Option.map_some, Function.comp_apply, hside]
      rfl
  | system code => rfl
  | reduce ref qty => rfl
  | delete ref => rfl
  | ignore => rfl

theorem Raised.price_live (h : Raised lo s a t r) (hp : p ∈ s.liveSet) :
    (t.order p).price.toNat = (s.order p).price.toNat + raise lo (s.sideAt p) ∧
      (t.order p).price.toNat < 2 ^ 31 ∧ (s.order p).side = (s.sideAt p).byte := by
  have hp' : p ∈ t.liveSet := by rw [h.like.liveSet]; exact hp
  obtain ⟨hbyte, hprice⟩ := (h.like.order p).data
  have hside : (s.order p).side = (s.sideAt p).byte := by
    have := h.sim.rep.linked.side_byte p hp'
    rw [h.like.sideAt] at this
    exact hbyte.symm.trans this
  refine ⟨?_, h.sim.rep.linked.price_lt p hp', hside⟩
  simp only at hprice
  rw [hprice, hside, raiseOf_byte]

/-- **Events without an insertion.** -/
theorem Raised.quiet (it : IterOrder n) (h : Raised lo s a t r) (hb : b = .debug → n < 2 ^ 32) {e : Event}
    (he : a.inserts e = none)
    (hq : ∀ ref qty, e = .reduce ref qty → ∀ o, a.orders.lookup ref = some o → qty ≤ o.shares) :
    ∃ s' t' r', s.apply b it e = .ok s' ∧ Raised lo s' (a.step e) t' r' := by
  obtain ⟨hmapped, he'⟩ := h.mapped.step keepsShares_raise he
  have hw : WfEvent n r.book e := by
    cases e with
    | add ref side shares price =>
      intro hopen
      simp only [NaiveBook.inserts, hopen, if_true, reduceCtorEq] at he'
    | reduce ref qty =>
      intro o ho
      rw [h.mapped.lookup, Option.map_eq_some_iff] at ho
      obtain ⟨o', ho', rfl⟩ := ho
      exact hq ref qty rfl o' ho'
    | replace oldRef newRef shares price =>
      intro hold
      simp only [NaiveBook.inserts, Option.map_eq_none_iff] at he'
      rw [he'] at hold
      cases hold
    | system code => trivial
    | delete ref => trivial
    | ignore => trivial
  have hins : ∀ ref d price, r.book.inserts e ≠ some (ref, d, price) := by
    intro ref d price hins
    rw [he'] at hins
    cases hins
  obtain ⟨t', ht', hspec⟩ := step_spec it hb h.sim.rep h.sim.abs hw
    ((h.sim.refersLinked_iff e).mpr (h.held.reaches e))
  have hlike : Together (Like (raised lo)) (s.apply b it e) (t.apply b it e) :=
    h.like.apply (by rw [h.insertsAt_eq, he]; rfl)
  rw [ht'] at hlike
  cases hs : s.apply b it e with
  | error f => rw [hs] at hlike; exact hlike.elim
  | ok s' =>
    rw [hs] at hlike
    refine ⟨s', t', r.step e, rfl, hlike, h.sim.of_stepSpec hspec, hmapped, ?_, ?_⟩
    · exact h.held.step hw fun ref d price hi => absurd hi (hins ref d price)
    · exact h.window.step fun ref d price hi => absurd hi (hins ref d price)

theorem Raised.withRef (h : Raised lo s a t r) (hz : (s.sides d).ref = 0)
    (hd : ∀ p ∈ s.liveSet, s.sideAt p ≠ d) :
    Raised lo s a (t.withRef d 0) ⟨r.book, Function.update r.ref d 0⟩ := by
  have hlive : ∀ p ∈ t.liveSet, t.sideAt p ≠ d := by
    intro p hp
    rw [h.like.sideAt]
    exact hd p (by rw [← h.like.liveSet]; exact hp)
  have hside : ∀ ref o, r.book.orders.lookup ref = some o → sideOf o.side ≠ d := by
    intro ref o ho
    rw [h.sim.abs.lookup, Option.map_eq_some_iff] at ho
    obtain ⟨p, hp, rfl⟩ := ho
    exact hlive p (mem_liveSet.mpr ⟨ref, hp⟩)
  have href : ∀ d', ((t.withRef d 0).sides d').ref = Function.update r.ref d 0 d' := by
    intro d'
    rw [withRef_ref, Function.update_apply, h.sim.ref]
  refine ⟨⟨fun d' => ?_, h.like.orderMap, h.like.isOpen, h.like.freeHead, h.like.heap⟩, ⟨?_, ?_, href, ?_⟩,
    h.mapped, fun ref o ho => ?_, fun d' => ?_, h.window.live⟩
  · obtain ⟨hlevels, hbest⟩ := withRef_levels t d d' 0
    refine ⟨hlevels.trans (h.like.sides d').levels, hbest.trans (h.like.sides d').bestIdx, ?_⟩
    rw [withRef_ref]
    split_ifs with he
    · subst he
      exact .inr ⟨hz, rfl⟩
    · exact (h.like.sides d').ref
  · exact ⟨h.sim.rep.linked.withRef hlive (by decide), h.sim.rep.pool, h.sim.rep.orderRef⟩
  · exact ⟨h.sim.abs.lookup, h.sim.abs.isOpen⟩
  · intro hn d'
    obtain ⟨hlevels, hbest⟩ := withRef_levels t d d' 0
    rw [hlevels, hbest]
    exact h.sim.best hn d'
  · obtain ⟨hne, hh⟩ := h.held ref o ho
    unfold RefBook.Holds at hh ⊢
    simp only
    rw [Function.update_of_ne (hside ref o ho)]
    exact ⟨hne, hh⟩
  · simp only [Function.update_apply]
    split_ifs
    · exact .inl rfl
    · exact h.window.ref d'

/-- The raised side has a reference price exactly if the book knows one, up to the price `0`. -/
theorem Raised.start (h : Raised lo s a t r) (price : UInt32)
    (hkeep : (s.sides d).ref = 0 → price ≠ 0 → ∀ p ∈ s.liveSet, s.sideAt p ≠ d) :
    ∃ t₀ r₀, Raised lo s a t₀ r₀ ∧
      (((t₀.sides d).ref.toNat = (s.sides d).ref.toNat + raise lo d ∧ (t₀.sides d).ref ≠ 0 ∧
        startRef (s.sides d).ref price = (s.sides d).ref) ∨
      ((s.sides d).ref = 0 ∧ (t₀.sides d).ref = 0)) := by
  rcases (h.like.sides d).ref with href | hz
  · by_cases hs : (s.sides d).ref = 0
    · by_cases hp : price = 0
      · by_cases ht : (t.sides d).ref = 0
        · exact ⟨t, r, h, .inr ⟨hs, ht⟩⟩
        · refine ⟨t, r, h, .inl ⟨href, ht, ?_⟩⟩
          rw [startRef, if_pos hs, hp, hs]
      · refine ⟨_, _, h.withRef hs (hkeep hs hp), .inr ⟨hs, ?_⟩⟩
        rw [withRef_ref, if_pos rfl]
    · refine ⟨t, r, h, .inl ⟨href, fun ht => hs ?_, by rw [startRef, if_neg hs]⟩⟩
      rw [ht] at href
      have hzero : (s.sides d).ref.toNat = 0 := by
        have : (0 : UInt32).toNat = 0 := rfl
        omega
      exact UInt32.toNat_inj.mp hzero
  · exact ⟨t, r, h, .inr hz⟩

theorem Raised.sameVisit (h : Raised lo s a t r) (hp : p ∈ s.liveSet) {price price' : UInt32}
    (hlt : price'.toNat < 2 ^ 31) (hprice : price'.toNat = price.toNat + raise lo d) :
    SameVisit d price price' (s.order p) (t.order p) := by
  obtain ⟨hraise, hplt, hside⟩ := h.price_live hp
  have hbyte : (t.order p).side = (s.order p).side := (h.like.order p).data.1
  refine ⟨by rw [hbyte], fun hd => ?_⟩
  rw [OrderBook.sideAt, hd, sideOf_byte] at hraise
  exact (priceIdx_raised d hlt hplt hprice hraise).1

theorem Raised.samePlace (h : Raised lo s a t r) {price price' : UInt32}
    (hlt : price'.toNat < 2 ^ 31) (hprice : price'.toNat = price.toNat + raise lo d)
    (hstart : ((t.sides d).ref.toNat = (s.sides d).ref.toNat + raise lo d ∧ (t.sides d).ref ≠ 0 ∧
        startRef (s.sides d).ref price = (s.sides d).ref) ∨
      ((s.sides d).ref = 0 ∧ (t.sides d).ref = 0)) :
    SamePlace (raised lo) d s t price price' := by
  have hvisits : ∀ p ∈ s.liveSlots, SameVisit d price price' (s.order p) (t.order p) :=
    fun p hp => h.sameVisit hp hlt hprice
  rcases hstart with ⟨href, hne, hs⟩ | ⟨hs, ht⟩
  · have ht : startRef (t.sides d).ref price' = (t.sides d).ref := if_neg hne
    refine ⟨?_, ?_, fun _ _ _ => ⟨.inl hprice, hvisits⟩⟩
    · rw [hs, ht]
      exact .inl href
    · rw [hs, ht]
      exact (priceIdx_raised d (h.sim.rep.linked.ref_lt d) hlt href hprice).1
  · have hs' : startRef (s.sides d).ref price = price := if_pos hs
    have ht' : startRef (t.sides d).ref price' = price' := if_pos ht
    refine ⟨?_, ?_, fun _ _ _ => ⟨.inl hprice, hvisits⟩⟩
    · rw [hs', ht']
      exact .inl hprice
    · rw [hs', ht', priceIdx_self, priceIdx_self]

/-- **Insertions.** The reference price of a side on which orders rest is `0` only before an insertion at
the price `0`. -/
theorem Raised.addNew (b : Build) (it : IterOrder n) (h : Raised lo s a t r) {ref : UInt64}
    (hr : a.orders.lookup ref = none) (shares : UInt32) {price : UInt32} (hlt : price.toNat < 2 ^ 31)
    (hin : InWindow lo d price) (hfree : ∃ p, p ∉ s.liveSet)
    (hkeep : (s.sides d).ref = 0 → price ≠ 0 → ∀ p ∈ s.liveSet, s.sideAt p ≠ d) :
    ∃ s' t' r', s.addNew b it ref shares price d.byte = .ok s' ∧
      Raised lo s' { a with orders := a.orders.insert ref ⟨d.byte, price, shares⟩ } t' r' := by
  obtain ⟨t₀, r₀, h₀, hstart⟩ := h.start price hkeep
  set o : NaiveOrder := ⟨d.byte, price, shares⟩ with ho
  obtain ⟨hprice, hin'⟩ := raisedPrice_ok d hlt hin
  have hnat : (o.raise lo).price.toNat = price.toNat + raise lo d := raisedPrice_toNat d hlt
  have hside : sideOf (o.raise lo).side = d := sideOf_byte d
  have hbyte : (o.raise lo).side = 'B'.toUInt8 ∨ (o.raise lo).side = 'S'.toUInt8 := by
    cases d
    · exact .inl rfl
    · exact .inr rfl
  have hr₀ : r₀.book.orders.lookup ref = none := h₀.mapped.lookup_none.mpr hr
  have hfree₀ : ∃ p, p ∉ t₀.liveSet := by rw [h₀.like.liveSet]; exact hfree
  obtain ⟨t', ht', hsim⟩ := h₀.sim.addNew b it (o := o.raise lo) hr₀ (side_byte_of_wf hbyte) hprice hfree₀
  obtain ⟨hheld, hwin⟩ := h₀.held.placed (o := o.raise lo) h₀.window hr₀ hbyte hprice
    (by rw [hside]; exact hin')
  have hlike : Together (Like (raised lo)) (s.addNew b it ref shares price d.byte)
      (t₀.addNew b it ref (o.raise lo).shares (o.raise lo).price (o.raise lo).side) := by
    refine h₀.like.addNew ref shares ⟨rfl, ?_⟩ (fun p hp hlive => ?_) ?_
    · simp only
      rw [hnat, raiseOf_byte]
    · rw [← h₀.like.freeHead] at hp
      exact not_mem_liveSlots_of_freeHead h₀.sim.rep.pool hp (by rw [h₀.like.liveSet]; exact hlive)
    · rw [sideOf_byte]
      exact h₀.samePlace hprice.2 hnat hstart
  rw [ht'] at hlike
  cases hs : s.addNew b it ref shares price d.byte with
  | error f => rw [hs] at hlike; exact hlike.elim
  | ok s' =>
    rw [hs] at hlike
    exact ⟨s', t', _, rfl, hlike, hsim, h₀.mapped.insert ref o, hheld, hwin⟩

end Raised

end OrderBook

end L2Book
