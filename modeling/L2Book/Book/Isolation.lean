import L2Book.Book.Quote

/-!
# Side isolation

Both sides share one pool, and the handlers write through the neighbours of an order. A message about one
side still leaves the other one alone.

* `SideFrame d s s'`: every side but `d` and its live orders are unchanged;
* `Concerns d`: messages about live orders of side `d` that lie in the array, and additions to it;
* **`side_isolation`**: such a message, after any run, returns and keeps the frame.
-/

namespace L2Book

namespace OrderBook

variable {n : ℕ}

/-- **Every side but `d` is unchanged**: its levels, reference price, best index and quote, and all fields
of its live orders. -/
structure SideFrame (d : Side) (s s' : OrderBook n) : Prop where
  sides : ∀ d', d' ≠ d → s'.sides d' = s.sides d'
  orders : ∀ r p, s.orderMap.lookup r = some p → s.sideAt p ≠ d →
    s'.orderMap.lookup r = some p ∧ s'.order p = s.order p

/-- The message adds an order to side `d`, or refers to a live order of that side with a cached index in
the array. -/
def Concerns (d : Side) (s : OrderBook n) (e : Event) : Prop :=
  (∃ ref shares price, e = .add ref d.byte shares price) ∨
    ∃ r p, e.target = some r ∧ s.orderMap.lookup r = some p ∧ s.sideAt p = d ∧ 0 ≤ (s.order p).levelIdx

theorem SideFrame.refl (d : Side) (s : OrderBook n) : SideFrame d s s :=
  ⟨fun _ _ => rfl, fun _ _ hp _ => ⟨hp, rfl⟩⟩

theorem SideFrame.trans {d : Side} {s s' s'' : OrderBook n} (h : SideFrame d s s')
    (h' : SideFrame d s' s'') : SideFrame d s s'' := by
  refine ⟨fun d' hd => (h'.sides d' hd).trans (h.sides d' hd), fun r p hp hd => ?_⟩
  obtain ⟨hp', ho⟩ := h.orders r p hp hd
  have hd' : s'.sideAt p ≠ d := by
    unfold sideAt at hd ⊢
    rwa [ho]
  obtain ⟨hp'', ho'⟩ := h'.orders r p hp' hd'
  exact ⟨hp'', ho'.trans ho⟩

theorem SideFrame.quote {d d' : Side} {s s' : OrderBook n} (h : SideFrame d s s') (hd : d' ≠ d) :
    s'.quote d' = s.quote d' := by
  unfold OrderBook.quote
  rw [h.sides d' hd]

/-! ## The building blocks -/

section Blocks

variable {s s' : OrderBook n}

theorem RemoveSpec.sideFrame {r : UInt64} {o : Fin n} (hr : s.orderMap.lookup r = some o)
    (hs : RemoveSpec s r o s') : SideFrame (s.sideAt o) s s' := by
  refine ⟨hs.other_side, fun r' p hp hd => ⟨?_, hs.other_orders p (mem_liveSet.mpr ⟨r', hp⟩) hd⟩⟩
  have hne : r' ≠ r := by
    rintro rfl
    rw [hr] at hp
    cases hp
    exact hd rfl
  rw [hs.orderMap, AList.lookup_erase_ne hne, hp]

theorem AddSpec.sideFrame {it : IterOrder n} {r : UInt64} {shares price : UInt32} {side : UInt8}
    {o : Fin n} (hr : s.orderMap.lookup r = none) (hs : AddSpec it s r shares price side o s') :
    SideFrame (sideOf side) s s' := by
  refine ⟨hs.other_side, fun r' p hp hd => ⟨?_, hs.other_orders p (mem_liveSet.mpr ⟨r', hp⟩) hd⟩⟩
  have hne : r' ≠ r := by
    rintro rfl
    rw [hr] at hp
    cases hp
  rw [hs.orderMap, AList.lookup_insert_ne hne, hp]

theorem ReduceSpec.sideFrame {o : Fin n} {qty : UInt32} (hs : ReduceSpec s o qty s') :
    SideFrame (s.sideAt o) s s' := by
  refine ⟨hs.other_side, fun r p hp hd => ⟨?_, hs.order_of_ne fun e => hd (by rw [e])⟩⟩
  rw [hs.orderMap, hp]

end Blocks

/-! ## One message -/

section Step

variable {b : Build} {s : OrderBook n} {a : NaiveBook} {d : Side}

theorem add_sideFrame (it : IterOrder n) (h : Rep s) (ha : Abs s a) {r : UInt64} {shares price : UInt32}
    (hw : WfEvent n a (.add r d.byte shares price)) :
    ∃ s', s.apply b it (.add r d.byte shares price) = .ok s' ∧ SideFrame d s s' := by
  by_cases hopen : s.isOpen = true
  · obtain ⟨hr, -, hprice, hsize⟩ := hw (ha.isOpen.trans hopen)
    have hside : d.byte = (sideOf d.byte).byte := by rw [sideOf_byte]
    obtain ⟨s', o, hs', hadd⟩ := h.add b it r shares (ha.lookup_none.mp hr) hside hprice
      (ha.exists_free hsize)
    refine ⟨s', ?_, ?_⟩
    · simp only [apply, addRef, hopen, Bool.not_true, Bool.false_eq_true, if_false, hs']
    · have hframe := hadd.sideFrame (ha.lookup_none.mp hr)
      rwa [sideOf_byte] at hframe
  · refine ⟨s, ?_, .refl d s⟩
    simp only [apply, addRef, Bool.eq_false_iff.mpr hopen, Bool.not_false, if_true]

variable {r : UInt64} {o : Fin n}

theorem reduce_sideFrame (it : IterOrder n) (hb : b = .debug → n < 2 ^ 32) (h : Rep s) (ha : Abs s a)
    {qty : UInt32} (hr : s.orderMap.lookup r = some o) (hi : InArray (s.tickOf o))
    (hw : WfEvent n a (.reduce r qty)) :
    ∃ s', s.apply b it (.reduce r qty) = .ok s' ∧ SideFrame (s.sideAt o) s s' := by
  obtain ⟨s₁, hs₁, hred⟩ := h.reduce hb hr hi (hw _ (ha.lookup_some hr))
  by_cases hz : (s₁.order o).shares = 0
  · have hr₁ : s₁.orderMap.lookup r = some o := by rw [hred.orderMap]; exact hr
    obtain ⟨s₂, hs₂, hrem⟩ := hred.rep.remove hb hr₁ (by rw [hred.tickOf_self]; exact hi)
    have hat : s₁.sideAt o = s.sideAt o := by
      unfold sideAt
      rw [hred.order_self]
    refine ⟨s₂.eraseFree r o, ?_, hred.sideFrame.trans (hat ▸ hrem.sideFrame hr₁)⟩
    simp only [apply, reduceBy, hr, hs₁, ok_bind, hz, if_true, hs₂]
  · refine ⟨s₁, ?_, hred.sideFrame⟩
    simp only [apply, reduceBy, hr, hs₁, ok_bind, hz, if_false]

theorem delete_sideFrame (it : IterOrder n) (hb : b = .debug → n < 2 ^ 32) (h : Rep s)
    (hr : s.orderMap.lookup r = some o) (hi : InArray (s.tickOf o)) :
    ∃ s', s.apply b it (.delete r) = .ok s' ∧ SideFrame (s.sideAt o) s s' := by
  obtain ⟨s₁, hs₁, hrem⟩ := h.remove hb hr hi
  refine ⟨_, ?_, hrem.sideFrame hr⟩
  simp only [apply, deleteRef, hr, hs₁]
  rfl

/-- The replacing order goes to the side of the replaced one. -/
theorem replace_sideFrame (it : IterOrder n) (hb : b = .debug → n < 2 ^ 32) (h : Rep s) (ha : Abs s a)
    {r' : UInt64} {shares price : UInt32} (hr : s.orderMap.lookup r = some o)
    (hi : InArray (s.tickOf o)) (hw : WfEvent n a (.replace r r' shares price)) :
    ∃ s', s.apply b it (.replace r r' shares price) = .ok s' ∧ SideFrame (s.sideAt o) s s' := by
  have hlook := ha.lookup_some hr
  obtain ⟨hnew, hprice⟩ := hw (by rw [hlook]; rfl)
  obtain ⟨s₁, hs₁, hrem⟩ := h.remove hb hr hi
  have hnone : (s₁.eraseFree r o).orderMap.lookup r' = none :=
    (hrem.abs h ha hr).lookup_none.mp hnew
  have hbyte : (s.order o).side = (sideOf (s.order o).side).byte :=
    h.linked.side_byte o (mem_liveSet.mpr ⟨r, hr⟩)
  have hfree : ∃ p, p ∉ (s₁.eraseFree r o).liveSet :=
    ⟨o, by rw [hrem.liveSet]; exact fun hm => hm.2 rfl⟩
  obtain ⟨s', o', hs', hadd⟩ := hrem.rep.add b it r' shares hnone hbyte hprice hfree
  refine ⟨s', ?_, (hrem.sideFrame hr).trans (hadd.sideFrame hnone)⟩
  simp only [apply, replaceRef, hr, hs₁, ok_bind, hs']

/-- **One message about side `d`** returns and leaves the other side alone. -/
theorem Rep.sideFrame {e : Event} (it : IterOrder n) (hb : b = .debug → n < 2 ^ 32) (h : Rep s)
    (ha : Abs s a) (hw : WfEvent n a e) (hc : s.Concerns d e) :
    ∃ s', s.apply b it e = .ok s' ∧ SideFrame d s s' := by
  rcases hc with ⟨ref, shares, price, rfl⟩ | ⟨r, p, ht, hp, rfl, hidx⟩
  · exact add_sideFrame it h ha hw
  · have hi := (h.linked.levelIdx_nonneg (mem_liveSet.mpr ⟨r, hp⟩)).mp hidx
    cases e with
    | reduce r' qty => cases ht; exact reduce_sideFrame it hb h ha hp hi hw
    | delete r' => cases ht; exact delete_sideFrame it hb h hp hi
    | replace r' newRef shares price => cases ht; exact replace_sideFrame it hb h ha hp hi hw
    | system code => cases ht
    | add r' side shares price => cases ht
    | ignore => cases ht

end Step

/-! ## After any run -/

/-- **Side isolation.** After a well-formed feed, a well-formed message about side `d` returns, and leaves
the levels, the best index, the reference price and the quote of the other side and every field of its
live orders as they were. -/
theorem side_isolation (b : Build) (feed : List (Input n)) (hw : WellFormed feed) {s : OrderBook n}
    (hs : (OrderBook.init n).replay b feed = .ok s) (x : Input n)
    (hx : WfEvent n (NaiveBook.init.replay feed) x.1.event) (d : Side) (hc : s.Concerns d x.1.event) :
    ((b = .debug → n < 2 ^ 32) → ∃ s', s.dispatch b x.2 x.1 = .ok s') ∧
    ∀ s', s.dispatch b x.2 x.1 = .ok s' → ∀ d', d' ≠ d →
      s'.sides d' = s.sides d' ∧ s'.quote d' = s.quote d' ∧
      ∀ r p, s.orderMap.lookup r = some p → s.sideAt p = d' →
        s'.orderMap.lookup r = some p ∧ s'.order p = s.order p := by
  have hsim := sim_init.of_replay hw hs
  rw [NaiveBook.init_replay] at hx
  refine ⟨fun hb => ?_, fun s' hs' d' hd => ?_⟩
  · obtain ⟨s', hs', -⟩ := hsim.rep.sideFrame x.2 hb hsim.abs hx hc
    exact ⟨s', by rw [dispatch_eq_apply, hs']⟩
  · -- A release build does the same.
    have hrel := dispatch_covers b x.2 s x.1 s' hs'
    obtain ⟨s₁, hs₁, hframe⟩ := hsim.rep.sideFrame (b := .release) x.2 nofun hsim.abs hx hc
    rw [dispatch_eq_apply, hs₁] at hrel
    cases hrel
    refine ⟨hframe.sides d' hd, hframe.quote hd, fun r p hp hat => hframe.orders r p hp ?_⟩
    rw [hat]
    exact hd

/-- A bid and an ask. -/
def bidAndAsk : List (Input 3) :=
  [(sysMsg 'O'.toUInt8, .newest 3), (addMsg 1 'B'.toUInt8 10 100, .newest 3),
    (addMsg 2 'S'.toUInt8 7 200, .newest 3)]

/-- A better bid, which re-centres the bids. -/
def betterBid : Input 3 := (addMsg 3 'B'.toUInt8 5 101, .oldest 3)

theorem wellFormed_bidAndAsk : WellFormed bidAndAsk := by
  refine ⟨trivial, fun _ => ⟨rfl, .inl rfl, ⟨?_, ?_⟩, ?_⟩, fun _ => ⟨rfl, .inr rfl, ⟨?_, ?_⟩, ?_⟩,
    trivial⟩ <;> decide

theorem side_isolation_bidAndAsk : ∃ s s', (OrderBook.init 3).replay .debug bidAndAsk = .ok s ∧
    s.dispatch .debug betterBid.2 betterBid.1 = .ok s' ∧
    s'.sides .ask = s.sides .ask ∧ s'.quote .ask = s.quote .ask := by
  obtain ⟨s, hs⟩ : ∃ s, (OrderBook.init 3).replay .debug bidAndAsk = .ok s := ⟨_, rfl⟩
  have hx : WfEvent 3 (NaiveBook.init.replay bidAndAsk) betterBid.1.event := by
    refine fun _ => ⟨rfl, .inl rfl, ⟨?_, ?_⟩, ?_⟩ <;> decide
  obtain ⟨hreturns, hframe⟩ := side_isolation .debug bidAndAsk wellFormed_bidAndAsk hs betterBid hx .bid
    (.inl ⟨3, 5, 101, rfl⟩)
  obtain ⟨s', hs'⟩ := hreturns (by decide)
  obtain ⟨hsides, hquote, -⟩ := hframe s' hs' .ask nofun
  exact ⟨s, s', hs, hs', hsides, hquote⟩

end OrderBook

end L2Book
