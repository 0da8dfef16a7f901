import L2Book.Book.Window

/-!
# Trading halts

A halt empties the book but keeps its reference prices. The halted book and a fresh one are followed
through the same messages; their hash tables may iterate differently.

* `Twin`: a message with one iteration order for each book;
* `SameView`: two books agree in quote, count, references and session state;
* `SameReach`: a message moves the reference prices of both books to places from where the same live
  orders lie in the array; `SameHeld` is the invariant it preserves;
* **`halt_resets`**: the two books answer alike as long as every message meets `SameReach`;
  `halt_keeps_reference`: a continuation after which they do not.
-/

namespace L2Book

/-- A message together with the iteration orders of two hash tables. -/
abbrev Twin (n : ℕ) := ParsedMessage × IterOrder n × IterOrder n

namespace Twin

variable {n : ℕ}

def left (x : Twin n) : Input n := (x.1, x.2.1)

def right (x : Twin n) : Input n := (x.1, x.2.2)

end Twin

/-! ## Reference prices of two books -/

namespace RefBook

/-- The array of both books holds the same live orders. -/
structure SameHeld (r₁ r₂ : RefBook) : Prop where
  book : r₂.book = r₁.book
  holds : ∀ ref o, r₁.book.orders.lookup ref = some o → (r₁.Holds o ↔ r₂.Holds o)

/-- If the event inserts an order, the live orders of its side lie in the array of one book exactly when
they lie in that of the other, at the reference prices that the insertion leaves. -/
def SameReach (r₁ r₂ : RefBook) (e : Event) : Prop :=
  ∀ ref d price, r₁.book.inserts e = some (ref, d, price) →
    ∀ ref' o, e.target ≠ some ref' → r₁.book.orders.lookup ref' = some o → sideOf o.side = d →
      (InArray (tick d (nextRef d (r₁.ref d) price) o.price) ↔
        InArray (tick d (nextRef d (r₂.ref d) price) o.price))

section SameHeld

variable {r₁ r₂ : RefBook}

theorem SameHeld.step {e : Event} (h : SameHeld r₁ r₂) (he : SameReach r₁ r₂ e) :
    SameHeld (r₁.step e) (r₂.step e) := by
  have hbook : (r₂.step e).book = (r₁.step e).book := congrArg (NaiveBook.step · e) h.book
  refine ⟨hbook, fun ref o ho => ?_⟩
  have href₁ : ∀ d, (r₁.step e).ref d = refAfter r₁.book e d (r₁.ref d) := fun _ => rfl
  have href₂ : ∀ d, (r₂.step e).ref d = refAfter r₁.book e d (r₂.ref d) := fun d => by
    rw [← h.book]
    rfl
  unfold Holds
  rw [href₁, href₂]
  rcases NaiveBook.lookup_step ho with hins | ⟨o', ho', hside, hprice, hne⟩
  · rw [refAfter_of_inserts hins, refAfter_of_inserts hins, if_pos rfl, if_pos rfl]
    exact ⟨fun _ => inArray_nextRef _ _ _, fun _ => inArray_nextRef _ _ _⟩
  · have hold := h.holds ref o' ho'
    unfold Holds at hold
    rw [hside, hprice] at hold
    cases hins : r₁.book.inserts e with
    | none =>
      rw [refAfter_of_quiet hins, refAfter_of_quiet hins]
      exact hold
    | some i =>
      obtain ⟨ref₀, d, price⟩ := i
      rw [refAfter_of_inserts hins, refAfter_of_inserts hins]
      by_cases hd : sideOf o.side = d
      · rw [if_pos hd, if_pos hd]
        have := he ref₀ d price hins ref o' (hne (by rw [hins]; nofun)) ho' (by rw [hside]; exact hd)
        rw [hprice] at this
        rw [hd]
        exact this
      · rw [if_neg hd, if_neg hd]
        exact hold

theorem SameHeld.reaches_iff (h : SameHeld r₁ r₂) (e : Event) : r₁.Reaches e ↔ r₂.Reaches e := by
  unfold Reaches
  rw [h.book]
  exact forall_congr' fun ref => forall_congr' fun o => forall_congr' fun _ =>
    forall_congr' fun ho => h.holds ref o ho

theorem SameHeld.heldPrices_eq (h : SameHeld r₁ r₂) (d : Side) :
    r₁.heldPrices d = r₂.heldPrices d := by
  ext price
  constructor
  · rintro ⟨ref, o, ho, hd, hp, hh⟩
    exact ⟨ref, o, by rw [h.book]; exact ho, hd, hp, (h.holds ref o ho).mp hh⟩
  · rintro ⟨ref, o, ho, hd, hp, hh⟩
    rw [h.book] at ho
    exact ⟨ref, o, ho, hd, hp, (h.holds ref o ho).mpr hh⟩

end SameHeld

end RefBook

namespace OrderBook

variable {n : ℕ}

/-! ## What two books show -/

/-- **Two books agree** in `best_bid_offer`, `order_count`, `has_order` and `is_open`. -/
structure SameView (s t : OrderBook n) : Prop where
  bbo : s.bestBidOffer = t.bestBidOffer
  orderCount : s.orderCount = t.orderCount
  hasOrder : ∀ r, s.hasOrder r = t.hasOrder r
  isOpen : s.isOpen = t.isOpen

section Twins

variable {s t : OrderBook n} {r₁ r₂ : RefBook}

theorem Sim.quote_congr (hs : Sim s r₁) (ht : Sim t r₂) (hn : n < 2 ^ 32)
    (hh : RefBook.SameHeld r₁ r₂) (d : Side) : s.quote d = t.quote d := by
  obtain ⟨p, v, hq, hspec⟩ := hs.quote_eq hn d
  obtain ⟨p', v', hq', hspec'⟩ := ht.quote_eq hn d
  rw [← hh.heldPrices_eq, hh.book] at hspec'
  rw [hq, hq']
  rcases hspec with ⟨he, rfl, rfl⟩ | ⟨hbest, hv⟩ <;> rcases hspec' with ⟨he', rfl, rfl⟩ | ⟨hbest', hv'⟩
  · rfl
  · have := hbest'.mem
    rw [he] at this
    cases this
  · have := hbest.mem
    rw [he'] at this
    cases this
  · obtain rfl := hbest.unique hbest'
    have : v = v' := UInt32.toNat_inj.mp (hv.trans hv'.symm)
    rw [this]

theorem Sim.sameView (hs : Sim s r₁) (ht : Sim t r₂) (hn : n < 2 ^ 32)
    (hh : RefBook.SameHeld r₁ r₂) : SameView s t := by
  have habs : Abs t r₁.book := hh.book ▸ ht.abs
  refine ⟨?_, ?_, fun r => ?_, ?_⟩
  · unfold bestBidOffer
    rw [hs.quote_congr ht hn hh, hs.quote_congr ht hn hh]
  · rw [← hs.abs.size_eq, ← habs.size_eq]
  · have h₁ : s.hasOrder r = (r₁.book.orders.lookup r).isSome := by
      rw [OrderBook.hasOrder, hs.abs.lookup, Option.isSome_map]
    have h₂ : t.hasOrder r = (r₁.book.orders.lookup r).isSome := by
      rw [OrderBook.hasOrder, habs.lookup, Option.isSome_map]
    rw [h₁, h₂]
  · rw [← hs.abs.isOpen, ← habs.isOpen]

/-- The relation that two books keep while they read the same messages. -/
def Twins (p : RefBook × RefBook) (s t : OrderBook n) : Prop :=
  Sim s p.1 ∧ Sim t p.2 ∧ RefBook.SameHeld p.1 p.2

theorem Twins.step {b : Build} {x : Twin n} (hn : n < 2 ^ 32) (h : Twins (r₁, r₂) s t)
    (hw : WfEvent n r₁.book x.1.event) (hx : RefBook.SameReach r₁ r₂ x.1.event) :
    Together (Twins (r₁.step x.1.event, r₂.step x.1.event)) (s.dispatch b x.2.1 x.1)
      (t.dispatch b x.2.2 x.1) := by
  obtain ⟨hs, ht, hh⟩ := h
  have hw' : WfEvent n r₂.book x.1.event := by rw [hh.book]; exact hw
  have hok₁ := step_ok_iff (b := b) x.2.1 (fun _ => hn) hs.rep hs.abs hw
  have hok₂ := step_ok_iff (b := b) x.2.2 (fun _ => hn) ht.rep ht.abs hw'
  rw [← dispatch_eq_apply, hs.refersLinked_iff] at hok₁
  rw [← dispatch_eq_apply, ht.refersLinked_iff, ← hh.reaches_iff] at hok₂
  cases hd₁ : s.dispatch b x.2.1 x.1 with
  | error e₁ =>
    cases hd₂ : t.dispatch b x.2.2 x.1 with
    | error e₂ => trivial
    | ok t' =>
      obtain ⟨s', hs'⟩ := hok₁.mpr (hok₂.mp ⟨t', hd₂⟩)
      rw [hd₁] at hs'
      cases hs'
  | ok s' =>
    obtain ⟨t', hd₂⟩ := hok₂.mpr (hok₁.mp ⟨s', hd₁⟩)
    rw [hd₂]
    have hs' := hs.of_dispatch_ok (x := x.left) hw hd₁
    have ht' := ht.of_dispatch_ok (x := x.right) hw' hd₂
    exact ⟨hs', ht', hh.step hx⟩

end Twins

/-! ## After a halt -/

/-- The reference prices of both books meet `SameReach` at every message. -/
def SameReachAll (p : RefBook × RefBook) (cont : List (Twin n)) : Prop :=
  Guided (fun p x => (p.1.step x.1.event, p.2.step x.1.event))
    (fun p x => RefBook.SameReach p.1 p.2 x.1.event) p cont

theorem Twins.replay {b : Build} {s t : OrderBook n} {p : RefBook × RefBook} {cont : List (Twin n)}
    (hn : n < 2 ^ 32) (h : Twins p s t) (hw : WellFormedFrom p.1.book (cont.map Twin.left))
    (hc : SameReachAll p cont) :
    Together SameView (s.replay b (cont.map Twin.left)) (t.replay b (cont.map Twin.right)) := by
  have hw' : Guided (fun (p : RefBook × RefBook) (x : Twin n) =>
      (p.1.step x.1.event, p.2.step x.1.event)) (fun p x => WfEvent n p.1.book x.1.event) p cont := by
    refine (Guided.comap (V := fun a x => WfEvent n a x.1.event)
      (fun p : RefBook × RefBook => p.1.book) ?_ p cont).mpr ((Guided.map Twin.left _ cont).mp hw)
    exact fun _ _ => rfl
  unfold OrderBook.replay
  rw [run_map, run_map]
  refine Together.mono (fun s' t' h' => h'.1.sameView h'.2.1 hn h'.2.2)
    (run_lockstep Twins (fun p s t x h hx => ?_) h (hw'.and hc))
  exact Twins.step hn h hx.1 hx.2

/-- A halt and the reopening after it. -/
def haltOpen (h o : SystemEventMsg) (it it' : IterOrder n) : List (Input n) :=
  [(.systemEvent { h with eventCode := 'H'.toUInt8 }, it),
    (.systemEvent { o with eventCode := 'O'.toUInt8 }, it')]

/-- The opening of a session. -/
def openOnly (o : SystemEventMsg) (it : IterOrder n) : List (Input n) :=
  [(.systemEvent { o with eventCode := 'O'.toUInt8 }, it)]

theorem Sim.replay_haltOpen {b : Build} {s : OrderBook n} {r : RefBook} (hs : Sim s r)
    (hn : n < 2 ^ 32) (h o : SystemEventMsg) (it it' : IterOrder n) :
    ∃ s', s.replay b (haltOpen h o it it') = .ok s' ∧ Sim s' ⟨⟨∅, true⟩, r.ref⟩ := by
  have hw : WellFormedFrom r.book (haltOpen h o it it') := ⟨trivial, trivial, trivial⟩
  have hl : RefersLinkedAll b s (haltOpen h o it it') :=
    ⟨nofun, fun _ _ => ⟨nofun, fun _ _ => trivial⟩⟩
  exact hs.replay (fun _ => hn) hw hl

theorem replay_openOnly {b : Build} (hn : n < 2 ^ 32) (o : SystemEventMsg) (it : IterOrder n) :
    ∃ s, (OrderBook.init n).replay b (openOnly o it) = .ok s ∧ Sim s ⟨⟨∅, true⟩, fun _ => 0⟩ := by
  have hw : WellFormed (openOnly o it) := ⟨trivial, trivial⟩
  have hl : RefersLinkedAll b (OrderBook.init n) (openOnly o it) := ⟨nofun, fun _ _ => trivial⟩
  exact sim_init.replay (fun _ => hn) hw hl

/-- **A halt resets the book** for every continuation whose messages meet `SameReach`: the reopened book
and a fresh one handle each message together and answer alike after it. -/
theorem halt_resets (hn : n < 2 ^ 32) (b : Build) (pre : List (Input n)) (hw : WellFormed pre)
    {s : OrderBook n} (hs : (OrderBook.init n).replay b pre = .ok s) (h o o' : SystemEventMsg)
    (it₁ it₂ it₃ : IterOrder n) (cont : List (Twin n))
    (hc : WellFormedFrom ⟨∅, true⟩ (cont.map Twin.left))
    (hreach : SameReachAll (⟨⟨∅, true⟩, fun d => (s.sides d).ref⟩, ⟨⟨∅, true⟩, fun _ => 0⟩) cont) :
    ∃ s₁ t₁, s.replay b (haltOpen h o it₁ it₂) = .ok s₁ ∧
      (OrderBook.init n).replay b (openOnly o' it₃) = .ok t₁ ∧
      ∀ c, c <+: cont →
        Together SameView (s₁.replay b (c.map Twin.left)) (t₁.replay b (c.map Twin.right)) := by
  have hsim := sim_init.of_replay hw hs
  obtain ⟨s₁, hs₁, hsim₁⟩ := hsim.replay_haltOpen (b := b) hn h o it₁ it₂
  obtain ⟨t₁, ht₁, hsim₂⟩ := replay_openOnly (b := b) hn o' it₃
  refine ⟨s₁, t₁, hs₁, ht₁, fun c hpre => ?_⟩
  have href : (fun d => (s.sides d).ref) = (RefBook.init.replay pre).ref := funext hsim.ref
  rw [href] at hreach
  have htwins : Twins (⟨⟨∅, true⟩, (RefBook.init.replay pre).ref⟩, ⟨⟨∅, true⟩, fun _ => 0⟩) s₁ t₁ :=
    ⟨hsim₁, hsim₂, rfl, nofun⟩
  refine htwins.replay hn (Guided.of_isPrefix hc ?_) (Guided.of_isPrefix hreach hpre)
  obtain ⟨rest, rfl⟩ := hpre
  exact ⟨rest.map Twin.left, by rw [List.map_append]⟩

/-- Any system event. -/
def plainEvent : SystemEventMsg := ⟨'S'.toUInt8, 0, 0, .replicate 6 0, 0⟩

/-- A bid before the halt. -/
def bidBefore (price : UInt32) : List (Input 2) :=
  [(sysMsg 'O'.toUInt8, .newest 2), (addMsg 1 'B'.toUInt8 10 price, .newest 2)]

/-- Two bids after it. -/
def bidsAfter (price price' : UInt32) : List (Twin 2) :=
  [(addMsg 2 'B'.toUInt8 10 price, .newest 2, .oldest 2),
    (addMsg 3 'B'.toUInt8 10 price', .newest 2, .oldest 2)]

theorem halt_resets_near_bids : ∃ s s₁ t₁, (OrderBook.init 2).replay .debug (bidBefore 100) = .ok s ∧
    s.replay .debug (haltOpen plainEvent plainEvent (.newest 2) (.newest 2)) = .ok s₁ ∧
    (OrderBook.init 2).replay .debug (openOnly plainEvent (.newest 2)) = .ok t₁ ∧
    Together SameView (s₁.replay .debug ((bidsAfter 99 98).map Twin.left))
      (t₁.replay .debug ((bidsAfter 99 98).map Twin.right)) := by
  have hw : WellFormed (bidBefore 100) := by
    refine ⟨trivial, fun _ => ⟨rfl, .inl rfl, ⟨?_, ?_⟩, ?_⟩, trivial⟩ <;> decide
  have hc : WellFormedFrom ⟨∅, true⟩ ((bidsAfter 99 98).map Twin.left) := by
    refine ⟨fun _ => ⟨rfl, .inl rfl, ⟨?_, ?_⟩, ?_⟩, fun _ => ⟨rfl, .inl rfl, ⟨?_, ?_⟩, ?_⟩,
      trivial⟩ <;> decide
  obtain ⟨s, hs, href⟩ : ∃ s, (OrderBook.init 2).replay .debug (bidBefore 100) = .ok s ∧
      ∀ d, (s.sides d).ref = if d = .bid then 100 else 0 :=
    ⟨_, rfl, fun d => by cases d <;> rfl⟩
  have hreach : SameReachAll (⟨⟨∅, true⟩, fun d => (s.sides d).ref⟩, ⟨⟨∅, true⟩, fun _ => 0⟩)
      (bidsAfter 99 98) := by
    rw [funext href]
    refine ⟨nofun, fun ref d price hins ref' o _ ho _ => ?_, trivial⟩
    cases hins
    have hlive : o = ⟨'B'.toUInt8, 99, 10⟩ := by
      change (AList.insert (β := fun _ : UInt64 => NaiveOrder) 2 ⟨'B'.toUInt8, 99, 10⟩ ∅).lookup ref' =
        some o at ho
      by_cases e : ref' = 2
      · subst e
        rw [AList.lookup_insert] at ho
        exact (Option.some.inj ho).symm
      · rw [AList.lookup_insert_ne e] at ho
        cases ho
    subst hlive
    decide
  obtain ⟨s₁, t₁, hs₁, ht₁, hview⟩ := halt_resets (by decide) .debug (bidBefore 100) hw hs plainEvent
    plainEvent plainEvent (.newest 2) (.newest 2) (.newest 2) (bidsAfter 99 98) hc hreach
  exact ⟨s, s₁, t₁, hs, hs₁, ht₁, hview _ List.prefix_rfl⟩

/-- The reopened book re-centres where the fresh one does not, and drops the better bid. -/
theorem halt_keeps_reference : WellFormed (bidBefore 10000) ∧
    WellFormedFrom ⟨∅, true⟩ ((bidsAfter 5000 1000).map Twin.left) ∧
    ∃ s s₁ t₁ s₂ t₂, (OrderBook.init 2).replay .debug (bidBefore 10000) = .ok s ∧
      s.replay .debug (haltOpen plainEvent plainEvent (.newest 2) (.newest 2)) = .ok s₁ ∧
      (OrderBook.init 2).replay .debug (openOnly plainEvent (.newest 2)) = .ok t₁ ∧
      s₁.replay .debug ((bidsAfter 5000 1000).map Twin.left) = .ok s₂ ∧
      t₁.replay .debug ((bidsAfter 5000 1000).map Twin.right) = .ok t₂ ∧
      s₂.bestBidOffer = .ok ⟨1000, 10, 0, 0⟩ ∧ t₂.bestBidOffer = .ok ⟨5000, 10, 0, 0⟩ := by
  refine ⟨?_, ?_, _, _, _, _, _, rfl, rfl, rfl, rfl, rfl, rfl, rfl⟩
  · refine ⟨trivial, fun _ => ⟨rfl, .inl rfl, ⟨?_, ?_⟩, ?_⟩, trivial⟩ <;> decide
  · refine ⟨fun _ => ⟨rfl, .inl rfl, ⟨?_, ?_⟩, ?_⟩, fun _ => ⟨rfl, .inl rfl, ⟨?_, ?_⟩, ?_⟩,
      trivial⟩ <;> decide

end OrderBook

end L2Book
