import L2Book.Book.Effects
import L2Book.Book.Halt

/-!
# Replicas

Two books that read the same feed while their hash tables iterate differently. Their lists differ after
the first re-centre; quote, references, reference prices and level totals agree.

* `SameBook`: two books agree on quote, count, references, reference prices and levels;
* `Replicas r s t`: both books represent `r` and have the same best indices; `Replicas.step`: every message
  keeps that;
* **`replay_replicas`**: the books agree after every message, and meet the first reference to an order
  outside the array at the same position.
-/

namespace L2Book

/-! ## The scan -/

theorem firstNonEmpty_congr {n : ℕ} {levels levels' : Fin kLevels → PriceLevel n}
    (h : ∀ i, (levels i).empty = (levels' i).empty) (k : ℕ) :
    firstNonEmpty levels k = firstNonEmpty levels' k := by
  fun_induction firstNonEmpty levels k with
  | case1 k hk hempty ih =>
    rw [ih, firstNonEmpty.eq_def levels' k, dif_pos hk, if_pos (h ⟨k, hk⟩ ▸ hempty)]
  | case2 k hk hempty =>
    rw [firstNonEmpty.eq_def levels' k, dif_pos hk, if_neg (h ⟨k, hk⟩ ▸ hempty)]
  | case3 k hk => rw [firstNonEmpty.eq_def levels' k, dif_neg hk]

namespace OrderBook

variable {n : ℕ}

/-! ## Two books for one naive book -/

/-- **Both books represent `r`** and have the same best indices. -/
structure Replicas (r : RefBook) (s t : OrderBook n) : Prop where
  left : Sim s r
  right : Sim t r
  best : ∀ d, (s.sides d).bestIdx = (t.sides d).bestIdx

theorem replicas_init : Replicas RefBook.init (OrderBook.init n) (OrderBook.init n) :=
  ⟨sim_init, sim_init, fun _ => rfl⟩

section Replicas

variable {r r' : RefBook} {s t s' t' : OrderBook n}

theorem Sim.ref_eq (hs : Sim s r) (ht : Sim t r) (d : Side) : (s.sides d).ref = (t.sides d).ref :=
  (hs.ref d).trans (ht.ref d).symm

theorem Sim.level_eq (hs : Sim s r) (ht : Sim t r) (d : Side) (i : Fin kLevels) :
    ((s.sides d).levels i).totalQty = ((t.sides d).levels i).totalQty ∧
      ((s.sides d).levels i).orderCount = ((t.sides d).levels i).orderCount := by
  have hlen : (s.queue d i).length = (t.queue d i).length := by
    have hls := (hs.resting_perm d i).length_eq
    have hlt := (ht.resting_perm d i).length_eq
    rw [List.length_map] at hls hlt
    rw [← hls, ← hlt, hs.ref_eq ht]
  refine ⟨?_, ?_⟩
  · rw [hs.totalQty_eq, ht.totalQty_eq, hs.ref_eq ht]
  · rw [(hs.rep.linked.level d i).count, (ht.rep.linked.level d i).count, hlen]

theorem Sim.empty_eq (hs : Sim s r) (ht : Sim t r) (d : Side) (i : Fin kLevels) :
    ((s.sides d).levels i).empty = ((t.sides d).levels i).empty := by
  unfold PriceLevel.empty
  rw [(hs.level_eq ht d i).2]

/-- A live order of one book has a counterpart in the other, with the same content and cached index. -/
theorem Sim.counterpart (hs : Sim s r) (ht : Sim t r) {ref : UInt64} {p : Fin n}
    (hp : s.orderMap.lookup ref = some p) :
    ∃ q, t.orderMap.lookup ref = some q ∧ (t.order q).view = (s.order p).view ∧
      (t.order q).levelIdx = (s.order p).levelIdx := by
  have hlook := hs.abs.lookup_some hp
  rw [ht.abs.lookup, Option.map_eq_some_iff] at hlook
  obtain ⟨q, hq, hview⟩ := hlook
  have hside : (t.order q).side = (s.order p).side := congrArg NaiveOrder.side hview
  have hprice : (t.order q).price = (s.order p).price := congrArg NaiveOrder.price hview
  have htick : t.tickOf q = s.tickOf p := by
    unfold tickOf sideAt
    rw [hside, hprice, hs.ref_eq ht]
  refine ⟨q, hq, hview, ?_⟩
  rw [ht.rep.linked.levelIdx q (mem_liveSet.mpr ⟨ref, hq⟩),
    hs.rep.linked.levelIdx p (mem_liveSet.mpr ⟨ref, hp⟩), htick]

theorem Sim.lookup_none_iff (hs : Sim s r) (ht : Sim t r) {ref : UInt64} :
    s.orderMap.lookup ref = none ↔ t.orderMap.lookup ref = none :=
  hs.abs.lookup_none.symm.trans ht.abs.lookup_none

theorem best_of_removeOrder {b : Build} {s₁ t₁ : OrderBook n} {p q : Fin n}
    (hs : s.removeOrder b p = .ok s₁) (ht : t.removeOrder b q = .ok t₁)
    (hbest : ∀ d, (s.sides d).bestIdx = (t.sides d).bestIdx) (hside : (t.order q).side = (s.order p).side)
    (hidx : (t.order q).levelIdx = (s.order p).levelIdx)
    (hempty : ∀ d i, ((s₁.sides d).levels i).empty = ((t₁.sides d).levels i).empty) (d : Side) :
    (s₁.sides d).bestIdx = (t₁.sides d).bestIdx := by
  obtain ⟨-, hother, i, hi, hb⟩ := removeOrder_ok hs
  obtain ⟨-, hother', i', hi', hb'⟩ := removeOrder_ok ht
  have hat : t.sideAt q = s.sideAt p := by rw [sideAt, sideAt, hside]
  rw [hidx, hi] at hi'
  cases hi'
  by_cases hd : d = s.sideAt p
  · rw [hd, hb, ← hat, hb', hidx, hbest, hempty, firstNonEmpty_congr (hempty (t.sideAt q))]
  · rw [hother d hd, hother' d (by rw [hat]; exact hd), hbest]

theorem best_of_addNew {b b' : Build} {it it' : IterOrder n} {ref : UInt64} {shares price : UInt32}
    {side : UInt8} (hs : s.addNew b it ref shares price side = .ok s')
    (ht : t.addNew b' it' ref shares price side = .ok t')
    (href : ∀ d, (s.sides d).ref = (t.sides d).ref)
    (hbest : ∀ d, (s.sides d).bestIdx = (t.sides d).bestIdx) (d : Side) :
    (s'.sides d).bestIdx = (t'.sides d).bestIdx := by
  obtain ⟨-, hother, hb⟩ := addNew_ok hs
  obtain ⟨-, hother', hb'⟩ := addNew_ok ht
  by_cases hd : d = sideOf side
  · subst hd
    rw [href, hbest, hb'] at hb
    exact (Except.ok.inj hb).symm
  · rw [hother d hd, hother' d hd, hbest]

theorem Sim.of_apply {it : IterOrder n} {e : Event} (h : Sim s r) (hw : WfEvent n r.book e)
    (hs : s.apply .release it e = .ok s') : Sim s' (r.step e) := by
  have hl := (step_ok_iff (b := .release) it nofun h.rep h.abs hw).mp ⟨s', hs⟩
  obtain ⟨s₁, hs₁, hspec⟩ := step_spec (b := .release) it nofun h.rep h.abs hw hl
  rw [hs] at hs₁
  cases hs₁
  exact h.of_stepSpec hspec

theorem Replicas.delete {ref : UInt64} (h : Replicas r s t) (hs : s.deleteRef .release ref = .ok s')
    (ht : t.deleteRef .release ref = .ok t') : Replicas (r.step (.delete ref)) s' t' := by
  obtain ⟨hl, hr, hbest⟩ := h
  have hw : WfEvent n r.book (.delete ref) := trivial
  have hsd : s.apply .release (.newest n) (.delete ref) = .ok s' := hs
  have htd : t.apply .release (.newest n) (.delete ref) = .ok t' := ht
  have hl' := hl.of_apply hw hsd
  have hr' := hr.of_apply hw htd
  refine ⟨hl', hr', ?_⟩
  have hempty := hl'.empty_eq hr'
  unfold deleteRef at hs ht
  cases hp : s.orderMap.lookup ref with
  | none =>
    simp only [hp, (hl.lookup_none_iff hr).mp hp] at hs ht
    cases hs
    cases ht
    exact hbest
  | some p =>
    obtain ⟨q, hq, hview, hidx⟩ := hl.counterpart hr hp
    simp only [hp] at hs
    simp only [hq] at ht
    obtain ⟨s₁, hs₁, hs⟩ := of_bind_eq_ok hs
    obtain ⟨t₁, ht₁, ht⟩ := of_bind_eq_ok ht
    cases hs
    cases ht
    have hremoved : ∀ d, (s₁.sides d).bestIdx = (t₁.sides d).bestIdx :=
      best_of_removeOrder hs₁ ht₁ hbest (congrArg NaiveOrder.side hview) hidx hempty
    exact hremoved

theorem best_of_reduceBy {ref : UInt64} {qty : UInt32} (h : Replicas r s t)
    (hs : s.reduceBy .release ref qty = .ok s') (ht : t.reduceBy .release ref qty = .ok t')
    (hempty : ∀ d i, ((s'.sides d).levels i).empty = ((t'.sides d).levels i).empty) (d : Side) :
    (s'.sides d).bestIdx = (t'.sides d).bestIdx := by
  obtain ⟨hl, hr, hbest⟩ := h
  unfold reduceBy at hs ht
  cases hp : s.orderMap.lookup ref with
  | none =>
    simp only [hp, (hl.lookup_none_iff hr).mp hp] at hs ht
    cases hs
    cases ht
    exact hbest d
  | some p =>
    obtain ⟨q, hq, hview, hidx⟩ := hl.counterpart hr hp
    simp only [hp] at hs
    simp only [hq] at ht
    obtain ⟨s₁, hs₁, hs⟩ := of_bind_eq_ok hs
    obtain ⟨t₁, ht₁, ht⟩ := of_bind_eq_ok ht
    obtain ⟨-, hordp, hbests⟩ := reduceShares_ok hs₁
    obtain ⟨-, hordq, hbestt⟩ := reduceShares_ok ht₁
    have hshares : (t₁.order q).shares = (s₁.order p).shares := by
      rw [hordp, hordq]
      exact congrArg (fun o => o.shares - qty) hview
    have hbest₁ : ∀ d, (s₁.sides d).bestIdx = (t₁.sides d).bestIdx := fun d => by
      rw [hbests, hbestt, hbest]
    rw [hshares] at ht
    split_ifs at hs ht with hz
    · obtain ⟨s₂, hs₂, hs⟩ := of_bind_eq_ok hs
      obtain ⟨t₂, ht₂, ht⟩ := of_bind_eq_ok ht
      cases hs
      cases ht
      have hremoved : ∀ d, (s₂.sides d).bestIdx = (t₂.sides d).bestIdx := by
        refine best_of_removeOrder hs₂ ht₂ hbest₁ ?_ ?_ hempty
        · rw [hordp, hordq]
          exact congrArg NaiveOrder.side hview
        · rw [hordp, hordq]
          exact hidx
      exact hremoved d
    · cases hs
      cases ht
      exact hbest₁ d

/-- **One message** handled by both books. -/
theorem Replicas.step {it it' : IterOrder n} {e : Event} (h : Replicas r s t) (hw : WfEvent n r.book e)
    (hs : s.apply .release it e = .ok s') (ht : t.apply .release it' e = .ok t') :
    Replicas (r.step e) s' t' := by
  have hl' := h.left.of_apply hw hs
  have hr' := h.right.of_apply hw ht
  refine ⟨hl', hr', ?_⟩
  have hopen : s.isOpen = t.isOpen := h.left.abs.isOpen.symm.trans h.right.abs.isOpen
  cases e with
  | system code =>
    simp only [apply] at hs ht
    cases hs
    cases ht
    intro d
    split_ifs
    · exact h.best d
    · exact h.best d
    · rw [halt_eq, halt_eq]
    · exact h.best d
  | add ref side shares price =>
    simp only [apply, addRef] at hs ht
    rw [← hopen] at ht
    split_ifs at hs ht
    · cases hs
      cases ht
      exact h.best
    · exact best_of_addNew hs ht (h.left.ref_eq h.right) h.best
  | ignore =>
    cases hs
    cases ht
    exact h.best
  | delete ref => exact (h.delete hs ht).best
  | reduce ref qty => exact best_of_reduceBy h hs ht (hl'.empty_eq hr')
  | replace ref newRef shares price =>
    simp only [apply] at hs ht
    cases hp : s.orderMap.lookup ref with
    | none =>
      simp only [replaceRef, hp, (h.left.lookup_none_iff h.right).mp hp] at hs ht
      cases hs
      cases ht
      exact h.best
    | some p =>
      obtain ⟨q, hq, hview, -⟩ := h.left.counterpart h.right hp
      obtain ⟨s₁, hs₁, hs⟩ := deleteRef_of_replaceRef hp hs
      obtain ⟨t₁, ht₁, ht⟩ := deleteRef_of_replaceRef hq ht
      have hside : (t.order q).side = (s.order p).side := congrArg NaiveOrder.side hview
      rw [hside] at ht
      have h₁ := h.delete hs₁ ht₁
      exact best_of_addNew hs ht (h₁.left.ref_eq h₁.right) h₁.best

theorem Replicas.of_dispatch {b : Build} {x : Twin n} (h : Replicas r s t)
    (hw : WfEvent n r.book x.1.event) (hs : s.dispatch b x.2.1 x.1 = .ok s')
    (ht : t.dispatch b x.2.2 x.1 = .ok t') : Replicas (r.step x.1.event) s' t' := by
  have hs' := dispatch_covers b x.2.1 s x.1 s' hs
  have ht' := dispatch_covers b x.2.2 t x.1 t' ht
  rw [dispatch_eq_apply] at hs' ht'
  exact h.step hw hs' ht'

/-! ## What a reader sees -/

/-- **Two books agree** in `best_bid_offer`, `order_count` and `has_order`, in the reference prices and in the
totals and counters of the levels. -/
structure SameBook (s t : OrderBook n) : Prop where
  bbo : s.bestBidOffer = t.bestBidOffer
  orderCount : s.orderCount = t.orderCount
  hasOrder : ∀ ref, s.hasOrder ref = t.hasOrder ref
  ref : ∀ d, (s.sides d).ref = (t.sides d).ref
  level : ∀ d i, ((s.sides d).levels i).totalQty = ((t.sides d).levels i).totalQty ∧
    ((s.sides d).levels i).orderCount = ((t.sides d).levels i).orderCount

theorem Replicas.quote_eq (h : Replicas r s t) (d : Side) : s.quote d = t.quote d := by
  have href := h.left.ref_eq h.right d
  have hqty := fun i => (h.left.level_eq h.right d i).1
  unfold quote
  simp only [h.best d, href]
  by_cases hpos : (t.sides d).bestIdx ≥ 0
  · rw [if_pos hpos, if_pos hpos]
    cases hi : levelAt (t.sides d).bestIdx with
    | error f => rfl
    | ok i => rw [ok_bind, ok_bind, hqty]
  · rw [if_neg hpos, if_neg hpos]

theorem Replicas.sameBook (h : Replicas r s t) : SameBook s t where
  bbo := by
    unfold bestBidOffer
    rw [h.quote_eq, h.quote_eq]
  orderCount := h.left.abs.size_eq.symm.trans h.right.abs.size_eq
  hasOrder ref := by
    have hs : s.hasOrder ref = (r.book.orders.lookup ref).isSome := by
      rw [hasOrder, h.left.abs.lookup, Option.isSome_map]
    have ht : t.hasOrder ref = (r.book.orders.lookup ref).isSome := by
      rw [hasOrder, h.right.abs.lookup, Option.isSome_map]
    rw [hs, ht]
  ref := h.left.ref_eq h.right
  level := h.left.level_eq h.right

theorem Replicas.refersLinked_iff (h : Replicas r s t) (e : Event) :
    s.RefersLinked e ↔ t.RefersLinked e :=
  (h.left.refersLinked_iff e).trans (h.right.refersLinked_iff e).symm

end Replicas

/-! ## Two runs -/

theorem Replicas.replay {b : Build} {feed : List (Twin n)} {r : RefBook} {s t s' t' : OrderBook n}
    (h : Replicas r s t) (hw : WellFormedFrom r.book (feed.map Twin.left))
    (hs : s.replay b (feed.map Twin.left) = .ok s') (ht : t.replay b (feed.map Twin.right) = .ok t') :
    Replicas (r.replay (feed.map Twin.left)) s' t' := by
  induction feed generalizing r s t with
  | nil =>
    cases hs
    cases ht
    exact h
  | cons x feed ih =>
    unfold OrderBook.replay at hs ht
    rw [List.map_cons, run_cons] at hs ht
    obtain ⟨s₁, hs₁, hs⟩ := of_bind_eq_ok hs
    obtain ⟨t₁, ht₁, ht⟩ := of_bind_eq_ok ht
    exact ih (h.of_dispatch hw.1 hs₁ ht₁) hw.2 hs ht

/-- A condition on the messages does not see the iteration orders. -/
theorem guided_left_iff_right {α : Type} (astep : α → ParsedMessage → α) (W : α → ParsedMessage → Prop)
    (a : α) (c : List (Twin n)) :
    Guided (fun a (x : Input n) => astep a x.1) (fun a x => W a x.1) a (c.map Twin.left) ↔
      Guided (fun a (x : Input n) => astep a x.1) (fun a x => W a x.1) a (c.map Twin.right) := by
  induction c generalizing a with
  | nil => exact Iff.rfl
  | cons x c ih => exact and_congr_right fun _ => ih _

/-- **Replay does not depend on the iteration order of the hash table.** Two books read a well-formed feed
with independent iteration orders. After every message that both have handled they agree, and their next
message refers to an order outside the array of one exactly if it does for the other; up to such a
reference both runs return. -/
theorem replay_replicas (b : Build) (feed : List (Twin n)) (hw : WellFormed (feed.map Twin.left))
    (c : List (Twin n)) (hc : c <+: feed) :
    (∀ s t, (OrderBook.init n).replay b (c.map Twin.left) = .ok s →
      (OrderBook.init n).replay b (c.map Twin.right) = .ok t →
      SameBook s t ∧ ∀ e, s.RefersLinked e ↔ t.RefersLinked e) ∧
    ((b = .debug → n < 2 ^ 32) →
      (RefersLinkedAll b (OrderBook.init n) (c.map Twin.left) ↔
        RefersLinkedAll b (OrderBook.init n) (c.map Twin.right)) ∧
      (RefersLinkedAll b (OrderBook.init n) (c.map Twin.left) →
        ∃ s t, (OrderBook.init n).replay b (c.map Twin.left) = .ok s ∧
          (OrderBook.init n).replay b (c.map Twin.right) = .ok t)) := by
  obtain ⟨rest, rfl⟩ := hc
  have hwl : WellFormed (c.map Twin.left) := by
    refine Guided.of_isPrefix hw ⟨rest.map Twin.left, ?_⟩
    rw [List.map_append]
  have hwr : WellFormed (c.map Twin.right) :=
    (guided_left_iff_right (fun a m => NaiveBook.step a m.event) (fun a m => WfEvent n a m.event)
      NaiveBook.init c).mp hwl
  refine ⟨fun s t hs ht => ?_, fun hb => ?_⟩
  · have h := replicas_init.replay hwl hs ht
    exact ⟨h.sameBook, h.refersLinked_iff⟩
  · have hiff : RefersLinkedAll b (OrderBook.init n) (c.map Twin.left) ↔
        RefersLinkedAll b (OrderBook.init n) (c.map Twin.right) := by
      have hreach := guided_left_iff_right (fun r m => RefBook.step r m.event) (fun r m => r.Reaches m.event)
        RefBook.init c
      refine ⟨fun hl => sim_init.refersLinkedAll hwr (hreach.mp ?_),
        fun hr => sim_init.refersLinkedAll hwl (hreach.mpr ?_)⟩
      · exact sim_init.along_reaches hb hwl hl
      · exact sim_init.along_reaches hb hwr hr
    refine ⟨hiff, fun hl => ?_⟩
    obtain ⟨s, hs, -⟩ := sim_init.replay hb hwl hl
    obtain ⟨t, ht, -⟩ := sim_init.replay hb hwr (hiff.mp hl)
    exact ⟨s, t, hs, ht⟩

/-- Two bids at one price, and a better one: the re-centre lists the two in either order. -/
def sampleTwins : List (Twin 3) :=
  [(sysMsg 'O'.toUInt8, .newest 3, .oldest 3), (addMsg 1 'B'.toUInt8 10 100, .newest 3, .oldest 3),
    (addMsg 2 'B'.toUInt8 5 100, .newest 3, .oldest 3),
    (addMsg 3 'B'.toUInt8 7 101, .newest 3, .oldest 3)]

theorem replay_replicas_sampleTwins :
    ∃ s t, (OrderBook.init 3).replay .debug (sampleTwins.map Twin.left) = .ok s ∧
      (OrderBook.init 3).replay .debug (sampleTwins.map Twin.right) = .ok t ∧ SameBook s t := by
  have hw : WellFormed (sampleTwins.map Twin.left) := by
    refine ⟨trivial, fun _ => ⟨rfl, .inl rfl, ⟨?_, ?_⟩, ?_⟩, fun _ => ⟨rfl, .inl rfl, ⟨?_, ?_⟩, ?_⟩,
      fun _ => ⟨rfl, .inl rfl, ⟨?_, ?_⟩, ?_⟩, trivial⟩ <;> decide
  have hreach : RefBook.init.Along (fun r x => r.Reaches x.1.event) (sampleTwins.map Twin.left) :=
    ⟨nofun, nofun, nofun, nofun, trivial⟩
  obtain ⟨hsame, hreturns⟩ := replay_replicas .debug sampleTwins hw sampleTwins List.prefix_rfl
  obtain ⟨s, t, hs, ht⟩ := (hreturns (by decide)).2 (sim_init.refersLinkedAll hw hreach)
  exact ⟨s, t, hs, ht, (hsame s t hs ht).1⟩

end OrderBook

end L2Book
