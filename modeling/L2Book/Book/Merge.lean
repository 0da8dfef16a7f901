import L2Book.Book.Analytics
import L2Book.Book.Contents

/-!
# Several symbols in one book

No handler reads `stock_locate`: a file with the orders of several symbols fills one book. `P` marks the
references of one symbol; a replacement keeps its order in its symbol.

* `Contents.restrict`: the orders of a symbol; `Event.ofSymbol`: the events that reach its own book;
  **`restrict_foldl`**: restricting commutes with runs;
* `entries_restrict`, `restingAt_merge`, `qtyAt_merge`: the orders are those of the two parts;
* `FeedOkFrom.restrict`: a book can follow the events of one symbol if it can follow all;
* `joinQuotes`, **`replay_merged`**: the book shows the better quote of the two, and their sum where they tie.
-/

namespace L2Book

/-! ## The events of a symbol -/

/-- The event belongs to the symbol with the references `P`; session events belong to all of them. -/
def Event.ofSymbol (P : UInt64 → Bool) : Event → Bool
  | .system _ => true
  | .add ref _ _ _ => P ref
  | .reduce ref _ => P ref
  | .delete ref => P ref
  | .replace oldRef _ _ _ => P oldRef
  | .ignore => false

/-- A replacement stays within its symbol. -/
def Event.Keeps (P : UInt64 → Bool) : Event → Prop
  | .replace oldRef newRef _ _ => P newRef = P oldRef
  | _ => True

/-- The references of the other symbols. -/
def others (P : UInt64 → Bool) (ref : UInt64) : Bool := !P ref

theorem Event.Keeps.others {P : UInt64 → Bool} {e : Event} (h : e.Keeps P) : e.Keeps (others P) := by
  cases e with
  | replace oldRef newRef shares price => exact congrArg (! ·) h
  | _ => trivial

namespace Contents

/-- The orders of a symbol. -/
def restrict (P : UInt64 → Bool) (c : Contents) : Contents :=
  ⟨fun ref => if P ref then c.order ref else none, c.isOpen⟩

theorem restrict_init (P : UInt64 → Bool) : init.restrict P = init := by
  ext1
  · funext ref
    exact ite_self none
  · rfl

theorem restrict_update {P : UInt64 → Bool} {c : Contents} {ref : UInt64} (h : P ref = true)
    (v : Option NaiveOrder) :
    restrict P { c with order := Function.update c.order ref v } =
      { restrict P c with order := Function.update (restrict P c).order ref v } := by
  ext1
  · funext r
    by_cases hr : r = ref
    · subst hr
      simp [restrict, h]
    · simp [restrict, Function.update_of_ne hr]
  · rfl

theorem restrict_update_of_not {P : UInt64 → Bool} {c : Contents} {ref : UInt64} (h : P ref = false)
    (v : Option NaiveOrder) :
    restrict P { c with order := Function.update c.order ref v } = restrict P c := by
  ext1
  · funext r
    by_cases hr : r = ref
    · subst hr
      simp [restrict, h]
    · simp [restrict, Function.update_of_ne hr]
  · rfl

/-- **An event of the symbol** acts on its orders alone. -/
theorem restrict_step {P : UInt64 → Bool} (c : Contents) {e : Event} (hk : e.Keeps P)
    (h : e.ofSymbol P = true) : (c.step e).restrict P = (c.restrict P).step e := by
  cases e with
  | system code =>
    simp only [step]
    split_ifs
    · rfl
    · rfl
    · exact restrict_init P
    · rfl
  | add ref side shares price =>
    have hopen : (c.restrict P).isOpen = c.isOpen := rfl
    simp only [step, hopen]
    split_ifs
    · exact restrict_update h _
    · rfl
  | reduce ref qty =>
    have horder : (c.restrict P).order ref = c.order ref := if_pos h
    simp only [step, horder]
    exact restrict_update h _
  | delete ref => exact restrict_update h _
  | replace oldRef newRef shares price =>
    have hnew : P newRef = true := Eq.trans hk h
    have horder : (c.restrict P).order oldRef = c.order oldRef := if_pos h
    simp only [step, horder]
    cases c.order oldRef with
    | none => rfl
    | some o =>
      have hold := restrict_update (c := c) h none
      have h' := restrict_update (c := { c with order := Function.update c.order oldRef none }) hnew
        (some ⟨o.side, price, shares⟩)
      rw [hold] at h'
      exact h'
  | ignore => cases h

theorem restrict_step_of_not {P : UInt64 → Bool} (c : Contents) {e : Event} (hk : e.Keeps P)
    (h : e.ofSymbol P = false) : (c.step e).restrict P = c.restrict P := by
  cases e with
  | system code => cases h
  | add ref side shares price =>
    simp only [step]
    split_ifs
    · exact restrict_update_of_not h _
    · rfl
  | reduce ref qty => exact restrict_update_of_not h _
  | delete ref => exact restrict_update_of_not h _
  | replace oldRef newRef shares price =>
    have hnew : P newRef = false := Eq.trans hk h
    simp only [step]
    cases c.order oldRef with
    | none => rfl
    | some o =>
      have h' := restrict_update_of_not (c := { c with order := Function.update c.order oldRef none }) hnew
        (some ⟨o.side, price, shares⟩)
      exact h'.trans (restrict_update_of_not h none)
  | ignore => rfl

theorem restrict_foldl {P : UInt64 → Bool} (c : Contents) {es : List Event} (hk : ∀ e ∈ es, e.Keeps P) :
    (es.foldl step c).restrict P = (es.filter (Event.ofSymbol P)).foldl step (c.restrict P) := by
  induction es generalizing c with
  | nil => rfl
  | cons e es ih =>
    have hke := hk e List.mem_cons_self
    rw [List.foldl_cons, ih _ fun e' he' => hk e' (List.mem_cons_of_mem _ he')]
    cases he : e.ofSymbol P with
    | true => rw [List.filter_cons_of_pos he, List.foldl_cons, restrict_step c hke he]
    | false => rw [List.filter_cons_of_neg (by simp [he]), restrict_step_of_not c hke he]

end Contents

/-! ## The naive books of the parts -/

namespace NaiveBook

variable {P : UInt64 → Bool} {a p q : NaiveBook}

theorem lookup_restrict (h : p.contents = a.contents.restrict P) (ref : UInt64) :
    p.orders.lookup ref = if P ref then a.orders.lookup ref else none :=
  congrFun (congrArg Contents.order h) ref

theorem lookup_of_symbol (h : p.contents = a.contents.restrict P) {ref : UInt64} (hr : P ref = true) :
    p.orders.lookup ref = a.orders.lookup ref := (lookup_restrict h ref).trans (if_pos hr)

theorem entries_restrict (h : p.contents = a.contents.restrict P) :
    p.orders.entries.Perm (a.orders.entries.filter fun e => P e.1) := by
  have hnd : (a.orders.entries.filter fun e => P e.1).NodupKeys :=
    a.orders.nodupKeys.sublist List.filter_sublist
  refine List.lookup_ext p.orders.nodupKeys hnd fun ref o => ?_
  have hl : o ∈ p.orders.entries.dlookup ref ↔ p.orders.lookup ref = some o := Iff.rfl
  have hm : (⟨ref, o⟩ : Σ _ : UInt64, NaiveOrder) ∈ a.orders.entries ↔ a.orders.lookup ref = some o :=
    AList.mem_lookup_iff.symm
  rw [hl, lookup_restrict h, List.mem_dlookup_iff hnd, List.mem_filter, hm]
  by_cases hr : P ref = true
  · simp [hr]
  · simp [hr]

/-- **The orders are those of the two parts.** -/
theorem entries_merge (hp : p.contents = a.contents.restrict P)
    (hq : q.contents = a.contents.restrict (others P)) :
    (p.orders.entries ++ q.orders.entries).Perm a.orders.entries :=
  ((entries_restrict hp).append (entries_restrict hq)).trans (List.filter_append_perm _ _)

theorem size_merge (hp : p.contents = a.contents.restrict P)
    (hq : q.contents = a.contents.restrict (others P)) : a.size = p.size + q.size := by
  have hlen := ((entries_merge hp hq).map Sigma.fst).length_eq
  rw [List.map_append, List.length_append] at hlen
  exact hlen.symm

theorem restingAt_merge (hp : p.contents = a.contents.restrict P)
    (hq : q.contents = a.contents.restrict (others P)) (d : Side) (price : UInt32) :
    (p.restingAt d price ++ q.restingAt d price).Perm (a.restingAt d price) := by
  have h := ((entries_merge hp hq).map (·.2)).filter fun o => sideOf o.side = d ∧ o.price = price
  rw [List.map_append, List.filter_append] at h
  exact h

theorem qtyAt_merge (hp : p.contents = a.contents.restrict P)
    (hq : q.contents = a.contents.restrict (others P)) (d : Side) (price : UInt32) :
    a.qtyAt d price = p.qtyAt d price + q.qtyAt d price := by
  have h := ((restingAt_merge hp hq d price).map fun o => o.shares.toNat).sum_eq
  rw [List.map_append, List.sum_append] at h
  exact h.symm

theorem prices_merge (hp : p.contents = a.contents.restrict P)
    (hq : q.contents = a.contents.restrict (others P)) (d : Side) :
    a.prices d = p.prices d ∪ q.prices d := by
  ext price
  constructor
  · rintro ⟨ref, o, ho, hd, hprice⟩
    cases hr : P ref with
    | true => exact .inl ⟨ref, o, (lookup_of_symbol hp hr).trans ho, hd, hprice⟩
    | false =>
      have hr' : others P ref = true := by rw [others, hr]; rfl
      exact .inr ⟨ref, o, (lookup_of_symbol hq hr').trans ho, hd, hprice⟩
  · rintro (⟨ref, o, ho, hd, hprice⟩ | ⟨ref, o, ho, hd, hprice⟩)
    · rw [lookup_restrict hp] at ho
      split_ifs at ho
      exact ⟨ref, o, ho, hd, hprice⟩
    · rw [lookup_restrict hq] at ho
      split_ifs at ho
      exact ⟨ref, o, ho, hd, hprice⟩

theorem size_le_of_restrict (h : p.contents = a.contents.restrict P) : p.size ≤ a.size := by
  have hlen := ((entries_restrict h).map Sigma.fst).length_eq
  rw [List.length_map, List.length_map] at hlen
  have hle := List.length_filter_le (fun e : Σ _ : UInt64, NaiveOrder => P e.1) a.orders.entries
  unfold size AList.keys List.keys
  rw [List.length_map, List.length_map, hlen]
  exact hle

theorem inserts_restrict (h : p.contents = a.contents.restrict P) {e : Event}
    (he : e.ofSymbol P = true) : p.inserts e = a.inserts e := by
  have hopen : p.isOpen = a.isOpen := congrArg Contents.isOpen h
  cases e with
  | add ref side shares price => simp only [inserts, hopen]
  | replace oldRef newRef shares price => simp only [inserts, lookup_of_symbol h he]
  | _ => rfl

end NaiveBook

theorem wfEvent_restrict {n : ℕ} {P : UInt64 → Bool} {a p : NaiveBook}
    (h : p.contents = a.contents.restrict P) {e : Event} (hk : e.Keeps P) (he : e.ofSymbol P = true)
    (hw : WfEvent n a e) : WfEvent n p e := by
  have hopen : p.isOpen = a.isOpen := congrArg Contents.isOpen h
  cases e with
  | add ref side shares price =>
    intro ho
    rw [hopen] at ho
    obtain ⟨hnew, hside, hprice, hsize⟩ := hw ho
    refine ⟨?_, hside, hprice, (NaiveBook.size_le_of_restrict h).trans_lt hsize⟩
    rw [NaiveBook.lookup_of_symbol h he, hnew]
  | reduce ref qty =>
    intro o ho
    rw [NaiveBook.lookup_of_symbol h he] at ho
    exact hw o ho
  | replace oldRef newRef shares price =>
    have hnew : P newRef = true := Eq.trans hk he
    intro ho
    rw [NaiveBook.lookup_of_symbol h he] at ho
    obtain ⟨hfree, hprice⟩ := hw ho
    refine ⟨?_, hprice⟩
    have herase := congrFun (NaiveBook.lookup_erase_eq_update p.orders oldRef) newRef
    have herase' := congrFun (NaiveBook.lookup_erase_eq_update a.orders oldRef) newRef
    simp only [Function.update_apply, NaiveBook.lookup_of_symbol h hnew] at herase herase'
    rw [herase, ← herase']
    exact hfree
  | _ => trivial

/-- A book can follow the events of one symbol if it can follow all. -/
theorem FeedOkFrom.restrict {n : ℕ} {lo : Side → ℕ} {P : UInt64 → Bool} {a p : NaiveBook} {es : List Event}
    (h : FeedOkFrom n lo a es) (hk : ∀ e ∈ es, e.Keeps P) (hc : p.contents = a.contents.restrict P) :
    FeedOkFrom n lo p (es.filter (Event.ofSymbol P)) := by
  induction es generalizing a p with
  | nil => exact ⟨trivial, trivial⟩
  | cons e es ih =>
    obtain ⟨⟨hw, hws⟩, ⟨hin, hins⟩⟩ := h
    have hke := hk e List.mem_cons_self
    have hks := fun e' he' => hk e' (List.mem_cons_of_mem e he')
    cases he : e.ofSymbol P with
    | true =>
      have hnext : (p.step e).contents = (a.step e).contents.restrict P := by
        rw [NaiveBook.contents_step, NaiveBook.contents_step, hc, Contents.restrict_step _ hke he]
      obtain ⟨hws', hins'⟩ := ih ⟨hws, hins⟩ hks hnext
      rw [List.filter_cons_of_pos he]
      refine ⟨⟨wfEvent_restrict hc hke he hw, hws'⟩, ⟨?_, hins'⟩⟩
      rw [InsertsWithin, NaiveBook.inserts_restrict hc he]
      exact hin
    | false =>
      rw [List.filter_cons_of_neg (by simp [he])]
      refine ih ⟨hws, hins⟩ hks ?_
      rw [NaiveBook.contents_step, Contents.restrict_step_of_not _ hke he, hc]

/-! ## Quotes -/

/-- The better of two quotes, and their sum at one price; a price of `0` stands for an empty side. -/
def joinQuotes (d : Side) (x y : UInt32 × UInt32) : UInt32 × UInt32 :=
  if x.1 = 0 then y
  else if y.1 = 0 then x
  else if x.1 = y.1 then (x.1, x.2 + y.2)
  else if Better d x.1 y.1 then x else y

/-- The orders of side `d` in `a` are those in `p` and those in `q`. -/
structure SideSum (d : Side) (a p q : NaiveBook) : Prop where
  prices : a.prices d = p.prices d ∪ q.prices d
  qtyAt : ∀ price, a.qtyAt d price = p.qtyAt d price + q.qtyAt d price

theorem SideSum.symm {d : Side} {a p q : NaiveBook} (h : SideSum d a p q) : SideSum d a q p :=
  ⟨h.prices.trans (Set.union_comm _ _), fun price => (h.qtyAt price).trans (Nat.add_comm _ _)⟩

namespace OrderBook

section Quotes

variable {d : Side} {a p q : NaiveBook} {x y v w : UInt32}

/-- A price that beats the best one is not there. -/
theorem Quotes.qtyAt_of_better (h : Quotes q d y w) (hb : y ≠ 0 → Better d x y) : q.qtyAt d x = 0 := by
  refine NaiveBook.qtyAt_of_not_mem fun hx => ?_
  have hne : q.prices d ≠ ∅ := Set.nonempty_iff_ne_empty.mp ⟨x, hx⟩
  have hbest := h.best hne
  have hbetter := hb fun hz => hne (h.zero_iff.mp hz)
  cases d with
  | bid => exact absurd (hbest.2 hx) (UInt32.not_le.mpr hbetter)
  | ask => exact absurd (hbest.2 hx) (UInt32.not_le.mpr hbetter)

theorem Quotes.of_better (hs : SideSum d a p q) (hx : Quotes p d x v) (hy : Quotes q d y w) (hx0 : x ≠ 0)
    (hb : y ≠ 0 → Better d x y) : Quotes a d x v := by
  have hne : p.prices d ≠ ∅ := fun he => hx0 (hx.zero_iff.mpr he)
  have hbest := hx.best hne
  have hane : a.prices d ≠ ∅ := by
    rw [hs.prices]
    exact Set.nonempty_iff_ne_empty.mp ⟨x, .inl hbest.mem⟩
  refine ⟨⟨fun hz => absurd hz hx0, fun he => absurd he hane⟩, fun he => absurd he hane, fun _ => ?_,
    fun _ => ?_⟩
  · rw [hs.prices]
    by_cases hqe : q.prices d = ∅
    · rwa [hqe, Set.union_empty]
    · have hybest := hy.best hqe
      have hbetter := hb fun hz => hqe (hy.zero_iff.mp hz)
      cases d with
      | bid =>
        refine ⟨.inl hbest.1, ?_⟩
        rintro z (hz | hz)
        · exact hbest.2 hz
        · exact UInt32.le_trans (hybest.2 hz) (UInt32.le_of_lt hbetter)
      | ask =>
        refine ⟨.inl hbest.1, ?_⟩
        rintro z (hz | hz)
        · exact hbest.2 hz
        · exact UInt32.le_trans (UInt32.le_of_lt hbetter) (hybest.2 hz)
  · rw [hx.qty_eq hne, hs.qtyAt, hy.qtyAt_of_better hb, Nat.add_zero]

/-- Two quotes at one price add up. -/
theorem Quotes.add (hs : SideSum d a p q) (hx : Quotes p d x v) (hy : Quotes q d x w) (hx0 : x ≠ 0) :
    Quotes a d x (v + w) := by
  have hpne : p.prices d ≠ ∅ := fun he => hx0 (hx.zero_iff.mpr he)
  have hqne : q.prices d ≠ ∅ := fun he => hx0 (hy.zero_iff.mpr he)
  have hpbest := hx.best hpne
  have hqbest := hy.best hqne
  have hane : a.prices d ≠ ∅ := by
    rw [hs.prices]
    exact Set.nonempty_iff_ne_empty.mp ⟨x, .inl hpbest.mem⟩
  refine ⟨⟨fun hz => absurd hz hx0, fun he => absurd he hane⟩, fun he => absurd he hane, fun _ => ?_,
    fun _ => ?_⟩
  · rw [hs.prices]
    cases d with
    | bid => exact ⟨.inl hpbest.1, fun z hz => hz.elim (hpbest.2 ·) (hqbest.2 ·)⟩
    | ask => exact ⟨.inl hpbest.1, fun z hz => hz.elim (hpbest.2 ·) (hqbest.2 ·)⟩
  · rw [UInt32.toNat_add, hx.qty_eq hpne, hy.qty_eq hqne, hs.qtyAt]
    exact (Nat.add_mod _ _ _).symm

/-- **The joint quote.** -/
theorem Quotes.join (hs : SideSum d a p q) (hx : Quotes p d x v) (hy : Quotes q d y w) :
    Quotes a d (joinQuotes d (x, v) (y, w)).1 (joinQuotes d (x, v) (y, w)).2 := by
  unfold joinQuotes
  split_ifs with hx0 hy0 hxy hb
  · -- no order of this symbol on the side
    have hpe := hx.zero_iff.mp hx0
    have hprices : a.prices d = q.prices d := by rw [hs.prices, hpe, Set.empty_union]
    have hqty : ∀ price, a.qtyAt d price = q.qtyAt d price := fun price => by
      rw [hs.qtyAt, NaiveBook.qtyAt_of_not_mem (by rw [hpe]; exact Set.notMem_empty _), Nat.zero_add]
    obtain ⟨h₁, h₂, h₃, h₄⟩ := hy
    rw [← hprices] at h₁ h₂ h₃ h₄
    exact ⟨h₁, h₂, h₃, fun hne => (h₄ hne).trans (by rw [hqty])⟩
  · exact hx.of_better hs hy hx0 fun hne => absurd hy0 hne
  · obtain rfl : x = y := hxy
    exact hx.add hs hy hx0
  · exact hx.of_better hs hy hx0 fun _ => hb
  · exact hy.of_better hs.symm hx hy0 fun _ => better_of_not hb hxy

end Quotes

end OrderBook

/-! ## The books of the parts -/

/-- **One book for two symbols**: its references, count, session state and quote from those of two books. -/
structure Merged {n : ℕ} (s t u : OrderBook n) : Prop where
  hasOrder : ∀ ref, s.hasOrder ref = (t.hasOrder ref || u.hasOrder ref)
  orderCount : s.orderCount = t.orderCount + u.orderCount
  isOpen : s.isOpen = t.isOpen ∧ s.isOpen = u.isOpen
  bbo : ∃ q x y, s.bestBidOffer = .ok q ∧ t.bestBidOffer = .ok x ∧ u.bestBidOffer = .ok y ∧
    (q.bidPrice, q.bidQty) = joinQuotes .bid (x.bidPrice, x.bidQty) (y.bidPrice, y.bidQty) ∧
    (q.askPrice, q.askQty) = joinQuotes .ask (x.askPrice, x.askQty) (y.askPrice, y.askQty)

theorem OrderBook.Agrees.merged {n : ℕ} {s t u : OrderBook n} {P : UInt64 → Bool} {a p q : NaiveBook}
    (hs : Agrees s a) (ht : Agrees t p) (hu : Agrees u q) (hp : p.contents = a.contents.restrict P)
    (hq : q.contents = a.contents.restrict (others P)) : Merged s t u := by
  have hsum : ∀ d, SideSum d a p q := fun d =>
    ⟨NaiveBook.prices_merge hp hq d, fun price => NaiveBook.qtyAt_merge hp hq d price⟩
  refine ⟨fun ref => ?_, ?_, ?_, ?_⟩
  · rw [hs.hasOrder, ht.hasOrder, hu.hasOrder, NaiveBook.lookup_restrict hp, NaiveBook.lookup_restrict hq,
      others]
    cases P ref <;> simp
  · rw [hs.orderCount, ht.orderCount, hu.orderCount, NaiveBook.size_merge hp hq]
  · rw [hs.isOpen, ht.isOpen, hu.isOpen]
    exact ⟨(congrArg Contents.isOpen hp).symm, (congrArg Contents.isOpen hq).symm⟩
  · obtain ⟨z, hz, hbid, hask⟩ := hs.bbo
    obtain ⟨x, hx, hxbid, hxask⟩ := ht.bbo
    obtain ⟨y, hy, hybid, hyask⟩ := hu.bbo
    obtain ⟨h₁, h₂⟩ := hbid.unique (hxbid.join (hsum .bid) hybid) rfl
    obtain ⟨h₃, h₄⟩ := hask.unique (hxask.join (hsum .ask) hyask) rfl
    exact ⟨z, x, y, hz, hx, hy, Prod.ext h₁ h₂, Prod.ext h₃ h₄⟩

/-- **A file with several symbols fills one book.** Let the book be able to follow a feed in which no
replacement leaves the symbol with the references `P`. Then it can follow the events of this symbol and
those of the other ones by themselves, and the book of the whole feed holds the orders of both books,
quotes the better price of each side, and adds the quantities where both quote one price. -/
theorem replay_merged {n : ℕ} (hn : n < 2 ^ 32) (b : Build) {lo : Side → ℕ} (P : UInt64 → Bool)
    (feed left right : List (Input n)) (hok : FeedOk n lo (events feed))
    (hkeep : ∀ e ∈ events feed, e.Keeps P)
    (hleft : events left = (events feed).filter (Event.ofSymbol P))
    (hright : events right = (events feed).filter (Event.ofSymbol (others P))) :
    ∃ s t u, (OrderBook.init n).replay b feed = .ok s ∧ (OrderBook.init n).replay b left = .ok t ∧
      (OrderBook.init n).replay b right = .ok u ∧ Merged s t u := by
  have hkeep' : ∀ e ∈ events feed, e.Keeps (others P) := fun e he => (hkeep e he).others
  have hokl : FeedOk n lo (events left) := hleft ▸ hok.restrict hkeep (Contents.restrict_init P).symm
  have hokr : FeedOk n lo (events right) :=
    hright ▸ hok.restrict hkeep' (Contents.restrict_init (others P)).symm
  obtain ⟨s, hs, ha⟩ := hok.exists_replay hn b List.prefix_rfl
  obtain ⟨t, ht, hp⟩ := hokl.exists_replay hn b List.prefix_rfl
  obtain ⟨u, hu, hq⟩ := hokr.exists_replay hn b List.prefix_rfl
  refine ⟨s, t, u, hs, ht, hu, ha.merged (P := P) hp hq ?_ ?_⟩
  · rw [NaiveBook.contents_after, NaiveBook.contents_after, Contents.restrict_foldl _ hkeep, hleft,
      Contents.restrict_init]
  · rw [NaiveBook.contents_after, NaiveBook.contents_after, Contents.restrict_foldl _ hkeep', hright,
      Contents.restrict_init]

/-- Two bids at one price. -/
def twoSymbols : List (Input 2) :=
  [(sysMsg 'O'.toUInt8, .newest 2), (addMsg 1 'B'.toUInt8 10 5, .newest 2),
    (addMsg 2 'B'.toUInt8 30 5, .newest 2)]

theorem replay_merged_twoSymbols :
    ∃ s t u, (OrderBook.init 2).replay .debug twoSymbols = .ok s ∧
      (OrderBook.init 2).replay .debug (twoSymbols.take 2) = .ok t ∧
      (OrderBook.init 2).replay .debug [(sysMsg 'O'.toUInt8, .newest 2),
        (addMsg 2 'B'.toUInt8 30 5, .newest 2)] = .ok u ∧ Merged s t u := by
  have hok : FeedOk 2 (fun _ => 1) (events twoSymbols) := by
    refine ⟨⟨trivial, fun _ => ⟨rfl, .inl rfl, ⟨by decide, by decide⟩, by decide⟩,
      fun _ => ⟨rfl, .inl rfl, ⟨by decide, by decide⟩, by decide⟩, trivial⟩,
      ⟨fun _ _ _ h => (by cases h), fun _ _ _ h => ?_, fun _ _ _ h => ?_, trivial⟩⟩ <;>
      · cases h
        exact ⟨by decide, by decide⟩
  refine replay_merged (by decide) .debug (fun ref => ref == 1) twoSymbols _ _ hok (fun e he => ?_) rfl rfl
  simp only [twoSymbols, events, List.map_cons, List.map_nil, List.mem_cons, List.not_mem_nil, or_false] at he
  rcases he with rfl | rfl | rfl <;> exact trivial

end L2Book
