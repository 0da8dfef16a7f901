import L2Book.Book.Contents
import L2Book.Book.Likeness
import L2Book.Book.TopOfBook

/-!
# The mirrored market

The code of the two sides is written twice. Here a feed is mirrored: bids become asks and asks bids, and every
price `p` becomes `c - p`. The book then shows the mirror image of the first one.

* `Side.other`, `NaiveOrder.mirror`, `Event.mirror`, `BBO.mirror`: the mirror;
* `Mapped.mirror_step`: the mirrored naive book of a step; **`FeedOkFrom.mirror`**: the book can follow the
  mirrored feed;
* `MirrorImage`, **`replay_mirrored`**: quotes, levels and metrics of the mirrored book.
-/

namespace L2Book

/-! ## The mirror -/

def Side.other : Side → Side
  | .bid => .ask
  | .ask => .bid

theorem Side.other_other (d : Side) : d.other.other = d := by
  cases d <;> rfl

/-- The byte of the other side. -/
def mirrorByte (side : UInt8) : UInt8 := (sideOf side).other.byte

theorem sideOf_mirrorByte (side : UInt8) : sideOf (mirrorByte side) = (sideOf side).other := by
  unfold mirrorByte
  cases sideOf side <;> rfl

def NaiveOrder.mirror (c : UInt32) (o : NaiveOrder) : NaiveOrder := ⟨mirrorByte o.side, c - o.price, o.shares⟩

def Event.mirror (c : UInt32) : Event → Event
  | .add ref side shares price => .add ref (mirrorByte side) shares (c - price)
  | .replace oldRef newRef shares price => .replace oldRef newRef shares (c - price)
  | e => e

/-- The mirrored quote; 0 stands for an empty side. -/
def BBO.mirror (c : UInt32) (q : BBO) : BBO where
  bidPrice := if q.askPrice = 0 then 0 else c - q.askPrice
  bidQty := q.askQty
  askPrice := if q.bidPrice = 0 then 0 else c - q.bidPrice
  askQty := q.bidQty

/-- The mirrored windows. -/
def mirrorLo (c : UInt32) (lo : Side → ℕ) (d : Side) : ℕ := c.toNat + 1 - (lo d.other + kLevels)

theorem sub_inj_left {c p q : UInt32} : c - p = c - q ↔ p = q := by
  constructor
  · intro h
    have := congrArg (c - ·) h
    simpa using this
  · rintro rfl
    rfl

/-! ## Naive books -/

namespace NaiveBook

section Mirror

variable {c : UInt32} {a a' : NaiveBook}

theorem keepsShares_mirror (c : UInt32) : KeepsShares (NaiveOrder.mirror c) := fun _ _ => rfl

theorem Mapped.inserts_mirror (h : Mapped (NaiveOrder.mirror c) a a') (e : Event) :
    a'.inserts (e.mirror c) = (a.inserts e).map fun i => (i.1, i.2.1.other, c - i.2.2) := by
  cases e with
  | add ref side shares price =>
    simp only [Event.mirror, inserts, h.isOpen, sideOf_mirrorByte]
    split_ifs <;> rfl
  | replace oldRef newRef shares price =>
    simp only [Event.mirror, inserts, h.lookup, Option.map_map]
    congr 1
    funext o
    simp only [Function.comp_apply, NaiveOrder.mirror, sideOf_mirrorByte]
  | _ => rfl

/-- **The mirrored book of a step.** -/
theorem Mapped.mirror_step (h : Mapped (NaiveOrder.mirror c) a a') (e : Event) :
    Mapped (NaiveOrder.mirror c) (a.step e) (a'.step (e.mirror c)) := by
  cases e with
  | add ref side shares price =>
    simp only [Event.mirror, NaiveBook.step]
    by_cases hopen : a.isOpen = true
    · rw [if_pos hopen, if_pos (h.isOpen.trans hopen)]
      exact h.insert ref ⟨side, price, shares⟩
    · rw [if_neg hopen, if_neg (by rwa [h.isOpen])]
      exact h
  | replace oldRef newRef shares price =>
    simp only [Event.mirror, NaiveBook.step, h.lookup]
    cases a.orders.lookup oldRef with
    | none => exact h
    | some o => exact (h.erase oldRef).insert newRef ⟨o.side, price, shares⟩
  | _ => exact (h.step (keepsShares_mirror c) rfl).1

theorem mapped_mirror_after (c : UInt32) (es : List Event) :
    Mapped (NaiveOrder.mirror c) (after es) (after (es.map (Event.mirror c))) := by
  rw [after, after, List.foldl_map]
  exact List.foldl_rel (r := Mapped (NaiveOrder.mirror c)) ⟨fun _ => rfl, rfl⟩
    fun e _ _ _ h => h.mirror_step e

theorem Mapped.orders_perm {g : NaiveOrder → NaiveOrder} (h : Mapped g a a') :
    (a'.orders.entries.map (·.2)).Perm ((a.orders.entries.map (·.2)).map g) := by
  have hkeys : ((a.orders.entries.map fun e => (⟨e.1, g e.2⟩ : Σ _ : UInt64, NaiveOrder)).map
      Sigma.fst).Nodup := by
    rw [List.map_map]
    exact a.orders.keys_nodup
  have hperm : a'.orders.entries.Perm (a.orders.entries.map fun e => ⟨e.1, g e.2⟩) := by
    rw [List.perm_ext_iff_of_nodup (List.Nodup.of_map _ a'.orders.keys_nodup) (List.Nodup.of_map _ hkeys)]
    rintro ⟨r, o⟩
    rw [← AList.mem_lookup_iff, Option.mem_def, h.lookup, Option.map_eq_some_iff, List.mem_map]
    constructor
    · rintro ⟨o', ho', rfl⟩
      exact ⟨⟨r, o'⟩, AList.mem_lookup_iff.mp ho', rfl⟩
    · rintro ⟨⟨r', o'⟩, ho', heq⟩
      cases heq
      exact ⟨o', AList.mem_lookup_iff.mpr ho', rfl⟩
  have hmap := hperm.map (·.2)
  rwa [List.map_map] at hmap ⊢

variable (h : Mapped (NaiveOrder.mirror c) a a')

include h

theorem Mapped.resting_mirror (d : Side) (price : UInt32) :
    (a'.restingAt d.other (c - price)).Perm ((a.restingAt d price).map (NaiveOrder.mirror c)) := by
  refine (h.orders_perm.filter _).trans ?_
  rw [List.filter_map]
  refine List.Perm.of_eq (congrArg _ (List.filter_congr fun o _ => ?_))
  have hside : (sideOf o.side).other = d.other ↔ sideOf o.side = d := by
    cases sideOf o.side <;> cases d <;> simp [Side.other]
  simp only [Function.comp_apply, NaiveOrder.mirror, sideOf_mirrorByte, sub_inj_left, hside]

theorem Mapped.qtyAt_mirror (d : Side) (price : UInt32) : a'.qtyAt d.other (c - price) = a.qtyAt d price := by
  rw [qtyAt, ((h.resting_mirror d price).map _).sum_eq, List.map_map]
  rfl

theorem Mapped.countAt_mirror (d : Side) (price : UInt32) :
    a'.countAt d.other (c - price) = a.countAt d price := by
  rw [countAt, (h.resting_mirror d price).length_eq, List.length_map]
  rfl

theorem Mapped.prices_mirror (d : Side) : a'.prices d.other = (c - ·) '' a.prices d := by
  ext p
  constructor
  · rintro ⟨r, o', ho', hd, rfl⟩
    rw [h.lookup] at ho'
    obtain ⟨o, ho, rfl⟩ := Option.map_eq_some_iff.mp ho'
    refine ⟨o.price, ⟨r, o, ho, ?_, rfl⟩, rfl⟩
    rw [NaiveOrder.mirror, sideOf_mirrorByte] at hd
    rw [← Side.other_other d, ← hd, Side.other_other]
  · rintro ⟨_, ⟨r, o, ho, rfl, rfl⟩, rfl⟩
    exact ⟨r, o.mirror c, by rw [h.lookup, ho]; rfl, sideOf_mirrorByte _, rfl⟩

end Mirror

end NaiveBook

/-! ## Quotes -/

/-- The mirror turns the order of the prices below `c` around. -/
theorem IsBestPrice.mirror {c : UInt32} {d : Side} {ps : Set UInt32} {p : UInt32} (h : IsBestPrice d ps p)
    (hc : ∀ q ∈ ps, q ≤ c) : IsBestPrice d.other ((c - ·) '' ps) (c - p) := by
  have hp := hc p h.mem
  cases d with
  | bid =>
    refine ⟨⟨p, h.1, rfl⟩, ?_⟩
    rintro _ ⟨q, hq, rfl⟩
    have hle := h.2 hq
    have hqc := hc q hq
    rw [UInt32.le_iff_toNat_le] at *
    rw [UInt32.toNat_sub_of_le _ _ hp, UInt32.toNat_sub_of_le _ _ hqc]
    omega
  | ask =>
    refine ⟨⟨p, h.1, rfl⟩, ?_⟩
    rintro _ ⟨q, hq, rfl⟩
    have hle := h.2 hq
    have hqc := hc q hq
    rw [UInt32.le_iff_toNat_le] at *
    rw [UInt32.toNat_sub_of_le _ _ hp, UInt32.toNat_sub_of_le _ _ hqc]
    omega

namespace BBO

variable {c : UInt32} {q : BBO} (hbid : q.bidPrice < c) (hask : q.askPrice < c)

include hbid hask

theorem valid_mirror : (q.mirror c).valid = q.valid := by
  have hb := UInt32.lt_iff_toNat_lt.mp hbid
  have ha := UInt32.lt_iff_toNat_lt.mp hask
  rw [Bool.eq_iff_iff]
  simp only [valid, mirror, decide_eq_true_eq, gt_iff_lt, UInt32.lt_iff_toNat_lt]
  by_cases hb0 : q.bidPrice = 0
  · simp [hb0]
  by_cases ha0 : q.askPrice = 0
  · simp [ha0]
  have hb0' : q.bidPrice.toNat ≠ 0 := fun e => hb0 (UInt32.toNat_inj.mp e)
  have ha0' : q.askPrice.toNat ≠ 0 := fun e => ha0 (UInt32.toNat_inj.mp e)
  rw [if_neg hb0, if_neg ha0, UInt32.toNat_sub_of_le _ _ (UInt32.le_iff_toNat_le.mpr hb.le),
    UInt32.toNat_sub_of_le _ _ (UInt32.le_iff_toNat_le.mpr ha.le), UInt32.toNat_zero]
  omega

omit hbid hask in
theorem pos_of_valid (hv : q.valid = true) :
    0 < q.bidPrice.toNat ∧ 0 < q.askPrice.toNat ∧ q.bidPrice.toNat < q.askPrice.toNat := by
  simpa [valid, UInt32.lt_iff_toNat_lt] using hv

theorem toNat_mirror (hv : q.valid = true) :
    (q.mirror c).bidPrice.toNat = c.toNat - q.askPrice.toNat ∧
      (q.mirror c).askPrice.toNat = c.toNat - q.bidPrice.toNat := by
  obtain ⟨hb, ha, -⟩ := pos_of_valid hv
  have hb0 : q.bidPrice ≠ 0 := by
    intro e
    rw [e] at hb
    exact absurd hb (by decide)
  have ha0 : q.askPrice ≠ 0 := by
    intro e
    rw [e] at ha
    exact absurd ha (by decide)
  simp only [mirror, if_neg hb0, if_neg ha0]
  exact ⟨UInt32.toNat_sub_of_le _ _ (UInt32.le_of_lt hask), UInt32.toNat_sub_of_le _ _ (UInt32.le_of_lt hbid)⟩

theorem spreadTicks_mirror : (q.mirror c).spreadTicks = q.spreadTicks := by
  have hb := UInt32.lt_iff_toNat_lt.mp hbid
  have ha := UInt32.lt_iff_toNat_lt.mp hask
  have hvalid := valid_mirror hbid hask
  rw [spreadTicks, spreadTicks, hvalid]
  split_ifs with hv
  · obtain ⟨-, -, hlt⟩ := pos_of_valid hv
    obtain ⟨hb', ha'⟩ := toNat_mirror hbid hask hv
    rw [UInt32.toNat_sub_of_le _ _ (UInt32.le_iff_toNat_le.mpr hlt.le),
      UInt32.toNat_sub_of_le _ _ (UInt32.le_iff_toNat_le.mpr (by omega)), hb', ha']
    congr 1
    omega
  · rfl

theorem midPrice_mirror (hc : c.toNat < 2 ^ 31) :
    (q.mirror c).midPrice = if q.midPrice = 0 then 0 else c.toNat - q.midPrice := by
  have hb := UInt32.lt_iff_toNat_lt.mp hbid
  have ha := UInt32.lt_iff_toNat_lt.mp hask
  have hvalid := valid_mirror hbid hask
  by_cases hv : q.valid = true
  · obtain ⟨hpos, -, hlt⟩ := pos_of_valid hv
    obtain ⟨hb', ha'⟩ := toNat_mirror hbid hask hv
    have hsum : (q.bidPrice + q.askPrice).toNat = q.bidPrice.toNat + q.askPrice.toNat := by
      rw [UInt32.toNat_add, Nat.mod_eq_of_lt (by omega)]
    have hsum' : ((q.mirror c).bidPrice + (q.mirror c).askPrice).toNat +
        (q.bidPrice.toNat + q.askPrice.toNat) = 2 * c.toNat := by
      rw [UInt32.toNat_add, hb', ha', Nat.mod_eq_of_lt (by omega)]
      omega
    have hcast : (((q.mirror c).bidPrice + (q.mirror c).askPrice).toNat : ℚ) +
        (q.bidPrice.toNat + q.askPrice.toNat) = 2 * c.toNat := by exact_mod_cast hsum'
    have hmid : q.midPrice = (q.bidPrice.toNat + q.askPrice.toNat) / 2 := by
      rw [midPrice, if_pos hv, hsum, OrderBook.roundDouble_half (by omega), Nat.cast_add]
    have hne : q.midPrice ≠ 0 := by
      have hpos' : (0 : ℚ) < q.bidPrice.toNat := by exact_mod_cast hpos
      rw [hmid]
      positivity
    rw [if_neg hne, midPrice, if_pos (hvalid.trans hv), OrderBook.roundDouble_half (by omega), hmid]
    linarith
  · have hmid : q.midPrice = 0 := if_neg hv
    rw [hmid, if_pos rfl, midPrice, if_neg (by rwa [hvalid])]

end BBO

/-! ## Feeds -/

section Feeds

variable {n m : ℕ} {lo : Side → ℕ} {c : UInt32} {a a' : NaiveBook} {es : List Event}

theorem InWindow.mirror {d : Side} {price : UInt32} (hlo : lo d + kLevels ≤ c.toNat)
    (h : InWindow lo d price) : price < c ∧ InWindow (mirrorLo c lo) d.other (c - price) := by
  obtain ⟨hlow, hhigh⟩ := h
  have hlt : price < c := UInt32.lt_iff_toNat_lt.mpr (by omega)
  refine ⟨hlt, ?_⟩
  rw [InWindow, mirrorLo, Side.other_other, UInt32.toNat_sub_of_le _ _ (UInt32.le_of_lt hlt)]
  omega

theorem InsertsWithin.mirror {e : Event} (hlo : ∀ d, lo d + kLevels ≤ c.toNat) (h : InsertsWithin lo a e)
    (hm : NaiveBook.Mapped (NaiveOrder.mirror c) a a') : InsertsWithin (mirrorLo c lo) a' (e.mirror c) := by
  intro ref d price hins
  rw [hm.inserts_mirror] at hins
  obtain ⟨⟨ref', d', price'⟩, hins', heq⟩ := Option.map_eq_some_iff.mp hins
  cases heq
  exact ((h ref' d' price' hins').mirror (hlo d')).2

theorem mirrorByte_eq (side : UInt8) : mirrorByte side = 'B'.toUInt8 ∨ mirrorByte side = 'S'.toUInt8 := by
  unfold mirrorByte
  cases sideOf side
  · exact .inr rfl
  · exact .inl rfl

theorem PriceOk.mirror {price : UInt32} (hc : c.toNat < 2 ^ 31) (h : price < c) : PriceOk (c - price) := by
  have hlt := UInt32.lt_iff_toNat_lt.mp h
  rw [PriceOk, UInt32.toNat_sub_of_le _ _ (UInt32.le_of_lt h)]
  omega

theorem WfEvent.mirror {e : Event} (hc : c.toNat < 2 ^ 31) (hlo : ∀ d, lo d + kLevels ≤ c.toNat)
    (hnm : n ≤ m) (h : WfEvent n a e) (hw : InsertsWithin lo a e)
    (hm : NaiveBook.Mapped (NaiveOrder.mirror c) a a') : WfEvent m a' (e.mirror c) := by
  cases e with
  | add ref side shares price =>
    intro hopen
    rw [hm.isOpen] at hopen
    obtain ⟨hnew, -, -, hsize⟩ := h hopen
    have hin := hw ref (sideOf side) price (if_pos hopen)
    exact ⟨hm.lookup_none.mpr hnew, mirrorByte_eq side, .mirror hc (hin.mirror (hlo _)).1,
      hm.size_eq ▸ hsize.trans_le hnm⟩
  | replace oldRef newRef shares price =>
    intro hold
    rw [hm.lookup, Option.isSome_map] at hold
    obtain ⟨o, ho⟩ := Option.isSome_iff_exists.mp hold
    have hin := hw newRef (sideOf o.side) price (by simp only [NaiveBook.inserts, ho, Option.map_some])
    exact ⟨(hm.erase oldRef).lookup_none.mpr (h hold).1, .mirror hc (hin.mirror (hlo _)).1⟩
  | reduce ref qty =>
    intro o ho
    rw [hm.lookup] at ho
    obtain ⟨o', ho', rfl⟩ := Option.map_eq_some_iff.mp ho
    exact h o' ho'
  | _ => trivial

/-- **The book can follow the mirrored feed.** -/
theorem FeedOkFrom.mirror (hc : c.toNat < 2 ^ 31) (hlo : ∀ d, lo d + kLevels ≤ c.toNat) (hnm : n ≤ m)
    (h : FeedOkFrom n lo a es) (hm : NaiveBook.Mapped (NaiveOrder.mirror c) a a') :
    FeedOkFrom m (mirrorLo c lo) a' (es.map (Event.mirror c)) := by
  induction es generalizing a a' with
  | nil => exact ⟨trivial, trivial⟩
  | cons e es ih =>
    obtain ⟨⟨hwf, hwfs⟩, ⟨hin, hins⟩⟩ := h
    obtain ⟨hwf', hin'⟩ := ih ⟨hwfs, hins⟩ (hm.mirror_step e)
    exact ⟨⟨hwf.mirror hc hlo hnm hin hm, hwf'⟩, ⟨hin.mirror hlo hm, hin'⟩⟩

end Feeds

/-! ## Books -/

/-- **The second book is the mirror image of the first one.** -/
structure MirrorImage {n m : ℕ} (c : UInt32) (s : OrderBook n) (s' : OrderBook m) : Prop where
  hasOrder : ∀ ref, s'.hasOrder ref = s.hasOrder ref
  orderCount : s'.orderCount = s.orderCount
  isOpen : s'.isOpen = s.isOpen
  bbo : ∃ q, s.bestBidOffer = .ok q ∧ s'.bestBidOffer = .ok (q.mirror c)
  level : ∀ d price i j, price ≤ c → priceIdx d (s.sides d).ref price = .ok i → InArray i →
    priceIdx d.other (s'.sides d.other).ref (c - price) = .ok j → InArray j → ∃ lvl lvl',
      s.levelPtr d i = some lvl ∧ s'.levelPtr d.other j = some lvl' ∧ lvl'.totalQty = lvl.totalQty ∧
      lvl'.orderCount = lvl.orderCount
  spread : Analytics.spread s' = Analytics.spread s
  midPrice : ∃ x, Analytics.midPrice s = .ok x ∧
    Analytics.midPrice s' = .ok (if x = 0 then 0 else c.toNat - x)
  imbalance : ∃ x, Analytics.orderFlowImbalance s = .ok x ∧ Analytics.orderFlowImbalance s' = .ok (-x)

namespace OrderBook

variable {n m : ℕ} {lo : Side → ℕ} {c : UInt32} {s : OrderBook n} {s' : OrderBook m} {a a' : NaiveBook}

theorem Quotes.mirror {d : Side} {price qty price' qty' : UInt32} (h : Quotes a d price qty)
    (h' : Quotes a' d.other price' qty') (hm : NaiveBook.Mapped (NaiveOrder.mirror c) a a')
    (hc : ∀ p ∈ a.prices d, p ≤ c) : price' = (if price = 0 then 0 else c - price) ∧ qty' = qty := by
  have hprices := hm.prices_mirror d
  by_cases he : a.prices d = ∅
  · have he' : a'.prices d.other = ∅ := by rw [hprices, he, Set.image_empty]
    rw [h.zero_iff.mpr he, h'.zero_iff.mpr he', h.qty_zero he, h'.qty_zero he', if_pos rfl]
    exact ⟨rfl, rfl⟩
  · have he' : a'.prices d.other ≠ ∅ := by rw [hprices]; exact (Set.image_eq_empty.not.mpr he)
    have hbest := (h.best he).mirror hc
    rw [← hprices] at hbest
    obtain rfl := (h'.best he').unique hbest
    rw [if_neg (h.zero_iff.not.mpr he)]
    refine ⟨rfl, UInt32.toNat_inj.mp ?_⟩
    rw [h.qty_eq he, h'.qty_eq he', hm.qtyAt_mirror]

/-- **Books of mirrored naive books** are mirror images. -/
theorem Agrees.mirrorImage (h : Agrees s a) (h' : Agrees s' a')
    (hm : NaiveBook.Mapped (NaiveOrder.mirror c) a a') (hc : c.toNat < 2 ^ 31) (hpos : 0 < c.toNat)
    (hprice : ∀ d, ∀ p ∈ a.prices d, p < c) : MirrorImage c s s' := by
  obtain ⟨q, hq, hbid, hask⟩ := h.bbo
  obtain ⟨q', hq', hbid', hask'⟩ := h'.bbo
  have hle : ∀ d, ∀ p ∈ a.prices d, p ≤ c := fun d p hp => UInt32.le_of_lt (hprice d p hp)
  have hmirror : q' = q.mirror c := by
    obtain ⟨h₁, h₂⟩ := hbid.mirror hask' hm (hle _)
    obtain ⟨h₃, h₄⟩ := hask.mirror hbid' hm (hle _)
    cases q'
    simp only at h₁ h₂ h₃ h₄
    rw [h₁, h₂, h₃, h₄]
    rfl
  subst hmirror
  have hlt : ∀ {d price qty}, Quotes a d price qty → price < c := by
    intro d price qty hquote
    by_cases he : a.prices d = ∅
    · rw [hquote.zero_iff.mpr he]
      exact UInt32.lt_iff_toNat_lt.mpr hpos
    · exact hprice d _ (hquote.best he).mem
  have hb := hlt hbid
  have ha := hlt hask
  refine ⟨fun ref => ?_, ?_, ?_, ⟨q, hq, hq'⟩, fun d price i j hp hi hin hj hjn => ?_, ?_, ?_, ?_⟩
  · rw [h.hasOrder, h'.hasOrder, hm.lookup, Option.isSome_map]
  · rw [h.orderCount, h'.orderCount, hm.size_eq]
  · rw [h.isOpen, h'.isOpen, hm.isOpen]
  · have hp' := UInt32.le_iff_toNat_le.mp hp
    obtain ⟨lvl, hlvl, hqty, hcount⟩ := h.level d price i (by omega) hi hin
    obtain ⟨lvl', hlvl', hqty', hcount'⟩ := h'.level d.other (c - price) j
      (by rw [UInt32.toNat_sub_of_le _ _ hp]; omega) hj hjn
    refine ⟨lvl, lvl', hlvl, hlvl', UInt64.toNat_inj.mp ?_, UInt32.toNat_inj.mp ?_⟩
    · rw [hqty, hqty', hm.qtyAt_mirror]
    · rw [hcount, hcount', hm.countAt_mirror]
  · rw [spread_of_quote hq, spread_of_quote hq', BBO.spreadTicks_mirror hb ha]
  · exact ⟨_, midPrice_of_quote hq, by rw [midPrice_of_quote hq', BBO.midPrice_mirror hb ha hc]⟩
  · refine ⟨Analytics.imbalance q.bidQty.toNat q.askQty.toNat, by
      simp only [Analytics.orderFlowImbalance, hq, ok_bind], ?_⟩
    simp only [Analytics.orderFlowImbalance, hq', ok_bind, BBO.mirror]
    rw [Analytics.imbalance_swap q.bidQty.toNat_lt q.askQty.toNat_lt]

/-- **The mirrored market.** If the book can follow a feed with all windows below `c`, it can follow the feed
in which bids and asks change places and every price `p` becomes `c - p`, with any pool that is as large and
in any build. It then shows the mirror image: the best bid is `c` less the best ask of the other book and vice
versa, with the same quantities; the levels are the same; so is the spread; the mid price is mirrored; the
imbalance is the opposite. -/
theorem replay_mirrored (hm : m < 2 ^ 32) (hnm : n ≤ m) (b b' : Build) (hc : c.toNat < 2 ^ 31)
    (hlo : ∀ d, lo d + kLevels ≤ c.toNat) (feed : List (Input n)) (feed' : List (Input m))
    (hok : FeedOk n lo (events feed)) (hfeed : events feed' = (events feed).map (Event.mirror c)) :
    ∃ s s', (OrderBook.init n).replay b feed = .ok s ∧ (OrderBook.init m).replay b' feed' = .ok s' ∧
      MirrorImage c s s' := by
  have hinit : NaiveBook.Mapped (NaiveOrder.mirror c) .init .init := ⟨fun _ => rfl, rfl⟩
  have hok' : FeedOk m (mirrorLo c lo) (events feed') := hfeed ▸ hok.mirror hc hlo hnm hinit
  obtain ⟨s, hs, ha⟩ := hok.exists_replay (by omega) b List.prefix_rfl
  obtain ⟨s', hs', ha'⟩ := hok'.exists_replay hm b' List.prefix_rfl
  rw [hfeed] at ha'
  have htidy : Tidy n lo (.after (events feed)) := tidy_after tidy_init hok
  refine ⟨s, s', hs, hs', ha.mirrorImage ha' (NaiveBook.mapped_mirror_after c _) hc ?_ fun d p hp => ?_⟩
  · have hpos := hlo .bid
    have hlevels : 0 < kLevels := by decide
    omega
  · obtain ⟨ref, o, ho, -, rfl⟩ := hp
    exact ((htidy.order ref o ho).2.2.mirror (hlo _)).1

/-- The sample feed in the mirror at 10000. -/
def mirroredFeed : List (Input 3) :=
  [(sysMsg 'O'.toUInt8, .oldest 3), (addMsg 1 'S'.toUInt8 10 9900, .oldest 3),
    (addMsg 2 'S'.toUInt8 5 9899, .newest 3), (delMsg 1, .oldest 3)]

theorem replay_mirrored_sampleFeed : ∃ s s', (OrderBook.init 2).replay .debug sampleFeed = .ok s ∧
    (OrderBook.init 3).replay .release mirroredFeed = .ok s' ∧ MirrorImage 10000 s s' :=
  replay_mirrored (by decide) (by decide) .debug .release (by decide) (fun _ => by decide) sampleFeed
    mirroredFeed (feedOk_iff.mpr ⟨wellFormed_sampleFeed, windowed_sampleFeed⟩) (by decide)

end OrderBook

end L2Book
