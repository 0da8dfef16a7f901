import L2Book.Book.Recentre

/-!
# Inserting an order

* `nextRef`: the reference price after an insertion; `Recentres`: when `insert_order` re-centres;
* **`InsertSpec`**: everything `insert_order` does to a linked book, one field per part of the state;
* **`Linked.insertOrder`**: `insert_order` meets it in its three cases (first order of the side,
  price in the array, re-centre).
-/

namespace L2Book

/-- The reference price of a side after an order at `price` was inserted. -/
def nextRef (d : Side) (ref price : UInt32) : UInt32 :=
  if ref = 0 then price else if InArray (tick d ref price) then ref else price

/-- `insert_order` re-centres the side on `price`. -/
def Recentres (d : Side) (ref price : UInt32) : Prop := ref ≠ 0 ∧ ¬ InArray (tick d ref price)

instance (d : Side) (ref price : UInt32) : Decidable (Recentres d ref price) := by
  unfold Recentres; infer_instance

theorem nextRef_of_recentres {d : Side} {ref price : UInt32} (h : Recentres d ref price) :
    nextRef d ref price = price := by
  rw [nextRef, if_neg h.1, if_neg h.2]

@[simp] theorem nextRef_self (d : Side) (price : UInt32) : nextRef d price price = price := by
  unfold nextRef
  split_ifs <;> rfl

theorem nextRef_zero (d : Side) (price : UInt32) : nextRef d 0 price = price := if_pos rfl

/-- The new order always ends up in the array. -/
theorem inArray_nextRef (d : Side) (ref price : UInt32) :
    InArray (tick d (nextRef d ref price) price) := by
  unfold nextRef
  split_ifs with h₁ h₂
  · rw [tick_self]; exact inArray_zero
  · exact h₂
  · rw [tick_self]; exact inArray_zero

namespace OrderBook

variable {n : ℕ}

/-- **What `insert_order` does** to a book whose orders are `A`. -/
structure InsertSpec (it : IterOrder n) (A : Set (Fin n)) (o : Fin n) (s s' : OrderBook n) : Prop where
  linked : Linked (insert o A) s'
  orderMap : s'.orderMap = s.orderMap
  isOpen : s'.isOpen = s.isOpen
  freeHead : s'.pool.freeHead = s.pool.freeHead
  data : SameData s.pool.slots s'.pool.slots
  ref : ∀ d, (s'.sides d).ref =
    if d = s.sideAt o then nextRef d (s.sides d).ref (s.order o).price else (s.sides d).ref
  outside : ∀ p, p ∉ A → p ≠ o → s'.order p = s.order p
  other_orders : ∀ p ∈ A, s.sideAt p ≠ s.sideAt o → s'.order p = s.order p
  other_side : ∀ d, d ≠ s.sideAt o → s'.sides d = s.sides d
  queue_append : ¬ Recentres (s.sideAt o) (s.sides (s.sideAt o)).ref (s.order o).price →
    ∀ d j, s'.queue d j = if d = s.sideAt o ∧ ((j : ℕ) : ℤ) =
      tick d (nextRef d (s.sides d).ref (s.order o).price) (s.order o).price
      then s.queue d j ++ [o] else s.queue d j
  queue_recentre : Recentres (s.sideAt o) (s.sides (s.sideAt o)).ref (s.order o).price →
    ∀ d j, s'.queue d j = if d = s.sideAt o then
      (s.cleared d (s.order o).price).bucket d (s.visited it) j ++
        (if (j : ℕ) = 0 then [o] else [])
      else s.queue d j
  best : n < 2 ^ 32 → (∀ d, IsBest (s.sides d).levels (s.sides d).bestIdx) →
    ∀ d, IsBest (s'.sides d).levels (s'.sides d).bestIdx

section Insert

variable {A : Set (Fin n)} {s t : OrderBook n} {o : Fin n}

/-- The last step of every case: `insert_at` in a linked book `t` that agrees with `s` about the
order. -/
theorem Linked.inserted_outside (h : Linked A t) (hi : InArray (t.tickOf o)) {p : Fin n}
    (hp : p ≠ o) (hq : p ∉ A ∨ t.sideAt p ≠ t.sideAt o) :
    (t.inserted o (t.sideAt o) (slotOf _ hi)).order p = t.order p := by
  refine inserted_order_of_not_mem (h.level _ _) hp fun hmem => ?_
  obtain ⟨h₁, h₂, -⟩ := (h.mem_queue _ _ p).mp hmem
  rcases hq with hq | hq
  · exact hq h₁
  · exact hq h₂

theorem Linked.inserted_best (h : Linked A t) (ho : o ∉ A) (hi : InArray (t.tickOf o))
    (hn : n < 2 ^ 32) (hb : ∀ d, IsBest (t.sides d).levels (t.sides d).bestIdx) (d : Side) :
    IsBest ((t.inserted o (t.sideAt o) (slotOf _ hi)).sides d).levels
      ((t.inserted o (t.sideAt o) (slotOf _ hi)).sides d).bestIdx := by
  have hoq : o ∉ t.queue (t.sideAt o) (slotOf _ hi) := fun hq => ho (h.mem_of_queue hq)
  have hlist := ((h.level (t.sideAt o) (slotOf _ hi)).list.append hoq).nodup.length_le_card
  refine inserted_isBest ?_ (h.level _ _) hoq (hb d)
  rw [List.length_append, Fintype.card_fin] at hlist
  simp only [List.length_singleton] at hlist
  omega

theorem Priced.insert (h : Priced A s) (hside : (s.order o).side = (s.sideAt o).byte)
    (hpos : 0 < (s.order o).price.toNat) (hlt : (s.order o).price.toNat < 2 ^ 31)
    (href : (s.sides (s.sideAt o)).ref ≠ 0) : Priced (insert o A) s where
  side_byte p hp := by
    rcases hp with rfl | hp
    · exact hside
    · exact h.side_byte p hp
  price_pos p hp := by
    rcases hp with rfl | hp
    · exact hpos
    · exact h.price_pos p hp
  price_lt p hp := by
    rcases hp with rfl | hp
    · exact hlt
    · exact h.price_lt p hp
  ref_lt := h.ref_lt
  ref_ne p hp := by
    rcases hp with rfl | hp
    · exact href
    · exact h.ref_ne p hp

/-- The first order of a side sets its reference price. -/
def withRef (s : OrderBook n) (d : Side) (ref : UInt32) : OrderBook n :=
  s.setSide d { s.sides d with ref := ref }

theorem withRef_ref (s : OrderBook n) (d d' : Side) (ref : UInt32) :
    ((s.withRef d ref).sides d').ref = if d' = d then ref else (s.sides d').ref := by
  by_cases hd : d' = d
  · subst hd; simp [withRef, setSide]
  · simp [withRef, setSide, hd]

theorem withRef_levels (s : OrderBook n) (d d' : Side) (ref : UInt32) :
    ((s.withRef d ref).sides d').levels = (s.sides d').levels ∧
      ((s.withRef d ref).sides d').bestIdx = (s.sides d').bestIdx := by
  by_cases hd : d' = d
  · subst hd; simp [withRef, setSide]
  · simp [withRef, setSide, hd]

theorem withRef_queue (s : OrderBook n) (d : Side) (ref : UInt32) (d' : Side) (j : Fin kLevels) :
    (s.withRef d ref).queue d' j = s.queue d' j := by
  unfold queue
  rw [(withRef_levels s d d' ref).1]
  rfl

theorem Linked.withRef (h : Linked A s) {d : Side} {ref : UInt32} (hd : ∀ p ∈ A, s.sideAt p ≠ d)
    (hlt : ref.toNat < 2 ^ 31) : Linked A (s.withRef d ref) := by
  have hq := withRef_queue s d ref
  have hr := withRef_ref s d
  have htick : ∀ p ∈ A, (s.withRef d ref).tickOf p = s.tickOf p := by
    intro p hp
    show tick (s.sideAt p) ((s.withRef d ref).sides (s.sideAt p)).ref (s.order p).price = _
    rw [hr, if_neg (hd p hp)]
    rfl
  refine ⟨⟨h.side_byte, h.price_pos, h.price_lt, fun d' => ?_, fun p hp => ?_⟩, fun d' j => ?_,
    fun d' j p => ?_, fun p hp => ?_⟩
  · rw [hr]
    split_ifs
    · exact hlt
    · exact h.ref_lt d'
  · show ((s.withRef d ref).sides (s.sideAt p)).ref ≠ 0
    rw [hr, if_neg (hd p hp)]
    exact h.ref_ne p hp
  · rw [hq, (withRef_levels s d d' ref).1]
    exact h.level d' j
  · rw [hq, h.mem_queue]
    refine and_congr_right fun hp => and_congr_right fun _ => ?_
    rw [htick p hp]
  · rw [htick p hp]
    exact h.levelIdx p hp

/-! ## The three cases -/

theorem insertOrder_eq (b : Build) (it : IterOrder n) (s : OrderBook n) (o : Fin n) :
    s.insertOrder b it o = insertOn b (s.sideAt o) (recentre it (s.sideAt o)) s o := by
  unfold insertOrder sideAt
  cases sideOf (s.order o).side <;> rfl

theorem insertOn_of_inArray {b : Build} {rec : UInt32 → OrderBook n → Except Fault (OrderBook n)}
    (href : (s.sides (s.sideAt o)).ref.toNat < 2 ^ 31) (hlt : (s.order o).price.toNat < 2 ^ 31)
    (hne : (s.sides (s.sideAt o)).ref ≠ 0) (hi : InArray (s.tickOf o)) :
    insertOn b (s.sideAt o) rec s o = .ok (s.inserted o (s.sideAt o) (slotOf _ hi)) := by
  have hidx : priceIdx (s.sideAt o) (s.sides (s.sideAt o)).ref (s.order o).price =
      .ok (s.tickOf o) := priceIdx_eq _ href hlt
  unfold insertOn
  simp only [if_neg hne, hidx, bind, Except.bind, if_neg (not_inArray.not.mpr (not_not.mpr hi)),
    check_ok fun _ => hi]
  exact insertAt_eq hi

/-- The first order of a side: the same as with the reference price already set. -/
theorem insertOn_of_ref_zero {b : Build} {rec : UInt32 → OrderBook n → Except Fault (OrderBook n)}
    (hz : (s.sides (s.sideAt o)).ref = 0) (hpos : 0 < (s.order o).price.toNat) :
    insertOn b (s.sideAt o) rec s o =
      insertOn b (s.sideAt o) rec (s.withRef (s.sideAt o) (s.order o).price) o := by
  have hne : ((s.withRef (s.sideAt o) (s.order o).price).sides (s.sideAt o)).ref ≠ 0 := by
    rw [withRef_ref, if_pos rfl]
    exact fun e => by simp [e] at hpos
  unfold insertOn
  rw [if_pos hz, if_neg hne]
  rfl

theorem insertOn_of_recentres {b : Build} {it : IterOrder n}
    (href : (s.sides (s.sideAt o)).ref.toNat < 2 ^ 31) (hlt : (s.order o).price.toNat < 2 ^ 31)
    (hr : Recentres (s.sideAt o) (s.sides (s.sideAt o)).ref (s.order o).price)
    (ht : recentre it (s.sideAt o) (s.order o).price s = .ok t)
    (hto : t.order o = s.order o) (htr : (t.sides (s.sideAt o)).ref = (s.order o).price)
    (hi : InArray (t.tickOf o)) :
    insertOn b (s.sideAt o) (recentre it (s.sideAt o)) s o =
      .ok (t.inserted o (t.sideAt o) (slotOf _ hi)) := by
  have hidx : priceIdx (s.sideAt o) (s.sides (s.sideAt o)).ref (s.order o).price =
      .ok (s.tickOf o) := priceIdx_eq _ href hlt
  have hside : s.sideAt o = t.sideAt o := by unfold sideAt; rw [hto]
  have hidx' : priceIdx (s.sideAt o) (t.sides (s.sideAt o)).ref (t.order o).price =
      .ok (t.tickOf o) := by
    rw [priceIdx_eq _ (by rw [htr]; exact hlt) (by rw [hto]; exact hlt), hside]
    rfl
  have hout : s.tickOf o < 0 ∨ s.tickOf o ≥ kLevels := not_inArray.mpr hr.2
  unfold insertOn
  simp only [if_neg hr.1, hidx, bind, Except.bind, if_pos hout, ht, hidx', check_ok fun _ => hi]
  exact insertAt_eq hi

end Insert

/-! ## `insert_order` -/

section InsertOrder

variable {A : Set (Fin n)} {s : OrderBook n} {o : Fin n}

theorem Linked.insertSpec_of_inArray (it : IterOrder n) (h : Linked A s) (ho : o ∉ A)
    (hside : (s.order o).side = (s.sideAt o).byte) (hpos : 0 < (s.order o).price.toNat)
    (hlt : (s.order o).price.toNat < 2 ^ 31) (hne : (s.sides (s.sideAt o)).ref ≠ 0)
    (hi : InArray (s.tickOf o)) :
    InsertSpec it A o s (s.inserted o (s.sideAt o) (slotOf _ hi)) := by
  have hfr := inserted_frame s o (s.sideAt o) (slotOf _ hi)
  obtain ⟨hlink, hq⟩ := h.inserted (h.toPriced.insert hside hpos hlt hne) ho hi
  have hnext : nextRef (s.sideAt o) (s.sides (s.sideAt o)).ref (s.order o).price =
      (s.sides (s.sideAt o)).ref := by
    unfold nextRef
    rw [if_neg hne, if_pos]
    exact hi
  refine ⟨hlink, hfr.orderMap, hfr.isOpen, hfr.freeHead, hfr.data, fun d => ?_,
    fun p hp hpo => h.inserted_outside hi hpo (.inl hp),
    fun p hp hne => h.inserted_outside hi (fun e => ho (e ▸ hp)) (.inr hne),
    fun d hd => inserted_sides_of_ne _ _ _ _ hd, fun _ d j => ?_, fun hr => absurd hi hr.2,
    fun hn hb d => h.inserted_best ho hi hn hb d⟩
  · rw [hfr.ref]
    split_ifs with hd
    · subst hd; exact hnext.symm
    · rfl
  · rw [hq]
    by_cases hd : d = s.sideAt o
    · subst hd
      rw [hnext]
      refine if_congr (and_congr_right fun _ => ?_) rfl rfl
      rw [Fin.ext_iff, ← Int.natCast_inj, slotOf_val]
      rfl
    · simp [hd]

theorem Linked.insertOrder_of_ref_zero (b : Build) (it : IterOrder n) (h : Linked A s) (ho : o ∉ A)
    (hside : (s.order o).side = (s.sideAt o).byte) (hpos : 0 < (s.order o).price.toNat)
    (hlt : (s.order o).price.toNat < 2 ^ 31) (hz : (s.sides (s.sideAt o)).ref = 0) :
    ∃ s', s.insertOrder b it o = .ok s' ∧ InsertSpec it A o s s' := by
  set t := s.withRef (s.sideAt o) (s.order o).price with ht
  have hp0 : (s.order o).price ≠ 0 := fun e => by simp [e] at hpos
  have hto : t.order o = s.order o := rfl
  have hat : t.sideAt o = s.sideAt o := rfl
  have hno : ∀ p ∈ A, s.sideAt p ≠ s.sideAt o := fun p hp e => h.ref_ne p hp (e ▸ hz)
  have hlink : Linked A t := h.withRef hno hlt
  have htr : (t.sides (t.sideAt o)).ref = (s.order o).price := by
    rw [hat, ht, withRef_ref, if_pos rfl]
  have hi : InArray (t.tickOf o) := by
    unfold tickOf
    rw [htr, hto, tick_self]
    exact inArray_zero
  rw [insertOrder_eq, insertOn_of_ref_zero hz hpos]
  refine ⟨_, insertOn_of_inArray (s := t) (by rw [htr]; exact hlt) hlt (by rw [htr]; exact hp0) hi,
    ?_⟩
  have hspec := hlink.insertSpec_of_inArray it ho hside hpos hlt (by rw [htr]; exact hp0) hi
  refine ⟨hspec.linked, hspec.orderMap, hspec.isOpen, hspec.freeHead, hspec.data, fun d => ?_,
    hspec.outside, hspec.other_orders, fun d hd => ?_, fun _ d j => ?_, fun hr => absurd hz hr.1,
    fun hn hb => ?_⟩
  · rw [hspec.ref, hat, hto]
    split_ifs with hd
    · subst hd
      rw [← hat, htr, hat, hz, nextRef_self, nextRef_zero]
    · rw [ht, withRef_ref, if_neg hd]
  · rw [hspec.other_side d hd]
    exact Function.update_of_ne hd _ _
  · rw [hspec.queue_append fun hr => hr.2 hi, ht, withRef_queue, ← ht, hat, hto]
    refine if_congr (and_congr_right fun hd => ?_) rfl rfl
    subst hd
    rw [← hat, htr, hat, hz, nextRef_self, nextRef_zero]
  · refine hspec.best hn fun d => ?_
    rw [ht, (withRef_levels s _ d _).1, (withRef_levels s _ d _).2]
    exact hb d

/-- An insertion through a re-centre, which does not visit the order itself. -/
theorem insertOrder_recentred (b : Build) (it : IterOrder n) (hnd : s.liveSlots.Nodup)
    (ho : o ∉ s.liveSlots)
    (hprices : ∀ p ∈ s.liveSlots, (s.order p).side = (s.sideAt o).byte →
      (s.order p).price.toNat < 2 ^ 31)
    (href : (s.sides (s.sideAt o)).ref.toNat < 2 ^ 31) (hlt : (s.order o).price.toNat < 2 ^ 31)
    (hr : Recentres (s.sideAt o) (s.sides (s.sideAt o)).ref (s.order o).price) :
    ∃ t, Recentred (s.sideAt o) (s.cleared (s.sideAt o) (s.order o).price) t (s.visited it) ∧
      t.order o = s.order o ∧ ∃ hi : InArray (t.tickOf o),
        s.insertOrder b it o = .ok (t.inserted o (t.sideAt o) (slotOf _ hi)) := by
  obtain ⟨t, ht, hrec⟩ := recentre_spec it (s.sideAt o) (s.order o).price hnd hprices hlt
  have hto : t.order o = s.order o :=
    hrec.untouched o fun h => ho ((s.visited_perm it).mem_iff.mp h.1)
  have hat : t.sideAt o = s.sideAt o := hrec.sideAt_eq o
  have hi : InArray (t.tickOf o) := by
    unfold tickOf
    rw [hat, hrec.ref_self, hto, tick_self]
    exact inArray_zero
  refine ⟨t, hrec, hto, hi, ?_⟩
  rw [insertOrder_eq]
  exact insertOn_of_recentres href hlt hr ht hto hrec.ref_self hi

theorem Linked.insertOrder_of_recentres (b : Build) (it : IterOrder n) (h : Linked A s)
    (hA : ∀ p, p ∈ A ↔ p ∈ s.liveSlots) (hnd : s.liveSlots.Nodup) (ho : o ∉ A)
    (hside : (s.order o).side = (s.sideAt o).byte) (hpos : 0 < (s.order o).price.toNat)
    (hlt : (s.order o).price.toNat < 2 ^ 31)
    (hr : Recentres (s.sideAt o) (s.sides (s.sideAt o)).ref (s.order o).price) :
    ∃ s', s.insertOrder b it o = .ok s' ∧ InsertSpec it A o s s' := by
  have hp0 : (s.order o).price ≠ 0 := fun e => by simp [e] at hpos
  have hvis : ∀ p, p ∈ s.visited it ↔ p ∈ A := fun p =>
    (s.visited_perm it).mem_iff.trans (hA p).symm
  obtain ⟨t, hrec, hto, hi, hins⟩ := insertOrder_recentred b it hnd (fun hm => ho ((hA o).mpr hm))
    (fun p hp _ => h.price_lt p ((hA p).mpr hp)) (h.ref_lt _) hlt hr
  have hlink : Linked A t := h.of_recentred hA hp0 hlt hrec
  have hat : t.sideAt o = s.sideAt o := hrec.sideAt_eq o
  have htr : (t.sides (t.sideAt o)).ref = (s.order o).price := by rw [hat]; exact hrec.ref_self
  refine ⟨_, hins, ?_⟩
  have hspec := hlink.insertSpec_of_inArray it ho (by rw [hto, hat]; exact hside)
    (by rw [hto]; exact hpos) (by rw [hto]; exact hlt) (by rw [htr]; exact hp0) hi
  have hdata : SameData s.pool.slots t.pool.slots := hrec.frame.data
  refine ⟨hspec.linked, hspec.orderMap.trans hrec.frame.orderMap,
    hspec.isOpen.trans hrec.frame.isOpen, hspec.freeHead.trans hrec.frame.freeHead,
    hdata.trans hspec.data, fun d => ?_, fun p hp hpo => ?_, fun p hp hne => ?_, fun d hd => ?_,
    fun hnr => absurd hr hnr, fun _ d j => ?_, fun hn hb => ?_⟩
  · rw [hspec.ref, hat, hto]
    split_ifs with hd
    · subst hd
      rw [hrec.ref_self, nextRef_of_recentres hr, nextRef_self]
    · rw [hrec.sides_of_ne hd]
  · rw [hspec.outside p hp hpo]
    exact hrec.untouched p fun h' => hp ((hvis p).mp h'.1)
  · rw [hspec.other_orders p hp (by rw [hrec.sideAt_eq, hat]; exact hne)]
    refine hrec.untouched p fun h' => hne ?_
    have hb : (s.order p).side = (s.sideAt o).byte := h'.2
    rw [sideAt, hb, sideOf_byte]
  · rw [hspec.other_side d (by rw [hat]; exact hd), hrec.sides_of_ne hd]
  · rw [hspec.queue_append fun hr' => hr'.2 hi, hat, hto]
    by_cases hd : d = s.sideAt o
    · subst hd
      rw [hrec.ref_self, hrec.queue_self, nextRef_self, tick_self]
      by_cases hj : (j : ℕ) = 0 <;> simp [hj]
    · rw [if_neg fun h' => hd h'.1, if_neg hd]
      exact queue_eq (hrec.queue_of_ne h hd j)
  · exact hspec.best hn (hrec.isBest hnd hn hb)

/-- **`insert_order` links a new order**, in every build and for every iteration order. -/
theorem Linked.insertOrder (b : Build) (it : IterOrder n) (h : Linked A s)
    (hA : ∀ p, p ∈ A ↔ p ∈ s.liveSlots) (hnd : s.liveSlots.Nodup) (ho : o ∉ A)
    (hside : (s.order o).side = (s.sideAt o).byte) (hpos : 0 < (s.order o).price.toNat)
    (hlt : (s.order o).price.toNat < 2 ^ 31) :
    ∃ s', s.insertOrder b it o = .ok s' ∧ InsertSpec it A o s s' := by
  by_cases hz : (s.sides (s.sideAt o)).ref = 0
  · exact h.insertOrder_of_ref_zero b it ho hside hpos hlt hz
  by_cases hi : InArray (s.tickOf o)
  · rw [insertOrder_eq]
    exact ⟨_, insertOn_of_inArray (h.ref_lt _) hlt hz hi,
      h.insertSpec_of_inArray it ho hside hpos hlt hz hi⟩
  · exact h.insertOrder_of_recentres b it hA hnd ho hside hpos hlt ⟨hz, hi⟩

end InsertOrder

end OrderBook

end L2Book
