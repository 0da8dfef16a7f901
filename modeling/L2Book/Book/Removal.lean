import L2Book.Book.Invariant

/-!
# Removals in parts

Executions and cancels that take an order's shares bit by bit end in the state that deletes it at once. The
equality needs no invariant: it holds of the results in every state, faults included.

* `takeShares`, `takeQty`, `taken`: an order, its level and the book after `reduce_shares`;
* `PriceLevel.removeOrder_taken`, **`deleteRef_taken`**: a reduction in front of a removal makes no
  difference;
* **`run_reduceBy`**: quantities that sum to the shares of an order remove it like a delete;
* **`removal_split`**: the same for messages in every reachable state.
-/

namespace L2Book

variable {n : ℕ}

theorem modify_comm {f g : Order n → Order n} (hfg : ∀ x, f (g x) = g (f x)) (h : Fin n → Order n)
    (o p : Fin n) : modify (modify h o g) p f = modify (modify h p f) o g := by
  funext q
  simp only [modify_apply]
  split_ifs <;> simp only [hfg]

theorem modify_modify (h : Fin n → Order n) (o : Fin n) (f g : Order n → Order n) :
    modify (modify h o g) o f = modify h o fun x => f (g x) := by
  unfold modify
  rw [Function.update_idem, Function.update_self]

theorem check_congr {b : Build} {c c' : Prop} [Decidable c] [Decidable c']
    (h : b = .debug → (c ↔ c')) : b.check c = b.check c' := by
  unfold Build.check
  exact if_congr (and_congr_right fun hb => not_congr (h hb)) rfl rfl

/-! ## Levels -/

/-- The order after `reduce_shares`. -/
def takeShares (h : Fin n → Order n) (o : Fin n) (qty : UInt32) : Fin n → Order n :=
  modify h o fun x => { x with shares := x.shares - qty }

/-- The level and the heap after `reduce_shares`. -/
def takeQty (o : Fin n) (qty : UInt32) (r : PriceLevel n × (Fin n → Order n)) :
    PriceLevel n × (Fin n → Order n) :=
  ({ r.1 with totalQty := r.1.totalQty - qty.toUInt64 }, takeShares r.2 o qty)

namespace PriceLevel

/-- `remove_order`: join the predecessor, or the head, with the successor. -/
def joinPrev (o : Fin n) (r : PriceLevel n × (Fin n → Order n)) : PriceLevel n × (Fin n → Order n) :=
  match (r.2 o).prev with
  | some p => (r.1, modify r.2 p fun x => { x with next := (r.2 o).next })
  | none => ({ r.1 with head := (r.2 o).next }, r.2)

/-- Join the successor, or the tail, with the predecessor. -/
def joinNext (o : Fin n) (r : PriceLevel n × (Fin n → Order n)) : PriceLevel n × (Fin n → Order n) :=
  match (r.2 o).next with
  | some q => (r.1, modify r.2 q fun x => { x with prev := (r.2 o).prev })
  | none => ({ r.1 with tail := (r.2 o).prev }, r.2)

/-- Update the counters and clear the links. -/
def uncount (o : Fin n) (r : PriceLevel n × (Fin n → Order n)) : PriceLevel n × (Fin n → Order n) :=
  ({ r.1 with totalQty := r.1.totalQty - (r.2 o).shares.toUInt64, orderCount := r.1.orderCount - 1 },
    modify r.2 o fun x => { x with next := none, prev := none })

theorem removeOrder_eq_join (b : Build) (lvl : PriceLevel n) (h : Fin n → Order n) (o : Fin n) :
    lvl.removeOrder b h o = (do
      b.check (lvl.orderCount > 0)
      b.check (lvl.totalQty ≥ (h o).shares.toUInt64)
      .ok (uncount o (joinNext o (joinPrev o (lvl, h))))) := by
  unfold removeOrder
  rfl

end PriceLevel

section Levels

variable {b : Build} {lvl : PriceLevel n} {h : Fin n → Order n} {o : Fin n} {qty : UInt32}
  {r : PriceLevel n × (Fin n → Order n)}

theorem takeShares_self : takeShares h o qty o = { h o with shares := (h o).shares - qty } :=
  modify_self ..

theorem takeShares_modify {f : Order n → Order n}
    (hf : ∀ x : Order n, f { x with shares := x.shares - qty } =
      { f x with shares := (f x).shares - qty }) (p : Fin n) :
    modify (takeShares h o qty) p f = takeShares (modify h p f) o qty := modify_comm hf h o p

theorem toUInt64_sub {a c : UInt32} (h : c ≤ a) : (a - c).toUInt64 = a.toUInt64 - c.toUInt64 := by
  have hle := UInt32.le_iff_toNat_le.mp h
  have hle64 : c.toUInt64 ≤ a.toUInt64 := by
    rw [UInt64.le_iff_toNat_le, UInt32.toNat_toUInt64, UInt32.toNat_toUInt64]
    exact hle
  rw [← UInt64.toNat_inj, UInt64.toNat_sub_of_le _ _ hle64, UInt32.toNat_toUInt64,
    UInt32.toNat_toUInt64, UInt32.toNat_toUInt64, UInt32.toNat_sub_of_le _ _ h]

theorem joinPrev_takeQty :
    PriceLevel.joinPrev o (takeQty o qty r) = takeQty o qty (PriceLevel.joinPrev o r) := by
  unfold PriceLevel.joinPrev takeQty
  simp only [takeShares_self]
  cases (r.2 o).prev with
  | none => rfl
  | some p =>
    simp only
    rw [takeShares_modify (f := fun x => { x with next := (r.2 o).next }) fun _ => rfl]

theorem joinNext_takeQty :
    PriceLevel.joinNext o (takeQty o qty r) = takeQty o qty (PriceLevel.joinNext o r) := by
  unfold PriceLevel.joinNext takeQty
  simp only [takeShares_self]
  cases (r.2 o).next with
  | none => rfl
  | some p =>
    simp only
    rw [takeShares_modify (f := fun x => { x with prev := (r.2 o).prev }) fun _ => rfl]

theorem joinPrev_shares : ((PriceLevel.joinPrev o r).2 o).shares = (r.2 o).shares := by
  unfold PriceLevel.joinPrev
  cases (r.2 o).prev with
  | none => rfl
  | some p =>
    simp only [modify_apply]
    split_ifs <;> rfl

theorem joinNext_shares : ((PriceLevel.joinNext o r).2 o).shares = (r.2 o).shares := by
  unfold PriceLevel.joinNext
  cases (r.2 o).next with
  | none => rfl
  | some p =>
    simp only [modify_apply]
    split_ifs <;> rfl

/-- What the order has left and what the level has lost cancel. -/
theorem uncount_takeQty (hq : qty ≤ (r.2 o).shares) :
    PriceLevel.uncount o (takeQty o qty r) =
      ((PriceLevel.uncount o r).1, takeShares (PriceLevel.uncount o r).2 o qty) := by
  unfold PriceLevel.uncount takeQty
  simp only [takeShares_self]
  rw [toUInt64_sub hq, sub_sub, add_sub_cancel,
    takeShares_modify (f := fun x => { x with next := none, prev := none }) fun _ => rfl]

/-- **A reduction in front of an unlinking** is seen in the order's shares only. -/
theorem removeOrder_takeQty (hq : qty ≤ (h o).shares)
    (hqty : b = .debug → qty.toUInt64 ≤ lvl.totalQty) :
    (takeQty o qty (lvl, h)).1.removeOrder b (takeShares h o qty) o =
      (lvl.removeOrder b h o).map fun r => (r.1, takeShares r.2 o qty) := by
  have hcheck : b.check ((takeQty o qty (lvl, h)).1.totalQty ≥
      (takeShares h o qty o).shares.toUInt64) = b.check (lvl.totalQty ≥ (h o).shares.toUInt64) := by
    refine check_congr fun hd => ?_
    have hle := UInt64.le_iff_toNat_le.mp (hqty hd)
    have hle' : qty.toUInt64 ≤ (h o).shares.toUInt64 := by
      rw [UInt64.le_iff_toNat_le, UInt32.toNat_toUInt64, UInt32.toNat_toUInt64]
      exact UInt32.le_iff_toNat_le.mp hq
    have hleNat := UInt64.le_iff_toNat_le.mp hle'
    rw [takeShares_self, toUInt64_sub hq, takeQty, ge_iff_le, ge_iff_le, UInt64.le_iff_toNat_le,
      UInt64.le_iff_toNat_le, UInt64.toNat_sub_of_le _ _ (hqty hd), UInt64.toNat_sub_of_le _ _ hle']
    omega
  have hjoin : qty ≤ ((PriceLevel.joinNext o (PriceLevel.joinPrev o (lvl, h))).2 o).shares := by
    rw [joinNext_shares, joinPrev_shares]
    exact hq
  have hend := uncount_takeQty hjoin
  rw [← joinNext_takeQty, ← joinPrev_takeQty] at hend
  rw [PriceLevel.removeOrder_eq_join, PriceLevel.removeOrder_eq_join, hcheck]
  change (b.check (lvl.orderCount > 0) >>= fun _ => b.check (lvl.totalQty ≥ (h o).shares.toUInt64) >>=
    fun _ => Except.ok (PriceLevel.uncount o (PriceLevel.joinNext o (PriceLevel.joinPrev o
      (takeQty o qty (lvl, h)))))) = _
  rw [hend]
  cases b.check (lvl.orderCount > 0) with
  | error e => rfl
  | ok _ => cases b.check (lvl.totalQty ≥ (h o).shares.toUInt64) <;> rfl

end Levels

namespace OrderBook

/-! ## Books -/

/-- The book after `reduce_shares`. -/
def taken (s : OrderBook n) (d : Side) (i : Fin kLevels) (o : Fin n) (qty : UInt32) : OrderBook n :=
  s.setLevel d i (takeQty o qty ((s.sides d).levels i, s.pool.slots))

/-- What `remove_order` does after the level has given the order up. -/
def unlinkedAt (s : OrderBook n) (o : Fin n) (i : Fin kLevels) (r : PriceLevel n × (Fin n → Order n)) :
    OrderBook n :=
  let d := sideOf (s.order o).side
  let idx := (s.order o).levelIdx
  let s := s.setLevel d i r
  let s := if idx = (s.sides d).bestIdx ∧ ((s.sides d).levels i).empty then advanceBest d s else s
  s.modifyOrder o fun x => { x with levelIdx := -1 }

section Taken

variable {b : Build} {s : OrderBook n} {i : Fin kLevels} {o : Fin n} {r : UInt64} {qty : UInt32}

theorem setLevel_setLevel (s : OrderBook n) (d : Side) (i : Fin kLevels)
    (r r' : PriceLevel n × (Fin n → Order n)) :
    (s.setLevel d i r).setLevel d i r' = s.setLevel d i r' := by
  unfold setLevel
  simp only [Function.update_self, Function.update_idem]

theorem taken_order_self (d : Side) : (s.taken d i o qty).order o =
    { s.order o with shares := (s.order o).shares - qty } := takeShares_self

theorem taken_level_self (d : Side) : ((s.taken d i o qty).sides d).levels i =
    (takeQty o qty ((s.sides d).levels i, s.pool.slots)).1 := by
  rw [taken, setLevel_levels, if_pos ⟨rfl, rfl⟩]

theorem eraseFree_modifyOrder (s : OrderBook n) (r : UInt64) (o : Fin n) (f : Order n → Order n) :
    (s.modifyOrder o f).eraseFree r o = s.eraseFree r o := by
  unfold eraseFree modifyOrder OrderPool.free
  simp only [modify_modify]

theorem reduceShares_eq_taken (hpos : (s.order o).levelIdx ≥ 0)
    (hi : levelAt (s.order o).levelIdx = .ok i) :
    s.reduceShares b o qty = (b.check (qty ≤ (s.order o).shares ∧
      qty.toUInt64 ≤ ((s.sides (s.sideAt o)).levels i).totalQty)).map
        fun _ => s.taken (s.sideAt o) i o qty := by
  unfold reduceShares PriceLevel.reduceShares
  rw [check_ok fun _ => hpos, hi]
  simp only [ok_bind]
  change (b.check (qty ≤ (s.order o).shares ∧
    qty.toUInt64 ≤ ((s.sides (s.sideAt o)).levels i).totalQty) >>= _) >>= _ = _
  cases b.check (qty ≤ (s.order o).shares ∧
    qty.toUInt64 ≤ ((s.sides (s.sideAt o)).levels i).totalQty) <;> rfl

theorem removeOrder_eq_unlinkedAt (hi : levelAt (s.order o).levelIdx = .ok i) :
    s.removeOrder b o = (b.check ((s.order o).levelIdx ≥ 0) >>= fun _ =>
      (((s.sides (s.sideAt o)).levels i).removeOrder b s.pool.slots o).map (s.unlinkedAt o i)) := by
  unfold removeOrder
  simp only
  rw [hi]
  change (b.check ((s.order o).levelIdx ≥ 0) >>= fun _ =>
    ((s.sides (s.sideAt o)).levels i).removeOrder b s.pool.slots o >>= fun r =>
      Except.ok (s.unlinkedAt o i r)) = _
  cases b.check ((s.order o).levelIdx ≥ 0) with
  | error e => rfl
  | ok _ => cases ((s.sides (s.sideAt o)).levels i).removeOrder b s.pool.slots o <;> rfl

theorem unlinkedAt_taken (r : PriceLevel n × (Fin n → Order n)) :
    (s.taken (s.sideAt o) i o qty).unlinkedAt o i (r.1, takeShares r.2 o qty) =
      (s.unlinkedAt o i r).modifyOrder o fun x => { x with shares := x.shares - qty } := by
  have hlevel : s.setLevel (s.sideAt o) i (r.1, takeShares r.2 o qty) =
      (s.setLevel (s.sideAt o) i r).modifyOrder o fun x => { x with shares := x.shares - qty } := rfl
  have hswap : ∀ t : OrderBook n, (t.modifyOrder o fun x => { x with shares := x.shares - qty }).modifyOrder
      o (fun x => { x with levelIdx := -1 }) =
        (t.modifyOrder o fun x => { x with levelIdx := -1 }).modifyOrder o
          fun x => { x with shares := x.shares - qty } := by
    intro t
    unfold modifyOrder
    rw [modify_comm (f := fun x => { x with levelIdx := -1 })
      (g := fun x => { x with shares := x.shares - qty }) fun _ => rfl]
  unfold unlinkedAt
  rw [taken_order_self]
  simp only
  rw [show sideOf (s.order o).side = s.sideAt o from rfl, taken, setLevel_setLevel, hlevel]
  have hsides : ((s.setLevel (s.sideAt o) i r).modifyOrder o
      fun x => { x with shares := x.shares - qty }).sides = (s.setLevel (s.sideAt o) i r).sides := rfl
  rw [hsides]
  split_ifs
  · exact hswap (advanceBest (s.sideAt o) (s.setLevel (s.sideAt o) i r))
  · exact hswap (s.setLevel (s.sideAt o) i r)

theorem removeOrder_taken (hi : levelAt (s.order o).levelIdx = .ok i) (hq : qty ≤ (s.order o).shares)
    (hqty : b = .debug → qty.toUInt64 ≤ ((s.sides (s.sideAt o)).levels i).totalQty) :
    (s.taken (s.sideAt o) i o qty).removeOrder b o = (s.removeOrder b o).map
      fun t => t.modifyOrder o fun x => { x with shares := x.shares - qty } := by
  have hlevel := removeOrder_takeQty (h := s.pool.slots) hq hqty
  have hi' : levelAt ((s.taken (s.sideAt o) i o qty).order o).levelIdx = .ok i := by
    rw [taken_order_self]
    exact hi
  have hat : (s.taken (s.sideAt o) i o qty).sideAt o = s.sideAt o := by
    rw [sideAt, taken_order_self]
    rfl
  rw [removeOrder_eq_unlinkedAt hi, removeOrder_eq_unlinkedAt hi', hat, taken_level_self, taken_order_self]
  change (b.check ((s.order o).levelIdx ≥ 0) >>= fun _ =>
    ((takeQty o qty ((s.sides (s.sideAt o)).levels i, s.pool.slots)).1.removeOrder b
      (takeShares s.pool.slots o qty) o).map _) = _
  rw [hlevel]
  cases b.check ((s.order o).levelIdx ≥ 0) with
  | error e => rfl
  | ok _ =>
    cases ((s.sides (s.sideAt o)).levels i).removeOrder b s.pool.slots o with
    | error e => rfl
    | ok r => exact congrArg Except.ok (unlinkedAt_taken r)

/-- **A reduction in front of a delete makes no difference.** -/
theorem deleteRef_taken (hr : s.orderMap.lookup r = some o) (hi : levelAt (s.order o).levelIdx = .ok i)
    (hq : qty ≤ (s.order o).shares)
    (hqty : b = .debug → qty.toUInt64 ≤ ((s.sides (s.sideAt o)).levels i).totalQty) :
    (s.taken (s.sideAt o) i o qty).deleteRef b r = s.deleteRef b r := by
  have hr' : (s.taken (s.sideAt o) i o qty).orderMap.lookup r = some o := hr
  unfold deleteRef
  simp only [hr, hr', removeOrder_taken hi hq hqty]
  cases s.removeOrder b o with
  | error e => rfl
  | ok t => exact congrArg Except.ok (eraseFree_modifyOrder t r o _)

/-! ## Sequences of reductions -/

theorem removeOrder_of_not_inArray (hi : ¬ InArray (s.order o).levelIdx) :
    s.removeOrder b o = (b.check ((s.order o).levelIdx ≥ 0) >>= fun _ => .error .outOfBounds) := by
  unfold removeOrder
  simp only
  rw [levelAt_of_not_mem hi]
  rfl

theorem reduceShares_of_not_inArray (hi : ¬ InArray (s.order o).levelIdx) :
    s.reduceShares b o qty = (b.check ((s.order o).levelIdx ≥ 0) >>= fun _ => .error .outOfBounds) := by
  unfold reduceShares
  simp only
  rw [levelAt_of_not_mem hi]
  rfl

/-- A total below the shares of the order is caught by an assertion in either way. -/
theorem removeOrder_of_total_lt (hin : InArray (s.order o).levelIdx)
    (hlt : ((s.sides (s.sideAt o)).levels (slotOf _ hin)).totalQty < (s.order o).shares.toUInt64) :
    s.removeOrder .debug o = .error .assertion := by
  have hcount : ∀ c : Prop, [Decidable c] → Build.debug.check c = .ok () ∨
      Build.debug.check c = .error .assertion := by
    intro c _
    unfold Build.check
    split_ifs
    · exact .inr rfl
    · exact .inl rfl
  have htotal : Build.debug.check (((s.sides (s.sideAt o)).levels (slotOf _ hin)).totalQty ≥
      (s.pool.slots o).shares.toUInt64) = .error .assertion := if_pos ⟨rfl, UInt64.not_le.mpr hlt⟩
  rw [removeOrder_eq_unlinkedAt (levelAt_of_mem hin), check_ok fun _ => hin.1, ok_bind,
    PriceLevel.removeOrder_eq_join, htotal]
  rcases hcount (((s.sides (s.sideAt o)).levels (slotOf _ hin)).orderCount > 0) with h | h <;> rw [h] <;> rfl

theorem deleteRef_eq (hr : s.orderMap.lookup r = some o) :
    s.deleteRef b r = (s.removeOrder b o >>= fun t => .ok (t.eraseFree r o)) := by
  simp only [deleteRef, hr]

/-- **A reduction returns and is absorbed by a delete, or fails as the delete does.** -/
theorem reduceShares_absorbed (hr : s.orderMap.lookup r = some o) (hq : qty ≤ (s.order o).shares) :
    (∃ i, s.reduceShares b o qty = .ok (s.taken (s.sideAt o) i o qty) ∧
      (s.taken (s.sideAt o) i o qty).deleteRef b r = s.deleteRef b r) ∨
      ∃ e, s.reduceShares b o qty = .error e ∧ s.deleteRef b r = .error e := by
  rw [deleteRef_eq hr]
  by_cases hin : InArray (s.order o).levelIdx
  · have hi := levelAt_of_mem hin
    rw [reduceShares_eq_taken hin.1 hi]
    by_cases hqty : b = .debug → qty.toUInt64 ≤ ((s.sides (s.sideAt o)).levels (slotOf _ hin)).totalQty
    · refine .inl ⟨slotOf _ hin, ?_, ?_⟩
      · rw [check_ok fun hd => ⟨hq, hqty hd⟩]
        rfl
      · rw [deleteRef_taken hr hi hq hqty, deleteRef_eq hr]
    · push Not at hqty
      obtain ⟨rfl, hlt⟩ := hqty
      have hle : qty.toUInt64 ≤ (s.order o).shares.toUInt64 := by
        rw [UInt64.le_iff_toNat_le, UInt32.toNat_toUInt64, UInt32.toNat_toUInt64]
        exact UInt32.le_iff_toNat_le.mp hq
      have hcheck : Build.debug.check (qty ≤ (s.order o).shares ∧ qty.toUInt64 ≤
          ((s.sides (s.sideAt o)).levels (slotOf _ hin)).totalQty) = .error .assertion :=
        if_pos ⟨rfl, fun h => hlt h.2⟩
      refine .inr ⟨.assertion, ?_, ?_⟩
      · rw [hcheck]
        rfl
      · rw [removeOrder_of_total_lt hin (UInt64.lt_of_lt_of_le (UInt64.not_le.mp hlt) hle)]
        rfl
  · rw [reduceShares_of_not_inArray hin, removeOrder_of_not_inArray hin]
    cases b.check ((s.order o).levelIdx ≥ 0) with
    | error e => exact .inr ⟨e, rfl, rfl⟩
    | ok _ => exact .inr ⟨.outOfBounds, rfl, rfl⟩

theorem reduceBy_eq (hr : s.orderMap.lookup r = some o) :
    s.reduceBy b r qty = (s.reduceShares b o qty >>= fun t =>
      if (t.order o).shares = 0 then t.removeOrder b o >>= fun t' => .ok (t'.eraseFree r o)
      else .ok t) := by
  simp only [reduceBy, hr]

theorem reduceBy_all (hr : s.orderMap.lookup r = some o) :
    s.reduceBy b r (s.order o).shares = s.deleteRef b r := by
  rw [reduceBy_eq hr]
  rcases reduceShares_absorbed (b := b) hr (UInt32.le_refl _) with ⟨i, hs, hdel⟩ | ⟨e, hs, hdel⟩
  · have hz : ((s.taken (s.sideAt o) i o (s.order o).shares).order o).shares = 0 := by
      rw [taken_order_self]
      exact sub_self _
    have hr' : (s.taken (s.sideAt o) i o (s.order o).shares).orderMap.lookup r = some o := hr
    rw [hs, ok_bind, if_pos hz, ← hdel, deleteRef_eq hr']
  · rw [hs, hdel]
    rfl

theorem reduceBy_some (hr : s.orderMap.lookup r = some o) (hq : qty < (s.order o).shares) :
    (∃ t, s.reduceBy b r qty = .ok t ∧ t.orderMap.lookup r = some o ∧
      (t.order o).shares.toNat = (s.order o).shares.toNat - qty.toNat ∧
      t.deleteRef b r = s.deleteRef b r) ∨
      ∃ e, s.reduceBy b r qty = .error e ∧ s.deleteRef b r = .error e := by
  have hlt := UInt32.lt_iff_toNat_lt.mp hq
  have hle : qty ≤ (s.order o).shares := UInt32.le_iff_toNat_le.mpr hlt.le
  rw [reduceBy_eq hr]
  rcases reduceShares_absorbed (b := b) hr hle with ⟨i, hs, hdel⟩ | ⟨e, hs, hdel⟩
  · have hshares : ((s.taken (s.sideAt o) i o qty).order o).shares.toNat =
        (s.order o).shares.toNat - qty.toNat := by
      rw [taken_order_self, UInt32.toNat_sub_of_le _ _ hle]
    have hz : ((s.taken (s.sideAt o) i o qty).order o).shares ≠ 0 := by
      intro h
      rw [h] at hshares
      exact absurd hshares.symm (by simp; omega)
    refine .inl ⟨s.taken (s.sideAt o) i o qty, ?_, hr, hshares, hdel⟩
    rw [hs, ok_bind, if_neg hz]
  · exact .inr ⟨e, by rw [hs]; rfl, hdel⟩

theorem run_reduceBy_of_none (hr : s.orderMap.lookup r = none) (qs : List UInt32) :
    run (fun s qty => s.reduceBy b r qty) s qs = .ok s := by
  induction qs with
  | nil => rfl
  | cons qty qs ih =>
    have hstep : s.reduceBy b r qty = .ok s := by simp only [reduceBy, hr]
    rw [run_cons_of_ok hstep, ih]

/-- **Any split of a full removal is a delete**, in every state: the quantities may be zero, and those behind
the last share meet a reference that is gone. -/
theorem run_reduceBy (hr : s.orderMap.lookup r = some o) (hpos : 0 < (s.order o).shares.toNat)
    (qs : List UInt32) (hsum : (qs.map UInt32.toNat).sum = (s.order o).shares.toNat) :
    run (fun s qty => s.reduceBy b r qty) s qs = s.deleteRef b r := by
  induction qs generalizing s with
  | nil => exact absurd hsum hpos.ne
  | cons qty qs ih =>
    rw [List.map_cons, List.sum_cons] at hsum
    rw [run_cons]
    by_cases hq : qty < (s.order o).shares
    · have hlt := UInt32.lt_iff_toNat_lt.mp hq
      rcases reduceBy_some (b := b) hr hq with ⟨t, hs, hr', hshares, hdel⟩ | ⟨e, hs, hdel⟩
      · rw [hs, ok_bind, ih hr' (by omega) (by omega), hdel]
      · rw [hs, hdel]
        rfl
    · have hge := UInt32.le_iff_toNat_le.mp (UInt32.not_lt.mp hq)
      have hall : qty = (s.order o).shares := UInt32.toNat_inj.mp (by omega)
      rw [hall, reduceBy_all hr, deleteRef_eq hr]
      cases s.removeOrder b o with
      | error e => rfl
      | ok t => exact run_reduceBy_of_none (AList.lookup_erase r _) qs

end Taken

/-! ## Messages -/

/-- The quantity of an execution or a cancel. -/
def reducedQty : Event → UInt32
  | .reduce _ qty => qty
  | _ => 0

theorem replay_reductions {b : Build} (s : OrderBook n) {r : UInt64} {ms : List (Input n)}
    (hms : ∀ x ∈ ms, ∃ qty, x.1.event = .reduce r qty) :
    s.replay b ms =
      run (fun s qty => s.reduceBy b r qty) s (ms.map fun x => reducedQty x.1.event) := by
  induction ms generalizing s with
  | nil => rfl
  | cons x ms ih =>
    obtain ⟨qty, hx⟩ := hms x List.mem_cons_self
    have hstep : s.dispatch b x.2 x.1 = s.reduceBy b r (reducedQty x.1.event) := by
      rw [dispatch_eq_apply, hx]
      rfl
    rw [List.map_cons, run_cons, replay, run_cons, hstep]
    exact bind_congr fun t => ih t fun y hy => hms y (List.mem_cons_of_mem _ hy)

/-- **Any split of a full removal equals one delete.** In every state that a well-formed feed reaches, for
every live order that lies in a level and has shares left, any sequence of executions and cancels of it whose
quantities sum to these shares has the result of a single delete: the same state, field by field. -/
theorem removal_split (b : Build) {feed : List (Input n)} (hw : WellFormed feed) {s : OrderBook n}
    (hs : (OrderBook.init n).replay b feed = .ok s) {r : UInt64} {o : Fin n}
    (hr : s.orderMap.lookup r = some o) (hidx : 0 ≤ (s.order o).levelIdx)
    (hshares : 1 ≤ (s.order o).shares.toNat) (ms : List (Input n))
    (hms : ∀ x ∈ ms, ∃ qty, x.1.event = .reduce r qty)
    (hsum : (ms.map fun x => (reducedQty x.1.event).toNat).sum = (s.order o).shares.toNat)
    (x : Input n) (hx : x.1.event = .delete r) :
    s.replay b ms = s.dispatch b x.2 x.1 ∧
      ((b = .debug → n < 2 ^ 32) → ∃ s', s.replay b ms = .ok s' ∧ s.dispatch b x.2 x.1 = .ok s') := by
  have hdel : s.dispatch b x.2 x.1 = s.deleteRef b r := by
    rw [dispatch_eq_apply, hx]
    rfl
  have heq : s.replay b ms = s.dispatch b x.2 x.1 := by
    rw [replay_reductions s hms, hdel]
    refine run_reduceBy hr hshares _ ?_
    rw [List.map_map]
    exact hsum
  refine ⟨heq, fun hb => ?_⟩
  have hsim := sim_init.of_replay hw hs
  have hin := (hsim.rep.linked.levelIdx_nonneg (mem_liveSet.mpr ⟨r, hr⟩)).mp hidx
  obtain ⟨t, ht, -⟩ := hsim.rep.remove hb hr hin
  refine ⟨t.eraseFree r o, ?_, ?_⟩
  · rw [heq, hdel, deleteRef_eq hr, ht]
    rfl
  · rw [hdel, deleteRef_eq hr, ht]
    rfl

/-- An execution of three shares, one of none at another price, and a cancel of seven. -/
def threeParts (ref : UInt64) : List (Input 2) :=
  [(.executeOrder ⟨'E'.toUInt8, 0, 0, .replicate 6 0, be64 ref, be32 3, 0⟩, .newest 2),
    (.executeOrderWithPrice ⟨'C'.toUInt8, 0, 0, .replicate 6 0, be64 ref, be32 0, 0, 'Y'.toUInt8, 0⟩,
      .oldest 2),
    (.cancelOrder ⟨'X'.toUInt8, 0, 0, .replicate 6 0, be64 ref, be32 7⟩, .newest 2)]

theorem threeParts_reduces (ref : UInt64) (h : be64 (be64 ref) = ref) :
    ∀ x ∈ threeParts ref, ∃ qty, x.1.event = .reduce ref qty := by
  simp only [threeParts, List.forall_mem_cons, ParsedMessage.event, h]
  exact ⟨⟨_, rfl⟩, ⟨_, rfl⟩, ⟨_, rfl⟩, nofun⟩

theorem removal_split_sampleFeed : ∃ s s', (OrderBook.init 2).replay .debug (sampleFeed.take 2) = .ok s ∧
    s.replay .debug (threeParts 1) = .ok s' ∧ s.dispatch .debug (.newest 2) (delMsg 1) = .ok s' := by
  have hw : WellFormed (sampleFeed.take 2) := Guided.of_isPrefix wellFormed_sampleFeed (List.take_prefix ..)
  obtain ⟨s, hs⟩ : ∃ s, (OrderBook.init 2).replay .debug (sampleFeed.take 2) = .ok s := ⟨_, rfl⟩
  have hstate : s.orderMap.lookup 1 = some 0 ∧ (s.order 0).levelIdx = 0 ∧ (s.order 0).shares = 10 := by
    cases hs
    exact ⟨rfl, rfl, rfl⟩
  obtain ⟨hlookup, hidx, hshares⟩ := hstate
  have hsum : ((threeParts 1).map fun x => (reducedQty x.1.event).toNat).sum =
      (s.order 0).shares.toNat := by
    rw [hshares]
    decide
  obtain ⟨-, hret⟩ := removal_split .debug hw hs hlookup hidx.ge (by rw [hshares]; decide)
    (threeParts 1) (threeParts_reduces 1 (by decide)) hsum (delMsg 1, .newest 2) rfl
  obtain ⟨s', hparts, hdel⟩ := hret fun _ => by decide
  exact ⟨s, s', hs, hparts, hdel⟩

end OrderBook

end L2Book
