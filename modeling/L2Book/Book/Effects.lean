import L2Book.Book.Insert
import L2Book.Lib.Run

/-!
# Effects in any state

What the helpers of the book leave alone and where they move the best index, read off their bodies. No
invariant is assumed: these hold in every state in which the call returns.

* `SameMap`: the order map and the session state are unchanged;
* `insertBest`, `bestAfter`: the best index after an insertion;
* **`removeOrder_ok`**, `reduceShares_ok`, `insertOrder_ok`, `addNew_ok`: calls that returned.
-/

namespace L2Book

/-! ## The best index after an insertion -/

theorem priceIdx_self (d : Side) (price : UInt32) : priceIdx d price price = .ok 0 := by
  cases d <;> simp [priceIdx, bidIdx, askIdx, subInt]

/-- The best index after an insertion at `idx`. -/
def insertBest (best idx : ℤ) : ℤ := if best < 0 ∨ idx < best then idx else best

theorem insertBest_zero (best : ℤ) : insertBest best 0 = 0 := by
  unfold insertBest
  split_ifs with h
  · rfl
  · omega

/-- The best index after an order at `price` was inserted on a side with reference price `ref`. -/
def bestAfter (d : Side) (ref price : UInt32) (best : ℤ) : Except Fault ℤ := do
  let idx ← priceIdx d (if ref = 0 then price else ref) price
  if idx < 0 ∨ idx ≥ kLevels then .ok 0 else .ok (insertBest best idx)

namespace OrderBook

variable {n : ℕ}

/-! ## Calls that returned -/

/-- The order map and the session state are unchanged. -/
structure SameMap (s s' : OrderBook n) : Prop where
  orderMap : s'.orderMap = s.orderMap
  isOpen : s'.isOpen = s.isOpen

section Calls

variable {b : Build} {s s' : OrderBook n} {o : Fin n}

theorem SameMap.of_frame (h : Frame s s') : SameMap s s' := ⟨h.orderMap, h.isOpen⟩

theorem SameMap.trans {s'' : OrderBook n} (h : SameMap s s') (h' : SameMap s' s'') : SameMap s s'' :=
  ⟨h'.orderMap.trans h.orderMap, h'.isOpen.trans h.isOpen⟩

theorem insertAt_ok {idx : ℤ} (h : s.insertAt o idx = .ok s') :
    Frame s s' ∧ (∀ d, d ≠ s.sideAt o → s'.sides d = s.sides d) ∧
      (s'.sides (s.sideAt o)).bestIdx = insertBest (s.sides (s.sideAt o)).bestIdx idx := by
  by_cases hi : InArray idx
  · rw [insertAt_eq hi] at h
    cases h
    refine ⟨inserted_frame _ _ _ _, fun d hd => inserted_sides_of_ne _ _ _ _ hd, ?_⟩
    simp [inserted, insertBest]
  · unfold insertAt at h
    simp only [levelAt_of_not_mem hi, error_bind] at h
    cases h

theorem recentreStep_ok {d : Side} {e : Σ _ : UInt64, Fin n} (h : recentreStep d s e = .ok s') :
    Frame s s' ∧ ∀ d', d' ≠ d → s'.sides d' = s.sides d' := by
  unfold recentreStep at h
  by_cases hside : (s.order e.2).side ≠ d.byte
  · simp only [if_pos hside] at h
    cases h
    exact ⟨⟨rfl, rfl, rfl, fun _ => rfl, SameData.refl _⟩, fun _ _ => rfl⟩
  · simp only [if_neg hside] at h
    rw [← reset] at h
    have hframe := reset_frame s e.2
    obtain ⟨idx, -, h⟩ := of_bind_eq_ok h
    by_cases hi : InArray idx
    · rw [if_pos hi] at h
      obtain ⟨hins, hother, -⟩ := insertAt_ok h
      have hat : (s.reset e.2).sideAt e.2 = d := by
        rw [hframe.sideAt, sideAt, not_not.mp hside, sideOf_byte]
      exact ⟨hframe.trans hins, fun d' hd => hother d' (by rw [hat]; exact hd)⟩
    · rw [if_neg hi] at h
      cases h
      exact ⟨hframe, fun _ _ => rfl⟩

theorem recentre_ok {it : IterOrder n} {d : Side} {ref : UInt32} (h : recentre it d ref s = .ok s') :
    Frame (s.cleared d ref) s' ∧ ∀ d', d' ≠ d → s'.sides d' = s.sides d' := by
  unfold recentre at h
  rw [← cleared] at h
  have hloop : Frame (s.cleared d ref) s' ∧ ∀ d', d' ≠ d → s'.sides d' = (s.cleared d ref).sides d' := by
    refine run_invariant
      (fun t => Frame (s.cleared d ref) t ∧ ∀ d', d' ≠ d → t.sides d' = (s.cleared d ref).sides d')
      (fun t e t' ht hstep => ?_) ⟨⟨rfl, rfl, rfl, fun _ => rfl, SameData.refl _⟩, fun _ _ => rfl⟩ h
    obtain ⟨hframe, hother⟩ := recentreStep_ok hstep
    exact ⟨ht.1.trans hframe, fun d' hd => (hother d' hd).trans (ht.2 d' hd)⟩
  obtain ⟨hframe, hother⟩ := hloop
  exact ⟨hframe, fun d' hd => (hother d' hd).trans (cleared_sides_of_ne s ref hd)⟩

theorem of_check_eq_ok {α : Type} {c : Prop} [Decidable c] {f : Unit → Except Fault α} {v : α}
    (h : b.check c >>= f = .ok v) : f () = .ok v := by
  obtain ⟨u, -, h⟩ := of_bind_eq_ok h
  cases u
  exact h

theorem insertOrder_ok {it : IterOrder n} (h : s.insertOrder b it o = .ok s') :
    SameMap s s' ∧ (∀ d, d ≠ s.sideAt o → s'.sides d = s.sides d) ∧
      bestAfter (s.sideAt o) (s.sides (s.sideAt o)).ref (s.order o).price
        (s.sides (s.sideAt o)).bestIdx = .ok (s'.sides (s.sideAt o)).bestIdx := by
  rw [insertOrder_eq] at h
  set d := s.sideAt o with hd
  set t : OrderBook n := if (s.sides d).ref = 0 then s.withRef d (s.order o).price else s with ht
  have hto : t.order o = s.order o := by
    rw [ht]
    split_ifs <;> rfl
  have htref : (t.sides d).ref = if (s.sides d).ref = 0 then (s.order o).price else (s.sides d).ref := by
    rw [ht]
    split_ifs with hz
    · rw [withRef_ref, if_pos rfl]
    · rfl
  have htbest : (t.sides d).bestIdx = (s.sides d).bestIdx := by
    rw [ht]
    split_ifs with hz
    · exact (withRef_levels s d d _).2
    · rfl
  have htother : ∀ d', d' ≠ d → t.sides d' = s.sides d' := fun d' hd' => by
    rw [ht]
    split_ifs with hz
    · exact Function.update_of_ne hd' _ _
    · rfl
  have htat : t.sideAt o = d := by rw [sideAt, hto]; rfl
  have htmap : SameMap s t := by
    rw [ht]
    split_ifs <;> exact ⟨rfl, rfl⟩
  change (do
    let idx ← priceIdx d (t.sides d).ref (t.order o).price
    if idx < 0 ∨ idx ≥ kLevels then
      let s ← recentre it d (t.order o).price t
      let idx ← priceIdx d (s.sides d).ref (s.order o).price
      b.check (InArray idx)
      s.insertAt o idx
    else
      b.check (InArray idx)
      t.insertAt o idx) = Except.ok s' at h
  rw [hto] at h
  obtain ⟨idx, hidx, h⟩ := of_bind_eq_ok h
  unfold bestAfter
  rw [← htref, hidx, ok_bind, ← htbest]
  by_cases hout : idx < 0 ∨ idx ≥ kLevels
  · rw [if_pos hout] at h ⊢
    obtain ⟨t₁, ht₁, h⟩ := of_bind_eq_ok h
    obtain ⟨hframe, hother⟩ := recentre_ok ht₁
    have hprice : (t₁.order o).price = (s.order o).price := (hframe.data.price o).trans (by
      rw [← hto]; rfl)
    have href : (t₁.sides d).ref = (s.order o).price := (hframe.ref d).trans (cleared_ref_self _ _ _)
    have hat : t₁.sideAt o = d := (hframe.sideAt o).trans htat
    rw [href, hprice, priceIdx_self, ok_bind] at h
    obtain ⟨hframe', hins, hbest⟩ := insertAt_ok (of_check_eq_ok h)
    rw [hat] at hins hbest
    have hclear : SameMap t (t.cleared d (s.order o).price) := ⟨rfl, rfl⟩
    refine ⟨htmap.trans (hclear.trans (.of_frame (hframe.trans hframe'))),
      fun d' hd' => (hins d' hd').trans ((hother d' hd').trans (htother d' hd')), ?_⟩
    rw [hbest, insertBest_zero]
  · rw [if_neg hout] at h ⊢
    obtain ⟨hframe, hins, hbest⟩ := insertAt_ok (of_check_eq_ok h)
    rw [htat] at hins hbest
    refine ⟨htmap.trans (.of_frame hframe), fun d' hd' => (hins d' hd').trans (htother d' hd'), ?_⟩
    rw [hbest]

theorem removeOrder_sameData {lvl : PriceLevel n} {h : Fin n → Order n}
    {r : PriceLevel n × (Fin n → Order n)} (hr : lvl.removeOrder b h o = .ok r) : SameData h r.2 := by
  have hset : ∀ (h : Fin n → Order n) (p : Fin n) (f : Order n → Option (Fin n) × Option (Fin n)),
      SameData h (modify h p fun x => { x with next := (f x).1, prev := (f x).2 }) :=
    fun h p f => sameData_modify h p (f := fun x => { x with next := (f x).1, prev := (f x).2 })
      ⟨rfl, rfl, rfl, rfl⟩
  unfold PriceLevel.removeOrder at hr
  have hr := of_check_eq_ok (of_check_eq_ok hr)
  cases hr
  cases (h o).prev with
  | none =>
    simp only
    cases (h o).next with
    | none => exact hset h o fun _ => (none, none)
    | some q =>
      exact (hset h q fun x => (x.next, (h o).prev)).trans (hset _ o fun _ => (none, none))
  | some p =>
    have hp := hset h p fun x => ((h o).next, x.prev)
    simp only
    cases (modify h p (fun x => { x with next := (h o).next }) o).next with
    | none => exact hp.trans (hset _ o fun _ => (none, none))
    | some q =>
      exact (hp.trans (hset _ q fun x =>
        (x.next, (modify h p (fun x => { x with next := (h o).next }) o).prev))).trans
          (hset _ o fun _ => (none, none))

/-- `remove_order` moves no price, no byte and no reference price. -/
theorem removeOrder_frame (h : s.removeOrder b o = .ok s') : Frame s s' := by
  unfold OrderBook.removeOrder at h
  obtain ⟨i, -, h⟩ := of_bind_eq_ok (of_check_eq_ok h)
  obtain ⟨r, hr, h⟩ := of_bind_eq_ok h
  have hdata := removeOrder_sameData hr
  set d := sideOf (s.order o).side
  have hlevel : Frame s (s.setLevel d i r) :=
    ⟨rfl, rfl, rfl, setLevel_ref s d i r, hdata⟩
  have hbest : ∀ t : OrderBook n, Frame t (advanceBest d t) := by
    intro t
    refine ⟨rfl, rfl, rfl, fun d' => ?_, SameData.refl _⟩
    by_cases hd : d' = d
    · simp [advanceBest, setSide, hd]
    · simp [advanceBest, setSide, hd]
  have hidx : ∀ t : OrderBook n, Frame t (t.modifyOrder o fun x => { x with levelIdx := -1 }) :=
    fun t => ⟨rfl, rfl, rfl, fun _ => rfl,
      sameData_modify t.pool.slots o (f := fun x => { x with levelIdx := -1 }) ⟨rfl, rfl, rfl, rfl⟩⟩
  cases h
  refine Frame.trans ?_ (hidx _)
  split_ifs
  · exact hlevel.trans (hbest _)
  · exact hlevel

theorem removeOrder_ok (h : s.removeOrder b o = .ok s') :
    SameMap s s' ∧ (∀ d, d ≠ s.sideAt o → s'.sides d = s.sides d) ∧
      ∃ i, levelAt (s.order o).levelIdx = .ok i ∧ (s'.sides (s.sideAt o)).bestIdx =
        if (s.order o).levelIdx = (s.sides (s.sideAt o)).bestIdx ∧
            ((s'.sides (s.sideAt o)).levels i).empty = true then
          firstNonEmpty (s'.sides (s.sideAt o)).levels ((s.sides (s.sideAt o)).bestIdx + 1).toNat
        else (s.sides (s.sideAt o)).bestIdx := by
  unfold OrderBook.removeOrder at h
  obtain ⟨i, hi, h⟩ := of_bind_eq_ok (of_check_eq_ok h)
  obtain ⟨r, -, h⟩ := of_bind_eq_ok h
  set d := s.sideAt o
  change Except.ok ((if (s.order o).levelIdx = ((s.setLevel d i r).sides d).bestIdx ∧
      (((s.setLevel d i r).sides d).levels i).empty = true then advanceBest d (s.setLevel d i r)
      else s.setLevel d i r).modifyOrder o _) = Except.ok s' at h
  have hsides : s'.sides = (if (s.order o).levelIdx = ((s.setLevel d i r).sides d).bestIdx ∧
      (((s.setLevel d i r).sides d).levels i).empty = true then advanceBest d (s.setLevel d i r)
      else s.setLevel d i r).sides := by
    cases h
    rfl
  have hbest : ((s.setLevel d i r).sides d).bestIdx = (s.sides d).bestIdx := setLevel_bestIdx s d i r d
  rw [hbest] at hsides
  refine ⟨?_, fun d' hd => ?_, i, hi, ?_⟩
  · cases h
    split_ifs <;> exact ⟨rfl, rfl⟩
  · rw [hsides]
    split_ifs <;> simp [advanceBest, setSide, setLevel, hd]
  · have hlevels : (s'.sides d).levels = ((s.setLevel d i r).sides d).levels := by
      rw [hsides]
      split_ifs <;> simp [advanceBest, setSide]
    rw [hlevels, hsides]
    split_ifs
    · simp [advanceBest, setSide, hbest]
    · exact hbest

theorem reduceShares_ok {qty : UInt32} (h : s.reduceShares b o qty = .ok s') :
    SameMap s s' ∧ s'.order o = { s.order o with shares := (s.order o).shares - qty } ∧
      ∀ d, (s'.sides d).bestIdx = (s.sides d).bestIdx := by
  unfold OrderBook.reduceShares at h
  obtain ⟨i, -, h⟩ := of_bind_eq_ok (of_check_eq_ok h)
  obtain ⟨r, hr, h⟩ := of_bind_eq_ok h
  unfold PriceLevel.reduceShares at hr
  have hlevel := of_check_eq_ok hr
  cases hlevel
  cases h
  refine ⟨⟨rfl, rfl⟩, ?_, setLevel_bestIdx s _ _ _⟩
  simp only [setLevel, order, modify_self]

theorem addNew_ok {it : IterOrder n} {r : UInt64} {shares price : UInt32} {side : UInt8}
    (h : s.addNew b it r shares price side = .ok s') :
    (∃ o, s'.orderMap = s.orderMap.insert r o ∧ s'.isOpen = s.isOpen) ∧
      (∀ d, d ≠ sideOf side → s'.sides d = s.sides d) ∧
      bestAfter (sideOf side) (s.sides (sideOf side)).ref price (s.sides (sideOf side)).bestIdx =
        .ok (s'.sides (sideOf side)).bestIdx := by
  unfold addNew at h
  obtain ⟨⟨pool, o⟩, -, h⟩ := of_bind_eq_ok h
  obtain ⟨s₁, hs₁, h⟩ := of_bind_eq_ok h
  have hord : (modifyOrder { s with pool := pool } o fun x =>
      { x with orderRef := r, shares := shares, price := price, side := side }).order o =
      { pool.slots o with orderRef := r, shares := shares, price := price, side := side } := by
    simp only [modifyOrder, order, modify_self]
  cases h
  obtain ⟨hmap, hother, hbest⟩ := insertOrder_ok hs₁
  rw [sideAt, hord] at hother hbest
  refine ⟨⟨o, ?_, hmap.isOpen⟩, hother, hbest⟩
  show s₁.orderMap.insert r o = _
  rw [hmap.orderMap]
  rfl

/-- A replacement of a live order deletes it and adds the new one. -/
theorem deleteRef_of_replaceRef {it : IterOrder n} {oldRef newRef : UInt64} {shares price : UInt32}
    (hp : s.orderMap.lookup oldRef = some o)
    (h : s.replaceRef b it oldRef newRef shares price = .ok s') :
    ∃ s₁, s.deleteRef b oldRef = .ok s₁ ∧
      s₁.addNew b it newRef shares price (s.order o).side = .ok s' := by
  unfold replaceRef at h
  simp only [hp] at h
  obtain ⟨s₁, hs₁, h⟩ := of_bind_eq_ok h
  refine ⟨s₁.eraseFree oldRef o, ?_, h⟩
  unfold deleteRef
  simp only [hp, hs₁, ok_bind]

end Calls

end OrderBook

end L2Book
