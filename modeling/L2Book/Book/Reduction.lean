import L2Book.Book.Effects
import L2Book.Book.Window

/-!
# Executions and cancels in a release build

The assertion that an execution takes at most what is there is compiled out, and the subtractions wrap.

* `levelSum`: the exact sum of the shares of a level;
* `OnlyReduces`: no order and no level grows, and the totals stay exact;
* `reduceBy_within`, `reduceBy_beyond`: quantities up to the order's shares and larger ones;
* **`reduction_iff`**: the message only reduces exactly if its quantity is at most what is there.
-/

namespace L2Book

namespace OrderBook

variable {n : ℕ}

/-- The sum of the shares of the orders linked in a level. -/
def levelSum (s : OrderBook n) (d : Side) (i : Fin kLevels) : ℕ := sharesSum s.pool.slots (s.queue d i)

/-- **Nothing grows**: no live order's shares and no level's total are greater than before, and every total
is the sum of its orders' shares. -/
structure OnlyReduces (s s' : OrderBook n) : Prop where
  shares : ∀ r p', s'.orderMap.lookup r = some p' →
    ∃ p, s.orderMap.lookup r = some p ∧ (s'.order p').shares ≤ (s.order p).shares
  total : ∀ d i, ((s'.sides d).levels i).totalQty ≤ ((s.sides d).levels i).totalQty
  sum : ∀ d i, ((s'.sides d).levels i).totalQty.toNat = s'.levelSum d i

/-! ## Sums of levels -/

section Sums

variable {s s' : OrderBook n} {o : Fin n}

theorem Rep.totalQty_eq (h : Rep s) (d : Side) (i : Fin kLevels) :
    ((s.sides d).levels i).totalQty = UInt64.ofNat (s.levelSum d i) := (h.linked.level d i).qty

theorem Rep.totalQty_exact_iff (h : Rep s) (d : Side) (i : Fin kLevels) :
    ((s.sides d).levels i).totalQty.toNat = s.levelSum d i ↔ s.levelSum d i < 2 ^ 64 := by
  rw [h.totalQty_eq, UInt64.toNat_ofNat', Nat.mod_eq_iff_lt (by decide)]

theorem Rep.levelSum_lt (h : Rep s) (hn : n ≤ 2 ^ 32) (d : Side) (i : Fin kLevels) :
    s.levelSum d i < 2 ^ 64 := by
  have hlen := (h.linked.level d i).length_le
  have hsum := sharesSum_le s.pool.slots (s.queue d i)
  unfold levelSum
  calc
    sharesSum s.pool.slots (s.queue d i) ≤ (s.queue d i).length * (2 ^ 32 - 1) := hsum
    _ ≤ 2 ^ 32 * (2 ^ 32 - 1) := Nat.mul_le_mul_right _ (hlen.trans hn)
    _ < 2 ^ 64 := by decide

theorem ReduceSpec.levelSum {qty : UInt32} (h : Rep s) (hs : ReduceSpec s o qty s')
    (hq : qty ≤ (s.order o).shares) (d : Side) (i : Fin kLevels) :
    ∃ k, k < 2 ^ 64 ∧ s.levelSum d i = s'.levelSum d i + k := by
  unfold OrderBook.levelSum
  rw [hs.queue, hs.slots]
  by_cases ho : o ∈ s.queue d i
  · have hlt := qty.toNat_lt
    exact ⟨qty.toNat, by omega, (sharesSum_reduce (h.linked.level d i).list.nodup ho hq).symm⟩
  · refine ⟨0, by decide, ?_⟩
    rw [Nat.add_zero]
    refine (sharesSum_congr fun p hp => ?_).symm
    have hpo : p ≠ o := by
      rintro rfl
      exact ho hp
    rw [modify_of_ne _ hpo]

theorem RemoveSpec.levelSum {r : UInt64} (h : Rep s) (hs : RemoveSpec s r o s')
    (hz : (s.order o).shares = 0) (d : Side) (i : Fin kLevels) : s'.levelSum d i = s.levelSum d i := by
  have hnodup := (h.linked.level d i).list.nodup
  unfold OrderBook.levelSum
  rw [hs.queue]
  have hcongr : sharesSum s'.pool.slots ((s.queue d i).erase o) =
      sharesSum s.pool.slots ((s.queue d i).erase o) :=
    sharesSum_congr fun p hp => (hs.fields p fun e => hnodup.not_mem_erase (e ▸ hp)).2.1
  rw [hcongr]
  by_cases ho : o ∈ s.queue d i
  · have hz' : (s.pool.slots o).shares = 0 := hz
    rw [sharesSum_erase _ ho, hz']
    rfl
  · rw [List.erase_of_not_mem ho]

end Sums

/-! ## One message -/

section Step

variable {s : OrderBook n} {r : UInt64} {o : Fin n} {qty : UInt32}

theorem reduceBy_within (h : Rep s) (hr : s.orderMap.lookup r = some o) (hi : InArray (s.tickOf o))
    (hq : qty ≤ (s.order o).shares) :
    ∃ s', s.reduceBy .release r qty = .ok s' ∧ Rep s' ∧
      (∀ r' p, s'.orderMap.lookup r' = some p →
        s.orderMap.lookup r' = some p ∧ (s'.order p).shares ≤ (s.order p).shares) ∧
      ∀ d i, ∃ k, k < 2 ^ 64 ∧ s.levelSum d i = s'.levelSum d i + k := by
  obtain ⟨s₁, hs₁, hred⟩ := h.reduce (b := .release) nofun hr hi hq
  have hle : ∀ p, (s₁.order p).shares ≤ (s.order p).shares := by
    intro p
    by_cases hp : p = o
    · subst hp
      rw [hred.order_self, UInt32.le_iff_toNat_le]
      simp only [UInt32.toNat_sub_of_le _ _ hq]
      exact Nat.sub_le _ _
    · rw [hred.order_of_ne hp]
      exact UInt32.le_refl _
  by_cases hz : (s₁.order o).shares = 0
  · have hr₁ : s₁.orderMap.lookup r = some o := by rw [hred.orderMap, hr]
    obtain ⟨s₂, hs₂, hrem⟩ := hred.rep.remove (b := .release) nofun hr₁
      (by rw [hred.tickOf_self]; exact hi)
    refine ⟨s₂.eraseFree r o, ?_, hrem.rep, fun r' p hp => ?_, fun d i => ?_⟩
    · simp only [reduceBy, hr, hs₁, ok_bind, hz, if_true, hs₂]
    · have hne : r' ≠ r := by
        rintro rfl
        rw [hrem.orderMap, AList.lookup_erase] at hp
        cases hp
      rw [hrem.orderMap, AList.lookup_erase_ne hne] at hp
      have hpo : p ≠ o := fun e => hne (hred.rep.lookup_inj hp (e ▸ hr₁))
      rw [(hrem.fields p hpo).2.1, ← hred.orderMap]
      exact ⟨hp, hle p⟩
    · rw [hrem.levelSum hred.rep hz]
      exact hred.levelSum h hq d i
  · refine ⟨s₁, ?_, hred.rep, fun r' p hp => ?_, hred.levelSum h hq⟩
    · simp only [reduceBy, hr, hs₁, ok_bind, hz, if_false]
    · rw [hred.orderMap] at hp
      exact ⟨hp, hle p⟩

/-- More than is there: the order stays live with more shares than before. -/
theorem reduceBy_beyond (h : Rep s) (hr : s.orderMap.lookup r = some o) (hi : InArray (s.tickOf o))
    (hq : (s.order o).shares < qty) :
    ∃ s', s.reduceBy .release r qty = .ok s' ∧ s'.orderMap.lookup r = some o ∧
      (s.order o).shares < (s'.order o).shares := by
  have hidx := h.linked.levelIdx_of_mem (mem_liveSet.mpr ⟨r, hr⟩) hi
  obtain ⟨s₁, hs₁⟩ : ∃ s₁, s.reduceShares .release o qty = .ok s₁ := by
    unfold reduceShares PriceLevel.reduceShares
    rw [hidx, levelAt_of_mem hi]
    exact ⟨_, rfl⟩
  obtain ⟨hmap, hord, -⟩ := reduceShares_ok hs₁
  have hlt := UInt32.lt_iff_toNat_lt.mp hq
  have hgrow : (s.order o).shares < (s₁.order o).shares := by
    rw [hord, UInt32.lt_iff_toNat_lt]
    simp only [UInt32.toNat_sub]
    have hqty := qty.toNat_lt
    omega
  have hne : (s₁.order o).shares ≠ 0 := by
    intro hz
    rw [hz, UInt32.lt_iff_toNat_lt] at hgrow
    exact absurd hgrow (Nat.not_lt_zero _)
  refine ⟨s₁, ?_, by rw [hmap.orderMap, hr], hgrow⟩
  simp only [reduceBy, hr, hs₁, ok_bind, hne, if_false]

/-- **One execution or cancel** on a book whose live orders all lie in the array. -/
theorem reduceBy_onlyReduces_iff (h : Rep s) (hi : ∀ p ∈ s.liveSet, InArray (s.tickOf p)) (r : UInt64)
    (qty : UInt32) :
    ∃ s', s.reduceBy .release r qty = .ok s' ∧
      (OnlyReduces s s' ↔ (∀ d i, s.levelSum d i < 2 ^ 64) ∧
        ∀ p, s.orderMap.lookup r = some p → qty ≤ (s.order p).shares) := by
  cases hr : s.orderMap.lookup r with
  | none =>
    refine ⟨s, by simp only [reduceBy, hr], ⟨fun hs => ⟨fun d i => ?_, nofun⟩, fun hs => ?_⟩⟩
    · exact (h.totalQty_exact_iff d i).mp (hs.sum d i)
    · exact ⟨fun r' p hp => ⟨p, hp, UInt32.le_refl _⟩, fun _ _ => UInt64.le_refl _,
        fun d i => (h.totalQty_exact_iff d i).mpr (hs.1 d i)⟩
  | some o =>
    have ho := hi o (mem_liveSet.mpr ⟨r, hr⟩)
    by_cases hq : qty ≤ (s.order o).shares
    · obtain ⟨s', hs', hrep, hshares, hsums⟩ := reduceBy_within h hr ho hq
      refine ⟨s', hs', ⟨fun hs => ⟨fun d i => ?_, fun p hp => ?_⟩, fun hs => ⟨?_, fun d i => ?_, ?_⟩⟩⟩
      · -- The old total is at least the new one, so it did not wrap.
        obtain ⟨k, hk, hsum⟩ := hsums d i
        have hexact := (hrep.totalQty_exact_iff d i).mp (hs.sum d i)
        have hle := UInt64.le_iff_toNat_le.mp (hs.total d i)
        rw [hs.sum, h.totalQty_eq, UInt64.toNat_ofNat', hsum] at hle
        rw [hsum]
        omega
      · cases hp
        exact hq
      · exact fun r' p hp => ⟨p, hshares r' p hp⟩
      · obtain ⟨k, hk, hsum⟩ := hsums d i
        have hold := hs.1 d i
        rw [UInt64.le_iff_toNat_le, (h.totalQty_exact_iff d i).mpr hold,
          (hrep.totalQty_exact_iff d i).mpr (by omega)]
        omega
      · intro d i
        obtain ⟨k, hk, hsum⟩ := hsums d i
        have hold := hs.1 d i
        exact (hrep.totalQty_exact_iff d i).mpr (by omega)
    · obtain ⟨s', hs', hr', hgrow⟩ := reduceBy_beyond h hr ho (UInt32.not_le.mp hq)
      refine ⟨s', hs', ⟨fun hs => ?_, fun hs => absurd (hs.2 o rfl) hq⟩⟩
      obtain ⟨p, hp, hle⟩ := hs.shares r o hr'
      rw [hr] at hp
      cases hp
      exact absurd hle (UInt32.not_le.mpr hgrow)

end Step

/-! ## After any run -/

/-- **When executions and cancels only reduce.** After a well-formed feed whose prices stay in one window a
side, a release build handles every execution and cancel. Nothing grows and the totals stay exact
if and only if the quantity is at most the shares of the order, where one is live, and no level held
`2 ^ 64` shares or more. -/
theorem reduction_iff {lo : Side → ℕ} (feed : List (Input n)) (hw : WellFormed feed)
    (hwin : Windowed lo feed) (x : Input n) {ref : UInt64} {qty : UInt32}
    (hx : x.1.event = .reduce ref qty) :
    ∃ s s', (OrderBook.init n).replay .release feed = .ok s ∧ s.dispatch .release x.2 x.1 = .ok s' ∧
      (OnlyReduces s s' ↔ (∀ d i, s.levelSum d i < 2 ^ 64) ∧
        ∀ p, s.orderMap.lookup ref = some p → qty ≤ (s.order p).shares) := by
  obtain ⟨s, hs, hsim, hheld⟩ := exists_replay_of_windowed (b := .release) nofun hw hwin
  obtain ⟨s', hs', hiff⟩ :=
    reduceBy_onlyReduces_iff hsim.rep (hsim.inArray_of_allHeld hheld) ref qty
  refine ⟨s, s', hs, ?_, hiff⟩
  rw [dispatch_eq_apply, hx]
  exact hs'

theorem levelSum_lt_of_replay {b : Build} {feed : List (Input n)} (hw : WellFormed feed) {s : OrderBook n}
    (hs : (OrderBook.init n).replay b feed = .ok s) (hn : n ≤ 2 ^ 32) (d : Side) (i : Fin kLevels) :
    s.levelSum d i < 2 ^ 64 :=
  (sim_init.of_replay hw hs).rep.levelSum_lt hn d i

/-- A bid of ten shares. -/
def tenShares : List (Input 1) :=
  [(sysMsg 'O'.toUInt8, .newest 1), (addMsg 1 'B'.toUInt8 10 100, .newest 1)]

/-- A cancel of some of them. -/
def cancelShares (qty : UInt32) : Input 1 :=
  (.cancelOrder ⟨'X'.toUInt8, 0, 0, .replicate 6 0, be64 1, be32 qty⟩, .newest 1)

theorem wellFormed_tenShares : WellFormed tenShares := by
  refine ⟨trivial, fun _ => ⟨rfl, .inl rfl, ⟨?_, ?_⟩, ?_⟩, trivial⟩ <;> decide

theorem windowed_tenShares : Windowed (fun _ => 1) tenShares := by
  refine ⟨nofun, fun ref d price h => ?_, trivial⟩
  cases h
  exact ⟨by decide, by decide⟩

/-- Eleven shares are cancelled: the order is left with `2 ^ 32 - 1`. -/
theorem cancel_beyond : WellFormed tenShares ∧ Windowed (fun _ => 1) tenShares ∧
    ∃ s s', (OrderBook.init 1).replay .release tenShares = .ok s ∧
      s.dispatch .release (cancelShares 11).2 (cancelShares 11).1 = .ok s' ∧ ¬ OnlyReduces s s' := by
  refine ⟨wellFormed_tenShares, windowed_tenShares, _, _, rfl, rfl, fun h => ?_⟩
  obtain ⟨p, hp, hle⟩ := h.shares 1 0 rfl
  cases hp
  exact absurd hle (by decide)

theorem reduction_iff_tenShares : ∃ s s', (OrderBook.init 1).replay .release tenShares = .ok s ∧
    s.dispatch .release (cancelShares 3).2 (cancelShares 3).1 = .ok s' ∧ OnlyReduces s s' := by
  obtain ⟨s, s', hs, hs', hiff⟩ := reduction_iff tenShares wellFormed_tenShares windowed_tenShares
    (cancelShares 3) (rfl : (cancelShares 3).1.event = .reduce 1 3)
  have hqty : ∀ p, s.orderMap.lookup 1 = some p → (3 : UInt32) ≤ (s.order p).shares := by
    cases hs
    intro p hp
    cases hp
    decide
  exact ⟨s, s', hs, hs', hiff.mpr ⟨levelSum_lt_of_replay wellFormed_tenShares hs (by decide), hqty⟩⟩

end OrderBook

end L2Book
