import L2Book.Book.Level

/-!
# Level indices

* `tick d ref price`: the exact distance of a price from the reference price of side `d`;
  `priceIdx_eq`: below `2 ^ 31` the index arithmetic of the source computes it;
* `levelAt_of_mem`, `price_of_tick`: array access and the way back from an index to its price;
* `IsBest`: the best index is the least non-empty level, `-1` on an empty side; how insertion
  (`IsBest.insert`) and removal with a scan (`IsBest.remove`) keep it.
-/

namespace L2Book

variable {n : ℕ}

/-! ## Prices and indices -/

/-- How far `price` lies behind the reference price of side `d`. -/
def tick : Side → UInt32 → UInt32 → ℤ
  | .bid, ref, price => ref.toNat - price.toNat
  | .ask, ref, price => price.toNat - ref.toNat

theorem castInt_eq {v : UInt32} (hv : v.toNat < 2 ^ 31) : castInt v = v.toNat := by
  unfold castInt
  rw [Int32.toInt, UInt32.toBitVec_toInt32, BitVec.toInt_eq_toNat_of_lt (by simpa using by omega)]
  simp

theorem priceIdx_eq (d : Side) {ref price : UInt32} (hr : ref.toNat < 2 ^ 31)
    (hp : price.toNat < 2 ^ 31) : priceIdx d ref price = .ok (tick d ref price) := by
  cases d <;> simp only [priceIdx, bidIdx, askIdx, subInt, castInt_eq hr, castInt_eq hp, tick] <;>
    rw [if_pos (by omega)]

@[simp] theorem tick_self (d : Side) (price : UInt32) : tick d price price = 0 := by
  cases d <;> simp [tick]

theorem inArray_zero : InArray 0 := ⟨le_rfl, by simp [kLevels]⟩

theorem not_inArray {idx : ℤ} : (idx < 0 ∨ idx ≥ kLevels) ↔ ¬ InArray idx := by
  unfold InArray
  omega

theorem inArray_coe (i : Fin kLevels) : InArray (i : ℕ) := ⟨by omega, by exact_mod_cast i.2⟩

theorem toNat_lt_of_inArray {idx : ℤ} (h : InArray idx) : idx.toNat < kLevels := by
  have := h.1
  have := h.2
  omega

/-- The slot of a valid index. -/
def slotOf (idx : ℤ) (h : InArray idx) : Fin kLevels := ⟨idx.toNat, toNat_lt_of_inArray h⟩

@[simp] theorem slotOf_val {idx : ℤ} (h : InArray idx) : ((slotOf idx h : ℕ) : ℤ) = idx := by
  have := h.1
  simp only [slotOf]
  omega

theorem levelAt_of_mem {idx : ℤ} (h : InArray idx) : levelAt idx = .ok (slotOf idx h) := by
  simp [levelAt, h, slotOf]

theorem levelAt_of_not_mem {idx : ℤ} (h : ¬ InArray idx) : levelAt idx = .error .outOfBounds := by
  simp [levelAt, h]

theorem levelAt_coe (i : Fin kLevels) : levelAt (i : ℕ) = .ok i := by
  rw [levelAt_of_mem (inArray_coe i)]
  congr 1

theorem ofInt_toNat {idx : ℤ} (h : InArray idx) : ((UInt32.ofInt idx).toNat : ℤ) = idx := by
  obtain ⟨h₁, h₂⟩ := h
  have hk : (kLevels : ℤ) = 8192 := rfl
  have hmod : idx % 2 ^ 32 = idx := Int.emod_eq_of_lt h₁ (by omega)
  rw [UInt32.ofInt, hmod, UInt32.toNat_ofNat_of_lt' (by simp [UInt32.size]; omega)]
  omega

/-- **An index in the array determines its price.** -/
theorem price_of_tick {d : Side} {ref price : UInt32} (h : InArray (tick d ref price)) :
    priceFromIdx d ref (tick d ref price) = price := by
  have hi := ofInt_toNat h
  have hr := ref.toNat_lt
  have hp := price.toNat_lt
  have h₁ := h.1
  cases d with
  | bid =>
    simp only [tick] at hi h₁
    simp only [priceFromIdx, priceFromBidIdx, tick]
    rw [← UInt32.toNat_inj, UInt32.toNat_sub_of_le _ _ (UInt32.le_iff_toNat_le.mpr (by omega))]
    omega
  | ask =>
    simp only [tick] at hi h₁
    simp only [priceFromIdx, priceFromAskIdx, tick]
    rw [← UInt32.toNat_inj, UInt32.toNat_add]
    omega

/-! ## The best index -/

/-- `best` is the least index of a non-empty level, `-1` when there is none. -/
def IsBest (levels : Fin kLevels → PriceLevel n) (best : ℤ) : Prop :=
  (best = -1 ∧ ∀ i, (levels i).empty = true) ∨
    ∃ i : Fin kLevels, best = (i : ℕ) ∧ (levels i).empty = false ∧ ∀ j < i, (levels j).empty = true

theorem isBest_default : IsBest (n := n) (fun _ => {}) (-1) := .inl ⟨rfl, fun _ => rfl⟩

/-- The scan finds the best index when everything in front of it is empty. -/
theorem isBest_firstNonEmpty (levels : Fin kLevels → PriceLevel n) (i : ℕ)
    (h : ∀ j : Fin kLevels, (j : ℕ) < i → (levels j).empty = true) :
    IsBest levels (firstNonEmpty levels i) := by
  fun_induction firstNonEmpty levels i with
  | case1 i hi hempty ih =>
    refine ih fun j hj => ?_
    rcases Nat.lt_succ_iff_lt_or_eq.mp hj with hj | hj
    · exact h j hj
    · rwa [show j = ⟨i, hi⟩ from Fin.ext hj]
  | case2 i hi hempty =>
    exact .inr ⟨⟨i, hi⟩, rfl, by simpa using hempty, fun j hj => h j hj⟩
  | case3 i hi => exact .inl ⟨rfl, fun j => h j (by omega)⟩

theorem IsBest.congr {levels levels' : Fin kLevels → PriceLevel n} {best : ℤ}
    (h : IsBest levels best) (he : ∀ i, (levels' i).empty = (levels i).empty) :
    IsBest levels' best := by
  unfold IsBest at h ⊢
  simpa only [he] using h

theorem IsBest.insert {levels levels' : Fin kLevels → PriceLevel n} {best : ℤ} {i : Fin kLevels}
    (h : IsBest levels best) (hne : ∀ j, j ≠ i → levels' j = levels j)
    (hi : (levels' i).empty = false) :
    IsBest levels' (if best < 0 ∨ ((i : ℕ) : ℤ) < best then (i : ℕ) else best) := by
  rcases h with ⟨rfl, hall⟩ | ⟨k, rfl, hk, hlt⟩
  · rw [if_pos (.inl (by omega))]
    exact .inr ⟨i, rfl, hi, fun j hj => by rw [hne j hj.ne]; exact hall j⟩
  · by_cases hik : i < k
    · rw [if_pos (.inr (by exact_mod_cast hik))]
      exact .inr ⟨i, rfl, hi, fun j hj => by rw [hne j hj.ne]; exact hlt j (hj.trans hik)⟩
    · have hki : k ≤ i := not_lt.mp hik
      have hki' : (k : ℕ) ≤ i := hki
      rw [if_neg (by omega)]
      refine .inr ⟨k, rfl, ?_, fun j hj => by rw [hne j (hj.trans_le hki).ne]; exact hlt j hj⟩
      rcases eq_or_ne k i with rfl | hki
      · exact hi
      · rw [hne k hki]; exact hk

/-- A level that loses an order: the scan starts behind the old best index. -/
theorem IsBest.remove {levels levels' : Fin kLevels → PriceLevel n} {best : ℤ} {i : Fin kLevels}
    (h : IsBest levels best) (hne : ∀ j, j ≠ i → levels' j = levels j)
    (hi : (levels i).empty = false) :
    IsBest levels' (if ((i : ℕ) : ℤ) = best ∧ (levels' i).empty = true then
      firstNonEmpty levels' (best + 1).toNat else best) := by
  rcases h with ⟨rfl, hall⟩ | ⟨k, rfl, hk, hlt⟩
  · rw [hall i] at hi; cases hi
  · split_ifs with hc
    · -- everything up to the old best level is empty now
      have hik : i = k := Fin.ext (by exact_mod_cast hc.1)
      refine isBest_firstNonEmpty _ _ fun j hj => ?_
      have hj' : j ≤ k := by rw [Fin.le_def]; omega
      rcases hj'.lt_or_eq with hj' | rfl
      · rw [hne j (hik ▸ hj'.ne)]; exact hlt j hj'
      · rw [← hik]; exact hc.2
    · refine .inr ⟨k, rfl, ?_, fun j hj => ?_⟩
      · rcases eq_or_ne k i with rfl | hki
        · simpa using hc
        · rw [hne k hki]; exact hk
      · rcases eq_or_ne j i with rfl | hji
        · rw [hlt j hj] at hi; cases hi
        · rw [hne j hji]; exact hlt j hj

end L2Book
