import L2Book.Book.Validator

/-!
# Index arithmetic over the whole wire range

`bid_idx` and `ask_idx` subtract two 32-bit unsigned values as `int`s.

* `ValidPrice`: the prices of the array, as documented in `order_book.hpp`; `IndexExact`: the index is
  defined, in range exactly for these prices, and leads back to the price;
* `NearHalves`: the pairs for which it is;
* `tick_of_priceIdx`, `better_iff_of_priceIdx`: indices in the array are exact distances, so a smaller one is
  a better price;
* **`indexExact_iff`**: the arithmetic is exact on these pairs and no others.
-/

namespace L2Book

/-- The documented price range of side `d` at reference price `ref`. -/
def ValidPrice : Side → UInt32 → UInt32 → Prop
  | .bid, ref, price => (ref.toNat : ℤ) - kLevels < price.toNat ∧ price.toNat ≤ ref.toNat
  | .ask, ref, price => ref.toNat ≤ price.toNat ∧ price.toNat < ref.toNat + kLevels

/-- **The index of the pair is exact**: its computation does not overflow, it lies in the array exactly for a
valid price, and an index in the array leads back to the price. -/
def IndexExact (d : Side) (ref price : UInt32) : Prop :=
  ∃ idx, priceIdx d ref price = .ok idx ∧ (InArray idx ↔ ValidPrice d ref price) ∧
    (InArray idx → priceFromIdx d ref idx = price)

/-- Both values lie in the same half of the 32-bit range, or they are so far apart that the wrapped difference
is a valid `int` outside the array. -/
def NearHalves (d : Side) (ref price : UInt32) : Prop :=
  (ref.toNat < 2 ^ 31 ↔ price.toNat < 2 ^ 31) ∨ 2 ^ 31 ≤ tick d ref price ∨
    ((kLevels : ℤ) - 2 ^ 32 ≤ tick d ref price ∧ tick d ref price < -2 ^ 31)

theorem validPrice_iff {d : Side} {ref price : UInt32} :
    ValidPrice d ref price ↔ InArray (tick d ref price) := by
  cases d <;> simp only [ValidPrice, InArray, tick] <;> omega

theorem castInt_cond (v : UInt32) :
    castInt v = if v.toNat < 2 ^ 31 then (v.toNat : ℤ) else v.toNat - 2 ^ 32 := by
  have hv := v.toNat_lt
  unfold castInt
  rw [Int32.toInt, UInt32.toBitVec_toInt32, BitVec.toInt_eq_toNat_cond]
  simp only [UInt32.toNat_toBitVec]
  split_ifs <;> omega

/-- How far the signed difference is off. -/
def halfShift (d : Side) (ref price : UInt32) : ℤ :=
  if ref.toNat < 2 ^ 31 ↔ price.toNat < 2 ^ 31 then 0
  else if 0 < tick d ref price then -2 ^ 32 else 2 ^ 32

theorem priceIdx_cond (d : Side) (ref price : UInt32) : priceIdx d ref price =
    if -2 ^ 31 ≤ tick d ref price + halfShift d ref price ∧
        tick d ref price + halfShift d ref price < 2 ^ 31 then
      .ok (tick d ref price + halfShift d ref price)
    else .error .signedOverflow := by
  have hr := castInt_cond ref
  have hp := castInt_cond price
  have hr' := ref.toNat_lt
  have hp' := price.toNat_lt
  unfold halfShift
  cases d with
  | bid =>
    have hdiff : castInt ref - castInt price = tick .bid ref price + halfShift .bid ref price := by
      rw [hr, hp]
      simp only [tick, halfShift]
      split_ifs <;> omega
    simp only [priceIdx, bidIdx, subInt, hdiff, halfShift]
  | ask =>
    have hdiff : castInt price - castInt ref = tick .ask ref price + halfShift .ask ref price := by
      rw [hr, hp]
      simp only [tick, halfShift]
      split_ifs <;> omega
    simp only [priceIdx, askIdx, subInt, hdiff, halfShift]

/-- The shift wraps the difference into the `int` range, as far as one step can. -/
theorem halfShift_cases (d : Side) (ref price : UInt32) :
    ((ref.toNat < 2 ^ 31 ↔ price.toNat < 2 ^ 31) ∧ halfShift d ref price = 0 ∧
        -2 ^ 31 < tick d ref price ∧ tick d ref price < 2 ^ 31) ∨
      (¬ (ref.toNat < 2 ^ 31 ↔ price.toNat < 2 ^ 31) ∧ halfShift d ref price = -2 ^ 32 ∧
        0 < tick d ref price ∧ tick d ref price < 2 ^ 32) ∨
      (¬ (ref.toNat < 2 ^ 31 ↔ price.toNat < 2 ^ 31) ∧ halfShift d ref price = 2 ^ 32 ∧
        tick d ref price < 0 ∧ -2 ^ 32 < tick d ref price) := by
  have hr := ref.toNat_lt
  have hp := price.toNat_lt
  unfold halfShift
  cases d <;> simp only [tick] <;> split_ifs <;> omega

/-- An index in the array leads back to the price even where the difference has wrapped. -/
theorem price_of_priceIdx {d : Side} {ref price : UInt32} {idx : ℤ} (h : priceIdx d ref price = .ok idx)
    (hi : InArray idx) : priceFromIdx d ref idx = price := by
  have hval := ofInt_toNat hi
  have hr := ref.toNat_lt
  have hp := price.toNat_lt
  have hk : (kLevels : ℤ) = 8192 := rfl
  obtain ⟨hlo, hhi⟩ := hi
  rw [priceIdx_cond] at h
  split_ifs at h with hok
  have hidx := Except.ok.inj h
  rw [← UInt32.toNat_inj]
  rcases halfShift_cases d ref price with ⟨-, hs, -⟩ | ⟨-, hs, -⟩ | ⟨-, hs, -⟩ <;> rw [hs] at hidx <;>
    cases d <;> simp only [tick] at hidx <;>
    simp only [priceFromIdx, priceFromBidIdx, priceFromAskIdx, UInt32.toNat_sub, UInt32.toNat_add] <;> omega

theorem tick_of_priceIdx {d : Side} {ref price : UInt32} {idx : ℤ} (hn : NearHalves d ref price)
    (h : priceIdx d ref price = .ok idx) (hi : InArray idx) : tick d ref price = idx := by
  have hk : (kLevels : ℤ) = 8192 := rfl
  obtain ⟨hlo, hhi⟩ := hi
  rw [priceIdx_cond] at h
  split_ifs at h with hok
  have hidx := Except.ok.inj h
  unfold NearHalves at hn
  rcases halfShift_cases d ref price with ⟨-, hs, -⟩ | ⟨-, hs, -, hlt⟩ | ⟨hhalf, hs, -, hgt⟩
  · rw [hs] at hidx
    omega
  · rw [hs] at hidx hok
    omega
  · rw [hs] at hidx hok
    have hfar := hn.resolve_left hhalf
    omega

theorem better_iff_of_priceIdx {d : Side} {ref p q : UInt32} {i j : ℤ} (hp : NearHalves d ref p)
    (hq : NearHalves d ref q) (hi : priceIdx d ref p = .ok i) (hj : priceIdx d ref q = .ok j)
    (hin : InArray i) (hjn : InArray j) : i < j ↔ Better d p q := by
  rw [better_iff_tick ref, tick_of_priceIdx hp hi hin, tick_of_priceIdx hq hj hjn]

/-- **When the index of a pair is exact.** -/
theorem indexExact_pair_iff (d : Side) (ref price : UInt32) :
    IndexExact d ref price ↔ NearHalves d ref price := by
  have hk : (kLevels : ℤ) = 8192 := rfl
  constructor
  · rintro ⟨idx, h, hrange, -⟩
    rw [validPrice_iff] at hrange
    rw [priceIdx_cond] at h
    split_ifs at h with hok
    have hidx := Except.ok.inj h
    unfold NearHalves
    rcases halfShift_cases d ref price with ⟨hhalf, -⟩ | ⟨-, hs, -⟩ | ⟨-, hs, hneg, hgt⟩
    · exact .inl hhalf
    · rw [hs] at hok
      exact .inr (.inl (by omega))
    · -- The exact distance is negative, so the wrapped one must lie behind the array.
      have hout : ¬ InArray (tick d ref price) := fun hi => absurd hi.1 (by omega)
      have hout' := hrange.not.mpr hout
      rw [← hidx, hs] at hout'
      rw [hs] at hok
      unfold InArray at hout'
      exact .inr (.inr (by omega))
  · intro hn
    have hok : -2 ^ 31 ≤ tick d ref price + halfShift d ref price ∧
        tick d ref price + halfShift d ref price < 2 ^ 31 := by
      unfold NearHalves at hn
      rcases halfShift_cases d ref price with ⟨hhalf, hs, ht⟩ | ⟨hhalf, hs, ht⟩ | ⟨hhalf, hs, ht⟩ <;>
        rw [hs] <;> omega
    have hidx : priceIdx d ref price = .ok (tick d ref price + halfShift d ref price) := by
      rw [priceIdx_cond, if_pos hok]
    refine ⟨_, hidx, ?_, price_of_priceIdx hidx⟩
    rw [validPrice_iff]
    constructor
    · intro hi
      rw [tick_of_priceIdx hn hidx hi]
      exact hi
    · intro hi
      obtain ⟨hlo, hhi⟩ := hi
      unfold NearHalves at hn
      rcases halfShift_cases d ref price with ⟨-, hs, -⟩ | ⟨hhalf, hs, -⟩ | ⟨hhalf, hs, ht⟩
      · rw [hs, add_zero]
        exact ⟨hlo, hhi⟩
      · have hfar := hn.resolve_left hhalf
        omega
      · omega

/-- **When the index arithmetic is exact.** For each side and each pair of 32-bit values the index is
defined, in range exactly for the documented prices and inverted by the way back if and only if both values
lie in the same half of the range or the wrapped difference misses the array; on these pairs smaller indices
are strictly better prices. -/
theorem indexExact_iff (d : Side) (ref price : UInt32) :
    (IndexExact d ref price ↔ NearHalves d ref price) ∧
      ∀ q i j, NearHalves d ref price → NearHalves d ref q → priceIdx d ref price = .ok i →
        priceIdx d ref q = .ok j → InArray i → InArray j → (i < j ↔ Better d price q) :=
  ⟨indexExact_pair_iff d ref price,
    fun _ _ _ hp hq hi hj hin hjn => better_iff_of_priceIdx hp hq hi hj hin hjn⟩

theorem indexExact_iff_hundred : IndexExact .bid 100 90 ∧ Better .bid 90 80 := by
  have hnear : ∀ price : UInt32, price.toNat < 2 ^ 31 → NearHalves .bid 100 price := fun price hp =>
    .inl ⟨fun _ => hp, fun _ => by decide⟩
  obtain ⟨hiff, hbetter⟩ := indexExact_iff .bid 100 90
  refine ⟨hiff.mpr (hnear 90 (by decide)), ?_⟩
  exact (hbetter 80 10 20 (hnear 90 (by decide)) (hnear 80 (by decide)) rfl rfl
    ⟨by decide, by decide⟩ ⟨by decide, by decide⟩).mp (by decide)

/-- Two bids on both sides of `2 ^ 31`. -/
def acrossHalves : List (Input 2) :=
  [(sysMsg 'O'.toUInt8, .newest 2), (addMsg 1 'B'.toUInt8 10 0x80000000, .newest 2),
    (addMsg 2 'B'.toUInt8 10 0x7fffffff, .newest 2)]

/-- The price one tick below the reference price overflows, and a price far above it gets an index of the
array. -/
theorem across_halves_overflow :
    (OrderBook.init 2).replay .debug acrossHalves = .error .signedOverflow ∧
      ¬ IndexExact .bid 0x80000000 0x7fffffff ∧
      priceIdx .bid 5 0xfffffff6 = .ok 15 ∧ ¬ IndexExact .bid 5 0xfffffff6 := by
  refine ⟨rfl, ?_, rfl, ?_⟩
  · rintro ⟨idx, h, -⟩
    have hfault : priceIdx .bid 0x80000000 0x7fffffff = .error .signedOverflow := rfl
    rw [hfault] at h
    cases h
  · rintro ⟨idx, h, hrange, -⟩
    have hidx : priceIdx .bid 5 0xfffffff6 = .ok 15 := rfl
    rw [hidx] at h
    cases h
    have hvalid := hrange.mp ⟨by decide, by decide⟩
    exact absurd hvalid.2 (by decide)

end L2Book
