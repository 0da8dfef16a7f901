import Mathlib.Algebra.Order.Floor.Ring
import Mathlib.Algebra.Order.Ring.Pow
import Mathlib.Algebra.Order.Round
import Mathlib.Data.Int.Log
import Mathlib.Data.Rat.Floor
import Mathlib.Tactic.Linarith
import Mathlib.Tactic.Positivity
import Mathlib.Tactic.Ring

/-!
# Rounding to double precision

The result of an operation on doubles is the exact result, rounded to 53 significant bits, ties to even. The
range of exponents is left out: there is no overflow and no subnormal number.

* `roundEven`: rounding to an integer;
* `ulp`, `roundDouble`: rounding to a double;
* **`roundDouble_mono`**, **`roundDouble_exact`**, **`abs_roundDouble_sub_le`**: it is monotone, exact on
  doubles, and has a relative error of at most `2 ^ (-53)`;
* `roundDouble_eq_of_exponent`, `roundDouble_eq_natCast`: the double next to a number;
* `mulAdd`: a product and a sum, fused or not;
* `Near k c x`: `c` is `x` up to `k` rounding errors; `Near.round`, `Near.add`, `Near.mulAdd`, `Near.div`;
  **`Near.abs_sub_le`**: the relative error of a long computation.
-/

namespace L2Book

/-! ## Integers -/

/-- The nearest integer, the even one of two. -/
def roundEven (x : ℚ) : ℤ :=
  if x - ⌊x⌋ < 1 / 2 then ⌊x⌋
  else if 1 / 2 < x - ⌊x⌋ then ⌊x⌋ + 1
  else if ⌊x⌋ % 2 = 0 then ⌊x⌋ else ⌊x⌋ + 1

theorem floor_le_roundEven (x : ℚ) : ⌊x⌋ ≤ roundEven x := by
  unfold roundEven
  split_ifs <;> omega

theorem roundEven_le_floor_add_one (x : ℚ) : roundEven x ≤ ⌊x⌋ + 1 := by
  unfold roundEven
  split_ifs <;> omega

theorem roundEven_intCast (m : ℤ) : roundEven m = m := by
  have h : (m : ℚ) - ⌊(m : ℚ)⌋ < 1 / 2 := by
    rw [Int.floor_intCast, sub_self]
    norm_num
  rw [roundEven, if_pos h, Int.floor_intCast]

theorem abs_roundEven_sub_le (x : ℚ) : |roundEven x - x| ≤ 1 / 2 := by
  have h₀ := Int.floor_le x
  have h₁ := Int.lt_floor_add_one x
  unfold roundEven
  rw [abs_le]
  split_ifs <;> push_cast <;> constructor <;> linarith

theorem roundEven_mono {x y : ℚ} (hxy : x ≤ y) : roundEven x ≤ roundEven y := by
  have hfloor : ⌊x⌋ ≤ ⌊y⌋ := Int.floor_mono hxy
  rcases hfloor.lt_or_eq with hlt | heq
  · exact (roundEven_le_floor_add_one x).trans ((Int.add_one_le_iff.mpr hlt).trans (floor_le_roundEven y))
  · -- the fractional parts decide
    unfold roundEven
    rw [← heq]
    split_ifs <;> first | omega | (exfalso; linarith)

/-! ## Doubles -/

/-- The distance of the doubles around a positive number. -/
def ulp (x : ℚ) : ℚ := 2 ^ (Int.log 2 x - 52)

/-- Rounding of a number that is not negative. -/
def roundPos (x : ℚ) : ℚ := roundEven (x / ulp x) * ulp x

/-- **Rounding to a double.** -/
def roundDouble (x : ℚ) : ℚ := if x < 0 then -roundPos (-x) else roundPos x

theorem ulp_pos (x : ℚ) : 0 < ulp x := zpow_pos two_pos _

theorem two_pow_mul_ulp (x : ℚ) : 2 ^ 52 * ulp x = 2 ^ Int.log 2 x := by
  unfold ulp
  rw [← zpow_natCast, ← zpow_add₀ two_ne_zero]
  congr 1
  push_cast
  ring

section Positive

variable {x y : ℚ}

theorem significand_bounds (hx : 0 < x) : 2 ^ 52 ≤ x / ulp x ∧ x / ulp x < 2 ^ 53 := by
  have hu := ulp_pos x
  have hlow : (2 : ℚ) ^ Int.log 2 x ≤ x := by exact_mod_cast Int.zpow_log_le_self (b := 2) one_lt_two hx
  have hhigh : x < (2 : ℚ) ^ (Int.log 2 x + 1) := by
    exact_mod_cast Int.lt_zpow_succ_log_self (b := 2) one_lt_two x
  rw [zpow_add_one₀ two_ne_zero] at hhigh
  have h := two_pow_mul_ulp x
  rw [le_div_iff₀ hu, div_lt_iff₀ hu]
  constructor <;> linarith

theorem roundPos_bounds (hx : 0 < x) :
    2 ^ Int.log 2 x ≤ roundPos x ∧ roundPos x ≤ 2 ^ (Int.log 2 x + 1) := by
  obtain ⟨hlow, hhigh⟩ := significand_bounds hx
  have h₁ : (2 ^ 52 : ℤ) ≤ roundEven (x / ulp x) := by
    rw [← roundEven_intCast (2 ^ 52)]
    exact roundEven_mono (by exact_mod_cast hlow)
  have h₂ : roundEven (x / ulp x) ≤ (2 ^ 53 : ℤ) := by
    rw [← roundEven_intCast (2 ^ 53)]
    exact roundEven_mono (by exact_mod_cast hhigh.le)
  have h₁' : (2 ^ 52 : ℚ) ≤ roundEven (x / ulp x) := by exact_mod_cast h₁
  have h₂' : (roundEven (x / ulp x) : ℚ) ≤ 2 ^ 53 := by exact_mod_cast h₂
  have hu := (ulp_pos x).le
  have h := two_pow_mul_ulp x
  rw [zpow_add_one₀ two_ne_zero, ← h, roundPos]
  constructor
  · exact mul_le_mul_of_nonneg_right h₁' hu
  · calc (roundEven (x / ulp x) : ℚ) * ulp x ≤ 2 ^ 53 * ulp x := mul_le_mul_of_nonneg_right h₂' hu
      _ = 2 ^ 52 * ulp x * 2 := by ring

theorem roundPos_zero : roundPos 0 = 0 := by
  have h : roundEven 0 = 0 := by exact_mod_cast roundEven_intCast 0
  rw [roundPos, zero_div, h, Int.cast_zero, zero_mul]

theorem roundPos_nonneg (hx : 0 ≤ x) : 0 ≤ roundPos x := by
  rcases hx.eq_or_lt with rfl | hx
  · exact roundPos_zero.ge
  · exact (zpow_pos two_pos _).le.trans (roundPos_bounds hx).1

theorem roundPos_mono (hx : 0 ≤ x) (hxy : x ≤ y) : roundPos x ≤ roundPos y := by
  rcases hx.eq_or_lt with rfl | hx
  · rw [roundPos_zero]
    exact roundPos_nonneg hxy
  · have hy := hx.trans_le hxy
    rcases (Int.log_mono_right (b := 2) hx hxy).lt_or_eq with hlt | heq
    · -- a power of two lies between them
      calc roundPos x ≤ 2 ^ (Int.log 2 x + 1) := (roundPos_bounds hx).2
        _ ≤ 2 ^ Int.log 2 y := zpow_le_zpow_right₀ one_le_two hlt
        _ ≤ roundPos y := (roundPos_bounds hy).1
    · have hu : ulp x = ulp y := by unfold ulp; rw [heq]
      have hle : x / ulp y ≤ y / ulp y := div_le_div_of_nonneg_right hxy (ulp_pos y).le
      rw [roundPos, roundPos, hu]
      exact mul_le_mul_of_nonneg_right (by exact_mod_cast roundEven_mono hle) (ulp_pos y).le

theorem abs_roundPos_sub_le (hx : 0 ≤ x) : |roundPos x - x| ≤ x / 2 ^ 53 := by
  rcases hx.eq_or_lt with rfl | hx
  · rw [roundPos_zero]
    norm_num
  · have hu := ulp_pos x
    have hfactor : roundPos x - x = (roundEven (x / ulp x) - x / ulp x) * ulp x := by
      rw [roundPos, sub_mul, div_mul_cancel₀ _ hu.ne']
    have hhalf := abs_roundEven_sub_le (x / ulp x)
    have hlow := (le_div_iff₀ hu).mp (significand_bounds hx).1
    calc |roundPos x - x| = |roundEven (x / ulp x) - x / ulp x| * ulp x := by
          rw [hfactor, abs_mul, abs_of_pos hu]
      _ ≤ 1 / 2 * ulp x := mul_le_mul_of_nonneg_right hhalf hu.le
      _ ≤ x / 2 ^ 53 := by
          rw [le_div_iff₀ (by positivity)]
          linarith

theorem roundPos_of_intCast {i : ℤ} (h : x / ulp x = i) : roundPos x = x := by
  rw [roundPos, h, roundEven_intCast, ← h, div_mul_cancel₀ _ (ulp_pos x).ne']

/-- Numbers with 53 significant bits are doubles. -/
theorem roundPos_exact {m : ℕ} (hm : m ≤ 2 ^ 53) (k : ℤ) : roundPos (m * 2 ^ k) = m * 2 ^ k := by
  rcases m.eq_zero_or_pos with rfl | hpos
  · rw [Nat.cast_zero, zero_mul, roundPos_zero]
  have hx : (0 : ℚ) < m * 2 ^ k := mul_pos (by exact_mod_cast hpos) (zpow_pos two_pos k)
  obtain ⟨hlow, hhigh⟩ := significand_bounds hx
  have hquot : (m * 2 ^ k : ℚ) / ulp (m * 2 ^ k) = m * 2 ^ (k - (Int.log 2 (m * 2 ^ k : ℚ) - 52)) := by
    rw [ulp, mul_div_assoc, ← zpow_sub₀ two_ne_zero]
  rw [hquot] at hlow hhigh
  generalize k - (Int.log 2 (m * 2 ^ k : ℚ) - 52) = j at hquot hlow hhigh
  rcases le_or_gt 0 j with hj | hj
  · -- the spacing divides the number
    obtain ⟨i, rfl⟩ := Int.eq_ofNat_of_zero_le hj
    refine roundPos_of_intCast (i := m * 2 ^ i) ?_
    rw [hquot]
    push_cast
    rw [zpow_natCast]
  · -- the only such number is a power of two
    have hm' : (m : ℚ) ≤ 2 ^ 53 := by exact_mod_cast hm
    have hhalf : (2 : ℚ) ^ j ≤ 2⁻¹ := by
      rw [← zpow_neg_one]
      exact zpow_le_zpow_right₀ one_le_two (by omega)
    have hprod : (m : ℚ) * 2 ^ j ≤ 2 ^ 53 * 2⁻¹ :=
      mul_le_mul hm' hhalf (zpow_pos two_pos j).le (by positivity)
    refine roundPos_of_intCast (i := 2 ^ 52) ?_
    rw [hquot]
    push_cast
    exact le_antisymm (hprod.trans_eq (by norm_num)) hlow

end Positive

theorem roundDouble_neg (x : ℚ) : roundDouble (-x) = -roundDouble x := by
  rcases lt_trichotomy x 0 with h | rfl | h
  · rw [roundDouble, roundDouble, if_pos h, if_neg (by linarith), neg_neg]
  · rw [neg_zero, roundDouble, if_neg (lt_irrefl 0), roundPos_zero, neg_zero]
  · rw [roundDouble, roundDouble, if_neg h.not_gt, if_pos (by linarith), neg_neg]

theorem roundDouble_of_nonneg {x : ℚ} (hx : 0 ≤ x) : roundDouble x = roundPos x := if_neg hx.not_gt

/-- **Rounding is monotone.** -/
theorem roundDouble_mono : Monotone roundDouble := by
  intro x y hxy
  unfold roundDouble
  split_ifs with hx hy hy
  · exact neg_le_neg (roundPos_mono (by linarith) (by linarith))
  · have h₁ := roundPos_nonneg (x := -x) (by linarith)
    have h₂ := roundPos_nonneg (x := y) (by linarith)
    linarith
  · linarith
  · exact roundPos_mono (by linarith) hxy

/-- **The relative error.** -/
theorem abs_roundDouble_sub_le (x : ℚ) : |roundDouble x - x| ≤ |x| / 2 ^ 53 := by
  rcases le_or_gt 0 x with hx | hx
  · rw [roundDouble_of_nonneg hx, abs_of_nonneg hx]
    exact abs_roundPos_sub_le hx
  · rw [roundDouble, if_pos hx, abs_of_neg hx, abs_sub_comm, sub_neg_eq_add, add_comm]
    have h := abs_roundPos_sub_le (x := -x) (by linarith)
    rwa [sub_neg_eq_add] at h

/-- **Rounding is exact** on numbers with 53 significant bits. -/
theorem roundDouble_exact {m : ℤ} (hm : |m| ≤ 2 ^ 53) (k : ℤ) :
    roundDouble (m * 2 ^ k) = m * 2 ^ k := by
  have hnat : ∀ a : ℕ, a ≤ 2 ^ 53 → roundDouble (a * 2 ^ k) = a * 2 ^ k := by
    intro a ha
    have hx : (0 : ℚ) ≤ a * 2 ^ k := mul_nonneg a.cast_nonneg (zpow_pos two_pos k).le
    rw [roundDouble_of_nonneg hx, roundPos_exact ha]
  obtain ⟨a, rfl | rfl⟩ := m.eq_nat_or_neg
  · rw [Int.abs_natCast] at hm
    exact hnat a (by exact_mod_cast hm)
  · rw [abs_neg, Int.abs_natCast] at hm
    push_cast
    rw [neg_mul, roundDouble_neg, hnat a (by exact_mod_cast hm)]

/-! ## Results close to a double -/

theorem roundEven_eq_of_abs_lt {x : ℚ} {m : ℤ} (h : |x - m| < 1 / 2) : roundEven x = m := by
  have hhalf := abs_roundEven_sub_le x
  have hlt : |(roundEven x : ℚ) - m| < 1 := by
    calc |(roundEven x : ℚ) - m| = |(roundEven x - x) + (x - m)| := by rw [sub_add_sub_cancel]
      _ ≤ |roundEven x - x| + |x - m| := abs_add_le _ _
      _ < 1 := by linarith
  have hint : |roundEven x - m| < 1 := by exact_mod_cast hlt
  rw [Int.abs_lt_one_iff] at hint
  omega

theorem roundDouble_eq_of_exponent {x : ℚ} {e m : ℤ} (hlow : 2 ^ e ≤ x) (hhigh : x < 2 ^ (e + 1))
    (h : |x / 2 ^ (e - 52) - m| < 1 / 2) : roundDouble x = m * 2 ^ (e - 52) := by
  have hx : 0 < x := (zpow_pos two_pos e).trans_le hlow
  have hlog : Int.log 2 x = e := by
    have h₁ := (Int.zpow_le_iff_le_log (b := 2) one_lt_two hx).mp (by exact_mod_cast hlow)
    have h₂ := (Int.lt_zpow_iff_log_lt (b := 2) one_lt_two hx).mp (by exact_mod_cast hhigh)
    omega
  have hulp : ulp x = 2 ^ (e - 52) := by rw [ulp, hlog]
  rw [roundDouble_of_nonneg hx.le, roundPos, hulp, roundEven_eq_of_abs_lt h]

/-- **A result just below an integer** is rounded to it. -/
theorem roundDouble_eq_natCast {x : ℚ} {m : ℕ} (hm : m < 2 ^ 53) (hlow : m * (1 - 1 / 2 ^ 55) ≤ x)
    (hx : x ≤ m) : roundDouble x = m := by
  rcases m.eq_zero_or_pos with rfl | hpos
  · have hzero : x = 0 := le_antisymm (by exact_mod_cast hx) (by simpa using hlow)
    rw [hzero, roundDouble_of_nonneg le_rfl, roundPos_zero, Nat.cast_zero]
  have hmpos : (0 : ℚ) < m := by exact_mod_cast hpos
  have hxpos : 0 < x := lt_of_lt_of_le (mul_pos hmpos (by norm_num)) hlow
  have hu := ulp_pos x
  -- the integer is a multiple of the spacing of the doubles around the result
  have hlog : Int.log 2 x < 53 := by
    refine (Int.lt_zpow_iff_log_lt (b := 2) one_lt_two hxpos).mp (hx.trans_lt ?_)
    exact_mod_cast hm
  obtain ⟨j, hj⟩ := Int.eq_ofNat_of_zero_le (show 0 ≤ 52 - Int.log 2 x by omega)
  have hulp : ulp x * 2 ^ j = 1 := by
    rw [ulp, ← zpow_natCast, ← zpow_add₀ two_ne_zero, ← hj]
    norm_num
  have hquot : (m : ℚ) / ulp x = (m * 2 ^ j : ℤ) := by
    rw [div_eq_iff hu.ne']
    push_cast
    rw [mul_assoc, mul_comm (2 ^ j : ℚ), hulp, mul_one]
  obtain ⟨-, hsig⟩ := significand_bounds hxpos
  have hnear : |x / ulp x - (m * 2 ^ j : ℤ)| < 1 / 2 := by
    have hlow' : (m : ℚ) / ulp x * (1 - 1 / 2 ^ 55) ≤ x / ulp x := by
      rw [div_mul_eq_mul_div]
      exact div_le_div_of_nonneg_right hlow hu.le
    have hx' : x / ulp x ≤ m / ulp x := div_le_div_of_nonneg_right hx hu.le
    rw [← hquot, abs_of_nonpos (by linarith)]
    linarith
  rw [roundDouble_of_nonneg hxpos.le, roundPos, roundEven_eq_of_abs_lt hnear, ← hquot,
    div_mul_cancel₀ _ hu.ne']

/-- `x * y + z`; compilers may contract it into one operation. -/
def mulAdd (fused : Bool) (x y z : ℚ) : ℚ :=
  if fused then roundDouble (x * y + z) else roundDouble (roundDouble (x * y) + z)

/-! ## Error analysis -/

/-- The unit roundoff. -/
def unitRoundoff : ℚ := 1 / 2 ^ 53

/-- `c` is `x`, up to `k` rounding errors on either side. -/
structure Near (k : ℕ) (c x : ℚ) : Prop where
  nonneg : 0 ≤ x
  lower : x * (1 - unitRoundoff) ^ k ≤ c
  upper : c * (1 - unitRoundoff) ^ k ≤ x

section Near

variable {k k' : ℕ} {c c' x x' : ℚ}

theorem one_sub_roundoff_pos : 0 < 1 - unitRoundoff := by
  unfold unitRoundoff
  norm_num

theorem one_sub_roundoff_le_one : 1 - unitRoundoff ≤ 1 := by
  unfold unitRoundoff
  norm_num

theorem pow_roundoff_pos (k : ℕ) : 0 < (1 - unitRoundoff) ^ k := pow_pos one_sub_roundoff_pos k

theorem Near.refl (hx : 0 ≤ x) : Near 0 x x := by
  refine ⟨hx, ?_, ?_⟩ <;> rw [pow_zero, mul_one]

theorem Near.nonneg' (h : Near k c x) : 0 ≤ c :=
  (mul_nonneg h.nonneg (pow_roundoff_pos k).le).trans h.lower

theorem Near.mono (h : Near k c x) (hk : k ≤ k') : Near k' c x := by
  have hpow : (1 - unitRoundoff) ^ k' ≤ (1 - unitRoundoff) ^ k :=
    pow_le_pow_of_le_one one_sub_roundoff_pos.le one_sub_roundoff_le_one hk
  exact ⟨h.nonneg, (mul_le_mul_of_nonneg_left hpow h.nonneg).trans h.lower,
    (mul_le_mul_of_nonneg_left hpow h.nonneg').trans h.upper⟩

/-- **An operation adds one error.** -/
theorem Near.round (h : Near k c x) : Near (k + 1) (roundDouble c) x := by
  have hc := h.nonneg'
  have herr := abs_roundDouble_sub_le c
  rw [abs_of_nonneg hc, abs_le] at herr
  have hu : c / 2 ^ 53 = c * unitRoundoff := div_eq_mul_one_div c _
  rw [hu] at herr
  have hlow : c * (1 - unitRoundoff) ≤ roundDouble c := by linarith
  have hhigh : roundDouble c * (1 - unitRoundoff) ≤ c := by
    have hle : roundDouble c ≤ c * (1 + unitRoundoff) := by linarith
    calc roundDouble c * (1 - unitRoundoff) ≤ c * (1 + unitRoundoff) * (1 - unitRoundoff) :=
          mul_le_mul_of_nonneg_right hle one_sub_roundoff_pos.le
      _ = c - c * (unitRoundoff * unitRoundoff) := by ring
      _ ≤ c := sub_le_self c (mul_nonneg hc (mul_self_nonneg _))
  refine ⟨h.nonneg, ?_, ?_⟩
  · calc x * (1 - unitRoundoff) ^ (k + 1) = x * (1 - unitRoundoff) ^ k * (1 - unitRoundoff) := by ring
      _ ≤ c * (1 - unitRoundoff) := mul_le_mul_of_nonneg_right h.lower one_sub_roundoff_pos.le
      _ ≤ roundDouble c := hlow
  · calc roundDouble c * (1 - unitRoundoff) ^ (k + 1) =
          roundDouble c * (1 - unitRoundoff) * (1 - unitRoundoff) ^ k := by ring
      _ ≤ c * (1 - unitRoundoff) ^ k := mul_le_mul_of_nonneg_right hhigh (pow_roundoff_pos k).le
      _ ≤ x := h.upper

theorem Near.add (h : Near k c x) (h' : Near k c' x') : Near k (c + c') (x + x') := by
  refine ⟨add_nonneg h.nonneg h'.nonneg, ?_, ?_⟩
  · rw [add_mul]
    exact add_le_add h.lower h'.lower
  · rw [add_mul]
    exact add_le_add h.upper h'.upper

theorem Near.mul {y : ℚ} (hy : 0 ≤ y) (h : Near k c x) : Near k (y * c) (y * x) := by
  refine ⟨mul_nonneg hy h.nonneg, ?_, ?_⟩
  · rw [mul_assoc]
    exact mul_le_mul_of_nonneg_left h.lower hy
  · rw [mul_assoc]
    exact mul_le_mul_of_nonneg_left h.upper hy

/-- A multiply-add adds one error, fused or not, to an addend that has more of them than the factor. -/
theorem Near.mulAdd (fused : Bool) {y : ℚ} (hy : 0 ≤ y) (h : Near k c x) (h' : Near k' c' x')
    (hk : k + 1 ≤ k') : Near (k' + 1) (mulAdd fused y c c') (y * x + x') := by
  have hmul := h.mul hy
  cases fused with
  | true => exact ((hmul.mono (k.le_succ.trans hk)).add h').round
  | false => exact ((hmul.round.mono hk).add h').round

theorem Near.pos_iff (h : Near k c x) : 0 < c ↔ 0 < x := by
  have hpow := pow_roundoff_pos k
  constructor
  · intro hc
    exact (mul_pos hc hpow).trans_le h.upper
  · intro hx
    exact (mul_pos hx hpow).trans_le h.lower

theorem Near.div (h : Near k c x) (h' : Near k' c' x') (hpos : 0 < x') :
    Near (k + k') (c / c') (x / x') := by
  have hc' := h'.pos_iff.mpr hpos
  have hpow := pow_roundoff_pos k
  have hpow' := pow_roundoff_pos k'
  refine ⟨div_nonneg h.nonneg hpos.le, ?_, ?_⟩
  · rw [div_mul_eq_mul_div, div_le_div_iff₀ hpos hc']
    calc x * (1 - unitRoundoff) ^ (k + k') * c' =
          x * (1 - unitRoundoff) ^ k * (c' * (1 - unitRoundoff) ^ k') := by ring
      _ ≤ c * x' := mul_le_mul h.lower h'.upper (mul_pos hc' hpow').le h.nonneg'
  · rw [div_mul_eq_mul_div, div_le_div_iff₀ hc' hpos]
    calc c * (1 - unitRoundoff) ^ (k + k') * x' =
          c * (1 - unitRoundoff) ^ k * (x' * (1 - unitRoundoff) ^ k') := by ring
      _ ≤ x * c' := mul_le_mul h.upper h'.lower (mul_pos hpos hpow').le h.nonneg

/-- **The relative error** of a computation with at most `2 ^ 15` rounding errors. -/
theorem Near.abs_sub_le (h : Near k c x) (hk : k ≤ 2 ^ 15) : |c - x| ≤ x / 2 ^ 37 := by
  have hbern : 1 - 1 / 2 ^ 38 ≤ (1 - unitRoundoff) ^ k := by
    have hge : (-2 : ℚ) ≤ -unitRoundoff := by
      unfold unitRoundoff
      norm_num
    have hb := one_add_mul_le_pow hge k
    have hk' : (k : ℚ) ≤ 2 ^ 15 := by exact_mod_cast hk
    have hle : (k : ℚ) * unitRoundoff ≤ 2 ^ 15 * unitRoundoff :=
      mul_le_mul_of_nonneg_right hk' (by unfold unitRoundoff; norm_num)
    have hval : (2 : ℚ) ^ 15 * unitRoundoff = 1 / 2 ^ 38 := by
      unfold unitRoundoff
      norm_num
    calc (1 : ℚ) - 1 / 2 ^ 38 ≤ 1 + k * -unitRoundoff := by linarith
      _ ≤ (1 + -unitRoundoff) ^ k := hb
      _ = (1 - unitRoundoff) ^ k := by rw [sub_eq_add_neg]
  have hx := h.nonneg
  have hlow := (mul_le_mul_of_nonneg_left hbern hx).trans h.lower
  have hhigh := (mul_le_mul_of_nonneg_left hbern h.nonneg').trans h.upper
  rw [abs_le]
  constructor <;> norm_num at * <;> linarith

end Near

end L2Book
