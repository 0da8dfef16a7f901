import Mathlib.Algebra.Order.Floor.Semifield
import L2Book.Bench.Histogram
import L2Book.Lib.Double

/-!
# The percentiles in doubles

`p50`, `p99` and `p999` of `rdtsc.hpp`. The literals are doubles, and so is their product with the number of
values before it is cut off to the rank.

* `Histogram.percentileDouble`, `p50`, `p99`, `p999`, `count`;
* **`floor_roundDouble_mul`**: rounding does not change the rank;
* **`percentiles_exact`**: the percentiles are order statistics at the exact ranks.
-/

namespace L2Book

/-! ## The rank -/

/-- **Rounding does not change the rank** `⌊N * a / b⌋` if the literal is not above the fraction. -/
theorem floor_roundDouble_mul {a b N : ℕ} {c : ℚ} (hab : a ≤ b) (hb : 0 < b) (hb' : b ≤ 1000)
    (hlow : (a / b : ℚ) * (1 - 1 / 2 ^ 55) ≤ c) (hhigh : c ≤ a / b) (hN : N < 2 ^ 43) :
    ⌊roundDouble (c * roundDouble N)⌋₊ = N * a / b := by
  have hbpos : (0 : ℚ) < b := by exact_mod_cast hb
  have hN' : (N : ℚ) < 2 ^ 43 := by exact_mod_cast hN
  have hNpos : (0 : ℚ) ≤ N := N.cast_nonneg
  have hexact : roundDouble N = N := roundDouble_eq_natCast (by omega) (by linarith) le_rfl
  have hdiv : N * a = b * (N * a / b) + N * a % b := (Nat.div_add_mod _ _).symm
  have hrest : N * a % b < b := Nat.mod_lt _ hb
  have hle : N * a / b ≤ N := Nat.div_le_of_le_mul (by nlinarith)
  generalize N * a / b = k at hdiv hle ⊢
  generalize N * a % b = r at hdiv hrest
  -- the product before rounding
  have hfrac : (a / b : ℚ) * N = k + r / b := by
    have hcast : (N * a : ℚ) = b * k + r := by exact_mod_cast hdiv
    field_simp
    linarith
  have hxlow : (k + r / b : ℚ) * (1 - 1 / 2 ^ 55) ≤ c * N := by
    rw [← hfrac, mul_right_comm]
    exact mul_le_mul_of_nonneg_right hlow hNpos
  have hxhigh : c * N ≤ k + r / b := by
    rw [← hfrac]
    exact mul_le_mul_of_nonneg_right hhigh hNpos
  have hk : (k : ℚ) ≤ N := by exact_mod_cast hle
  have hrb : (r / b : ℚ) ≤ 1 - 1 / 1000 := by
    have hsucc : (r + 1 : ℚ) ≤ b := by exact_mod_cast hrest
    have hb1000 : (b : ℚ) ≤ 1000 := by exact_mod_cast hb'
    rw [div_le_iff₀ hbpos]
    linarith
  have hrpos : (0 : ℚ) ≤ r / b := by positivity
  have hx : 0 ≤ c * N := le_trans (by positivity) hxlow
  rw [hexact, Nat.floor_eq_iff (by rw [roundDouble_of_nonneg hx]; exact roundPos_nonneg hx)]
  constructor
  · rcases Nat.eq_zero_or_pos r with hr | hr
    · -- the exact product is the rank
      rw [hr, Nat.cast_zero, zero_div, add_zero] at hxlow hxhigh
      exact (roundDouble_eq_natCast (by omega) hxlow hxhigh).ge
    · -- the rank lies below the product, and is a double
      have hstep : (1 / 1000 : ℚ) ≤ r / b := by
        have hr' : (1 : ℚ) ≤ r := by exact_mod_cast hr
        have hb1000 : (b : ℚ) ≤ 1000 := by exact_mod_cast hb'
        rw [div_le_div_iff₀ (by norm_num) hbpos]
        linarith
      have hkx : (k : ℚ) ≤ c * N := by linarith
      calc (k : ℚ) = roundDouble k := (roundDouble_eq_natCast (by omega) (by linarith) le_rfl).symm
        _ ≤ roundDouble (c * N) := roundDouble_mono hkx
  · have herr := (abs_le.mp (abs_roundDouble_sub_le (c * N))).2
    rw [abs_of_nonneg hx] at herr
    linarith

namespace Histogram

variable {kBuckets : ℕ+}

/-- `percentile(p)` for a double `p`. -/
def percentileDouble (h : Histogram kBuckets) (p : ℚ) : UInt64 :=
  if h.total = 0 then 0
  else h.scan (UInt64.ofNat ⌊roundDouble (p * roundDouble h.total.toNat)⌋₊) 0 0

def p50 (h : Histogram kBuckets) : UInt64 := h.percentileDouble (roundDouble (50 / 100))

def p99 (h : Histogram kBuckets) : UInt64 := h.percentileDouble (roundDouble (99 / 100))

def p999 (h : Histogram kBuckets) : UInt64 := h.percentileDouble (roundDouble (999 / 1000))

def count (h : Histogram kBuckets) : UInt64 := h.total

/-! ## The literals -/

theorem roundDouble_p50 : roundDouble (50 / 100) = 1 / 2 := by
  rw [roundDouble_eq_of_exponent (e := -1) (m := 2 ^ 52) (by norm_num) (by norm_num) (by norm_num)]
  norm_num

theorem roundDouble_p99 : roundDouble (99 / 100) = 8917127262193582 / 2 ^ 53 := by
  rw [roundDouble_eq_of_exponent (e := -1) (m := 8917127262193582) (by norm_num) (by norm_num)
    (by norm_num [abs_lt])]
  norm_num

theorem roundDouble_p999 : roundDouble (999 / 1000) = 8998192055486251 / 2 ^ 53 := by
  rw [roundDouble_eq_of_exponent (e := -1) (m := 8998192055486251) (by norm_num) (by norm_num)
    (by norm_num [abs_lt])]
  norm_num

/-! ## The percentiles -/

section Percentiles

variable {h : Histogram kBuckets}

theorem rank_eq (a b N : ℕ) : ⌊(a / b : ℚ) * N⌋₊ = N * a / b := by
  rw [div_mul_eq_mul_div, mul_comm, ← Nat.cast_mul, Nat.floor_div_eq_div]

/-- A literal that is not above its fraction gives the percentile of the fraction. -/
theorem percentileDouble_eq {a b : ℕ} {c : ℚ} (hab : a ≤ b) (hb : 0 < b) (hb' : b ≤ 1000)
    (hlow : (a / b : ℚ) * (1 - 1 / 2 ^ 55) ≤ c) (hhigh : c ≤ a / b) (hN : h.total.toNat < 2 ^ 43) :
    h.percentileDouble c = h.percentile (a / b) := by
  rw [percentileDouble, percentile, floor_roundDouble_mul hab hb hb' hlow hhigh hN, rank_eq]

theorem p50_eq (hN : h.total.toNat < 2 ^ 43) : h.p50 = h.percentile (1 / 2) := by
  have heq := percentileDouble_eq (h := h) (a := 1) (b := 2) (c := 1 / 2) (by decide) (by decide) (by decide)
    (by norm_num) (by norm_num) hN
  rw [p50, roundDouble_p50, heq]
  norm_num

theorem p99_eq (hN : h.total.toNat < 2 ^ 43) : h.p99 = h.percentile (99 / 100) := by
  have heq := percentileDouble_eq (h := h) (a := 99) (b := 100) (c := 8917127262193582 / 2 ^ 53) (by decide)
    (by decide) (by decide) (by norm_num) (by norm_num) hN
  rw [p99, roundDouble_p99, heq]
  norm_num

theorem p999_eq (hN : h.total.toNat < 2 ^ 43) : h.p999 = h.percentile (999 / 1000) := by
  have heq := percentileDouble_eq (h := h) (a := 999) (b := 1000) (c := 8998192055486251 / 2 ^ 53) (by decide)
    (by decide) (by decide) (by norm_num) (by norm_num) hN
  rw [p999, roundDouble_p999, heq]
  norm_num

/-- **The percentiles are exact.** After any operations with fewer than `2 ^ 43` values recorded since
construction or the last reset, `p50`, `p99` and `p999`, computed in doubles, are the values at the positions
`total / 2`, `total * 99 / 100` and `total * 999 / 1000` of the sorted list of the clamped values, and `0` if
there are none; they do not decrease from one to the next. -/
theorem percentiles_exact (kBuckets : ℕ+) (ops : List Op) (hlen : (recorded ops).length < 2 ^ 43) :
    (run kBuckets ops).count.toNat = (recorded ops).length ∧
    (recorded ops = [] →
      (run kBuckets ops).p50 = 0 ∧ (run kBuckets ops).p99 = 0 ∧ (run kBuckets ops).p999 = 0) ∧
    (recorded ops ≠ [] →
      orderStat ((recorded ops).map (clamp kBuckets)) ((recorded ops).length / 2) =
        some (run kBuckets ops).p50.toNat ∧
      orderStat ((recorded ops).map (clamp kBuckets)) ((recorded ops).length * 99 / 100) =
        some (run kBuckets ops).p99.toNat ∧
      orderStat ((recorded ops).map (clamp kBuckets)) ((recorded ops).length * 999 / 1000) =
        some (run kBuckets ops).p999.toNat) ∧
    (run kBuckets ops).p50 ≤ (run kBuckets ops).p99 ∧ (run kBuckets ops).p99 ≤ (run kBuckets ops).p999 := by
  have hlen' : (recorded ops).length < 2 ^ 64 := hlen.trans (by norm_num)
  have htotal := toNat_total kBuckets hlen'
  have hN : (run kBuckets ops).total.toNat < 2 ^ 43 := by rwa [htotal]
  rw [p50_eq hN, p99_eq hN, p999_eq hN]
  refine ⟨htotal, fun hnil => ⟨percentile_eq_zero hlen' hnil, percentile_eq_zero hlen' hnil,
    percentile_eq_zero hlen' hnil⟩, fun hne => ⟨?_, ?_, ?_⟩, ?_, ?_⟩
  · have hstat := percentile_eq kBuckets hlen' hne (p := 1 / 2) (by norm_num) (by norm_num)
    have hrank := rank_eq 1 2 (recorded ops).length
    rw [mul_one] at hrank
    rwa [show (1 / 2 : ℚ) = (1 : ℕ) / (2 : ℕ) by norm_num, hrank] at hstat
  · have hstat := percentile_eq kBuckets hlen' hne (p := 99 / 100) (by norm_num) (by norm_num)
    rwa [show (99 / 100 : ℚ) = (99 : ℕ) / (100 : ℕ) by norm_num, rank_eq] at hstat
  · have hstat := percentile_eq kBuckets hlen' hne (p := 999 / 1000) (by norm_num) (by norm_num)
    rwa [show (999 / 1000 : ℚ) = (999 : ℕ) / (1000 : ℕ) by norm_num, rank_eq] at hstat
  · exact percentile_mono hlen' (by norm_num) (by norm_num) (by norm_num)
  · exact percentile_mono hlen' (by norm_num) (by norm_num) (by norm_num)

/-- Three values, one of them clamped. -/
theorem percentiles_exact_three : (run 4 [.record 1, .record 9, .record 2]).p50.toNat = 2 ∧
    (run 4 [.record 1, .record 9, .record 2]).p99.toNat = 3 := by
  obtain ⟨-, -, hstat, -⟩ := percentiles_exact 4 [.record 1, .record 9, .record 2] (by decide)
  obtain ⟨h50, h99, -⟩ := hstat (by decide)
  exact ⟨(Option.some.inj h50).symm, (Option.some.inj h99).symm⟩

end Percentiles

end Histogram

end L2Book
