import Mathlib.Data.PNat.Basic
import Mathlib.Data.Rat.Floor
import L2Book.Lib.OrderStat

/-!
# The latency histogram

`Histogram` of `rdtsc.hpp`: one bucket for each value below `kBuckets - 1` and a last one for all others.

* `Histogram.record`, `percentile`, `reset`: the operations; `scan`: the loop of `percentile`;
* `Op`, `run`, `recorded`: sequences of operations and the values recorded since the last reset;
* `Holds`: the buckets count these values;
* **`percentile_orderStat`**: a percentile is an order statistic.
-/

namespace L2Book

/-- `buckets_` and `total_`. -/
structure Histogram (kBuckets : ℕ+) where
  buckets : Fin kBuckets → UInt64
  total : UInt64

namespace Histogram

variable {kBuckets : ℕ+}

/-! ## The operations -/

def init : Histogram kBuckets := ⟨fun _ => 0, 0⟩

/-- The bucket of a value. -/
def bucket (kBuckets : ℕ+) (ns : UInt64) : Fin kBuckets :=
  if h : ns.toNat < kBuckets - 1 then ⟨ns.toNat, by omega⟩
  else ⟨kBuckets - 1, Nat.sub_lt kBuckets.pos Nat.one_pos⟩

def record (h : Histogram kBuckets) (ns : UInt64) : Histogram kBuckets where
  buckets := Function.update h.buckets (bucket kBuckets ns) (h.buckets (bucket kBuckets ns) + 1)
  total := h.total + 1

/-- The loop over the buckets from `i` on. -/
def scan (h : Histogram kBuckets) (target : UInt64) (i : ℕ) (cum : UInt64) : UInt64 :=
  if hi : i < kBuckets then
    if cum + h.buckets ⟨i, hi⟩ > target then UInt64.ofNat i
    else h.scan target (i + 1) (cum + h.buckets ⟨i, hi⟩)
  else UInt64.ofNat (kBuckets - 1)
termination_by kBuckets - i

/-- `percentile(p)`, with the exact product of `p` and `total_`. -/
def percentile (h : Histogram kBuckets) (p : ℚ) : UInt64 :=
  if h.total = 0 then 0
  else h.scan (UInt64.ofNat ⌊p * h.total.toNat⌋₊) 0 0

def reset (h : Histogram kBuckets) : Histogram kBuckets :=
  { h with
    buckets := fun _ => 0
    total := 0 }

/-! ## Sequences of operations -/

/-- The operations that change the histogram. -/
inductive Op where
  | record (ns : UInt64)
  | reset

def step (h : Histogram kBuckets) : Op → Histogram kBuckets
  | .record ns => h.record ns
  | .reset => h.reset

/-- The histogram after `ops`. -/
def run (kBuckets : ℕ+) (ops : List Op) : Histogram kBuckets := ops.foldl step init

def recordedStep (vals : List UInt64) : Op → List UInt64
  | .record ns => vals ++ [ns]
  | .reset => []

/-- The values recorded since construction or the last reset. -/
def recorded (ops : List Op) : List UInt64 := ops.foldl recordedStep []

/-- A value, clamped to `kBuckets - 1`. -/
def clamp (kBuckets : ℕ+) (ns : UInt64) : ℕ := min ns.toNat (kBuckets - 1)

/-! ## What the buckets count -/

theorem bucket_val (ns : UInt64) : (bucket kBuckets ns : ℕ) = clamp kBuckets ns := by
  unfold bucket clamp
  split_ifs with h
  · exact (min_eq_left h.le).symm
  · exact (min_eq_right (not_lt.mp h)).symm

theorem clamp_lt (ns : UInt64) : clamp kBuckets ns < kBuckets :=
  (min_le_right _ _).trans_lt (Nat.sub_lt kBuckets.pos Nat.one_pos)

/-- **The buckets count the values**, modulo `2 ^ 64`. -/
structure Holds (h : Histogram kBuckets) (vals : List ℕ) : Prop where
  buckets : ∀ i, h.buckets i = UInt64.ofNat (vals.count (i : ℕ))
  total : h.total = UInt64.ofNat vals.length

theorem holds_nil : Holds (init : Histogram kBuckets) [] := ⟨fun _ => rfl, rfl⟩

theorem ofNat_succ (m : ℕ) : UInt64.ofNat (m + 1) = UInt64.ofNat m + 1 := UInt64.ofNat_add m 1

theorem record_bucket (h : Histogram kBuckets) (ns : UInt64) :
    (h.record ns).buckets (bucket kBuckets ns) = h.buckets (bucket kBuckets ns) + 1 :=
  Function.update_self _ _ _

theorem record_of_ne (h : Histogram kBuckets) {ns : UInt64} {i : Fin kBuckets}
    (hi : i ≠ bucket kBuckets ns) : (h.record ns).buckets i = h.buckets i :=
  Function.update_of_ne hi _ _

theorem Holds.record {h : Histogram kBuckets} {vals : List ℕ} (hh : Holds h vals) (ns : UInt64) :
    Holds (h.record ns) (vals ++ [clamp kBuckets ns]) := by
  refine ⟨fun i => ?_, ?_⟩
  · rw [List.count_append]
    by_cases hi : i = bucket kBuckets ns
    · rw [hi, record_bucket, hh.buckets, bucket_val, List.count_singleton_self, ofNat_succ]
    · have hne : clamp kBuckets ns ≠ i := fun heq => hi (Fin.ext (bucket_val ns ▸ heq.symm))
      have hzero : [clamp kBuckets ns].count (i : ℕ) = 0 := List.count_eq_zero.mpr fun hmem =>
        hne (List.mem_singleton.mp hmem).symm
      rw [record_of_ne h hi, hh.buckets, hzero, Nat.add_zero]
  · rw [Histogram.record, List.length_append, List.length_singleton, ofNat_succ, hh.total]

theorem Holds.step {h : Histogram kBuckets} {vals : List UInt64} (hh : Holds h (vals.map (clamp kBuckets)))
    (op : Op) : Holds (h.step op) ((recordedStep vals op).map (clamp kBuckets)) := by
  cases op with
  | record ns =>
    rw [recordedStep, List.map_append]
    exact hh.record ns
  | reset => exact holds_nil

theorem holds_run (kBuckets : ℕ+) (ops : List Op) :
    Holds (run kBuckets ops) ((recorded ops).map (clamp kBuckets)) :=
  List.foldl_rel (r := fun (h : Histogram kBuckets) (vals : List UInt64) =>
    Holds h (vals.map (clamp kBuckets))) holds_nil fun op _ _ _ hh => hh.step op

/-! ## The loop of `percentile` -/

theorem Holds.cum_next {h : Histogram kBuckets} {vals : List ℕ} (hh : Holds h vals)
    (hlen : vals.length < 2 ^ 64) {i : ℕ} (hi : i < kBuckets) {cum : UInt64}
    (hcum : cum.toNat = vals.countP (· < i)) :
    (cum + h.buckets ⟨i, hi⟩).toNat = vals.countP (· ≤ i) := by
  have hle : vals.countP (· ≤ i) < 2 ^ 64 := List.countP_le_length.trans_lt hlen
  rw [countP_le_eq] at hle ⊢
  rw [UInt64.toNat_add, hh.buckets, UInt64.toNat_ofNat', hcum, Nat.add_mod_mod, Nat.mod_eq_of_lt hle]

/-- **The loop stops at the order statistic**, when everything below the first bucket is counted in `cum`. -/
theorem Holds.scan_eq {h : Histogram kBuckets} {vals : List ℕ} (hh : Holds h vals)
    (hlen : vals.length < 2 ^ 64) {target : UInt64} {x : ℕ} (hx : orderStat vals target.toNat = some x)
    (hlt : x < kBuckets) (hfit : x < 2 ^ 64) {i : ℕ} {cum : UInt64}
    (hcum : cum.toNat = vals.countP (· < i)) (hix : i ≤ x) : (h.scan target i cum).toNat = x := by
  fun_induction scan h target i cum with
  | case1 i cum hi hgt =>
    rw [gt_iff_lt, UInt64.lt_iff_toNat_lt, hh.cum_next hlen hi hcum, ← orderStat_le_iff hx] at hgt
    rw [UInt64.toNat_ofNat', le_antisymm hix hgt, Nat.mod_eq_of_lt hfit]
  | case2 i cum hi hgt ih =>
    have hnext := hh.cum_next hlen hi hcum
    rw [gt_iff_lt, UInt64.lt_iff_toNat_lt, hnext, ← orderStat_le_iff hx, not_le] at hgt
    refine ih ?_ hgt
    rw [hnext]
    simp only [Nat.lt_succ_iff]
  | case3 i cum hi => exact absurd (hix.trans_lt hlt) hi

/-! ## Percentiles -/

section Percentiles

variable {ops ops' : List Op} {p q : ℚ}

theorem floor_mul_lt {m : ℕ} (hm : m ≠ 0) (h₀ : 0 ≤ p) (h₁ : p < 1) : ⌊p * m⌋₊ < m := by
  have hpos : (0 : ℚ) < m := by exact_mod_cast Nat.pos_of_ne_zero hm
  rw [Nat.floor_lt (by positivity)]
  exact mul_lt_of_lt_one_left hpos h₁

theorem toNat_total (kBuckets : ℕ+) (hlen : (recorded ops).length < 2 ^ 64) :
    (run kBuckets ops).total.toNat = (recorded ops).length := by
  rw [(holds_run kBuckets ops).total, List.length_map, UInt64.toNat_ofNat', Nat.mod_eq_of_lt hlen]

theorem percentile_eq_zero (hlen : (recorded ops).length < 2 ^ 64) (h : recorded ops = []) :
    (run kBuckets ops).percentile p = 0 := by
  have htotal := toNat_total kBuckets hlen
  rw [h] at htotal
  exact if_pos (UInt64.toNat_inj.mp htotal)

theorem percentile_eq (kBuckets : ℕ+) (hlen : (recorded ops).length < 2 ^ 64) (hne : recorded ops ≠ [])
    (h₀ : 0 ≤ p) (h₁ : p < 1) : orderStat ((recorded ops).map (clamp kBuckets)) ⌊p * (recorded ops).length⌋₊ =
      some ((run kBuckets ops).percentile p).toNat := by
  have hpos : (recorded ops).length ≠ 0 := fun h => hne (List.length_eq_zero_iff.mp h)
  have htotal := toNat_total kBuckets hlen
  have hrank := floor_mul_lt hpos h₀ h₁
  have htarget : (UInt64.ofNat ⌊p * (recorded ops).length⌋₊).toNat = ⌊p * (recorded ops).length⌋₊ := by
    rw [UInt64.toNat_ofNat', Nat.mod_eq_of_lt (hrank.trans hlen)]
  -- The order statistic is one of the clamped values.
  have hrank' : ⌊p * (recorded ops).length⌋₊ < ((recorded ops).map (clamp kBuckets)).length := by
    rwa [List.length_map]
  obtain ⟨x, hmem, hx⟩ := exists_orderStat hrank'
  obtain ⟨ns, -, rfl⟩ := List.mem_map.mp hmem
  have hscan : ((run kBuckets ops).scan (UInt64.ofNat ⌊p * (recorded ops).length⌋₊) 0 0).toNat =
      clamp kBuckets ns :=
    (holds_run kBuckets ops).scan_eq (by rwa [List.length_map]) (by rwa [htarget]) (clamp_lt ns)
      ((min_le_left _ _).trans_lt ns.toNat_lt) (by simp) (Nat.zero_le _)
  have hnonzero : (run kBuckets ops).total ≠ 0 := by
    intro h
    rw [h] at htotal
    exact hpos htotal.symm
  rw [hx, percentile, if_neg hnonzero, htotal, hscan]

theorem percentile_mono (hlen : (recorded ops).length < 2 ^ 64) (h₀ : 0 ≤ p) (hpq : p ≤ q) (h₁ : q < 1) :
    (run kBuckets ops).percentile p ≤ (run kBuckets ops).percentile q := by
  by_cases hne : recorded ops = []
  · rw [percentile_eq_zero hlen hne, percentile_eq_zero hlen hne]
    exact UInt64.le_refl 0
  · have hp := percentile_eq kBuckets hlen hne h₀ (hpq.trans_lt h₁)
    have hq := percentile_eq kBuckets hlen hne (h₀.trans hpq) h₁
    refine UInt64.le_iff_toNat_le.mpr (orderStat_mono hp hq (Nat.floor_mono ?_))
    exact mul_le_mul_of_nonneg_right hpq (Nat.cast_nonneg _)

theorem percentile_perm (hlen : (recorded ops).length < 2 ^ 64) (hperm : (recorded ops).Perm (recorded ops'))
    (h₀ : 0 ≤ p) (h₁ : p < 1) : (run kBuckets ops).percentile p = (run kBuckets ops').percentile p := by
  have hlen' : (recorded ops').length < 2 ^ 64 := hperm.length_eq ▸ hlen
  by_cases hne : recorded ops = []
  · rw [percentile_eq_zero hlen hne, percentile_eq_zero hlen' (hne ▸ hperm).nil_eq.symm]
  · have hne' : recorded ops' ≠ [] := fun h => hne (h ▸ hperm).eq_nil
    have hp := percentile_eq kBuckets hlen hne h₀ h₁
    have hp' := percentile_eq kBuckets hlen' hne' h₀ h₁
    rw [orderStat_perm (hperm.map _), hperm.length_eq, hp'] at hp
    exact (UInt64.toNat_inj.mp (Option.some.inj hp)).symm

/-- **Percentiles are order statistics.** After any operations with fewer than `2 ^ 53` values recorded since
construction or the last reset, `percentile(p)` for a rational `p` in `[0, 1)` is the value at position
`⌊p * total⌋` of the sorted list of the clamped values, and `0` if there are none. It grows with `p` and
does not depend on the order of recording. -/
theorem percentile_orderStat (kBuckets : ℕ+) (ops : List Op) (hlen : (recorded ops).length < 2 ^ 53)
    (p : ℚ) (h₀ : 0 ≤ p) (h₁ : p < 1) :
    (run kBuckets ops).total.toNat = (recorded ops).length ∧
    (recorded ops = [] → (run kBuckets ops).percentile p = 0) ∧
    (recorded ops ≠ [] → orderStat ((recorded ops).map (clamp kBuckets)) ⌊p * (recorded ops).length⌋₊ =
      some ((run kBuckets ops).percentile p).toNat) ∧
    (∀ q, p ≤ q → q < 1 → (run kBuckets ops).percentile p ≤ (run kBuckets ops).percentile q) ∧
    ∀ ops', (recorded ops).Perm (recorded ops') →
      (run kBuckets ops).percentile p = (run kBuckets ops').percentile p := by
  have hlen' : (recorded ops).length < 2 ^ 64 := hlen.trans (by norm_num)
  exact ⟨toNat_total kBuckets hlen', percentile_eq_zero hlen',
    fun hne => percentile_eq kBuckets hlen' hne h₀ h₁,
    fun q hpq hq => percentile_mono hlen' h₀ hpq hq,
    fun ops' hperm => percentile_perm hlen' hperm h₀ h₁⟩

/-- The upper of two values, one of them clamped, after a reset. -/
theorem percentile_orderStat_half :
    ((run 4 [.record 1, .reset, .record 9, .record 2]).percentile (1 / 2)).toNat = 3 := by
  obtain ⟨-, -, hstat, -⟩ := percentile_orderStat 4 [.record 1, .reset, .record 9, .record 2] (by decide)
    (1 / 2) (by norm_num) (by norm_num)
  have hfloor : ⌊(1 / 2 : ℚ) * (recorded [.record 1, .reset, .record 9, .record 2]).length⌋₊ = 1 := by
    have hlen : (recorded [.record 1, .reset, .record 9, .record 2]).length = 2 := rfl
    rw [hlen]
    norm_num
  have hsome := hstat (by decide)
  rw [hfloor] at hsome
  exact (Option.some.inj hsome).symm

end Percentiles

end Histogram

end L2Book
