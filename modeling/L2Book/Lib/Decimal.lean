import Mathlib.Algebra.Field.Rat
import Mathlib.Data.Nat.Log
import Mathlib.Tactic.Linarith
import Mathlib.Tactic.Ring

/-!
# Decimal numbers

Numbers in the text formats `"%.kf"` and `"%lf"`, in ASCII.

* `decimal m`: a number without leading zeros; `fixedPoint k m`: the number `m / 10 ^ k` with `k` decimals;
* `readFixed`: the number at the start of a text, and its length; **`readFixed_fixedPoint`**;
* `length_fixedPoint_le`: how long the text is.
-/

namespace L2Book

/-- The character of a digit. -/
def digitChar (d : ℕ) : UInt8 := UInt8.ofNat (48 + d)

def point : UInt8 := 46

def isDecimalDigit (ch : UInt8) : Bool := 48 ≤ ch.toNat && ch.toNat ≤ 57

/-- The last `k` digits of a number. -/
def lastDigits : ℕ → ℕ → List UInt8
  | 0, _ => []
  | k + 1, m => lastDigits k (m / 10) ++ [digitChar (m % 10)]

/-- All digits of a number, at least one. -/
def decimal (m : ℕ) : List UInt8 := lastDigits (Nat.log 10 m + 1) m

/-- The text of `m / 10 ^ k` with `k` decimals. -/
def fixedPoint (k m : ℕ) : List UInt8 :=
  if k = 0 then decimal m else decimal (m / 10 ^ k) ++ point :: lastDigits k m

/-- The number with these digits. -/
def digitsValue (ds : List UInt8) : ℕ := ds.foldl (fun acc ch => 10 * acc + (ch.toNat - 48)) 0

/-- The number at the start of a text, and its length. -/
def readFixed (text : List UInt8) : Option (ℚ × ℕ) :=
  let whole := text.takeWhile isDecimalDigit
  let rest := text.drop whole.length
  if whole = [] then none
  else if rest.head? = some point then
    let frac := rest.tail.takeWhile isDecimalDigit
    some (digitsValue (whole ++ frac) / 10 ^ frac.length, whole.length + 1 + frac.length)
  else some (digitsValue whole, whole.length)

/-! ## Digits -/

theorem toNat_digitChar (m : ℕ) : (digitChar (m % 10)).toNat = 48 + m % 10 := by
  have h : m % 10 < 10 := Nat.mod_lt _ (by omega)
  rw [digitChar, UInt8.toNat_ofNat']
  omega

theorem isDecimalDigit_digitChar (m : ℕ) : isDecimalDigit (digitChar (m % 10)) = true := by
  have h : m % 10 < 10 := Nat.mod_lt _ (by omega)
  rw [isDecimalDigit, toNat_digitChar]
  simp
  omega

theorem isDecimalDigit_point : isDecimalDigit point = false := rfl

@[simp] theorem length_lastDigits (k m : ℕ) : (lastDigits k m).length = k := by
  induction k generalizing m with
  | zero => rfl
  | succ k ih => simp [lastDigits, ih]

theorem isDecimalDigit_of_mem_lastDigits {k m : ℕ} : ∀ ch ∈ lastDigits k m, isDecimalDigit ch = true := by
  induction k generalizing m with
  | zero => simp [lastDigits]
  | succ k ih =>
    intro ch hch
    simp only [lastDigits, List.mem_append, List.mem_singleton] at hch
    rcases hch with hch | rfl
    · exact ih ch hch
    · exact isDecimalDigit_digitChar m

theorem digitsValue_snoc (ds : List UInt8) (ch : UInt8) :
    digitsValue (ds ++ [ch]) = 10 * digitsValue ds + (ch.toNat - 48) := by
  simp [digitsValue]

/-- The digits behind others make room for themselves. -/
theorem digitsValue_append_lastDigits (ds : List UInt8) (k m : ℕ) :
    digitsValue (ds ++ lastDigits k m) = digitsValue ds * 10 ^ k + m % 10 ^ k := by
  induction k generalizing m with
  | zero => simp [lastDigits, Nat.mod_one]
  | succ k ih =>
    rw [lastDigits, ← List.append_assoc, digitsValue_snoc, ih, toNat_digitChar, Nat.pow_succ',
      Nat.mod_mul]
    simp only [Nat.add_sub_cancel_left]
    ring

theorem digitsValue_decimal (m : ℕ) : digitsValue (decimal m) = m := by
  have h := digitsValue_append_lastDigits [] (Nat.log 10 m + 1) m
  rw [List.nil_append] at h
  rw [decimal, h, Nat.mod_eq_of_lt (Nat.lt_pow_succ_log_self (by omega) m)]
  simp [digitsValue]

theorem decimal_ne_nil (m : ℕ) : decimal m ≠ [] := by
  intro h
  have hlen := congrArg List.length h
  simp [decimal] at hlen

theorem isDecimalDigit_of_mem_decimal {m : ℕ} : ∀ ch ∈ decimal m, isDecimalDigit ch = true :=
  isDecimalDigit_of_mem_lastDigits

theorem length_decimal_le {j m : ℕ} (hj : j ≠ 0) (hm : m < 10 ^ j) : (decimal m).length ≤ j := by
  have h := Nat.log_lt_of_lt_pow' hj hm
  rw [decimal, length_lastDigits]
  omega

/-! ## Reading -/

/-- The text does not go on with the number. -/
def Stops (rest : List UInt8) : Prop := ∀ ch ∈ rest.head?, isDecimalDigit ch = false ∧ ch ≠ point

theorem takeWhile_digits {ds rest : List UInt8} (hds : ∀ ch ∈ ds, isDecimalDigit ch = true)
    (hrest : ∀ ch ∈ rest.head?, isDecimalDigit ch = false) :
    (ds ++ rest).takeWhile isDecimalDigit = ds := by
  rw [List.takeWhile_append_of_pos hds]
  cases rest with
  | nil => simp
  | cons ch rest => simp [hrest ch rfl]

/-- **The number is read back.** -/
theorem readFixed_fixedPoint (k m : ℕ) {rest : List UInt8} (h : Stops rest) :
    readFixed (fixedPoint k m ++ rest) = some ((m : ℚ) / 10 ^ k, (fixedPoint k m).length) := by
  have hrest : ∀ ch ∈ rest.head?, isDecimalDigit ch = false := fun ch hch => (h ch hch).1
  unfold fixedPoint
  split_ifs with hk
  · -- no point follows
    subst hk
    have hwhole := takeWhile_digits (isDecimalDigit_of_mem_decimal (m := m)) hrest
    have hpoint : rest.head? ≠ some point := fun hp => (h point hp).2 rfl
    simp [readFixed, hwhole, decimal_ne_nil, hpoint, digitsValue_decimal]
  · have hwhole : (decimal (m / 10 ^ k) ++ point :: (lastDigits k m ++ rest)).takeWhile isDecimalDigit =
        decimal (m / 10 ^ k) := by
      refine takeWhile_digits isDecimalDigit_of_mem_decimal fun ch hch => ?_
      cases hch
      exact isDecimalDigit_point
    have hfrac := takeWhile_digits (isDecimalDigit_of_mem_lastDigits (k := k) (m := m)) hrest
    have hvalue : digitsValue (decimal (m / 10 ^ k) ++ lastDigits k m) = m := by
      rw [digitsValue_append_lastDigits, digitsValue_decimal, Nat.div_add_mod']
    simp [readFixed, hwhole, decimal_ne_nil, hfrac, hvalue]
    omega

/-! ## Length -/

theorem length_fixedPoint_le {j k m : ℕ} (hj : j ≠ 0) (hm : m < 10 ^ (j + k)) :
    (fixedPoint k m).length ≤ j + 1 + k := by
  unfold fixedPoint
  split_ifs with hk
  · subst hk
    have h := length_decimal_le hj hm
    omega
  · rw [Nat.pow_add, Nat.mul_comm] at hm
    have h := length_decimal_le hj (Nat.div_lt_of_lt_mul hm)
    simp only [List.length_append, List.length_cons, length_lastDigits]
    omega

theorem of_mem_fixedPoint {k m : ℕ} {ch : UInt8} (h : ch ∈ fixedPoint k m) :
    isDecimalDigit ch = true ∨ ch = point := by
  unfold fixedPoint at h
  split_ifs at h
  · exact .inl (isDecimalDigit_of_mem_decimal ch h)
  · rcases List.mem_append.mp h with h | h
    · exact .inl (isDecimalDigit_of_mem_decimal ch h)
    · rcases List.mem_cons.mp h with h | h
      · exact .inr h
      · exact .inl (isDecimalDigit_of_mem_lastDigits ch h)

end L2Book
