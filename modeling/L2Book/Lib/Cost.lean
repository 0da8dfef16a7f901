import L2Book.Lib.Run

/-!
# The cost of a run

* `totalCost step cost s ms`: the cost of the steps of a run;
* **`totalCost_add_le`**: the potential method, with a potential on the abstract states of the run;
* `totalCost_le_mul`: a bound on one cost by another.
-/

namespace L2Book

variable {σ α μ ε : Type} {step : σ → μ → Except ε σ} {astep : α → μ → α} {W : α → μ → Prop}

/-- The cost of all steps, the one that faults included. -/
def totalCost (step : σ → μ → Except ε σ) (cost : σ → μ → ℕ) : σ → List μ → ℕ
  | _, [] => 0
  | s, m :: ms => cost s m + match step s m with
    | .ok s' => totalCost step cost s' ms
    | .error _ => 0

theorem totalCost_cons_of_ok {cost : σ → μ → ℕ} {s s' : σ} {m : μ} (h : step s m = .ok s')
    (ms : List μ) : totalCost step cost s (m :: ms) = cost s m + totalCost step cost s' ms := by
  rw [totalCost, h]

/-- **The potential method.** If every step pays for its cost with potential, so does the run. -/
theorem totalCost_add_le {cost : σ → μ → ℕ} (R : σ → α → Prop) (φ : α → ℕ)
    (hstep : ∀ s a m s', R s a → W a m → step s m = .ok s' → R s' (astep a m))
    (hcost : ∀ s a m, R s a → W a m → cost s m + φ a ≤ φ (astep a m)) {s s' : σ} {a : α} {ms : List μ}
    (hR : R s a) (hW : Guided astep W a ms) (h : run step s ms = .ok s') :
    totalCost step cost s ms + φ a ≤ φ (ms.foldl astep a) := by
  induction ms generalizing s a with
  | nil => exact Nat.le_of_eq (Nat.zero_add _)
  | cons m ms ih =>
    obtain ⟨s₁, hm, h⟩ := of_bind_eq_ok ((run_cons s m ms).symm.trans h)
    have hpaid := hcost s a m hR hW.1
    have hrest := ih (hstep s a m s₁ hR hW.1 hm) hW.2 h
    rw [totalCost_cons_of_ok hm, List.foldl_cons]
    omega

theorem totalCost_le_mul {cost cost' : σ → μ → ℕ} {k : ℕ} (R : σ → α → Prop)
    (hstep : ∀ s a m s', R s a → W a m → step s m = .ok s' → R s' (astep a m))
    (hcost : ∀ s a m, R s a → W a m → cost s m ≤ k * cost' s m) {s : σ} {a : α} {ms : List μ}
    (hR : R s a) (hW : Guided astep W a ms) :
    totalCost step cost s ms ≤ k * totalCost step cost' s ms := by
  induction ms generalizing s a with
  | nil => exact Nat.zero_le _
  | cons m ms ih =>
    have hfirst := hcost s a m hR hW.1
    rw [totalCost, totalCost, Nat.mul_add]
    cases hm : step s m with
    | ok s₁ => exact Nat.add_le_add hfirst (ih (hstep s a m s₁ hR hW.1 hm) hW.2)
    | error e => exact Nat.add_le_add hfirst (Nat.zero_le _)

end L2Book
