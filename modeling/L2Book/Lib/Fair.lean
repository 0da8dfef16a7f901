import Mathlib.Data.Set.Finite.Lattice
import L2Book.Lib.Run

/-!
# Progress under fair schedules

Threads take the steps of a system one after another, in the order of a schedule; `who` says whose turn an
input is. In every state that is not final one thread is the *helper*. No step raises the rank, and a step
that keeps it keeps the helper and is not the helper's own. So the rank falls in every round, a part of
the schedule in which each thread has a turn.

* `Round`, `Rounds`: schedules that give each thread a turn once, or several times over;
* **`Progress`**: what a rank and a helper must satisfy; **`Progress.goal_of_rounds`**: as many rounds as the
  rank allows lead to the goal;
* `Fair`: an infinite schedule in which each thread has infinitely many turns; `Fair.exists_rounds`: it has
  as many rounds as one likes.
-/

namespace L2Book

variable {σ μ ε Θ : Type}

/-- Each thread has a turn. -/
def Round (who : μ → Θ) (ts : List μ) : Prop := ∀ θ, ∃ t ∈ ts, who t = θ

/-- The schedule consists of at least so many rounds, one after another. -/
def Rounds (who : μ → Θ) : ℕ → List μ → Prop
  | 0, _ => True
  | m + 1, ts => ∃ us vs, ts = us ++ vs ∧ Round who us ∧ Rounds who m vs

theorem rounds_replicate {who : μ → Θ} {us : List μ} (h : Round who us) (m : ℕ) :
    Rounds who m (List.replicate m us).flatten := by
  induction m with
  | zero => trivial
  | succ m ih => exact ⟨us, _, rfl, h, ih⟩

/-- **A measure of progress.** Within the invariant `I` a step towards the goal `G` lowers the rank, or it
keeps rank and helper and is the step of another thread. -/
structure Progress (step : σ → μ → Except ε σ) (who : μ → Θ) (I G : σ → Prop) (rank : σ → ℕ)
    (helper : σ → Θ) : Prop where
  inv : ∀ s t s', I s → step s t = .ok s' → I s'
  stable : ∀ s t s', I s → G s → step s t = .ok s' → G s'
  step : ∀ s t s', I s → ¬ G s → step s t = .ok s' →
    rank s' < rank s ∨ rank s' = rank s ∧ helper s' = helper s ∧ who t ≠ helper s

section Rules

variable {step : σ → μ → Except ε σ} {who : μ → Θ} {I G : σ → Prop} {rank : σ → ℕ} {helper : σ → Θ}

theorem Progress.inv_run (h : Progress step who I G rank helper) {s s' : σ} {ts : List μ} (hI : I s)
    (hr : run step s ts = .ok s') : I s' := run_invariant I h.inv hI hr

theorem Progress.stable_run (h : Progress step who I G rank helper) {s s' : σ} {ts : List μ} (hI : I s)
    (hG : G s) (hr : run step s ts = .ok s') : G s' :=
  (run_invariant (fun s => I s ∧ G s)
    (fun s t s' hs ht => ⟨h.inv s t s' hs.1 ht, h.stable s t s' hs.1 hs.2 ht⟩) ⟨hI, hG⟩ hr).2

theorem Progress.rank_run (h : Progress step who I G rank helper) {s s' : σ} {ts : List μ} (hI : I s)
    (hr : run step s ts = .ok s') : G s' ∨ rank s' ≤ rank s := by
  induction ts generalizing s with
  | nil =>
    cases hr
    exact .inr le_rfl
  | cons t ts ih =>
    rw [run_cons] at hr
    obtain ⟨s₁, ht, hr⟩ := of_bind_eq_ok hr
    have hI₁ := h.inv s t s₁ hI ht
    by_cases hG : G s
    · exact .inl (h.stable_run hI₁ (h.stable s t s₁ hI hG ht) hr)
    refine (ih hI₁ hr).imp id fun hle => ?_
    rcases h.step s t s₁ hI hG ht with hlt | ⟨heq, -, -⟩
    · exact hle.trans hlt.le
    · exact hle.trans heq.le

/-- A turn of the helper lowers the rank, whatever the turns of other threads before it. -/
theorem Progress.rank_lt (h : Progress step who I G rank helper) {s s' : σ} {ts : List μ} (hI : I s)
    (hw : ∃ t ∈ ts, who t = helper s) (hr : run step s ts = .ok s') : G s' ∨ rank s' < rank s := by
  induction ts generalizing s with
  | nil =>
    obtain ⟨t, ht, -⟩ := hw
    cases ht
  | cons t ts ih =>
    rw [run_cons] at hr
    obtain ⟨s₁, ht, hr⟩ := of_bind_eq_ok hr
    have hI₁ := h.inv s t s₁ hI ht
    by_cases hG : G s
    · exact .inl (h.stable_run hI₁ (h.stable s t s₁ hI hG ht) hr)
    rcases h.step s t s₁ hI hG ht with hlt | ⟨heq, hhelp, hne⟩
    · exact (h.rank_run hI₁ hr).imp id fun hle => hle.trans_lt hlt
    · -- the helper's turn is still to come
      obtain ⟨t', ht', hw⟩ := hw
      have hmem : t' ∈ ts := by
        rcases List.mem_cons.mp ht' with rfl | hmem
        · exact absurd hw hne
        · exact hmem
      rw [← heq]
      exact ih hI₁ ⟨t', hmem, hw.trans hhelp.symm⟩ hr

/-- **As many rounds as the rank allows lead to the goal.** -/
theorem Progress.goal_of_rounds (h : Progress step who I G rank helper) {s s' : σ} {ts : List μ} {m : ℕ}
    (hI : I s) (hm : rank s < m) (hts : Rounds who m ts) (hr : run step s ts = .ok s') : G s' := by
  induction m generalizing s ts with
  | zero => exact absurd hm (Nat.not_lt_zero _)
  | succ m ih =>
    obtain ⟨us, vs, rfl, hus, hvs⟩ := hts
    rw [run_append] at hr
    obtain ⟨s₁, hu, hr⟩ := of_bind_eq_ok hr
    have hI₁ := h.inv_run hI hu
    rcases h.rank_lt hI (hus (helper s)) hu with hG | hlt
    · exact h.stable_run hI₁ hG hr
    · exact ih hI₁ (by omega) hvs hr

end Rules

/-! ## Infinite schedules -/

/-- Each thread has infinitely many turns. -/
def Fair (who : μ → Θ) (f : ℕ → μ) : Prop := ∀ θ k, ∃ j, k ≤ j ∧ who (f j) = θ

/-- The turns from number `k` on. -/
def turns (f : ℕ → μ) (k len : ℕ) : List μ := (List.range' k len).map f

theorem turns_append (f : ℕ → μ) (k l l' : ℕ) :
    turns f k (l + l') = turns f k l ++ turns f (k + l) l' := by
  rw [turns, turns, turns, ← List.map_append, List.range'_append_1]

section Fair

variable [Finite Θ] {who : μ → Θ} {f : ℕ → μ}

theorem Fair.exists_round (h : Fair who f) (k : ℕ) : ∃ len, Round who (turns f k len) := by
  choose j hj hw using fun θ => h θ k
  obtain ⟨top, htop⟩ := (Set.finite_range j).bddAbove
  refine ⟨top + 1 - k, fun θ => ⟨f (j θ), ?_, hw θ⟩⟩
  have hle : j θ ≤ top := htop ⟨θ, rfl⟩
  have hge := hj θ
  exact List.mem_map.mpr ⟨j θ, List.mem_range'_1.mpr ⟨hge, by omega⟩, rfl⟩

theorem Fair.exists_rounds (h : Fair who f) (m k : ℕ) : ∃ len, Rounds who m (turns f k len) := by
  induction m generalizing k with
  | zero => exact ⟨0, trivial⟩
  | succ m ih =>
    obtain ⟨l, hl⟩ := h.exists_round k
    obtain ⟨l', hl'⟩ := ih (k + l)
    exact ⟨l + l', _, _, turns_append f k l l', hl, hl'⟩

end Fair

end L2Book
