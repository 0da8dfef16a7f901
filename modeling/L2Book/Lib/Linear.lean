import Mathlib.Data.List.Perm.Basic

/-!
# Linearizability

Calls of a concurrent object take time; a completed call is recorded with the step numbers of its
beginning and its end. A sequential specification is a relation `σ → Op → σ → Prop`.

* `SeqRun`: a sequence of operations is legal;
* **`Linearizes`**: an order of the completed calls that is legal and never puts a call in front of one
  that had ended before it began;
* `ReturnOrder`, **`linearizes_of_returnOrder`**: the order of return qualifies as soon as it is legal.
-/

namespace L2Book

variable {σ Op : Type}

/-- A completed call. -/
structure Call (Op : Type) where
  op : Op
  start : ℕ
  finish : ℕ

/-- The operations lead from one state of the specification to another. -/
def SeqRun (spec : σ → Op → σ → Prop) : σ → List Op → σ → Prop
  | s, [], s' => s' = s
  | s, o :: os, s' => ∃ s₁, spec s o s₁ ∧ SeqRun spec s₁ os s'

theorem SeqRun.snoc {spec : σ → Op → σ → Prop} {s s₁ s₂ : σ} {os : List Op} {o : Op}
    (h : SeqRun spec s os s₁) (ho : spec s₁ o s₂) : SeqRun spec s (os ++ [o]) s₂ := by
  induction os generalizing s with
  | nil =>
    cases h
    exact ⟨s₂, ho, rfl⟩
  | cons o' os ih =>
    obtain ⟨s', h₁, h₂⟩ := h
    exact ⟨s', h₁, ih h₂⟩

/-- **`L` linearizes the calls.** -/
structure Linearizes (spec : σ → Op → σ → Prop) (s₀ : σ) (calls L : List (Call Op)) : Prop where
  perm : L.Perm calls
  realTime : L.Pairwise fun c c' => ¬ c'.finish < c.start
  legal : ∃ s, SeqRun spec s₀ (L.map (·.op)) s

/-- The calls are listed as they returned, all of them before step `now`. -/
structure ReturnOrder (now : ℕ) (calls : List (Call Op)) : Prop where
  sorted : calls.Pairwise fun c c' => c.finish < c'.finish
  begun : ∀ c ∈ calls, c.start ≤ c.finish
  past : ∀ c ∈ calls, c.finish < now

theorem returnOrder_nil (now : ℕ) : ReturnOrder now ([] : List (Call Op)) :=
  ⟨List.Pairwise.nil, nofun, nofun⟩

theorem ReturnOrder.tick {now : ℕ} {calls : List (Call Op)} (h : ReturnOrder now calls) :
    ReturnOrder (now + 1) calls :=
  ⟨h.sorted, h.begun, fun c hc => Nat.lt_succ_of_lt (h.past c hc)⟩

theorem ReturnOrder.snoc {now start : ℕ} {calls : List (Call Op)} (h : ReturnOrder now calls)
    (hs : start ≤ now) (op : Op) : ReturnOrder (now + 1) (calls ++ [⟨op, start, now⟩]) := by
  refine ⟨?_, fun c hc => ?_, fun c hc => ?_⟩
  · rw [List.pairwise_append]
    refine ⟨h.sorted, List.pairwise_singleton _ _, fun c hc c' hc' => ?_⟩
    rw [List.mem_singleton.mp hc']
    exact h.past c hc
  · rcases List.mem_append.mp hc with hc | hc
    · exact h.begun c hc
    · rw [List.mem_singleton.mp hc]
      exact hs
  · rcases List.mem_append.mp hc with hc | hc
    · exact Nat.lt_succ_of_lt (h.past c hc)
    · rw [List.mem_singleton.mp hc]
      exact Nat.lt_succ_self now

/-- **The order of return is a linearization** as soon as it is legal. -/
theorem linearizes_of_returnOrder {spec : σ → Op → σ → Prop} {s₀ s : σ} {now : ℕ}
    {calls : List (Call Op)} (h : ReturnOrder now calls)
    (hl : SeqRun spec s₀ (calls.map (·.op)) s) : Linearizes spec s₀ calls calls := by
  refine ⟨List.Perm.refl _, h.sorted.imp_of_mem fun {c c'} hc _ hlt => ?_, s, hl⟩
  have := h.begun c hc
  omega

end L2Book
