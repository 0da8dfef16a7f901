import Mathlib.Data.List.Perm.Basic

/-!
# Reordering independent inputs

Inputs touch keys, and inputs that share no key commute. Two lists of the same inputs lead to the same
state if for every key the inputs that touch it come in the same order.

* `SameOrder`: the lists agree key by key;
* `foldl_middle`: an input moves to the front past inputs it shares no key with;
* **`SameOrder.foldl_eq`**: the rule.
-/

namespace L2Book

variable {α κ σ : Type}

/-- No key is touched by both inputs. -/
def Independent (touches : κ → α → Bool) (x y : α) : Prop :=
  ∀ k, touches k x = true → touches k y = false

/-- **The same inputs, in the same order for each key.** -/
structure SameOrder (touches : κ → α → Bool) (l l' : List α) : Prop where
  perm : l.Perm l'
  keys : ∀ k, l.filter (touches k) = l'.filter (touches k)

section Rules

variable {touches : κ → α → Bool} {step : σ → α → σ}

/-- An input moves to the front past inputs that it is independent of. -/
theorem foldl_middle (hcomm : ∀ s x y, Independent touches x y → step (step s x) y = step (step s y) x)
    {x : α} {u : List α} (hu : ∀ y ∈ u, Independent touches x y) (v : List α) (s : σ) :
    (u ++ x :: v).foldl step s = (u ++ v).foldl step (step s x) := by
  induction u generalizing s with
  | nil => rfl
  | cons y u ih =>
    have hy := hcomm s x y (hu y List.mem_cons_self)
    rw [List.cons_append, List.foldl_cons, ih fun z hz => hu z (List.mem_cons_of_mem _ hz),
      List.cons_append, List.foldl_cons, hy]

/-- What precedes the first occurrence of the head is independent of it. -/
theorem SameOrder.independent {x : α} {l u v : List α} (h : SameOrder touches (x :: l) (u ++ x :: v))
    (hx : x ∉ u) : ∀ y ∈ u, Independent touches x y := by
  intro y hy k hxk
  by_contra hyk
  rw [Bool.not_eq_false] at hyk
  have hkey := h.keys k
  rw [List.filter_cons_of_pos hxk, List.filter_append] at hkey
  -- the filtered `u` is not empty, so its head is `x`
  cases hu : u.filter (touches k) with
  | nil =>
    have hmem : y ∈ u.filter (touches k) := List.mem_filter.mpr ⟨hy, hyk⟩
    rw [hu] at hmem
    cases hmem
  | cons z w =>
    rw [hu, List.cons_append, List.cons.injEq] at hkey
    have hmem : z ∈ u.filter (touches k) := by
      rw [hu]
      exact List.mem_cons_self
    rw [hkey.1] at hx
    exact hx (List.mem_filter.mp hmem).1

theorem SameOrder.tail {x : α} {l u v : List α} (h : SameOrder touches (x :: l) (u ++ x :: v))
    (hu : ∀ y ∈ u, Independent touches x y) : SameOrder touches l (u ++ v) := by
  refine ⟨(h.perm.trans List.perm_middle).cons_inv, fun k => ?_⟩
  have hkey := h.keys k
  rw [List.filter_append] at hkey
  rw [List.filter_append]
  cases hxk : touches k x with
  | true =>
    have hnil : u.filter (touches k) = [] := List.filter_eq_nil_iff.mpr fun y hy => by
      rw [hu y hy k hxk]
      exact Bool.false_ne_true
    rw [List.filter_cons_of_pos hxk, List.filter_cons_of_pos hxk, hnil, List.nil_append,
      List.cons.injEq] at hkey
    rw [hnil, List.nil_append, hkey.2]
  | false =>
    rw [List.filter_cons_of_neg (by rw [hxk]; exact Bool.false_ne_true),
      List.filter_cons_of_neg (by rw [hxk]; exact Bool.false_ne_true)] at hkey
    exact hkey

/-- **Lists that agree key by key lead to the same state.** -/
theorem SameOrder.foldl_eq (hcomm : ∀ s x y, Independent touches x y →
      step (step s x) y = step (step s y) x)
    {l l' : List α} (h : SameOrder touches l l') (s : σ) : l.foldl step s = l'.foldl step s := by
  induction l generalizing l' s with
  | nil => rw [List.nil_perm.mp h.perm]
  | cons x l ih =>
    obtain ⟨u, v, rfl, hx⟩ := List.eq_append_cons_of_mem (h.perm.subset List.mem_cons_self)
    have hu := h.independent hx
    rw [foldl_middle hcomm hu, List.foldl_cons]
    exact ih (h.tail hu) (step s x)

end Rules

end L2Book
