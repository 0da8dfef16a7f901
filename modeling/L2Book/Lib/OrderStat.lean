import Mathlib.Data.List.Sort

/-!
# Order statistics

* `orderStat`: the element at a position of the sorted list;
* **`orderStat_le_iff`**: it is at most `y` exactly when enough elements are;
* `orderStat_perm`, `orderStat_mono`: it does not depend on the order of the list and grows with the
  position.
-/

namespace L2Book

variable {α : Type} [LinearOrder α] {l l' : List α} {t t' : ℕ} {x x' : α}

/-- The element at position `t` of the sorted list. -/
def orderStat (l : List α) (t : ℕ) : Option α := (l.insertionSort (· ≤ ·))[t]?

theorem countP_le_eq (l : List α) (x : α) : l.countP (· ≤ x) = l.countP (· < x) + l.count x := by
  induction l with
  | nil => rfl
  | cons a l ih =>
    rw [List.countP_cons, List.countP_cons, List.count_cons, ih]
    rcases lt_trichotomy a x with h | rfl | h
    · simp [h, h.le, h.ne]
      omega
    · simp
      omega
    · simp [h.not_ge, h.not_gt, h.ne']

theorem getElem_le_iff (h : l.Pairwise (· ≤ ·)) (ht : t < l.length) (y : α) :
    l[t] ≤ y ↔ t < l.countP (· ≤ y) := by
  induction l generalizing t with
  | nil => exact absurd ht (Nat.not_lt_zero t)
  | cons a l ih =>
    obtain ⟨ha, hl⟩ := List.pairwise_cons.mp h
    rw [List.countP_cons]
    by_cases hay : a ≤ y
    · rw [if_pos (decide_eq_true hay)]
      cases t with
      | zero => exact iff_of_true hay (Nat.succ_pos _)
      | succ t =>
        rw [List.getElem_cons_succ, ih hl, Nat.succ_lt_succ_iff]
    · -- Everything behind `a` is larger still.
      have hnone : l.countP (· ≤ y) = 0 := by
        rw [List.countP_eq_zero]
        intro b hb
        rw [decide_eq_true_eq]
        exact fun hby => hay ((ha b hb).trans hby)
      rw [if_neg (by rwa [decide_eq_true_eq]), hnone]
      refine iff_of_false (fun hle => hay ?_) (Nat.not_lt_zero t)
      cases t with
      | zero => exact hle
      | succ t => exact (ha _ (List.getElem_mem _)).trans hle

theorem exists_orderStat (ht : t < l.length) : ∃ x ∈ l, orderStat l t = some x := by
  have ht' : t < (l.insertionSort (· ≤ ·)).length := by rwa [List.length_insertionSort]
  exact ⟨_, (List.mem_insertionSort _).mp (List.getElem_mem ht'), List.getElem?_eq_getElem ht'⟩

/-- **The element at position `t` is at most `y`** exactly when more than `t` elements are. -/
theorem orderStat_le_iff (h : orderStat l t = some x) (y : α) : x ≤ y ↔ t < l.countP (· ≤ y) := by
  obtain ⟨ht, rfl⟩ := List.getElem?_eq_some_iff.mp h
  rw [getElem_le_iff (List.pairwise_insertionSort _ l) ht, (List.perm_insertionSort _ l).countP_eq]

theorem orderStat_perm (h : l.Perm l') (t : ℕ) : orderStat l t = orderStat l' t := by
  have hsort : l.insertionSort (· ≤ ·) = l'.insertionSort (· ≤ ·) :=
    ((List.perm_insertionSort _ l).trans (h.trans (List.perm_insertionSort _ l').symm)).eq_of_pairwise'
      (List.pairwise_insertionSort _ l) (List.pairwise_insertionSort _ l')
  rw [orderStat, hsort, orderStat]

theorem orderStat_mono (h : orderStat l t = some x) (h' : orderStat l t' = some x') (ht : t ≤ t') :
    x ≤ x' := by
  rw [orderStat_le_iff h]
  exact ht.trans_lt ((orderStat_le_iff h' x').mp le_rfl)

end L2Book
