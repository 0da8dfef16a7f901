import Mathlib.Data.List.Infix
import Mathlib.Data.List.Nodup
import Mathlib.Data.List.Perm.Subperm
import Mathlib.Order.Lattice

/-!
# Heads of sorted lists

* `isPrefix_of_sorted`: a sorted selection from a sorted list whose left-out elements all come later is
  an initial segment;
* **`eq_take_iff`**: when a sorted selection is the first `K` elements;
* `lt_of_mem_dropWhile`, **`filter_eq_snoc_iff`**: cutting a list with ascending keys at a bound;
* `pad`: filling a short list up to `K` entries, `filter_pad`.
-/

namespace L2Book

variable {α : Type} {lt : α → α → Prop}

theorem isPrefix_of_sorted (hasymm : ∀ x y, lt x y → ¬ lt y x) {l L : List α} (hl : l.Pairwise lt)
    (hL : L.Pairwise lt) (hsub : ∀ x ∈ l, x ∈ L) (hrest : ∀ x ∈ L, x ∉ l → ∀ y ∈ l, lt y x) :
    l <+: L := by
  induction l generalizing L with
  | nil => exact List.nil_prefix
  | cons x l ih =>
    cases L with
    | nil => exact absurd (hsub x List.mem_cons_self) (by simp)
    | cons y L =>
      obtain ⟨hxl, hl'⟩ := List.pairwise_cons.mp hl
      obtain ⟨hyL, hL'⟩ := List.pairwise_cons.mp hL
      have hxy : x = y := by
        by_contra hne
        have hxL : x ∈ L := (List.mem_cons.mp (hsub x List.mem_cons_self)).resolve_left hne
        by_cases hy : y ∈ x :: l
        · have hyl : y ∈ l := (List.mem_cons.mp hy).resolve_left (Ne.symm hne)
          exact hasymm x y (hxl y hyl) (hyL x hxL)
        · exact hasymm x y (hrest y List.mem_cons_self hy x List.mem_cons_self) (hyL x hxL)
      subst hxy
      have hself : ∀ z, lt x z → z ≠ x := by
        rintro z hz rfl
        exact hasymm z z hz hz
      refine (List.prefix_cons_inj x).mpr (ih hl' hL' (fun z hz => ?_) fun z hz hzl w hw => ?_)
      · exact (List.mem_cons.mp (hsub z (List.mem_cons_of_mem _ hz))).resolve_left
          (hself z (hxl z hz))
      · have hzx : z ∉ x :: l := fun hm => (List.mem_cons.mp hm).elim (hself z (hyL z hz)) hzl
        exact hrest z (List.mem_cons_of_mem _ hz) hzx w (List.mem_cons_of_mem _ hw)

/-- **A sorted selection is the first `K` elements** exactly when anything left out comes later and the
selection is full. -/
theorem eq_take_iff (hasymm : ∀ x y, lt x y → ¬ lt y x) {l L : List α} {K : ℕ} (hl : l.Pairwise lt)
    (hL : L.Pairwise lt) (hsub : ∀ x ∈ l, x ∈ L) (hK : l.length ≤ K) :
    l = L.take K ↔ ∀ x ∈ L, x ∉ l → l.length = K ∧ ∀ y ∈ l, lt y x := by
  constructor
  · intro h x hx hxl
    have hsplit : x ∈ L.take K ∨ x ∈ L.drop K := by
      rw [← List.mem_append, List.take_append_drop]
      exact hx
    have hdrop : x ∈ L.drop K := hsplit.resolve_left (h ▸ hxl)
    have hlen : K < L.length := by
      by_contra hle
      rw [List.drop_eq_nil_of_le (by omega)] at hdrop
      cases hdrop
    refine ⟨by rw [h, List.length_take]; omega, fun y hy => ?_⟩
    rw [← List.take_append_drop K L, List.pairwise_append] at hL
    exact hL.2.2 y (h ▸ hy) x hdrop
  · intro h
    have hpre : l <+: L := isPrefix_of_sorted hasymm hl hL hsub fun x hx hxl => (h x hx hxl).2
    by_cases hall : ∀ x ∈ L, x ∈ l
    · have hnd : L.Nodup := by
        refine List.Pairwise.imp ?_ hL
        rintro x y hxy rfl
        exact hasymm x x hxy hxy
      have hle : L.length ≤ l.length := (List.Nodup.subperm hnd hall).length_le
      have heq : l = L := hpre.eq_of_length_le hle
      rw [← heq, List.take_of_length_le hK]
    · push Not at hall
      obtain ⟨x, hx, hxl⟩ := hall
      rw [← (h x hx hxl).1]
      exact List.prefix_iff_eq_take.mp hpre

/-! ## Cuts -/

section Cuts

variable {β : Type} [LinearOrder β] {f : α → β} {t : β}

theorem lt_of_mem_dropWhile {l : List α} (hl : l.Pairwise fun y z => f y ≤ f z) {x : α}
    (hx : x ∈ l.dropWhile fun y => f y ≤ t) : t < f x := by
  induction l with
  | nil => cases hx
  | cons y l ih =>
    obtain ⟨hy, hl⟩ := List.pairwise_cons.mp hl
    by_cases hyt : f y ≤ t
    · rw [List.dropWhile_cons, if_pos (decide_eq_true hyt)] at hx
      exact ih hl hx
    · rw [List.dropWhile_cons, if_neg (by simpa using hyt)] at hx
      rcases List.mem_cons.mp hx with rfl | hx
      · exact not_le.mp hyt
      · exact (not_le.mp hyt).trans_le (hy x hx)

/-- **The first element at or above a bound** ends the part up to the bound exactly if it is the only one
that meets the bound. -/
theorem filter_eq_snoc_iff {pre post : List α} {x : α}
    (hs : (pre ++ x :: post).Pairwise fun y z => f y ≤ f z) (hpre : ∀ y ∈ pre, f y < t)
    (hx : t ≤ f x) : (pre ++ x :: post).filter (fun y => f y ≤ t) = pre ++ [x] ↔
      (pre ++ x :: post).countP (fun y => f y = t) = 1 := by
  have hpost : ∀ y ∈ post, f x ≤ f y :=
    (List.pairwise_cons.mp (List.pairwise_append.mp hs).2.1).1
  have hkeep : pre.filter (fun y => f y ≤ t) = pre :=
    List.filter_eq_self.mpr fun y hy => decide_eq_true (hpre y hy).le
  have hnone : pre.countP (fun y => f y = t) = 0 :=
    List.countP_eq_zero.mpr fun y hy => by simpa using (hpre y hy).ne
  rw [List.filter_append, hkeep, List.append_cancel_left_eq, List.countP_append, hnone, Nat.zero_add]
  rcases hx.eq_or_lt with hx | hx
  · rw [List.filter_cons, if_pos (decide_eq_true hx.ge), List.countP_cons, if_pos (decide_eq_true hx.symm),
      List.cons.injEq, Nat.add_eq_right, List.filter_eq_nil_iff, List.countP_eq_zero]
    refine ⟨fun h => fun y hy => ?_, fun h => ⟨rfl, fun y hy => ?_⟩⟩
    · have := h.2 y hy
      simp only [decide_eq_true_eq, not_le] at this ⊢
      exact this.ne'
    · have := h y hy
      simp only [decide_eq_true_eq, not_le] at this ⊢
      exact (hx.trans_le (hpost y hy)).lt_of_ne' this
  · have hlt : ∀ y ∈ x :: post, t < f y := by
      rintro y (_ | ⟨_, hy⟩)
      · exact hx
      · exact hx.trans_le (hpost y hy)
    rw [List.filter_eq_nil_iff.mpr fun y hy => by simpa using hlt y hy,
      List.countP_eq_zero.mpr fun y hy => by simpa using (hlt y hy).ne']
    simp

end Cuts

/-! ## Padding -/

/-- `l` filled up to `K` entries. -/
def pad (K : ℕ) (z : α) (l : List α) : List α := l ++ List.replicate (K - l.length) z

theorem mem_pad {K : ℕ} {z x : α} {l : List α} :
    x ∈ pad K z l ↔ x ∈ l ∨ (l.length < K ∧ x = z) := by
  unfold pad
  rw [List.mem_append, List.mem_replicate]
  refine or_congr_right (and_congr_left fun _ => ?_)
  omega

theorem filter_pad {K : ℕ} {z : α} {l : List α} {P : α → Bool} (hl : ∀ x ∈ l, P x = true)
    (hz : P z = false) : (pad K z l).filter P = l := by
  unfold pad
  rw [List.filter_append, List.filter_eq_self.mpr hl, List.filter_replicate, hz]
  simp

end L2Book
