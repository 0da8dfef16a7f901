import Mathlib.Data.List.FinRange
import L2Book.Book.Insert

/-!
# The order pool

* **`PoolOk A pool`**: the free list is a nil-terminated chain without repetition that holds exactly
  the slots outside `A`;
* `poolOk_init`, `PoolOk.alloc`, `PoolOk.free`: construction, allocation and release keep it;
* `PoolOk.alloc_none`: the free list is empty only when every slot is in use.
-/

namespace L2Book

variable {n : ℕ}

/-- **The free list holds exactly the slots outside `A`.** -/
def PoolOk (A : Set (Fin n)) (pool : OrderPool n) : Prop :=
  ∃ l, IsChain (fun p => (pool.slots p).next) pool.freeHead l ∧ l.Nodup ∧ ∀ p, p ∈ l ↔ p ∉ A

theorem PoolOk.congr {A : Set (Fin n)} {pool pool' : OrderPool n} (h : PoolOk A pool)
    (hf : pool'.freeHead = pool.freeHead)
    (hn : ∀ p, p ∉ A → (pool'.slots p).next = (pool.slots p).next) : PoolOk A pool' := by
  obtain ⟨l, hc, hnd, hmem⟩ := h
  refine ⟨l, ?_, hnd, hmem⟩
  rw [hf]
  exact hc.congr fun p hp => hn p ((hmem p).mp hp)

/-! ## Construction -/

theorem isChain_init (k : ℕ) (hk : k ≤ n) :
    IsChain (fun p => ((OrderPool.init n).slots p).next)
      (if h : k < n then some ⟨k, h⟩ else none) ((List.finRange n).drop k) := by
  induction hd : n - k generalizing k with
  | zero =>
    rw [dif_neg (by omega), List.drop_eq_nil_of_le (by simpa using Nat.sub_eq_zero_iff_le.mp hd)]
    rfl
  | succ m ih =>
    have hlt : k < n := by omega
    rw [dif_pos hlt, List.drop_eq_getElem_cons (by simpa using hlt)]
    refine ⟨by simp, ?_⟩
    have := ih (k + 1) (by omega) (by omega)
    simpa [OrderPool.init] using this

theorem poolOk_init : PoolOk ∅ (OrderPool.init n) :=
  ⟨List.finRange n, by simpa [OrderPool.init] using isChain_init (n := n) 0 (Nat.zero_le n),
    List.nodup_finRange n, fun p => by simp⟩

/-! ## Allocation and release -/

theorem PoolOk.alloc_none {A : Set (Fin n)} {pool : OrderPool n} (h : PoolOk A pool)
    (hf : pool.freeHead = none) : ∀ p, p ∈ A := by
  obtain ⟨l, hc, -, hmem⟩ := h
  rw [hf] at hc
  intro p
  by_contra hp
  have := (hmem p).mpr hp
  rw [hc.eq_nil_of_none] at this
  cases this

/-- **Allocation** hands out a slot that is not in use. -/
theorem PoolOk.alloc {A : Set (Fin n)} {pool : OrderPool n} (b : Build) (h : PoolOk A pool)
    (hfree : ∃ p, p ∉ A) :
    ∃ pool' o, pool.alloc b = .ok (pool', o) ∧ o ∉ A ∧ PoolOk (insert o A) pool' ∧
      pool'.slots = modify pool.slots o fun x => { x with next := none, prev := none } := by
  cases hf : pool.freeHead with
  | none =>
    obtain ⟨p, hp⟩ := hfree
    exact absurd (h.alloc_none hf p) hp
  | some o =>
    obtain ⟨l, hc, hnd, hmem⟩ := h
    rw [hf] at hc
    obtain ⟨l', rfl, hc'⟩ := hc.cons_of_some
    have hnd' := List.nodup_cons.mp hnd
    refine ⟨{ slots := modify pool.slots o fun x => { x with next := none, prev := none },
              freeHead := (pool.slots o).next }, o, ?_, (hmem o).mp List.mem_cons_self,
      ⟨l', ?_, hnd'.2, fun p => ?_⟩, rfl⟩
    · simp only [OrderPool.alloc, hf]
      rw [check_ok fun _ => by simp]
      rfl
    · refine hc'.congr fun p hp => ?_
      have hpo : p ≠ o := fun e => hnd'.1 (e ▸ hp)
      simp only [modify_of_ne _ hpo]
    · rw [Set.mem_insert_iff, not_or, ← hmem, List.mem_cons]
      constructor
      · exact fun hp => ⟨fun e => hnd'.1 (e ▸ hp), .inr hp⟩
      · exact fun hp => hp.2.resolve_left hp.1

/-- **Release** puts a slot in use back in front of the free list. -/
theorem PoolOk.free {A : Set (Fin n)} {pool : OrderPool n} {o : Fin n} (h : PoolOk A pool)
    (ho : o ∈ A) : PoolOk (A \ {o}) (pool.free o) := by
  obtain ⟨l, hc, hnd, hmem⟩ := h
  have hol : o ∉ l := fun hl => (hmem o).mp hl ho
  refine ⟨o :: l, ⟨rfl, ?_⟩, List.nodup_cons.mpr ⟨hol, hnd⟩, fun p => ?_⟩
  · simp only [OrderPool.free, modify_self]
    refine hc.congr fun p hp => ?_
    have hpo : p ≠ o := fun e => hol (e ▸ hp)
    simp only [modify_of_ne _ hpo]
  · rw [List.mem_cons, hmem, Set.mem_sdiff, Set.mem_singleton_iff]
    tauto

end L2Book
