import Mathlib.Data.Int.ModEq
import L2Book.Transport.Execution

/-!
# The size of a queue in use

`size_approx` loads `tail_` and then `head_`; the operands of `==` in `empty` may be loaded in either order.
Both sides may take any number of steps in between.

* `sizeBetween`, `emptyBetween`: what these calls return;
* `pushed_isPrefix`, `popped_isPrefix`: both counts only grow;
* **`observed`**: the results, in terms of the values pushed and popped when the loads take place. Called by
  one of the two sides they are exact; another thread may see a lower bound, or a size that wraps around.
-/

namespace L2Book

namespace Spsc

variable {T : Type}

/-- `size_approx()` with `tail_` loaded in `q` and `head_` in `q'`. -/
def sizeBetween (k : Fin 64) (q q' : Spsc T) : UInt64 := (q.tail - q'.head) &&& kMask k

/-- `empty()` with `head_` loaded in `q` and `tail_` in `q'`, of which either may come first. -/
def emptyBetween (q q' : Spsc T) : Bool := q.head == q'.tail

theorem sizeBetween_self (k : Fin 64) (q : Spsc T) : sizeBetween k q q = q.sizeApprox k := rfl

theorem emptyBetween_self (q : Spsc T) : emptyBetween q q = q.empty := rfl

theorem toNat_sub_and_kMask {k : Fin 64} {t h : UInt64} {p c : ℕ} (ht : t.toNat = p % 2 ^ (k : ℕ))
    (hh : h.toNat = c % 2 ^ (k : ℕ)) :
    (((t - h) &&& kMask k).toNat : ℤ) = ((p : ℤ) - c) % 2 ^ (k : ℕ) := by
  have hdvd : 2 ^ (k : ℕ) ∣ 2 ^ 64 := Nat.pow_dvd_pow 2 (by omega)
  have hdvd' : (2 ^ (k : ℕ) : ℤ) ∣ 2 ^ 64 := by exact_mod_cast hdvd
  have hlt := h.toNat_lt
  rw [toNat_and_kMask, UInt64.toNat_sub, Nat.mod_mod_of_dvd _ hdvd, ht, Int.natCast_mod]
  rw [hh] at hlt ⊢
  push_cast [Nat.cast_sub hlt.le]
  have hmod := ((Int.modEq_zero_iff_dvd.mpr hdvd').sub (Int.mod_modEq (c : ℤ) (2 ^ (k : ℕ)))).add
    (Int.mod_modEq (p : ℤ) (2 ^ (k : ℕ)))
  rwa [zero_sub, neg_add_eq_sub] at hmod

theorem mod_eq_iff_turns {c m m' : ℕ} (hle : m ≤ m') : m % c = m' % c ↔ ∃ turns, m' = m + turns * c := by
  constructor
  · intro h
    obtain ⟨turns, hturns⟩ := (Nat.modEq_iff_dvd' hle).mp h
    exact ⟨turns, by rw [Nat.mul_comm]; omega⟩
  · rintro ⟨turns, rfl⟩
    rw [Nat.add_mul_mod_self_right]

end Spsc

namespace Exec

variable {T : Type} {k : Fin 64} {slots : UInt64 → T} {e e' : Exec T}

/-! ## Counts grow -/

theorem calls_isPrefix_of_step (h : Step k e e') : e.calls <+: e'.calls := by
  cases h with
  | callPush item _ => exact List.prefix_rfl
  | prod _ =>
    unfold stepProd
    split
    · exact List.prefix_append _ _
    · exact List.prefix_rfl
  | callPop _ => exact List.prefix_rfl
  | cons _ =>
    unfold stepCons
    split
    · exact List.prefix_append _ _
    · exact List.prefix_rfl

theorem ops_isPrefix (h : Relation.ReflTransGen (Step k) e e') : e.ops <+: e'.ops := by
  induction h with
  | refl => exact List.prefix_rfl
  | tail _ hs ih => exact ih.trans ((calls_isPrefix_of_step hs).map _)

theorem pushed_isPrefix (h : Relation.ReflTransGen (Step k) e e') : e.pushed <+: e'.pushed :=
  (ops_isPrefix h).filterMap _

theorem popped_isPrefix (h : Relation.ReflTransGen (Step k) e e') : e.popped <+: e'.popped :=
  (ops_isPrefix h).filterMap _

/-- The values in the queue. -/
def size (e : Exec T) : ℕ := e.pushed.length - e.popped.length

/-! ## What an observer sees -/

/-- **What the calls return.** -/
theorem Inv.sizeBetween (h : Inv k e) (h' : Inv k e') :
    ((Spsc.sizeBetween k e.queue e'.queue).toNat : ℤ) =
      ((e.pushed.length : ℤ) - e'.popped.length) % 2 ^ (k : ℕ) :=
  Spsc.toNat_sub_and_kMask h.queue.tail h'.queue.head

theorem Inv.emptyBetween_iff (h : Inv k e) (h' : Inv k e') :
    Spsc.emptyBetween e.queue e'.queue = true ↔
      e.popped.length % 2 ^ (k : ℕ) = e'.pushed.length % 2 ^ (k : ℕ) := by
  rw [Spsc.emptyBetween, beq_iff_eq, ← UInt64.toNat_inj, h.queue.head, h'.queue.tail]

theorem Inv.emptyBetween_iff_eq (h : Inv k e) (h' : Inv k e') (hle : e.popped.length ≤ e'.pushed.length)
    (hlt : e'.pushed.length < e.popped.length + 2 ^ (k : ℕ)) :
    Spsc.emptyBetween e.queue e'.queue = true ↔ e.popped.length = e'.pushed.length := by
  rw [h.emptyBetween_iff h']
  exact ⟨fun he => Spsc.eq_of_mod_eq he hle hlt, fun he => by rw [he]⟩

/-- `head_` before `tail_`: the pushes are whole turns ahead. -/
theorem Inv.emptyBetween_iff_turns (h : Inv k e) (h' : Inv k e')
    (hpush : e.pushed.length ≤ e'.pushed.length) :
    Spsc.emptyBetween e.queue e'.queue = true ↔
      ∃ turns, e'.pushed.length = e.popped.length + turns * 2 ^ (k : ℕ) :=
  (h.emptyBetween_iff h').trans (Spsc.mod_eq_iff_turns (h.queue.length_le.trans hpush))

/-- `tail_` before `head_`: the pops are whole turns ahead. -/
theorem Inv.emptyBetween_iff_turns' (h : Inv k e) (h' : Inv k e')
    (hpop : e.popped.length ≤ e'.popped.length) :
    Spsc.emptyBetween e'.queue e.queue = true ↔
      ∃ turns, e'.popped.length = e.pushed.length + turns * 2 ^ (k : ℕ) := by
  rcases le_total e.pushed.length e'.popped.length with hle | hle
  · rw [h'.emptyBetween_iff h, eq_comm]
    exact Spsc.mod_eq_iff_turns hle
  · have hroom := h.queue.room
    rw [h'.emptyBetween_iff_eq h hle (by omega)]
    constructor
    · intro he
      exact ⟨0, by omega⟩
    · rintro ⟨turns, hturns⟩
      exact le_antisymm hle (hturns ▸ Nat.le_add_right _ _)

theorem Inv.sizeBetween_of_le (h : Inv k e) (h' : Inv k e')
    (hpop : e.popped.length ≤ e'.popped.length) (hle : e'.popped.length ≤ e.pushed.length) :
    (Spsc.sizeBetween k e.queue e'.queue).toNat = e.pushed.length - e'.popped.length := by
  have hroom := h.queue.room
  have hlt : e.pushed.length - e'.popped.length < 2 ^ (k : ℕ) := by omega
  have hs := h.sizeBetween h'
  rw [← Nat.cast_sub hle] at hs
  have hcast : ((Spsc.sizeBetween k e.queue e'.queue).toNat : ℤ) =
      ((e.pushed.length - e'.popped.length) % 2 ^ (k : ℕ) : ℕ) := by
    push_cast
    exact hs
  rw [Nat.mod_eq_of_lt hlt] at hcast
  exact_mod_cast hcast

/-- Pops that overtake them make the result wrap around. -/
theorem Inv.sizeBetween_of_lt (h : Inv k e) (h' : Inv k e') (hlt : e.pushed.length < e'.popped.length)
    (hturn : e'.popped.length ≤ e.pushed.length + 2 ^ (k : ℕ)) :
    (Spsc.sizeBetween k e.queue e'.queue).toNat = e.pushed.length + 2 ^ (k : ℕ) - e'.popped.length := by
  have hs := h.sizeBetween h'
  have hpow : ((2 ^ (k : ℕ) : ℕ) : ℤ) = 2 ^ (k : ℕ) := by push_cast; rfl
  have hcast : ((e.pushed.length : ℤ) - e'.popped.length) % 2 ^ (k : ℕ) =
      (e.pushed.length + 2 ^ (k : ℕ) - e'.popped.length : ℕ) := by
    rw [← Int.add_emod_right, ← hpow]
    rw [Int.emod_eq_of_lt (by omega) (by omega)]
    omega
  rw [hcast] at hs
  exact_mod_cast hs

/-- **The size of a queue in use.** Let a thread load one index in the state `e` and the other one in a later
state `e'`, with any steps of the two sides in between. If no value was popped since, `size_approx` is the
size in `e`, and `empty` tells whether the queue is empty when it loads `tail_`: so for the consumer. If no
value was pushed since, `size_approx` is the size in `e'`, and `empty` tells whether the queue is empty when
it loads `head_`: so for the producer. For any other thread `size_approx` is a lower bound of both sizes,
until the pops overtake the pushes that were seen: then it is the capacity less the number of values by which
they do. `empty` holds exactly if the count loaded last is whole turns ahead of the other one. -/
theorem observed (k : Fin 64) (slots : UInt64 → T) (e e' : Exec T)
    (h : Relation.ReflTransGen (Step k) (init slots) e) (h' : Relation.ReflTransGen (Step k) e e') :
    (e'.popped = e.popped → (Spsc.sizeBetween k e.queue e'.queue).toNat = e.size ∧
      (Spsc.emptyBetween e.queue e'.queue = true ↔ e'.size = 0) ∧
      (Spsc.emptyBetween e'.queue e.queue = true ↔ e.size = 0)) ∧
    (e'.pushed = e.pushed → (Spsc.sizeBetween k e.queue e'.queue).toNat = e'.size ∧
      (Spsc.emptyBetween e.queue e'.queue = true ↔ e.size = 0) ∧
      (Spsc.emptyBetween e'.queue e.queue = true ↔ e'.size = 0)) ∧
    (e'.popped.length ≤ e.pushed.length → (Spsc.sizeBetween k e.queue e'.queue).toNat ≤ e.size ∧
      (Spsc.sizeBetween k e.queue e'.queue).toNat ≤ e'.size) ∧
    (∀ i, e'.popped.length = e.pushed.length + i → 0 < i → i ≤ 2 ^ (k : ℕ) →
      (Spsc.sizeBetween k e.queue e'.queue).toNat = 2 ^ (k : ℕ) - i) ∧
    (Spsc.emptyBetween e.queue e'.queue = true ↔
      ∃ turns, e'.pushed.length = e.popped.length + turns * 2 ^ (k : ℕ)) ∧
    (Spsc.emptyBetween e'.queue e.queue = true ↔
      ∃ turns, e'.popped.length = e.pushed.length + turns * 2 ^ (k : ℕ)) := by
  have hinv := inv_of_reachable h
  have hinv' := inv_of_reachable (h.trans h')
  have hpush := (pushed_isPrefix h').length_le
  have hpop := (popped_isPrefix h').length_le
  have hle := hinv.queue.length_le
  have hle' := hinv'.queue.length_le
  have hroom := hinv.queue.room
  have hroom' := hinv'.queue.room
  unfold size
  refine ⟨fun hp => ?_, fun hp => ?_, fun hp => ?_, fun i hi hpos hturn => ?_,
    hinv.emptyBetween_iff_turns hinv' hpush, hinv.emptyBetween_iff_turns' hinv' hpop⟩
  · have hlen : e'.popped.length = e.popped.length := congrArg List.length hp
    have hsize := hinv.sizeBetween_of_le hinv' hpop (by omega)
    have hempty := hinv.emptyBetween_iff_eq hinv' (by omega) (by omega)
    have hempty' := hinv'.emptyBetween_iff_eq hinv (by omega) (by omega)
    rw [hempty, hempty', hsize]
    omega
  · have hlen : e'.pushed.length = e.pushed.length := congrArg List.length hp
    have hsize := hinv.sizeBetween_of_le hinv' hpop (by omega)
    have hempty := hinv.emptyBetween_iff_eq hinv' (by omega) (by omega)
    have hempty' := hinv'.emptyBetween_iff_eq hinv (by omega) (by omega)
    rw [hempty, hempty', hsize]
    omega
  · have hsize := hinv.sizeBetween_of_le hinv' hpop hp
    omega
  · have hsize := hinv.sizeBetween_of_lt hinv' (by omega) (by omega)
    omega

/-- A push and a pop, each run to its end. -/
def pushThenPop (k : Fin 64) : Exec ℕ :=
  ((((((((init fun _ => 0).callPush 7).stepProd k).stepProd k).stepProd k).callPop).stepCons k).stepCons
    k).stepCons k

/-- A third thread that loads `tail_` before both calls and `head_` after them gets the size 1 of a queue that
is empty at both times. -/
theorem observed_pushThenPop : (Spsc.sizeBetween 1 (init fun _ => 0).queue (pushThenPop 1).queue).toNat = 1 ∧
    (init (T := ℕ) fun _ => 0).size = 0 ∧ (pushThenPop 1).size = 0 := by
  have hpush : Relation.ReflTransGen (Step 1) (init fun _ => 0)
      ((((init fun _ => 0).callPush 7).stepProd 1).stepProd 1) :=
    ((Relation.ReflTransGen.single (.callPush _ 7 rfl)).tail (.prod _ (by decide))).tail
      (.prod _ (by decide))
  have hpop : Relation.ReflTransGen (Step 1) (init fun _ => 0) (pushThenPop 1) :=
    (((((hpush.tail (.prod _ (by decide))).tail (.callPop _ rfl)).tail (.cons _ (by decide))).tail
      (.cons _ (by decide))).tail (.cons _ (by decide)))
  obtain ⟨-, -, -, hwrap, -⟩ := observed 1 (fun _ => 0) (init fun _ => 0) (pushThenPop 1) .refl hpop
  exact ⟨hwrap 1 rfl (by decide) (by decide), rfl, rfl⟩

end Exec

end L2Book
