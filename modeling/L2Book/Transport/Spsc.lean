import Mathlib.Data.List.Basic
import Mathlib.Data.UInt

/-!
# The single-producer single-consumer queue

The ring buffer of `spsc_queue.hpp`, for a capacity of `2 ^ k` with `k < 64` and steps of the size of one
atomic load, one atomic store or one copy of a slot. Memory is sequentially consistent.

* `Spsc`: the shared fields, and where each side stands in its current call;
* `tryPush`, `stepProd`: the call of `try_push` with its first load, and its other steps; `tryPop`,
  `stepCons`: the same for `try_pop`; `empty`, `sizeApprox`;
* **`Spsc.Inv`**: the buffer between `head_` and `tail_` holds exactly the pushed values not yet popped;
* `Inv.tryPush`, `Inv.stepProd`, `Inv.tryPop`, `Inv.stepCons`: every step keeps it.
-/

namespace L2Book

/-- Where the producer stands in `try_push(item)`; `t` is its copy of `tail_`. -/
inductive ProdPc (T : Type)
  | idle
  | loadHead (item : T) (t : UInt64)
  | writeSlot (item : T) (t : UInt64)
  | storeTail (item : T) (t : UInt64)
deriving DecidableEq

/-- The item of the current `try_push`. -/
def ProdPc.item {T : Type} : ProdPc T → Option T
  | .idle => none
  | .loadHead item _ => some item
  | .writeSlot item _ => some item
  | .storeTail item _ => some item

/-- Where the consumer stands in `try_pop(out)`; `h` is its copy of `head_`. -/
inductive ConsPc (T : Type)
  | idle
  | loadTail (h : UInt64)
  | readSlot (h : UInt64)
  | storeHead (h : UInt64) (out : T)
deriving DecidableEq

/-- `SPSCQueue<T, Capacity>` with the local state of both sides. -/
structure Spsc (T : Type) where
  head : UInt64
  tail : UInt64
  slots : UInt64 → T
  prod : ProdPc T
  cons : ConsPc T

namespace Spsc

variable {T : Type}

/-- A queue with arbitrary slot contents. -/
def init (slots : UInt64 → T) : Spsc T := ⟨0, 0, slots, .idle, .idle⟩

section Steps

variable (k : Fin 64)

/-- `Capacity`. -/
def capacity : UInt64 := UInt64.ofNat (2 ^ (k : ℕ))

/-- `kMask`. -/
def kMask : UInt64 := capacity k - 1

/-- `(i + 1) & kMask`. -/
def next (i : UInt64) : UInt64 := (i + 1) &&& kMask k

/-- `try_push(item)` begins and loads `tail_`. -/
def tryPush (q : Spsc T) (item : T) : Spsc T := { q with prod := .loadHead item q.tail }

/-- The next step of `try_push`, with the value it returns if this is its last one. -/
def stepProd (q : Spsc T) : Spsc T × Option Bool :=
  match q.prod with
  | .idle => (q, none)
  | .loadHead item t =>
    if next k t = q.head then ({ q with prod := .idle }, some false)
    else ({ q with prod := .writeSlot item t }, none)
  | .writeSlot item t =>
    ({ q with slots := Function.update q.slots t item, prod := .storeTail item t }, none)
  | .storeTail _ t => ({ q with tail := next k t, prod := .idle }, some true)

/-- `try_pop(out)` begins and loads `head_`. -/
def tryPop (q : Spsc T) : Spsc T := { q with cons := .loadTail q.head }

/-- The next step of `try_pop`, with `out` or `none` (for `false`) if this is its last one. -/
def stepCons (q : Spsc T) : Spsc T × Option (Option T) :=
  match q.cons with
  | .idle => (q, none)
  | .loadTail h =>
    if h = q.tail then ({ q with cons := .idle }, some none)
    else ({ q with cons := .readSlot h }, none)
  | .readSlot h => ({ q with cons := .storeHead h (q.slots h) }, none)
  | .storeHead h out => ({ q with head := next k h, cons := .idle }, some (some out))

/-- `empty()`. -/
def empty (q : Spsc T) : Bool := q.head == q.tail

/-- `size_approx()`. -/
def sizeApprox (q : Spsc T) : UInt64 := (q.tail - q.head) &&& kMask k

end Steps

section Frame

variable {k : Fin 64} {q : Spsc T}

/-- `try_push` keeps its item until it returns. -/
theorem item_stepProd (h : (q.stepProd k).2 = none) : (q.stepProd k).1.prod.item = q.prod.item := by
  revert h
  cases hq : q.prod with
  | idle => simp [stepProd, hq]
  | loadHead item t =>
    by_cases hf : next k t = q.head
    · simp [stepProd, hq, hf]
    · simp [stepProd, hq, hf, ProdPc.item]
  | writeSlot item t => simp [stepProd, hq, ProdPc.item]
  | storeTail item t => simp [stepProd, hq]

theorem stepProd_cons : (q.stepProd k).1.cons = q.cons := by
  unfold stepProd
  cases q.prod with
  | idle => rfl
  | loadHead item t => dsimp only; split_ifs <;> rfl
  | writeSlot item t => rfl
  | storeTail item t => rfl

theorem stepProd_head : (q.stepProd k).1.head = q.head := by
  unfold stepProd
  cases q.prod with
  | idle => rfl
  | loadHead item t => dsimp only; split_ifs <;> rfl
  | writeSlot item t => rfl
  | storeTail item t => rfl

theorem stepCons_prod : (q.stepCons k).1.prod = q.prod := by
  unfold stepCons
  cases q.cons with
  | idle => rfl
  | loadTail h => dsimp only; split_ifs <;> rfl
  | readSlot h => rfl
  | storeHead h out => rfl

theorem stepCons_tail : (q.stepCons k).1.tail = q.tail := by
  unfold stepCons
  cases q.cons with
  | idle => rfl
  | loadTail h => dsimp only; split_ifs <;> rfl
  | readSlot h => rfl
  | storeHead h out => rfl

end Frame

/-! ## Index arithmetic -/

section Index

variable (k : Fin 64)

theorem two_pow_le : 2 ^ (k : ℕ) ≤ 2 ^ 63 := Nat.pow_le_pow_right (by decide) (by omega)

theorem toNat_kMask : (kMask k).toNat = 2 ^ (k : ℕ) - 1 := by
  have hk := two_pow_le k
  have hpos : 1 ≤ 2 ^ (k : ℕ) := Nat.one_le_two_pow
  have hcap : (capacity k).toNat = 2 ^ (k : ℕ) := by
    rw [capacity, UInt64.toNat_ofNat_of_lt' (by simp only [UInt64.size]; omega)]
  have hle : (1 : UInt64) ≤ capacity k := by
    rw [UInt64.le_iff_toNat_le, hcap]
    exact hpos
  rw [kMask, UInt64.toNat_sub_of_le _ _ hle, hcap]
  rfl

theorem toNat_and_kMask (x : UInt64) : (x &&& kMask k).toNat = x.toNat % 2 ^ (k : ℕ) := by
  rw [UInt64.toNat_and, toNat_kMask, Nat.and_two_pow_sub_one_eq_mod]

theorem toNat_next {i : UInt64} {m : ℕ} (h : i.toNat = m % 2 ^ (k : ℕ)) :
    (next k i).toNat = (m + 1) % 2 ^ (k : ℕ) := by
  have hk := two_pow_le k
  have hpos : 0 < 2 ^ (k : ℕ) := Nat.two_pow_pos _
  have hlt := Nat.mod_lt m hpos
  rw [next, toNat_and_kMask, UInt64.toNat_add, h]
  have hsmall : (m % 2 ^ (k : ℕ) + (1 : UInt64).toNat) % 2 ^ 64 = m % 2 ^ (k : ℕ) + 1 :=
    Nat.mod_eq_of_lt (by simp only [UInt64.toNat_one]; omega)
  rw [hsmall, Nat.mod_add_mod]

/-- Two numbers less than a turn apart share a slot only if they are equal. -/
theorem eq_of_mod_eq {c m m' : ℕ} (h : m % c = m' % c) (hle : m ≤ m') (hlt : m' < m + c) : m = m' := by
  have hd : c ∣ m' - m := (Nat.modEq_iff_dvd' hle).mp h
  have hz := Nat.eq_zero_of_dvd_of_lt hd (by omega)
  omega

end Index

/-! ## The invariant -/

/-- **The buffer between `head_` and `tail_` holds the pushed values that are not yet popped.** Value
number `i` lies in slot `i` modulo the capacity; one slot is always free. -/
structure Inv (k : Fin 64) (q : Spsc T) (pushed popped : List T) : Prop where
  fifo : popped <+: pushed
  room : pushed.length < popped.length + 2 ^ (k : ℕ)
  head : q.head.toNat = popped.length % 2 ^ (k : ℕ)
  tail : q.tail.toNat = pushed.length % 2 ^ (k : ℕ)
  slots : ∀ i, popped.length ≤ i → i < pushed.length → ∀ j : UInt64, j.toNat = i % 2 ^ (k : ℕ) →
    pushed[i]? = some (q.slots j)
  prod : match q.prod with
    | .idle => True
    | .loadHead _ t => t = q.tail
    | .writeSlot _ t => t = q.tail ∧ pushed.length + 1 < popped.length + 2 ^ (k : ℕ)
    | .storeTail item t => t = q.tail ∧ pushed.length + 1 < popped.length + 2 ^ (k : ℕ) ∧
        q.slots t = item
  cons : match q.cons with
    | .idle => True
    | .loadTail h => h = q.head
    | .readSlot h => h = q.head ∧ popped.length < pushed.length
    | .storeHead h out => h = q.head ∧ pushed[popped.length]? = some out

theorem inv_init (k : Fin 64) (slots : UInt64 → T) : Inv k (init slots) [] [] where
  fifo := List.prefix_rfl
  room := by simp only [List.length_nil, Nat.zero_add]; exact Nat.two_pow_pos _
  head := by simp [init]
  tail := by simp [init]
  slots i _ hi := absurd hi (by simp)
  prod := trivial
  cons := trivial

section Inv

variable {k : Fin 64} {q : Spsc T} {pushed popped : List T}

theorem Inv.length_le (h : Inv k q pushed popped) : popped.length ≤ pushed.length := h.fifo.length_le

theorem Inv.full_iff (h : Inv k q pushed popped) :
    next k q.tail = q.head ↔ pushed.length + 1 = popped.length + 2 ^ (k : ℕ) := by
  have hle := h.length_le
  have hroom := h.room
  rw [← UInt64.toNat_inj, toNat_next k h.tail, h.head]
  constructor
  · intro heq
    have hd : 2 ^ (k : ℕ) ∣ pushed.length + 1 - popped.length :=
      (Nat.modEq_iff_dvd' (by omega)).mp heq.symm
    have hge := Nat.le_of_dvd (by omega) hd
    omega
  · intro heq
    rw [heq, Nat.add_mod_right]

theorem Inv.empty_iff (h : Inv k q pushed popped) :
    q.head = q.tail ↔ popped.length = pushed.length := by
  rw [← UInt64.toNat_inj, h.head, h.tail]
  exact ⟨fun heq => eq_of_mod_eq heq h.length_le h.room, fun heq => by rw [heq]⟩

theorem Inv.toNat_sizeApprox (h : Inv k q pushed popped) :
    (q.sizeApprox k).toNat = pushed.length - popped.length := by
  have hle := h.length_le
  have hroom := h.room
  have hk := two_pow_le k
  have hhead := Nat.mod_lt popped.length (Nat.two_pow_pos (k : ℕ))
  have htail := Nat.mod_lt pushed.length (Nat.two_pow_pos (k : ℕ))
  rw [sizeApprox, toNat_and_kMask, UInt64.toNat_sub, h.head, h.tail]
  have hdvd : 2 ^ (k : ℕ) ∣ 2 ^ 64 := Nat.pow_dvd_pow 2 (by omega)
  rw [Nat.mod_mod_of_dvd _ hdvd]
  have hmod : 2 ^ 64 - popped.length % 2 ^ (k : ℕ) + pushed.length % 2 ^ (k : ℕ) ≡
      pushed.length - popped.length [MOD 2 ^ (k : ℕ)] := by
    refine Nat.ModEq.add_right_cancel' popped.length ?_
    have h₁ : 2 ^ 64 - popped.length % 2 ^ (k : ℕ) + popped.length ≡ 0 [MOD 2 ^ (k : ℕ)] := by
      have hsplit : 2 ^ 64 - popped.length % 2 ^ (k : ℕ) + popped.length =
          2 ^ 64 + (popped.length - popped.length % 2 ^ (k : ℕ)) := by
        have := Nat.mod_le popped.length (2 ^ (k : ℕ))
        omega
      rw [hsplit]
      exact (Nat.modEq_zero_iff_dvd).mpr (Nat.dvd_add hdvd (Nat.dvd_sub_mod _))
    have h₂ : pushed.length % 2 ^ (k : ℕ) ≡ pushed.length [MOD 2 ^ (k : ℕ)] := Nat.mod_modEq _ _
    have hsum := h₁.add h₂
    rw [Nat.zero_add] at hsum
    have hrhs : pushed.length - popped.length + popped.length = pushed.length := by omega
    rw [hrhs, Nat.add_right_comm]
    exact hsum
  rw [hmod]
  exact Nat.mod_eq_of_lt (by omega)

/-! ## Steps of the producer -/

theorem Inv.tryPush (h : Inv k q pushed popped) (item : T) :
    Inv k (q.tryPush item) pushed popped :=
  ⟨h.fifo, h.room, h.head, h.tail, h.slots, rfl, h.cons⟩

/-- A slot that the producer may write holds no value that is still to be read. -/
theorem Inv.ne_tail (h : Inv k q pushed popped) {i : ℕ} (hlo : popped.length ≤ i)
    (hhi : i < pushed.length) {j : UInt64} (hj : j.toNat = i % 2 ^ (k : ℕ)) : j ≠ q.tail := by
  rintro rfl
  have hroom := h.room
  have heq := hj.symm.trans h.tail
  have := eq_of_mod_eq heq (by omega) (by omega)
  omega

/-- **A step of `try_push`**: `false` is returned by a full queue only, `true` after the value has become
the last one of the queue, which had room for it. -/
theorem Inv.stepProd (h : Inv k q pushed popped) :
    match (q.stepProd k).2 with
    | none => Inv k (q.stepProd k).1 pushed popped
    | some false => (∃ item t, q.prod = .loadHead item t) ∧
        Inv k (q.stepProd k).1 pushed popped ∧ (q.stepProd k).1.prod = .idle ∧
        pushed.length + 1 = popped.length + 2 ^ (k : ℕ)
    | some true => ∃ item t, q.prod = .storeTail item t ∧
        Inv k (q.stepProd k).1 (pushed ++ [item]) popped ∧ (q.stepProd k).1.prod = .idle ∧
        pushed.length + 1 < popped.length + 2 ^ (k : ℕ) := by
  have hp := h.prod
  have hroom := h.room
  cases hq : q.prod with
  | idle =>
    simp only [Spsc.stepProd, hq]
    exact h
  | loadHead item t =>
    rw [hq] at hp
    subst hp
    by_cases hf : next k q.tail = q.head
    · simp only [Spsc.stepProd, hq, hf, if_true]
      exact ⟨⟨item, q.tail, rfl⟩, ⟨h.fifo, h.room, h.head, h.tail, h.slots, trivial, h.cons⟩,
        trivial, h.full_iff.mp hf⟩
    · simp only [Spsc.stepProd, hq, hf, if_false]
      have hne : pushed.length + 1 ≠ popped.length + 2 ^ (k : ℕ) := fun e => hf (h.full_iff.mpr e)
      exact ⟨h.fifo, h.room, h.head, h.tail, h.slots, ⟨rfl, by omega⟩, h.cons⟩
  | writeSlot item t =>
    rw [hq] at hp
    obtain ⟨rfl, hlt⟩ := hp
    simp only [Spsc.stepProd, hq]
    refine ⟨h.fifo, h.room, h.head, h.tail, fun i hlo hhi j hj => ?_, ⟨rfl, hlt, ?_⟩, h.cons⟩
    · show pushed[i]? = some (Function.update q.slots q.tail item j)
      rw [Function.update_of_ne (h.ne_tail hlo hhi hj)]
      exact h.slots i hlo hhi j hj
    · exact Function.update_self _ _ _
  | storeTail item t =>
    rw [hq] at hp
    obtain ⟨rfl, hlt, hslot⟩ := hp
    simp only [Spsc.stepProd, hq]
    refine ⟨item, q.tail, rfl, ⟨?_, ?_, h.head, ?_, fun i hlo hhi j hj => ?_, trivial, ?_⟩,
      trivial, hlt⟩
    · exact h.fifo.trans (List.prefix_append _ _)
    · rw [List.length_append, List.length_singleton]
      omega
    · rw [List.length_append, List.length_singleton]
      exact toNat_next k h.tail
    · rw [List.length_append, List.length_singleton] at hhi
      rcases Nat.lt_succ_iff_lt_or_eq.mp hhi with hi | rfl
      · rw [List.getElem?_append_left hi]
        exact h.slots i hlo hi j hj
      · -- the new value lies in the slot written before
        have : j = q.tail := UInt64.toNat_inj.mp (hj.trans h.tail.symm)
        rw [this, List.getElem?_concat_length, hslot]
    · have hc := h.cons
      revert hc
      cases q.cons with
      | idle => exact id
      | loadTail h' => exact id
      | readSlot h' =>
        rintro ⟨rfl, hlt'⟩
        refine ⟨rfl, ?_⟩
        rw [List.length_append]
        omega
      | storeHead h' out =>
        rintro ⟨rfl, hout⟩
        refine ⟨rfl, ?_⟩
        have hlt' : popped.length < pushed.length := (List.getElem?_eq_some_iff.mp hout).1
        rw [List.getElem?_append_left hlt']
        exact hout

/-! ## Steps of the consumer -/

theorem Inv.tryPop (h : Inv k q pushed popped) : Inv k q.tryPop pushed popped :=
  ⟨h.fifo, h.room, h.head, h.tail, h.slots, h.prod, rfl⟩

/-- **A step of `try_pop`**: `false` is returned by an empty queue only, `true` with the first value that
was not popped before. -/
theorem Inv.stepCons (h : Inv k q pushed popped) :
    match (q.stepCons k).2 with
    | none => Inv k (q.stepCons k).1 pushed popped
    | some none => (∃ h', q.cons = .loadTail h') ∧ Inv k (q.stepCons k).1 pushed popped ∧
        (q.stepCons k).1.cons = .idle ∧ popped.length = pushed.length
    | some (some out) => Inv k (q.stepCons k).1 pushed (popped ++ [out]) ∧
        (q.stepCons k).1.cons = .idle ∧ pushed[popped.length]? = some out := by
  have hc := h.cons
  have hroom := h.room
  cases hq : q.cons with
  | idle =>
    simp only [Spsc.stepCons, hq]
    exact h
  | loadTail h' =>
    rw [hq] at hc
    subst hc
    by_cases he : q.head = q.tail
    · simp only [Spsc.stepCons, hq, he, if_true]
      exact ⟨⟨q.tail, rfl⟩, ⟨h.fifo, h.room, he ▸ h.head, h.tail, h.slots, h.prod, trivial⟩, trivial,
        h.empty_iff.mp he⟩
    · simp only [Spsc.stepCons, hq, he, if_false]
      have hne : popped.length ≠ pushed.length := fun e => he (h.empty_iff.mpr e)
      have hle := h.length_le
      exact ⟨h.fifo, h.room, h.head, h.tail, h.slots, h.prod, ⟨rfl, by omega⟩⟩
  | readSlot h' =>
    rw [hq] at hc
    obtain ⟨rfl, hlt⟩ := hc
    simp only [Spsc.stepCons, hq]
    exact ⟨h.fifo, h.room, h.head, h.tail, h.slots, h.prod,
      ⟨rfl, h.slots popped.length le_rfl hlt q.head h.head⟩⟩
  | storeHead h' out =>
    rw [hq] at hc
    obtain ⟨rfl, hout⟩ := hc
    have hlt : popped.length < pushed.length := (List.getElem?_eq_some_iff.mp hout).1
    simp only [Spsc.stepCons, hq]
    refine ⟨⟨?_, ?_, ?_, h.tail, fun i hlo hhi j hj => ?_, ?_, trivial⟩, trivial, hout⟩
    · obtain ⟨rest, rfl⟩ := h.fifo
      rw [List.getElem?_append_right le_rfl, Nat.sub_self, ← List.head?_eq_getElem?] at hout
      obtain ⟨rest', rfl⟩ := List.head?_eq_some_iff.mp hout
      exact ⟨rest', by rw [List.append_assoc, List.singleton_append]⟩
    · rw [List.length_append, List.length_singleton]
      omega
    · rw [List.length_append, List.length_singleton]
      exact toNat_next k h.head
    · rw [List.length_append] at hlo
      exact h.slots i (by omega) hhi j hj
    · have hp := h.prod
      revert hp
      cases q.prod with
      | idle => exact id
      | loadHead item t => exact id
      | writeSlot item t =>
        rintro ⟨rfl, hlt'⟩
        exact ⟨rfl, by rw [List.length_append]; omega⟩
      | storeTail item t =>
        rintro ⟨rfl, hlt', hslot⟩
        exact ⟨rfl, by rw [List.length_append]; omega, hslot⟩

end Inv

end Spsc

end L2Book
