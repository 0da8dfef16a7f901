import Mathlib.Data.Set.Insert
import L2Book.Book.Index

/-!
# The linked book

* `queue s d i`: the orders met by walking level `i` of side `d`;
* **`Linked A s`**: the representation invariant of the level arrays for a set `A` of orders. An
  order of `A` whose price index lies in the array is in exactly the level of that index and caches
  it; every other order of `A` is in no level and caches `-1`;
* `Frame s s'`: what `insert_at`, `remove_order` and `reduce_shares` leave alone;
* `Linked.insertAt`, `Linked.removeOrder`, `Linked.reduceShares`: one specification per helper.

`Linked` bounds nothing but prices: with `2 ^ 32` or more slots the counters may wrap, and only the
best index (`IsBest`, tracked separately) and the debug assertions depend on them.
-/

namespace L2Book

namespace OrderBook

variable {n : ℕ}

/-- The orders of a level, head first. -/
def queue (s : OrderBook n) (d : Side) (i : Fin kLevels) : List (Fin n) :=
  (links s.pool.slots).walk n ((s.sides d).levels i).head

/-- The side an order is kept on. -/
def sideAt (s : OrderBook n) (p : Fin n) : Side := sideOf (s.order p).side

/-- The index of an order's price against the current reference price of its side. -/
def tickOf (s : OrderBook n) (p : Fin n) : ℤ :=
  tick (s.sideAt p) (s.sides (s.sideAt p)).ref (s.order p).price

theorem queue_eq {s : OrderBook n} {d : Side} {i : Fin kLevels} {l : List (Fin n)}
    (h : LevelRep s.pool.slots ((s.sides d).levels i) l) : s.queue d i = l :=
  h.list.walk_eq h.length_le

/-- The orders `A` carry a valid side byte and price, and their sides have a reference price. -/
structure Priced (A : Set (Fin n)) (s : OrderBook n) : Prop where
  side_byte : ∀ p ∈ A, (s.order p).side = (s.sideAt p).byte
  price_pos : ∀ p ∈ A, 0 < (s.order p).price.toNat
  price_lt : ∀ p ∈ A, (s.order p).price.toNat < 2 ^ 31
  ref_lt : ∀ d, (s.sides d).ref.toNat < 2 ^ 31
  ref_ne : ∀ p ∈ A, (s.sides (s.sideAt p)).ref ≠ 0

/-- **Representation invariant** of the level arrays for the orders `A`. -/
structure Linked (A : Set (Fin n)) (s : OrderBook n) : Prop extends Priced A s where
  level : ∀ d i, LevelRep s.pool.slots ((s.sides d).levels i) (s.queue d i)
  mem_queue : ∀ d i p, p ∈ s.queue d i ↔ p ∈ A ∧ s.sideAt p = d ∧ s.tickOf p = (i : ℕ)
  levelIdx : ∀ p ∈ A, (s.order p).levelIdx = if InArray (s.tickOf p) then s.tickOf p else -1

/-- The map, the free list, the session state, the reference prices and the data of the orders are
unchanged. -/
structure Frame (s s' : OrderBook n) : Prop where
  orderMap : s'.orderMap = s.orderMap
  isOpen : s'.isOpen = s.isOpen
  freeHead : s'.pool.freeHead = s.pool.freeHead
  ref : ∀ d, (s'.sides d).ref = (s.sides d).ref
  data : SameData s.pool.slots s'.pool.slots

section FrameLemmas

variable {s s' : OrderBook n}

theorem Frame.sideAt (h : Frame s s') (p : Fin n) : s'.sideAt p = s.sideAt p := by
  unfold OrderBook.sideAt OrderBook.order
  rw [h.data.side]

theorem Frame.tickOf (h : Frame s s') (p : Fin n) : s'.tickOf p = s.tickOf p := by
  unfold OrderBook.tickOf
  rw [h.sideAt, h.ref]
  unfold OrderBook.order
  rw [h.data.price]

theorem Frame.trans {s'' : OrderBook n} (h : Frame s s') (h' : Frame s' s'') : Frame s s'' :=
  ⟨h'.orderMap.trans h.orderMap, h'.isOpen.trans h.isOpen, h'.freeHead.trans h.freeHead,
    fun d => (h'.ref d).trans (h.ref d), h.data.trans h'.data⟩

theorem Priced.of_frame {A : Set (Fin n)} (h : Priced A s) (hf : Frame s s') : Priced A s' where
  side_byte p hp := by rw [hf.sideAt]; exact (hf.data.side p).trans (h.side_byte p hp)
  price_pos p hp := by unfold order; rw [hf.data.price]; exact h.price_pos p hp
  price_lt p hp := by unfold order; rw [hf.data.price]; exact h.price_lt p hp
  ref_lt d := by rw [hf.ref]; exact h.ref_lt d
  ref_ne p hp := by rw [hf.sideAt, hf.ref]; exact h.ref_ne p hp

theorem Priced.mono {A A' : Set (Fin n)} (h : Priced A s) (hA : A' ⊆ A) : Priced A' s :=
  ⟨fun p hp => h.side_byte p (hA hp), fun p hp => h.price_pos p (hA hp),
    fun p hp => h.price_lt p (hA hp), h.ref_lt, fun p hp => h.ref_ne p (hA hp)⟩

end FrameLemmas

section LinkedLemmas

variable {A : Set (Fin n)} {s : OrderBook n}

theorem Linked.mem_of_queue (h : Linked A s) {d : Side} {i : Fin kLevels} {p : Fin n}
    (hp : p ∈ s.queue d i) : p ∈ A := ((h.mem_queue d i p).mp hp).1

theorem Linked.queue_unique (h : Linked A s) {d d' : Side} {i i' : Fin kLevels} {p : Fin n}
    (hp : p ∈ s.queue d i) (hp' : p ∈ s.queue d' i') : d' = d ∧ i' = i := by
  obtain ⟨-, h₁, h₂⟩ := (h.mem_queue d i p).mp hp
  obtain ⟨-, h₁', h₂'⟩ := (h.mem_queue d' i' p).mp hp'
  refine ⟨h₁'.symm.trans h₁, Fin.ext ?_⟩
  have : ((i' : ℕ) : ℤ) = (i : ℕ) := h₂'.symm.trans h₂
  exact_mod_cast this

theorem Linked.mem_queue_slotOf (h : Linked A s) {p : Fin n} (hp : p ∈ A)
    (hi : InArray (s.tickOf p)) : p ∈ s.queue (s.sideAt p) (slotOf _ hi) :=
  (h.mem_queue _ _ p).mpr ⟨hp, rfl, (slotOf_val hi).symm⟩

theorem Linked.levelIdx_of_mem (h : Linked A s) {p : Fin n} (hp : p ∈ A)
    (hi : InArray (s.tickOf p)) : (s.order p).levelIdx = s.tickOf p := by
  rw [h.levelIdx p hp, if_pos hi]

/-- **The cached index is non-negative exactly when the price index lies in the array.** -/
theorem Linked.levelIdx_nonneg (h : Linked A s) {p : Fin n} (hp : p ∈ A) :
    0 ≤ (s.order p).levelIdx ↔ InArray (s.tickOf p) := by
  rw [h.levelIdx p hp]
  split_ifs with hi
  · exact ⟨fun _ => hi, fun _ => hi.1⟩
  · exact ⟨fun h' => absurd h' (by omega), fun h' => absurd h' hi⟩

end LinkedLemmas

/-! ## Insertion at an index -/

/-- The book after `insert_at`. -/
def inserted (s : OrderBook n) (o : Fin n) (d : Side) (i : Fin kLevels) : OrderBook n :=
  let h := modify s.pool.slots o fun x => { x with levelIdx := (i : ℕ) }
  let side := s.sides d
  { s with
    sides := Function.update s.sides d
      { levels := Function.update side.levels i ((side.levels i).addOrder h o).1
        ref := side.ref
        bestIdx := if side.bestIdx < 0 ∨ ((i : ℕ) : ℤ) < side.bestIdx then (i : ℕ)
          else side.bestIdx }
    pool := { s.pool with slots := ((side.levels i).addOrder h o).2 } }

theorem insertAt_eq {s : OrderBook n} {o : Fin n} {idx : ℤ} (hi : InArray idx) :
    s.insertAt o idx = .ok (s.inserted o (s.sideAt o) (slotOf idx hi)) := by
  have hside : (modify s.pool.slots o fun x => { x with levelIdx := idx }) o =
      { s.pool.slots o with levelIdx := idx } := modify_self ..
  unfold insertAt inserted
  simp only [levelAt_of_mem hi, bind, Except.bind, modifyOrder, order, hside, setLevel, setSide,
    Function.update_self, slotOf_val, Function.update_idem, sideAt]
  split_ifs <;> rfl

section Inserted

variable (s : OrderBook n) (o : Fin n) (d : Side) (i : Fin kLevels)

theorem inserted_slots : (s.inserted o d i).pool.slots =
    withLinks (modify s.pool.slots o fun x => { x with levelIdx := (i : ℕ) })
      ((links s.pool.slots).append ((s.sides d).levels i).tail o) := by
  unfold inserted
  simp only [addOrder_heap]
  rw [links_modify_data _ _ rfl rfl]

theorem inserted_frame : Frame s (s.inserted o d i) where
  orderMap := rfl
  isOpen := rfl
  freeHead := rfl
  ref d' := by
    unfold inserted
    by_cases hd : d' = d
    · subst hd; simp
    · simp [hd]
  data := by
    rw [inserted_slots]
    exact (sameData_modify s.pool.slots o ⟨rfl, rfl, rfl, rfl⟩).trans (sameData_withLinks _ _)

theorem inserted_sides_of_ne {d' : Side} (hd : d' ≠ d) :
    (s.inserted o d i).sides d' = s.sides d' := Function.update_of_ne hd _ _

theorem inserted_levels_of_ne {d' : Side} {j : Fin kLevels} (h : ¬ (d' = d ∧ j = i)) :
    ((s.inserted o d i).sides d').levels j = (s.sides d').levels j := by
  by_cases hd : d' = d
  · subst hd
    have hj : j ≠ i := fun e => h ⟨rfl, e⟩
    simp [inserted, hj]
  · rw [inserted_sides_of_ne s o d i hd]

theorem inserted_levelIdx (p : Fin n) : ((s.inserted o d i).order p).levelIdx =
    if p = o then ((i : ℕ) : ℤ) else (s.order p).levelIdx := by
  unfold order
  rw [inserted_slots, levelIdx_withLinks, modify_apply]
  split_ifs <;> rfl

variable {s o d i}

theorem inserted_levelRep {l : List (Fin n)}
    (hr : LevelRep s.pool.slots ((s.sides d).levels i) l) (ho : o ∉ l) :
    LevelRep (s.inserted o d i).pool.slots (((s.inserted o d i).sides d).levels i) (l ++ [o]) := by
  have hr' : LevelRep (modify s.pool.slots o fun x => { x with levelIdx := (i : ℕ) })
      ((s.sides d).levels i) l := by
    have hne : ∀ p ∈ l, p ≠ o := fun p hp e => ho (e ▸ hp)
    refine hr.congr ?_ ?_ ?_ <;> intro p hp <;> rw [modify_of_ne _ (hne p hp)]
  have := hr'.addOrder ho
  simpa [inserted] using this

theorem inserted_order_of_not_mem {l : List (Fin n)} {p : Fin n}
    (hr : LevelRep s.pool.slots ((s.sides d).levels i) l) (hp : p ≠ o) (hl : p ∉ l) :
    (s.inserted o d i).order p = s.order p := by
  unfold order
  have ht : ((s.sides d).levels i).tail ≠ some p := fun e => hl (by
    have h' := hr.list
    rw [e] at h'
    exact h'.tail_mem)
  have hm : modify s.pool.slots o (fun x => { x with levelIdx := (i : ℕ) }) p = s.pool.slots p :=
    modify_of_ne _ hp _
  rw [inserted_slots, withLinks_of_eq, hm]
  rw [hm]
  exact Links.append_frame _ ht hp

theorem inserted_levelRep_of_disjoint {lvl : PriceLevel n} {l l' : List (Fin n)}
    (hr : LevelRep s.pool.slots ((s.sides d).levels i) l) (hr' : LevelRep s.pool.slots lvl l')
    (ho : o ∉ l') (hd : ∀ p ∈ l', p ∉ l) : LevelRep (s.inserted o d i).pool.slots lvl l' := by
  have heq : ∀ p ∈ l', (s.inserted o d i).pool.slots p = s.pool.slots p := fun p hp =>
    inserted_order_of_not_mem hr (fun e => ho (e ▸ hp)) (hd p hp)
  refine hr'.congr ?_ ?_ ?_ <;> intro p hp <;> rw [heq p hp]

/-- The best index follows an insertion when the level's counter does not wrap. -/
theorem inserted_isBest {l : List (Fin n)} (hl : l.length + 1 < 2 ^ 32)
    (hr : LevelRep s.pool.slots ((s.sides d).levels i) l) (ho : o ∉ l) {d' : Side}
    (hb : IsBest (s.sides d').levels (s.sides d').bestIdx) :
    IsBest ((s.inserted o d i).sides d').levels ((s.inserted o d i).sides d').bestIdx := by
  by_cases hd : d' = d
  · subst hd
    have hbest : ((s.inserted o d' i).sides d').bestIdx =
        if (s.sides d').bestIdx < 0 ∨ ((i : ℕ) : ℤ) < (s.sides d').bestIdx then ((i : ℕ) : ℤ)
        else (s.sides d').bestIdx := by simp [inserted]
    rw [hbest]
    refine hb.insert (fun j hj => inserted_levels_of_ne s o d' i fun h => hj h.2) ?_
    have := (inserted_levelRep hr ho).empty_iff (by simpa using hl)
    simpa using this
  · rw [inserted_sides_of_ne s o d i hd]
    exact hb

end Inserted

/-- **`insert_at` links a new order of the right side and index.** -/
theorem Linked.inserted {A : Set (Fin n)} {s : OrderBook n} {o : Fin n} (h : Linked A s)
    (hp : Priced (insert o A) s) (ho : o ∉ A) (hi : InArray (s.tickOf o)) :
    let s' := s.inserted o (s.sideAt o) (slotOf _ hi)
    Linked (insert o A) s' ∧ ∀ d j, s'.queue d j =
      if d = s.sideAt o ∧ j = slotOf _ hi then s.queue d j ++ [o] else s.queue d j := by
  intro s'
  set d₀ := s.sideAt o
  set i₀ := slotOf _ hi
  have hfr : Frame s s' := inserted_frame s o d₀ i₀
  have hoq : ∀ d j, o ∉ s.queue d j := fun d j hq => ho (h.mem_of_queue hq)
  have hqueue : ∀ d j, LevelRep s'.pool.slots ((s'.sides d).levels j)
      (if d = d₀ ∧ j = i₀ then s.queue d j ++ [o] else s.queue d j) := by
    intro d j
    split_ifs with hdj
    · obtain ⟨rfl, rfl⟩ := hdj
      exact inserted_levelRep (h.level d₀ i₀) (hoq _ _)
    · rw [inserted_levels_of_ne s o d₀ i₀ hdj]
      refine inserted_levelRep_of_disjoint (h.level d₀ i₀) (h.level d j) (hoq _ _) ?_
      intro p hp hp'
      exact hdj (h.queue_unique hp' hp)
  have hq : ∀ d j, s'.queue d j =
      if d = d₀ ∧ j = i₀ then s.queue d j ++ [o] else s.queue d j := fun d j => queue_eq (hqueue d j)
  refine ⟨⟨hp.of_frame hfr, fun d j => hq d j ▸ hqueue d j, fun d j p => ?_, fun p hp => ?_⟩, hq⟩
  · have hmem := h.mem_queue d j p
    have hval : ((i₀ : ℕ) : ℤ) = s.tickOf o := slotOf_val hi
    rw [hq, hfr.sideAt, hfr.tickOf, Set.mem_insert_iff]
    split_ifs with hdj
    · obtain ⟨rfl, rfl⟩ := hdj
      rw [List.mem_append, hmem, List.mem_singleton]
      constructor
      · rintro (h' | rfl)
        · exact ⟨.inr h'.1, h'.2⟩
        · exact ⟨.inl rfl, rfl, hval.symm⟩
      · rintro ⟨rfl | hp, h'⟩
        · exact .inr rfl
        · exact .inl ⟨hp, h'⟩
    · rw [hmem]
      constructor
      · exact fun h' => ⟨.inr h'.1, h'.2⟩
      · rintro ⟨rfl | hp, h₁, h₂⟩
        · exact absurd ⟨h₁.symm, Fin.ext (by exact_mod_cast h₂.symm.trans hval.symm)⟩ hdj
        · exact ⟨hp, h₁, h₂⟩
  · rw [inserted_levelIdx, hfr.tickOf]
    split_ifs with hpo hin hin
    · subst hpo; exact slotOf_val hi
    · subst hpo; exact absurd hi hin
    · exact h.levelIdx_of_mem (hp.resolve_left hpo) hin
    · rw [h.levelIdx p (hp.resolve_left hpo), if_neg hin]

/-! ## Removal -/

/-- The book after `remove_order`, with the level already unlinked. -/
def removed (s : OrderBook n) (o : Fin n) (d : Side) (i : Fin kLevels) (lvl : PriceLevel n) :
    OrderBook n :=
  let side := s.sides d
  let levels := Function.update side.levels i lvl
  { s with
    sides := Function.update s.sides d
      { levels := levels
        ref := side.ref
        bestIdx := if ((i : ℕ) : ℤ) = side.bestIdx ∧ (levels i).empty = true then
          firstNonEmpty levels (side.bestIdx + 1).toNat else side.bestIdx }
    pool := { s.pool with
      slots := modify (withLinks s.pool.slots ((links s.pool.slots).unlink o)) o
        fun x => { x with levelIdx := -1 } } }

section Removed

variable (s : OrderBook n) (o : Fin n) (d : Side) (i : Fin kLevels) (lvl : PriceLevel n)

theorem removed_frame : Frame s (s.removed o d i lvl) where
  orderMap := rfl
  isOpen := rfl
  freeHead := rfl
  ref d' := by
    unfold removed
    by_cases hd : d' = d
    · subst hd; simp
    · simp [hd]
  data := by
    refine (sameData_withLinks s.pool.slots ((links s.pool.slots).unlink o)).trans ?_
    exact sameData_modify _ o (f := fun x => { x with levelIdx := -1 }) ⟨rfl, rfl, rfl, rfl⟩

theorem removed_levels (d' : Side) (j : Fin kLevels) : ((s.removed o d i lvl).sides d').levels j =
    if d' = d ∧ j = i then lvl else (s.sides d').levels j := by
  unfold removed
  by_cases hd : d' = d
  · subst hd
    by_cases hj : j = i
    · subst hj; simp
    · simp [hj]
  · simp [hd]

theorem removed_levelIdx (p : Fin n) : ((s.removed o d i lvl).order p).levelIdx =
    if p = o then -1 else (s.order p).levelIdx := by
  unfold order removed
  simp only [modify_apply]
  split_ifs <;> rfl

variable {s o d i lvl}

theorem removed_order_of_not_mem {l : List (Fin n)} {p : Fin n}
    (hr : LevelRep s.pool.slots ((s.sides d).levels i) l) (ho : o ∈ l) (hl : p ∉ l) :
    (s.removed o d i lvl).order p = s.order p := by
  have hpo : p ≠ o := fun e => hl (e ▸ ho)
  unfold order removed
  simp only
  rw [modify_of_ne _ hpo, withLinks_of_eq]
  exact Links.unlink_frame _ hpo (fun e => hl (hr.list.links_mem ho (.inl e)))
    fun e => hl (hr.list.links_mem ho (.inr e))

end Removed

/-- **`remove_order` unlinks an order whose price index lies in the array.** -/
theorem Linked.removeOrder {b : Build} {A : Set (Fin n)} {s : OrderBook n} {o : Fin n}
    (hb : b = .debug → n < 2 ^ 32) (h : Linked A s) (ho : o ∈ A) (hi : InArray (s.tickOf o)) :
    ∃ s', s.removeOrder b o = .ok s' ∧ Linked (A \ {o}) s' ∧ Frame s s' ∧
      (∀ d j, s'.queue d j = (s.queue d j).erase o) ∧
      (∀ p, p ∉ s.queue (s.sideAt o) (slotOf _ hi) → s'.order p = s.order p) ∧
      (∀ d, d ≠ s.sideAt o → s'.sides d = s.sides d) ∧
      (n < 2 ^ 32 → ∀ d, IsBest (s.sides d).levels (s.sides d).bestIdx →
        IsBest (s'.sides d).levels (s'.sides d).bestIdx) := by
  set d₀ := s.sideAt o with hd₀
  set i₀ := slotOf _ hi with hi₀
  have hoq : o ∈ s.queue d₀ i₀ := h.mem_queue_slotOf ho hi
  obtain ⟨lvl, hrem, hrep⟩ := (h.level d₀ i₀).removeOrder
    (fun hd => (h.level d₀ i₀).length_le.trans_lt (hb hd)) hoq
  have hidx := h.levelIdx_of_mem ho hi
  have heq : s.removeOrder b o = .ok (s.removed o d₀ i₀ lvl) := by
    unfold OrderBook.removeOrder
    rw [check_ok fun _ => by rw [hidx]; exact hi.1, hidx]
    simp only [bind, Except.bind, levelAt_of_mem hi]
    rw [show sideOf (s.order o).side = d₀ from rfl, ← hi₀, hrem]
    simp only [setLevel, advanceBest, setSide, modifyOrder, removed, Function.update_self,
      Function.update_idem, hi₀, slotOf_val]
    split_ifs <;> simp
  set s' := s.removed o d₀ i₀ lvl with hs'
  have hfr : Frame s s' := removed_frame s o d₀ i₀ lvl
  have hframe : ∀ p, p ∉ s.queue d₀ i₀ → s'.order p = s.order p := fun p hp =>
    removed_order_of_not_mem (h.level d₀ i₀) hoq hp
  have hqueue : ∀ d j, LevelRep s'.pool.slots ((s'.sides d).levels j) ((s.queue d j).erase o) := by
    intro d j
    rw [hs', removed_levels]
    split_ifs with hdj
    · obtain ⟨rfl, rfl⟩ := hdj
      refine hrep.congr ?_ ?_ ?_ <;> intro p hp <;> simp only [removed, modify_apply] <;>
        split_ifs <;> rfl
    · have hno : o ∉ s.queue d j := fun hq => hdj (h.queue_unique hoq hq)
      have heq' : ∀ p ∈ s.queue d j, s'.pool.slots p = s.pool.slots p := fun p hp =>
        hframe p fun hp' => hdj (h.queue_unique hp' hp)
      rw [List.erase_of_not_mem hno]
      refine (h.level d j).congr ?_ ?_ ?_ <;> intro p hp <;> rw [← hs', heq' p hp]
  have hq : ∀ d j, s'.queue d j = (s.queue d j).erase o := fun d j => queue_eq (hqueue d j)
  refine ⟨s', heq, ⟨(h.toPriced.of_frame hfr).mono Set.sdiff_subset, fun d j => hq d j ▸ hqueue d j,
    fun d j p => ?_, fun p hp => ?_⟩, hfr, hq, hframe, fun d hd => ?_, fun hn d hbest => ?_⟩
  · rw [hq, (h.level d j).list.nodup.mem_erase_iff, h.mem_queue, hfr.sideAt, hfr.tickOf,
      Set.mem_sdiff, Set.mem_singleton_iff]
    tauto
  · rw [removed_levelIdx, if_neg (Set.mem_singleton_iff.not.mp hp.2), hfr.tickOf]
    exact h.levelIdx p hp.1
  · exact Function.update_of_ne hd _ _
  · by_cases hd : d = d₀
    · subst hd
      have hlev : (s'.sides d₀).levels = Function.update (s.sides d₀).levels i₀ lvl := by
        simp [hs', removed]
      have hbi : (s'.sides d₀).bestIdx =
          if ((i₀ : ℕ) : ℤ) = (s.sides d₀).bestIdx ∧ ((s'.sides d₀).levels i₀).empty = true then
            firstNonEmpty (s'.sides d₀).levels ((s.sides d₀).bestIdx + 1).toNat
          else (s.sides d₀).bestIdx := by simp [hs', removed]
      rw [hbi]
      refine hbest.remove (fun j hj => by rw [hlev, Function.update_of_ne hj]) ?_
      have := ((h.level d₀ i₀).empty_iff ((h.level d₀ i₀).length_le.trans_lt hn)).not.mpr
        (List.ne_nil_of_mem hoq)
      simpa using this
    · rw [show s'.sides d = s.sides d from Function.update_of_ne hd _ _]
      exact hbest

/-! ## Partial executions and cancels -/

section SetLevel

variable (s : OrderBook n) (d : Side) (i : Fin kLevels) (r : PriceLevel n × (Fin n → Order n))

theorem setLevel_levels (d' : Side) (j : Fin kLevels) :
    ((s.setLevel d i r).sides d').levels j =
      if d' = d ∧ j = i then r.1 else (s.sides d').levels j := by
  by_cases hd : d' = d
  · subst hd
    by_cases hj : j = i
    · subst hj
      simp [setLevel]
    · simp [setLevel, hj]
  · simp [setLevel, hd]

theorem setLevel_ref (d' : Side) : ((s.setLevel d i r).sides d').ref = (s.sides d').ref := by
  by_cases hd : d' = d
  · subst hd
    simp [setLevel]
  · simp [setLevel, hd]

theorem setLevel_bestIdx (d' : Side) :
    ((s.setLevel d i r).sides d').bestIdx = (s.sides d').bestIdx := by
  by_cases hd : d' = d
  · subst hd
    simp [setLevel]
  · simp [setLevel, hd]

end SetLevel

/-- **`reduce_shares` reduces an order whose price index lies in the array.** -/
theorem Linked.reduceShares {b : Build} {A : Set (Fin n)} {s : OrderBook n} {o : Fin n}
    {qty : UInt32} (hb : b = .debug → n < 2 ^ 32) (h : Linked A s) (ho : o ∈ A)
    (hi : InArray (s.tickOf o)) (hq : qty ≤ (s.order o).shares) :
    ∃ s', s.reduceShares b o qty = .ok s' ∧ Linked A s' ∧
      s'.pool.slots = modify s.pool.slots o (fun x => { x with shares := x.shares - qty }) ∧
      s'.orderMap = s.orderMap ∧ s'.isOpen = s.isOpen ∧ s'.pool.freeHead = s.pool.freeHead ∧
      (∀ d, (s'.sides d).ref = (s.sides d).ref) ∧ (∀ d j, s'.queue d j = s.queue d j) ∧
      (∀ d, d ≠ s.sideAt o → s'.sides d = s.sides d) ∧
      (∀ d, IsBest (s.sides d).levels (s.sides d).bestIdx →
        IsBest (s'.sides d).levels (s'.sides d).bestIdx) := by
  set d₀ := s.sideAt o
  set i₀ := slotOf _ hi with hi₀
  have hoq : o ∈ s.queue d₀ i₀ := h.mem_queue_slotOf ho hi
  obtain ⟨lvl, hred, hrep, hcount⟩ := (h.level d₀ i₀).reduceShares
    (fun hd => (h.level d₀ i₀).length_le.trans_lt (hb hd)) hoq hq
  have hidx := h.levelIdx_of_mem ho hi
  set h' := modify s.pool.slots o fun x => { x with shares := x.shares - qty } with hh'
  set s' := s.setLevel d₀ i₀ (lvl, h') with hs'
  have heq : s.reduceShares b o qty = .ok s' := by
    unfold OrderBook.reduceShares
    rw [check_ok fun _ => by rw [hidx]; exact hi.1, hidx]
    simp only [bind, Except.bind, levelAt_of_mem hi]
    rw [show sideOf (s.order o).side = d₀ from rfl, ← hi₀, hred]
  have hlev : ∀ d j, (s'.sides d).levels j =
      if d = d₀ ∧ j = i₀ then lvl else (s.sides d).levels j := setLevel_levels s d₀ i₀ (lvl, h')
  have href : ∀ d, (s'.sides d).ref = (s.sides d).ref := setLevel_ref s d₀ i₀ (lvl, h')
  have hside : ∀ p, (s'.order p).side = (s.order p).side := fun p => by
    simp only [order, hs', setLevel, hh', modify_apply]; split_ifs <;> rfl
  have hprice : ∀ p, (s'.order p).price = (s.order p).price := fun p => by
    simp only [order, hs', setLevel, hh', modify_apply]; split_ifs <;> rfl
  have hidx' : ∀ p, (s'.order p).levelIdx = (s.order p).levelIdx := fun p => by
    simp only [order, hs', setLevel, hh', modify_apply]; split_ifs <;> rfl
  have hat : ∀ p, s'.sideAt p = s.sideAt p := fun p => by simp only [sideAt, hside]
  have htick : ∀ p, s'.tickOf p = s.tickOf p := fun p => by simp only [tickOf, hat, href, hprice]
  have hqueue : ∀ d j, LevelRep s'.pool.slots ((s'.sides d).levels j) (s.queue d j) := by
    intro d j
    rw [hlev]
    split_ifs with hdj
    · obtain ⟨rfl, rfl⟩ := hdj
      exact hrep
    · have hne : ∀ p ∈ s.queue d j, p ≠ o := fun p hp e => hdj (h.queue_unique hoq (e ▸ hp))
      refine (h.level d j).congr ?_ ?_ ?_ <;> intro p hp <;>
        simp only [hs', setLevel, hh', modify_of_ne _ (hne p hp)]
  have hqu : ∀ d j, s'.queue d j = s.queue d j := fun d j => queue_eq (hqueue d j)
  refine ⟨s', heq, ⟨⟨fun p hp => ?_, fun p hp => ?_, fun p hp => ?_, fun d => ?_, fun p hp => ?_⟩,
    fun d j => hqu d j ▸ hqueue d j, fun d j p => ?_, fun p hp => ?_⟩, rfl, rfl, rfl, rfl, href, hqu,
    fun d hd => Function.update_of_ne hd _ _, fun d hbest => ?_⟩
  · rw [hside, hat]; exact h.side_byte p hp
  · rw [hprice]; exact h.price_pos p hp
  · rw [hprice]; exact h.price_lt p hp
  · rw [href]; exact h.ref_lt d
  · rw [hat, href]; exact h.ref_ne p hp
  · rw [hqu, hat, htick]; exact h.mem_queue d j p
  · rw [hidx', htick]; exact h.levelIdx p hp
  · rw [hs', setLevel_bestIdx, ← hs']
    refine hbest.congr fun j => ?_
    rw [hlev]
    split_ifs with hdj
    · obtain ⟨rfl, rfl⟩ := hdj
      simp [PriceLevel.empty, hcount]
    · rfl

/-! ## Orders outside the array -/

theorem removeOrder_fault (b : Build) {s : OrderBook n} {o : Fin n}
    (hi : (s.order o).levelIdx = -1) : ∃ f, s.removeOrder b o = .error f := by
  unfold OrderBook.removeOrder Build.check
  cases b with
  | debug => exact ⟨.assertion, by simp [hi, bind, Except.bind]⟩
  | release => exact ⟨.outOfBounds, by simp [hi, levelAt, InArray, bind, Except.bind]⟩

theorem reduceShares_fault (b : Build) {s : OrderBook n} {o : Fin n} (qty : UInt32)
    (hi : (s.order o).levelIdx = -1) : ∃ f, s.reduceShares b o qty = .error f := by
  unfold OrderBook.reduceShares Build.check
  cases b with
  | debug => exact ⟨.assertion, by simp [hi, bind, Except.bind]⟩
  | release => exact ⟨.outOfBounds, by simp [hi, levelAt, InArray, bind, Except.bind]⟩

end OrderBook

end L2Book
