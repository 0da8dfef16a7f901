import L2Book.Book.Linked

/-!
# Re-centring a side

* `cleared s d ref`: the state in which the loop over `order_map_` starts;
* `bucket`: the orders of the side whose price has a given index, in the order they are visited;
* **`Recentred d s₀ s ps`**: the loop invariant after visiting `ps`. The levels of the side hold
  exactly the buckets of `ps`; an order not yet visited still has its old links, which nothing reads;
* `Recentred.step`, **`recentre_spec`**: one iteration and the whole loop, from any prior content of
  the side;
* **`Linked.recentre`**: the representation invariant survives, whatever the iteration order.
-/

namespace L2Book

namespace OrderBook

variable {n : ℕ}

/-- The side is emptied and its reference price set. -/
def cleared (s : OrderBook n) (d : Side) (ref : UInt32) : OrderBook n :=
  s.setSide d { levels := fun _ => {}, bestIdx := -1, ref := ref }

/-- The index of an order's price on side `d`. -/
def tickAt (s : OrderBook n) (d : Side) (p : Fin n) : ℤ := tick d (s.sides d).ref (s.order p).price

/-- The visited orders of side `d` that belong to level `i`. -/
def bucket (s : OrderBook n) (d : Side) (ps : List (Fin n)) (i : Fin kLevels) : List (Fin n) :=
  ps.filter fun p => (s.order p).side = d.byte ∧ s.tickAt d p = (i : ℕ)

theorem mem_bucket {s : OrderBook n} {d : Side} {ps : List (Fin n)} {i : Fin kLevels} {p : Fin n} :
    p ∈ s.bucket d ps i ↔ p ∈ ps ∧ (s.order p).side = d.byte ∧ s.tickAt d p = (i : ℕ) := by
  simp [bucket]

theorem bucket_append_singleton (s : OrderBook n) (d : Side) (ps : List (Fin n)) (p : Fin n)
    (i : Fin kLevels) : s.bucket d (ps ++ [p]) i = s.bucket d ps i ++
      if (s.order p).side = d.byte ∧ s.tickAt d p = (i : ℕ) then [p] else [] := by
  unfold bucket
  rw [List.filter_append, List.filter_singleton]
  split_ifs with h <;> simp [h]

theorem sideOf_byte (d : Side) : sideOf d.byte = d := by cases d <;> decide

/-- **The loop invariant** of a re-centre of side `d` that started in `s₀` and visited `ps`. -/
structure Recentred (d : Side) (s₀ s : OrderBook n) (ps : List (Fin n)) : Prop where
  frame : Frame s₀ s
  other : ∀ d', d' ≠ d → s.sides d' = s₀.sides d'
  untouched : ∀ p, ¬ (p ∈ ps ∧ (s₀.order p).side = d.byte) → s.order p = s₀.order p
  level : ∀ i, LevelRep s.pool.slots ((s.sides d).levels i) (s₀.bucket d ps i)
  levelIdx : ∀ p ∈ ps, (s₀.order p).side = d.byte →
    (s.order p).levelIdx = if InArray (s₀.tickAt d p) then s₀.tickAt d p else -1
  null : ∀ p ∈ ps, (s₀.order p).side = d.byte → ¬ InArray (s₀.tickAt d p) →
    (s.order p).next = none ∧ (s.order p).prev = none
  best : ps.length < 2 ^ 32 → IsBest (s.sides d).levels (s.sides d).bestIdx

theorem recentred_cleared (s : OrderBook n) (d : Side) (ref : UInt32) :
    Recentred d (s.cleared d ref) (s.cleared d ref) [] where
  frame := ⟨rfl, rfl, rfl, fun _ => rfl, SameData.refl _⟩
  other _ _ := rfl
  untouched _ _ := rfl
  level i := by simpa [cleared, setSide, bucket] using levelRep_nil s.pool.slots
  levelIdx _ hp := absurd hp (by simp)
  null _ hp := absurd hp (by simp)
  best _ := by simpa [cleared, setSide] using isBest_default

section Step

variable {d : Side} {s₀ s : OrderBook n} {ps : List (Fin n)} {p : Fin n}

theorem Recentred.skip (h : Recentred d s₀ s ps) (hside : (s₀.order p).side ≠ d.byte) :
    Recentred d s₀ s (ps ++ [p]) := by
  have hmem : ∀ q, q ∈ ps ++ [p] → (s₀.order q).side = d.byte → q ∈ ps := by
    intro q hq hs
    rcases List.mem_append.mp hq with hq | hq
    · exact hq
    · rw [List.mem_singleton.mp hq] at hs
      exact absurd hs hside
  refine ⟨h.frame, h.other, fun q hq => ?_, fun i => ?_, fun q hq hs => ?_, fun q hq hs => ?_,
    fun hl => ?_⟩
  · exact h.untouched q fun hq' => hq ⟨List.mem_append_left _ hq'.1, hq'.2⟩
  · rw [bucket_append_singleton, if_neg fun h' => hside h'.1, List.append_nil]
    exact h.level i
  · exact h.levelIdx q (hmem q hq hs) hs
  · exact h.null q (hmem q hq hs) hs
  · rw [List.length_append] at hl
    exact h.best (by omega)

/-- The links and the cached index of the visited order are reset. -/
def reset (s : OrderBook n) (p : Fin n) : OrderBook n :=
  s.modifyOrder p fun x => { x with next := none, prev := none, levelIdx := -1 }

theorem reset_frame (s : OrderBook n) (p : Fin n) : Frame s (s.reset p) :=
  ⟨rfl, rfl, rfl, fun _ => rfl,
    sameData_modify s.pool.slots p
      (f := fun x => { x with next := none, prev := none, levelIdx := -1 }) ⟨rfl, rfl, rfl, rfl⟩⟩

theorem reset_order_self (s : OrderBook n) (p : Fin n) :
    (s.reset p).order p = { s.order p with next := none, prev := none, levelIdx := -1 } := by
  simp only [reset, modifyOrder, order, modify_self]

theorem reset_order_of_ne (s : OrderBook n) {p q : Fin n} (hq : q ≠ p) :
    (s.reset p).order q = s.order q := by
  simp only [reset, modifyOrder, order, modify_of_ne _ hq]

/-- Resetting an order that was not visited before disturbs no bucket. -/
theorem Recentred.reset_level (h : Recentred d s₀ s ps) (hp : p ∉ ps) (i : Fin kLevels) :
    LevelRep (s.reset p).pool.slots (((s.reset p).sides d).levels i) (s₀.bucket d ps i) := by
  have hne : ∀ q ∈ s₀.bucket d ps i, (s.reset p).pool.slots q = s.pool.slots q := fun q hq =>
    reset_order_of_ne s fun e => hp (e ▸ (mem_bucket.mp hq).1)
  refine (h.level i).congr ?_ ?_ ?_ <;> intro q hq <;> rw [hne q hq]

/-- An order whose price lies outside the array is left in no level. -/
theorem Recentred.drop (h : Recentred d s₀ s ps) (hp : p ∉ ps)
    (hside : (s₀.order p).side = d.byte) (hi : ¬ InArray (s₀.tickAt d p)) :
    Recentred d s₀ (s.reset p) (ps ++ [p]) := by
  refine ⟨h.frame.trans (reset_frame s p), h.other, fun q hq => ?_, fun i => ?_, fun q hq hs => ?_,
    fun q hq hs hn => ?_, fun hl => ?_⟩
  · have hqp : q ≠ p := fun e => hq ⟨by simp [e], e ▸ hside⟩
    rw [reset_order_of_ne s hqp]
    exact h.untouched q fun hq' => hq ⟨List.mem_append_left _ hq'.1, hq'.2⟩
  · have : ¬ ((s₀.order p).side = d.byte ∧ s₀.tickAt d p = (i : ℕ)) := fun h' =>
      hi (h'.2 ▸ inArray_coe i)
    rw [bucket_append_singleton, if_neg this, List.append_nil]
    exact h.reset_level hp i
  · by_cases hqp : q = p
    · subst hqp
      rw [reset_order_self, if_neg hi]
    · rw [reset_order_of_ne s hqp]
      exact h.levelIdx q ((List.mem_append.mp hq).resolve_right (by simpa using hqp)) hs
  · by_cases hqp : q = p
    · subst hqp
      rw [reset_order_self]
      exact ⟨rfl, rfl⟩
    · rw [reset_order_of_ne s hqp]
      exact h.null q ((List.mem_append.mp hq).resolve_right (by simpa using hqp)) hs hn
  · rw [List.length_append] at hl
    exact h.best (by omega)

theorem Recentred.link (h : Recentred d s₀ s ps) (hp : p ∉ ps)
    (hside : (s₀.order p).side = d.byte) (hi : InArray (s₀.tickAt d p)) :
    Recentred d s₀ ((s.reset p).inserted p d (slotOf _ hi)) (ps ++ [p]) := by
  set i₀ := slotOf _ hi
  set s' := (s.reset p).inserted p d i₀
  have hval : ((i₀ : ℕ) : ℤ) = s₀.tickAt d p := slotOf_val hi
  have hlev := h.reset_level hp
  have hpb : ∀ i, p ∉ s₀.bucket d ps i := fun i hb => hp (mem_bucket.mp hb).1
  have hord : ∀ q, q ≠ p → q ∉ s₀.bucket d ps i₀ → s'.order q = s.order q := fun q hq hb =>
    (inserted_order_of_not_mem (hlev i₀) hq hb).trans (reset_order_of_ne s hq)
  have hidx : ∀ q, q ≠ p → (s'.order q).levelIdx = (s.order q).levelIdx := fun q hq => by
    rw [inserted_levelIdx, if_neg hq, reset_order_of_ne s hq]
  have hmem : ∀ {q}, q ∈ ps ++ [p] → q ≠ p → q ∈ ps := fun hq hqp =>
    (List.mem_append.mp hq).resolve_right (by simpa using hqp)
  refine ⟨(h.frame.trans (reset_frame s p)).trans (inserted_frame _ p d i₀), fun d' hd => ?_,
    fun q hq => ?_, fun i => ?_, fun q hq hs => ?_, fun q hq hs hn => ?_, fun hl => ?_⟩
  · rw [inserted_sides_of_ne _ _ _ _ hd]
    exact h.other d' hd
  · have hqp : q ≠ p := fun e => hq ⟨by simp [e], e ▸ hside⟩
    have hq' : ¬ (q ∈ ps ∧ (s₀.order q).side = d.byte) := fun h' =>
      hq ⟨List.mem_append_left _ h'.1, h'.2⟩
    rw [hord q hqp fun hb => hq' ⟨(mem_bucket.mp hb).1, (mem_bucket.mp hb).2.1⟩]
    exact h.untouched q hq'
  · rw [bucket_append_singleton]
    by_cases hii : i = i₀
    · rw [hii, if_pos ⟨hside, hval.symm⟩]
      exact inserted_levelRep (hlev i₀) (hpb i₀)
    · have : ¬ ((s₀.order p).side = d.byte ∧ s₀.tickAt d p = (i : ℕ)) := fun h' =>
        hii (Fin.ext (by exact_mod_cast (h'.2.symm.trans hval.symm)))
      rw [if_neg this, List.append_nil, inserted_levels_of_ne _ _ _ _ fun h' => hii h'.2]
      refine inserted_levelRep_of_disjoint (hlev i₀) (hlev i) (hpb i) fun q hq hq' => ?_
      exact hii (Fin.ext (by
        exact_mod_cast (mem_bucket.mp hq).2.2.symm.trans (mem_bucket.mp hq').2.2))
  · by_cases hqp : q = p
    · subst hqp
      rw [inserted_levelIdx, if_pos rfl, if_pos hi, hval]
    · rw [hidx q hqp]
      exact h.levelIdx q (hmem hq hqp) hs
  · have hqp : q ≠ p := fun e => hn (e ▸ hi)
    have hb : q ∉ s₀.bucket d ps i₀ := fun hb => hn ((mem_bucket.mp hb).2.2 ▸ inArray_coe i₀)
    rw [hord q hqp hb]
    exact h.null q (hmem hq hqp) hs hn
  · rw [List.length_append, List.length_singleton] at hl
    have hbl : (s₀.bucket d ps i₀).length ≤ ps.length := List.length_filter_le _ _
    exact inserted_isBest (by omega) (hlev i₀) (hpb i₀) (h.best (by omega))

/-- **One iteration of the loop.** -/
theorem Recentred.step (ref : UInt64) (h : Recentred d s₀ s ps) (hp : p ∉ ps)
    (hlt : (s₀.order p).side = d.byte → (s₀.order p).price.toNat < 2 ^ 31)
    (href : (s₀.sides d).ref.toNat < 2 ^ 31) :
    ∃ s', recentreStep d s ⟨ref, p⟩ = .ok s' ∧ Recentred d s₀ s' (ps ++ [p]) := by
  have hs : (s.order p).side = (s₀.order p).side := h.frame.data.side p
  unfold recentreStep
  by_cases hside : (s₀.order p).side = d.byte
  · have hne : ¬ (s.order p).side ≠ d.byte := by rw [hs]; simpa using hside
    have hfr := (h.frame.trans (reset_frame s p))
    have hprice : ((s.reset p).order p).price = (s₀.order p).price := hfr.data.price p
    have hidx : priceIdx d ((s.reset p).sides d).ref ((s.reset p).order p).price =
        .ok (s₀.tickAt d p) := by
      rw [hprice, hfr.ref, priceIdx_eq d href (hlt hside)]
      rfl
    simp only [if_neg hne]
    rw [← reset, hidx]
    by_cases hi : InArray (s₀.tickAt d p)
    · refine ⟨_, ?_, h.link hp hside hi⟩
      simp only [bind, Except.bind, if_pos hi]
      rw [insertAt_eq hi, sideAt]
      have : ((s.reset p).order p).side = d.byte := (hfr.data.side p).trans hside
      rw [this, sideOf_byte]
    · refine ⟨_, ?_, h.drop hp hside hi⟩
      simp only [bind, Except.bind, if_neg hi]
  · have hne : (s.order p).side ≠ d.byte := by rw [hs]; exact hside
    exact ⟨s, by simp only [if_pos hne], h.skip hside⟩

/-- **The loop**, from any point of the iteration. -/
theorem Recentred.loop (es : List (Σ _ : UInt64, Fin n)) (h : Recentred d s₀ s ps)
    (hnd : (ps ++ es.map (·.2)).Nodup)
    (hlt : ∀ e ∈ es, (s₀.order e.2).side = d.byte → (s₀.order e.2).price.toNat < 2 ^ 31)
    (href : (s₀.sides d).ref.toNat < 2 ^ 31) :
    ∃ s', es.foldlM (recentreStep d) s = .ok s' ∧ Recentred d s₀ s' (ps ++ es.map (·.2)) := by
  induction es generalizing s ps with
  | nil => exact ⟨s, rfl, by simpa using h⟩
  | cons e es ih =>
    have hp : e.2 ∉ ps := fun hp => (List.nodup_append.mp hnd).2.2 e.2 hp e.2 (by simp) rfl
    obtain ⟨s₁, hs₁, h₁⟩ := h.step e.1 hp (hlt e List.mem_cons_self) href
    obtain ⟨s', hs', h'⟩ := ih h₁ (by simpa using hnd)
      fun e' he' => hlt e' (List.mem_cons_of_mem _ he')
    refine ⟨s', ?_, by simpa using h'⟩
    rw [List.foldlM_cons, hs₁]
    exact hs'

end Step

/-- The slots in the order map. -/
def liveSlots (s : OrderBook n) : List (Fin n) := s.orderMap.entries.map (·.2)

/-- The slots of the map in the order one iteration visits them. -/
def visited (it : IterOrder n) (s : OrderBook n) : List (Fin n) := (it.order s.orderMap).map (·.2)

theorem visited_perm (it : IterOrder n) (s : OrderBook n) : (s.visited it).Perm s.liveSlots :=
  (it.perm s.orderMap).map _

/-- **A re-centre rebuilds its side from the map alone**, whatever the side held before. -/
theorem recentre_spec (it : IterOrder n) (d : Side) (newRef : UInt32) {s : OrderBook n}
    (hnd : s.liveSlots.Nodup)
    (hlt : ∀ p ∈ s.liveSlots, (s.order p).side = d.byte → (s.order p).price.toNat < 2 ^ 31)
    (href : newRef.toNat < 2 ^ 31) :
    ∃ s', recentre it d newRef s = .ok s' ∧
      Recentred d (s.cleared d newRef) s' (s.visited it) := by
  have hperm := s.visited_perm it
  unfold visited at hperm ⊢
  obtain ⟨s', hs', h'⟩ := (recentred_cleared s d newRef).loop (it.order s.orderMap)
    (by simpa using hperm.nodup_iff.mpr hnd)
    (fun e he => hlt e.2 (hperm.mem_iff.mp (List.mem_map_of_mem he)))
    (by simpa [cleared, setSide] using href)
  exact ⟨s', hs', by simpa using h'⟩

/-! ## The representation invariant -/

section LinkedRecentre

variable {s s' : OrderBook n} {d : Side} {newRef : UInt32} {it : IterOrder n}

theorem cleared_ref_self (s : OrderBook n) (d : Side) (newRef : UInt32) :
    ((s.cleared d newRef).sides d).ref = newRef := by simp [cleared, setSide]

theorem cleared_sides_of_ne (s : OrderBook n) {d d' : Side} (newRef : UInt32) (hd : d' ≠ d) :
    (s.cleared d newRef).sides d' = s.sides d' := by simp [cleared, setSide, hd]

theorem Recentred.ref_self (h : Recentred d (s.cleared d newRef) s' (s.visited it)) :
    (s'.sides d).ref = newRef := (h.frame.ref d).trans (cleared_ref_self s d newRef)

theorem Recentred.sides_of_ne (h : Recentred d (s.cleared d newRef) s' (s.visited it)) {d' : Side}
    (hd : d' ≠ d) : s'.sides d' = s.sides d' :=
  (h.other d' hd).trans (cleared_sides_of_ne s newRef hd)

theorem Recentred.sideAt_eq (h : Recentred d (s.cleared d newRef) s' (s.visited it)) (p : Fin n) :
    s'.sideAt p = s.sideAt p := h.frame.sideAt p

theorem Recentred.queue_self (h : Recentred d (s.cleared d newRef) s' (s.visited it))
    (i : Fin kLevels) : s'.queue d i = (s.cleared d newRef).bucket d (s.visited it) i :=
  queue_eq (h.level i)

/-- The index of an order after the re-centre: unchanged on the other side. -/
theorem Recentred.tickOf_eq (h : Recentred d (s.cleared d newRef) s' (s.visited it)) (p : Fin n) :
    s'.tickOf p = if s.sideAt p = d then (s.cleared d newRef).tickAt d p else s.tickOf p := by
  have hprice : (s'.order p).price = (s.order p).price := h.frame.data.price p
  unfold tickOf tickAt
  rw [h.sideAt_eq, hprice]
  split_ifs with hd
  · rw [hd, h.ref_self, cleared_ref_self]
    rfl
  · rw [h.sides_of_ne hd]

theorem Recentred.queue_of_ne (h : Recentred d (s.cleared d newRef) s' (s.visited it))
    {A : Set (Fin n)} (hl : Linked A s) {d' : Side} (hd : d' ≠ d) (i : Fin kLevels) :
    LevelRep s'.pool.slots ((s'.sides d').levels i) (s.queue d' i) := by
  have hord : ∀ p ∈ s.queue d' i, s'.pool.slots p = s.pool.slots p := by
    intro p hp
    refine h.untouched p fun hp' => hd ?_
    have hbyte : (s.order p).side = d.byte := hp'.2
    obtain ⟨-, hside, -⟩ := (hl.mem_queue d' i p).mp hp
    rw [← hside, sideAt, hbyte, sideOf_byte]
  rw [h.sides_of_ne hd]
  refine (hl.level d' i).congr ?_ ?_ ?_ <;> intro p hp <;> rw [hord p hp]

/-- **Re-centring keeps the representation invariant**, for every iteration order. -/
theorem Linked.of_recentred {A : Set (Fin n)} (hl : Linked A s) (hA : ∀ p, p ∈ A ↔ p ∈ s.liveSlots)
    (hpos : newRef ≠ 0) (href : newRef.toNat < 2 ^ 31)
    (h : Recentred d (s.cleared d newRef) s' (s.visited it)) : Linked A s' := by
  have hvis : ∀ p, p ∈ s.visited it ↔ p ∈ A := fun p =>
    ((s.visited_perm it).mem_iff).trans (hA p).symm
  have hprice : ∀ p, (s'.order p).price = (s.order p).price := h.frame.data.price
  have hside : ∀ p, (s'.order p).side = (s.order p).side := h.frame.data.side
  have hbyte : ∀ p ∈ A, (s.order p).side = d.byte ↔ s.sideAt p = d := by
    intro p hp
    constructor
    · intro hb; rw [sideAt, hb, sideOf_byte]
    · intro hd; rw [hl.side_byte p hp, hd]
  have hqueue : ∀ d' i, LevelRep s'.pool.slots ((s'.sides d').levels i)
      (if d' = d then (s.cleared d newRef).bucket d (s.visited it) i else s.queue d' i) := by
    intro d' i
    split_ifs with hd
    · subst hd; exact h.level i
    · exact h.queue_of_ne hl hd i
  refine ⟨⟨fun p hp => ?_, fun p hp => ?_, fun p hp => ?_, fun d' => ?_, fun p hp => ?_⟩,
    fun d' i => queue_eq (hqueue d' i) ▸ hqueue d' i, fun d' i p => ?_, fun p hp => ?_⟩
  · rw [hside, h.sideAt_eq]; exact hl.side_byte p hp
  · rw [hprice]; exact hl.price_pos p hp
  · rw [hprice]; exact hl.price_lt p hp
  · by_cases hd : d' = d
    · subst hd; rw [h.ref_self]; exact href
    · rw [h.sides_of_ne hd]; exact hl.ref_lt d'
  · rw [h.sideAt_eq]
    by_cases hd : s.sideAt p = d
    · rw [hd, h.ref_self]; exact hpos
    · rw [h.sides_of_ne hd]; exact hl.ref_ne p hp
  · rw [queue_eq (hqueue d' i), h.sideAt_eq, h.tickOf_eq]
    by_cases hd : d' = d
    · subst hd
      rw [if_pos rfl, mem_bucket, hvis]
      constructor
      · rintro ⟨hp, hb, ht⟩
        have hat := (hbyte p hp).mp hb
        exact ⟨hp, hat, by rw [if_pos hat]; exact ht⟩
      · rintro ⟨hp, hat, ht⟩
        rw [if_pos hat] at ht
        exact ⟨hp, (hbyte p hp).mpr hat, ht⟩
    · rw [if_neg hd, hl.mem_queue]
      refine and_congr_right fun hp => and_congr_right fun hat => ?_
      rw [if_neg fun e => hd (hat.symm.trans e)]
  · rw [h.tickOf_eq]
    by_cases hd : s.sideAt p = d
    · rw [if_pos hd]
      exact h.levelIdx p ((hvis p).mpr hp) ((hbyte p hp).mpr hd)
    · rw [if_neg hd, h.untouched p fun h' => hd ((hbyte p hp).mp h'.2)]
      exact hl.levelIdx p hp

theorem Recentred.isBest (h : Recentred d (s.cleared d newRef) s' (s.visited it))
    (hnd : s.liveSlots.Nodup) (hn : n < 2 ^ 32)
    (hb : ∀ d', IsBest (s.sides d').levels (s.sides d').bestIdx) (d' : Side) :
    IsBest (s'.sides d').levels (s'.sides d').bestIdx := by
  by_cases hd : d' = d
  · subst hd
    have hlen := (s.visited_perm it).length_eq
    have hcard : s.liveSlots.length ≤ n := by simpa using hnd.length_le_card
    exact h.best (by omega)
  · rw [h.sides_of_ne hd]
    exact hb d'

theorem Recentred.mem_inserted_queue {s₀ : OrderBook n} {ps : List (Fin n)}
    (h : Recentred d s₀ s' ps) {o p : Fin n} (ho : o ∉ ps) {i j : Fin kLevels}
    (hp : p ∈ (s'.inserted o d i).queue d j) : p = o ∨ p ∈ s₀.bucket d ps j := by
  have hob : ∀ j, o ∉ s₀.bucket d ps j := fun j hb => ho (mem_bucket.mp hb).1
  by_cases hj : j = i
  · rw [hj, queue_eq (inserted_levelRep (h.level i) (hob i)), List.mem_append,
      List.mem_singleton] at hp
    rw [hj]
    exact hp.symm
  · have hlev : LevelRep (s'.inserted o d i).pool.slots (((s'.inserted o d i).sides d).levels j)
        (s₀.bucket d ps j) := by
      rw [inserted_levels_of_ne s' o d i fun hdj => hj hdj.2]
      refine inserted_levelRep_of_disjoint (h.level i) (h.level j) (hob j) fun q hq hq' => ?_
      refine hj (Fin.ext ?_)
      exact_mod_cast (mem_bucket.mp hq).2.2.symm.trans (mem_bucket.mp hq').2.2
    rw [queue_eq hlev] at hp
    exact .inr hp

end LinkedRecentre

end OrderBook

end L2Book
