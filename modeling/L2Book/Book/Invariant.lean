import L2Book.Book.Feed

/-!
# Invariants of whole runs

* **`BookInvariant`**, `replay_bookInvariant`: the level arrays of every reachable book;
* **`PoolInvariant`**, `replay_poolInvariant`: the pool of every reachable book;
* `IndexSafe`, **`indexSafe_of_reaches`**: when the level arrays are accessed within their bounds, and
  `dropped_order_faults`: a feed that indexes a level array with `-1`.
-/

namespace L2Book

namespace OrderBook

variable {n : ℕ}

/-! ## The level arrays -/

/-- **The representation invariant of the linked book**, in terms of the index functions of the
source. -/
structure BookInvariant (s : OrderBook n) : Prop where
  list : ∀ d i, (links s.pool.slots).IsList ((s.sides d).levels i).head ((s.sides d).levels i).tail
    (s.queue d i)
  count : ∀ d i, ((s.sides d).levels i).orderCount.toNat = (s.queue d i).length
  qty : ∀ d i, ((s.sides d).levels i).totalQty.toNat = sharesSum s.pool.slots (s.queue d i)
  live : ∀ r p, s.orderMap.lookup r = some p → ∃ idx,
    priceIdx (s.sideAt p) (s.sides (s.sideAt p)).ref (s.order p).price = .ok idx ∧
    (s.order p).levelIdx = (if InArray idx then idx else -1) ∧
    ∀ d (i : Fin kLevels), (s.queue d i).count p = if d = s.sideAt p ∧ idx = (i : ℕ) then 1 else 0
  dead : ∀ p, (∀ r, s.orderMap.lookup r ≠ some p) → ∀ d i, p ∉ s.queue d i
  best : ∀ d, IsBest (s.sides d).levels (s.sides d).bestIdx

theorem Linked.queue_length_lt {A : Set (Fin n)} {s : OrderBook n} (h : Linked A s) (hn : n < 2 ^ 32)
    (d : Side) (i : Fin kLevels) : (s.queue d i).length < 2 ^ 32 := by
  have := (h.level d i).length_le
  omega

theorem Linked.count_queue {A : Set (Fin n)} {s : OrderBook n} (h : Linked A s) {p : Fin n}
    (hp : p ∈ A) (d : Side) (i : Fin kLevels) :
    (s.queue d i).count p = if d = s.sideAt p ∧ s.tickOf p = (i : ℕ) then 1 else 0 := by
  have hmem := h.mem_queue d i p
  split_ifs with hc
  · exact List.count_eq_one_of_mem (h.level d i).list.nodup (hmem.mpr ⟨hp, hc.1.symm, hc.2⟩)
  · exact List.count_eq_zero_of_not_mem fun hq => hc ⟨(hmem.mp hq).2.1.symm, (hmem.mp hq).2.2⟩

/-- The code computes the exact index of a live order. -/
theorem Rep.priceIdx_eq {s : OrderBook n} (h : Rep s) {p : Fin n} (hp : p ∈ s.liveSet) :
    priceIdx (s.sideAt p) (s.sides (s.sideAt p)).ref (s.order p).price = .ok (s.tickOf p) :=
  L2Book.priceIdx_eq _ (h.linked.ref_lt _) (h.linked.price_lt p hp)

theorem Sim.bookInvariant {s : OrderBook n} {r : RefBook} (h : Sim s r) (hn : n < 2 ^ 32) :
    BookInvariant s where
  list d i := (h.rep.linked.level d i).list
  count d i := (h.rep.linked.level d i).count_toNat (h.rep.linked.queue_length_lt hn d i)
  qty d i := (h.rep.linked.level d i).qty_toNat (h.rep.linked.queue_length_lt hn d i)
  live ref p hp := by
    have hlive : p ∈ s.liveSet := mem_liveSet.mpr ⟨ref, hp⟩
    exact ⟨s.tickOf p, h.rep.priceIdx_eq hlive, h.rep.linked.levelIdx p hlive,
      h.rep.linked.count_queue hlive⟩
  dead p hp d i hq := by
    obtain ⟨ref, hr⟩ := mem_liveSet.mp (h.rep.linked.mem_of_queue hq)
    exact hp ref hr
  best := h.best hn

/-- Two bids, the second of which re-centres the array, and the deletion of the first. -/
def sampleFeed : List (Input 2) :=
  [(sysMsg 'O'.toUInt8, .newest 2), (addMsg 1 'B'.toUInt8 10 100, .newest 2),
    (addMsg 2 'B'.toUInt8 5 101, .oldest 2), (delMsg 1, .newest 2)]

theorem wellFormed_sampleFeed : WellFormed sampleFeed := by
  refine ⟨trivial, fun _ => ⟨rfl, .inl rfl, ⟨?_, ?_⟩, ?_⟩, fun _ => ⟨rfl, .inl rfl, ⟨?_, ?_⟩, ?_⟩,
    trivial, trivial⟩ <;> decide

theorem along_reaches_sampleFeed :
    RefBook.init.Along (fun r x => r.Reaches x.1.event) sampleFeed := by
  refine ⟨nofun, nofun, nofun, fun ref o ht ho => ?_, trivial⟩
  cases ht
  cases ho
  exact ⟨by decide, by decide⟩

/-- **Every reachable book satisfies the representation invariant.** The feed is well-formed and none
of its messages refers to an order whose `level_idx` is `-1`. -/
theorem replay_bookInvariant (hn : n < 2 ^ 32) (b : Build) (feed : List (Input n))
    (hw : WellFormed feed) (hl : RefersLinkedAll b (OrderBook.init n) feed) :
    ∃ s, (OrderBook.init n).replay b feed = .ok s ∧ BookInvariant s := by
  obtain ⟨s, hs, hsim⟩ := sim_init.replay (fun _ => hn) hw hl
  exact ⟨s, hs, hsim.bookInvariant hn⟩

theorem replay_bookInvariant_sampleFeed :
    ∃ s, (OrderBook.init 2).replay .debug sampleFeed = .ok s ∧ BookInvariant s :=
  replay_bookInvariant (by decide) .debug sampleFeed wellFormed_sampleFeed
    (sim_init.refersLinkedAll wellFormed_sampleFeed along_reaches_sampleFeed)

/-! ## The pool -/

/-- **Slot conservation**: the free list and the live orders share out the `n` slots. -/
structure PoolInvariant (s : OrderBook n) : Prop where
  slots : ∃ free, IsChain (fun p => (s.pool.slots p).next) s.pool.freeHead free ∧
    (free ++ s.liveSlots).Perm (List.finRange n)
  full : s.pool.freeHead = none ↔ s.orderCount = n
  fresh : ∀ b pool o, s.pool.alloc b = .ok (pool, o) → o ∉ s.liveSlots

theorem Rep.poolInvariant {s : OrderBook n} (h : Rep s) : PoolInvariant s := by
  obtain ⟨free, hc, hnd, hmem⟩ := h.pool
  have hperm : (free ++ s.liveSlots).Perm (List.finRange n) := by
    refine (List.perm_ext_iff_of_nodup ?_ (List.nodup_finRange n)).mpr fun p => ?_
    · exact List.Nodup.append hnd h.nodup fun p hp hq => (hmem p).mp hp hq
    · rw [List.mem_append, hmem]
      simp only [List.mem_finRange, iff_true]
      exact (Classical.em (p ∈ s.liveSet)).symm
  have hlen : free.length + s.orderCount = n := by
    rw [← liveSlots_length, ← List.length_append, hperm.length_eq, List.length_finRange]
  have hfull : s.pool.freeHead = none ↔ free = [] := by
    constructor
    · intro hf
      rw [hf] at hc
      exact hc.eq_nil_of_none
    · rintro rfl
      exact hc
  refine ⟨⟨free, hc, hperm⟩, ?_, fun b pool o ho hlive => ?_⟩
  · rw [hfull, ← List.length_eq_zero_iff]
    omega
  · by_cases hf : ∃ p, p ∉ s.liveSet
    · obtain ⟨pool', o', halloc, ho', -⟩ := h.pool.alloc b hf
      rw [halloc] at ho
      cases ho
      exact ho' hlive
    · -- with every slot in use the free list is empty and nothing is handed out
      push Not at hf
      have hnil : free = [] := List.eq_nil_iff_forall_not_mem.mpr fun p hp => (hmem p).mp hp (hf p)
      rw [OrderPool.alloc, hfull.mpr hnil] at ho
      unfold Build.check at ho
      split_ifs at ho <;> cases ho

/-- **Every reachable pool satisfies slot conservation**, also where `on_replace` allocates. No bound
on the number of slots is needed; a debug build with `2 ^ 32` slots or more may stop earlier, at an
assertion on a wrapped counter. -/
theorem replay_poolInvariant (b : Build) (feed : List (Input n)) (hw : WellFormed feed)
    (hl : RefersLinkedAll b (OrderBook.init n) feed) :
    (∀ s, (OrderBook.init n).replay b feed = .ok s → PoolInvariant s ∧
      ∀ r o s₁, s.orderMap.lookup r = some o → s.removeOrder b o = .ok s₁ →
        PoolInvariant (s₁.eraseFree r o)) ∧
    ((b = .debug → n < 2 ^ 32) → ∃ s, (OrderBook.init n).replay b feed = .ok s) := by
  refine ⟨fun s hs => ?_, fun hb => ?_⟩
  · have hsim := sim_init.of_replay hw hs
    refine ⟨hsim.rep.poolInvariant, fun r o s₁ hr hs₁ => ?_⟩
    have hlive : o ∈ s.liveSet := mem_liveSet.mpr ⟨r, hr⟩
    have hi : InArray (s.tickOf o) := by
      by_contra hi
      have hneg := hsim.rep.linked.levelIdx o hlive
      rw [if_neg hi] at hneg
      obtain ⟨f, hf⟩ := removeOrder_fault b hneg
      rw [hf] at hs₁
      cases hs₁
    obtain ⟨s₂, hs₂, hrem⟩ := hsim.rep.remove (b := .release) nofun hr hi
    rw [removeOrder_covers b s o s₁ hs₁] at hs₂
    cases hs₂
    exact hrem.rep.poolInvariant
  · obtain ⟨s, hs, -⟩ := sim_init.replay hb hw hl
    exact ⟨s, hs⟩

theorem replay_poolInvariant_sampleFeed :
    ∃ s, (OrderBook.init 2).replay .debug sampleFeed = .ok s ∧ PoolInvariant s := by
  obtain ⟨hinv, hok⟩ := replay_poolInvariant .debug sampleFeed wellFormed_sampleFeed
    (sim_init.refersLinkedAll wellFormed_sampleFeed along_reaches_sampleFeed)
  obtain ⟨s, hs⟩ := hok fun _ => by decide
  exact ⟨s, hs, (hinv s hs).1⟩

/-! ## Level indices -/

/-- The level index that a message for a live order uses is one of the array. -/
def IndexSafe (s : OrderBook n) (e : Event) : Prop :=
  ∀ r p, e.target = some r → s.orderMap.lookup r = some p → InArray (s.order p).levelIdx

theorem Rep.indexSafe_iff {s : OrderBook n} (h : Rep s) (e : Event) :
    s.IndexSafe e ↔ s.RefersLinked e := by
  constructor
  · intro hi r p ht hp hneg
    have := (hi r p ht hp).1
    omega
  · intro hl r p ht hp
    have hin := h.inArray_of_refersLinked hl ht hp
    rw [h.linked.levelIdx_of_mem (mem_liveSet.mpr ⟨r, hp⟩) hin]
    exact hin

/-- Every message of the feed uses a level index of the array. -/
def IndexSafeAll (b : Build) : OrderBook n → List (Input n) → Prop :=
  EveryStep (fun s x => s.dispatch b x.2 x.1) fun s x => s.IndexSafe x.1.event

theorem Sim.indexSafeAll_iff {b : Build} {s : OrderBook n} {r : RefBook} {feed : List (Input n)}
    (h : Sim s r) (hw : WellFormedFrom r.book feed) :
    IndexSafeAll b s feed ↔ RefersLinkedAll b s feed := by
  refine everyStep_congr Sim (fun s r x s' h hw hs => ?_) (fun s r x h _ => ?_) h
    ((r.along_wellFormed feed).mpr hw)
  · exact h.of_dispatch_ok hw hs
  · exact h.rep.indexSafe_iff _

/-- **Level-index safety.** A well-formed feed whose messages refer to orders in the array only
accesses the level arrays within their bounds, and without a failed assertion no other feed does. -/
theorem indexSafe_of_reaches (b : Build) (feed : List (Input n)) (hw : WellFormed feed) :
    (RefBook.init.Along (fun r x => r.Reaches x.1.event) feed →
      IndexSafeAll b (OrderBook.init n) feed) ∧
    ((b = .debug → n < 2 ^ 32) →
      (IndexSafeAll b (OrderBook.init n) feed ↔
        RefBook.init.Along (fun r x => r.Reaches x.1.event) feed) ∧
      ((∃ s, (OrderBook.init n).replay b feed = .ok s) ↔
        RefBook.init.Along (fun r x => r.Reaches x.1.event) feed)) := by
  have hsim : Sim (OrderBook.init n) RefBook.init := sim_init
  have hsafe := hsim.indexSafeAll_iff (b := b) hw
  refine ⟨fun hr => hsafe.mpr (hsim.refersLinkedAll hw hr), fun hb => ?_⟩
  have hiff : RefersLinkedAll b (OrderBook.init n) feed ↔
      RefBook.init.Along (fun r x => r.Reaches x.1.event) feed :=
    ⟨hsim.along_reaches hb hw, hsim.refersLinkedAll hw⟩
  exact ⟨hsafe.trans hiff, (hsim.replay_ok_iff hb hw).trans hiff⟩

theorem indexSafe_of_reaches_sampleFeed : IndexSafeAll .release (OrderBook.init 2) sampleFeed ∧
    ∃ s, (OrderBook.init 2).replay .release sampleFeed = .ok s := by
  obtain ⟨hsafe, hiff⟩ := indexSafe_of_reaches .release sampleFeed wellFormed_sampleFeed
  exact ⟨hsafe along_reaches_sampleFeed, (hiff nofun).2.mpr along_reaches_sampleFeed⟩

/-- A second bid further below the first than the array is long re-centres the array and drops the
first one, which is then deleted. -/
def droppedBid : List (Input 2) :=
  [(sysMsg 'O'.toUInt8, .newest 2), (addMsg 1 'B'.toUInt8 10 100000, .newest 2),
    (addMsg 2 'B'.toUInt8 10 1, .newest 2), (delMsg 1, .newest 2)]

theorem wellFormed_droppedBid : WellFormed droppedBid := by
  refine ⟨trivial, fun _ => ⟨rfl, .inl rfl, ⟨?_, ?_⟩, ?_⟩, fun _ => ⟨rfl, .inl rfl, ⟨?_, ?_⟩, ?_⟩,
    trivial, trivial⟩ <;> decide

theorem dropped_order_faults : WellFormed droppedBid ∧
    ¬ IndexSafeAll .debug (OrderBook.init 2) droppedBid ∧
    (OrderBook.init 2).replay .debug droppedBid = .error .assertion ∧
    (OrderBook.init 2).replay .release droppedBid = .error .outOfBounds := by
  have hdebug : (OrderBook.init 2).replay .debug droppedBid = .error .assertion := rfl
  refine ⟨wellFormed_droppedBid, fun hsafe => ?_, hdebug, rfl⟩
  have hl := (sim_init.indexSafeAll_iff wellFormed_droppedBid).mp hsafe
  obtain ⟨s, hs, -⟩ := sim_init.replay (fun _ => by decide) wellFormed_droppedBid hl
  rw [hdebug] at hs
  cases hs

end OrderBook

end L2Book
