import L2Book.Book.Rep

/-!
# One message

* `Abs s a`: the map of the book, read through the heap, is the naive book `a`;
* `RefersLinked`: the order an event refers to, if live, has a cached index other than `-1`;
* `refsAt`: the references of a level, head first;
* **`StepSpec`**: what one event does to the book;
* **`step_spec`**: every well-formed event that refers to no order outside the array returns and meets
  it, in both builds and for every iteration order; `step_fault`: any other reference faults.
-/

namespace L2Book

/-- The content of an order. -/
def Order.view {n : ℕ} (o : Order n) : NaiveOrder := ⟨o.side, o.price, o.shares⟩

namespace OrderBook

variable {n : ℕ}

/-- **Abstraction**: the live orders of the book are those of the naive book. -/
structure Abs (s : OrderBook n) (a : NaiveBook) : Prop where
  lookup : ∀ r, a.orders.lookup r = (s.orderMap.lookup r).map fun p => (s.order p).view
  isOpen : a.isOpen = s.isOpen

/-- The live order that the event refers to has a cached index other than `-1`. -/
def RefersLinked (s : OrderBook n) (e : Event) : Prop :=
  ∀ r p, e.target = some r → s.orderMap.lookup r = some p → (s.order p).levelIdx ≠ -1

/-- The order references of a level, head first. -/
def refsAt (s : OrderBook n) (d : Side) (j : Fin kLevels) : List UInt64 :=
  (s.queue d j).map fun p => (s.order p).orderRef

/-- The map a re-centre of the event runs over. -/
def mapBefore (s : OrderBook n) : Event → OrderMap n
  | .replace oldRef _ _ _ => s.orderMap.erase oldRef
  | _ => s.orderMap

/-- The references that one iteration visits, restricted to the live orders of side `d` at index `j`
of the reference price `ref`. -/
def visitedRefs (it : IterOrder n) (m : OrderMap n) (a : NaiveBook) (d : Side) (ref : UInt32)
    (j : Fin kLevels) : List UInt64 :=
  ((it.order m).map (·.1)).filter fun r =>
    (a.orders.lookup r).any fun o => sideOf o.side = d ∧ tick d ref o.price = (j : ℕ)

/-- **What one event does.** -/
structure StepSpec (it : IterOrder n) (s : OrderBook n) (a : NaiveBook) (e : Event)
    (s' : OrderBook n) : Prop where
  rep : Rep s'
  abs : Abs s' (a.step e)
  ref : ∀ d, (s'.sides d).ref = refAfter a e d (s.sides d).ref
  best : n < 2 ^ 32 → BestOk s → BestOk s'
  refs_quiet : a.inserts e = none → ∀ d j, (s'.refsAt d j).Sublist (s.refsAt d j)
  refs_append : ∀ r d price, a.inserts e = some (r, d, price) → ¬ Recentres d (s.sides d).ref price →
    ∀ d' j, (s'.refsAt d' j).Sublist
      ((s.refsAt d' j).filter (· ≠ r) ++ if d' = d then [r] else [])
  refs_recentre : ∀ r d price, a.inserts e = some (r, d, price) → Recentres d (s.sides d).ref price →
    (∀ d' j, d' ≠ d → (s'.refsAt d' j).Sublist ((s.refsAt d' j).filter (· ≠ r))) ∧
    ∀ j, s'.refsAt d j = visitedRefs it (s.mapBefore e) a d price j ++
      if (j : ℕ) = 0 then [r] else []

section AbsLemmas

variable {s : OrderBook n} {a : NaiveBook}

theorem Abs.lookup_none (h : Abs s a) {r : UInt64} :
    a.orders.lookup r = none ↔ s.orderMap.lookup r = none := by
  rw [h.lookup, Option.map_eq_none_iff]

theorem Abs.lookup_some (h : Abs s a) {r : UInt64} {p : Fin n} (hp : s.orderMap.lookup r = some p) :
    a.orders.lookup r = some (s.order p).view := by
  rw [h.lookup, hp]
  rfl

theorem Abs.keys_perm (h : Abs s a) : a.orders.keys.Perm s.orderMap.keys := by
  rw [List.perm_ext_iff_of_nodup a.orders.keys_nodup s.orderMap.keys_nodup]
  intro r
  rw [← AList.mem_keys, ← AList.mem_keys, ← AList.lookup_isSome, ← AList.lookup_isSome, h.lookup,
    Option.isSome_map]

theorem Abs.size_eq (h : Abs s a) : a.size = s.orderCount := h.keys_perm.length_eq

theorem liveSlots_length (s : OrderBook n) : s.liveSlots.length = s.orderCount := by
  simp [liveSlots, orderCount, AList.keys, List.keys]

/-- A pool with fewer live orders than slots has a free slot. -/
theorem Abs.exists_free (h : Abs s a) (hn : a.size < n) : ∃ p, p ∉ s.liveSet := by
  by_contra hall
  push Not at hall
  have hsub : List.finRange n ⊆ s.liveSlots := fun p _ => hall p
  have := ((List.nodup_finRange n).subperm hsub).length_le
  rw [List.length_finRange, liveSlots_length, ← h.size_eq] at this
  omega

theorem Rep.inArray_of_refersLinked {e : Event} (h : Rep s) (hl : s.RefersLinked e) {r : UInt64}
    {p : Fin n} (ht : e.target = some r) (hp : s.orderMap.lookup r = some p) :
    InArray (s.tickOf p) := by
  have hlive : p ∈ s.liveSet := mem_liveSet.mpr ⟨r, hp⟩
  by_contra hi
  have := h.linked.levelIdx p hlive
  rw [if_neg hi] at this
  exact hl r p ht hp this

end AbsLemmas

/-! ## References of a level -/

section Refs

variable {s s' : OrderBook n} {a : NaiveBook}

theorem SameFields.view_eq {x y : Order n} (h : SameFields x y) : x.view = y.view := by
  unfold Order.view
  rw [h.2.1, h.2.2.1, h.2.2.2]

theorem refsAt_congr (hq : ∀ d j, s'.queue d j = s.queue d j)
    (ho : ∀ p, (s'.order p).orderRef = (s.order p).orderRef) (d : Side) (j : Fin kLevels) :
    s'.refsAt d j = s.refsAt d j := by
  unfold refsAt
  rw [hq, List.map_congr_left fun p _ => ho p]

theorem RemoveSpec.refs {r : UInt64} {o : Fin n} (h : Rep s) (hs : RemoveSpec s r o s') (d : Side)
    (j : Fin kLevels) : (s'.refsAt d j).Sublist (s.refsAt d j) := by
  unfold refsAt
  rw [hs.queue]
  have hne : ∀ p ∈ (s.queue d j).erase o, (s'.order p).orderRef = (s.order p).orderRef :=
    fun p hp => (hs.fields p fun e => (h.linked.level d j).list.nodup.not_mem_erase (e ▸ hp)).1
  rw [List.map_congr_left hne]
  exact (List.erase_sublist).map _

section Add

variable {it : IterOrder n} {r : UInt64} {shares price : UInt32} {side : UInt8} {o : Fin n}

theorem AddSpec.queue_orderRef (h : Rep s) (hs : AddSpec it s r shares price side o s') {d : Side}
    {j : Fin kLevels} : ∀ p ∈ s.queue d j, (s'.order p).orderRef = (s.order p).orderRef :=
  fun p hp => (hs.fields p (h.linked.mem_of_queue hp)).1

/-- Without a re-centre the new order goes behind the others. -/
theorem AddSpec.refs_append (h : Rep s) (hs : AddSpec it s r shares price side o s')
    (hnr : ¬ Recentres (sideOf side) (s.sides (sideOf side)).ref price) (d : Side) (j : Fin kLevels) :
    (s'.refsAt d j).Sublist (s.refsAt d j ++ if d = sideOf side then [r] else []) := by
  unfold refsAt
  rw [hs.queue_append hnr]
  by_cases hd : d = sideOf side
  · rw [if_pos hd]
    split_ifs with hj
    · rw [List.map_append, List.map_congr_left (hs.queue_orderRef h), List.map_singleton, hs.new.1]
    · rw [List.map_congr_left (hs.queue_orderRef h)]
      exact List.sublist_append_left _ _
  · rw [if_neg fun h' => hd h'.1, if_neg hd, List.append_nil,
      List.map_congr_left (hs.queue_orderRef h)]

theorem AddSpec.refs_other (h : Rep s) (hs : AddSpec it s r shares price side o s')
    (hrc : Recentres (sideOf side) (s.sides (sideOf side)).ref price) {d : Side}
    (hd : d ≠ sideOf side) (j : Fin kLevels) : s'.refsAt d j = s.refsAt d j := by
  unfold refsAt
  rw [hs.queue_recentre hrc, if_neg hd, List.map_congr_left (hs.queue_orderRef h)]

/-- After a re-centre a level lists its orders as the iteration visited them. -/
theorem AddSpec.refs_recentre (h : Rep s) (ha : Abs s a)
    (hs : AddSpec it s r shares price side o s')
    (hrc : Recentres (sideOf side) (s.sides (sideOf side)).ref price) (j : Fin kLevels) :
    s'.refsAt (sideOf side) j = visitedRefs it s.orderMap a (sideOf side) price j ++
      if (j : ℕ) = 0 then [r] else [] := by
  set d := sideOf side
  have hlookup : ∀ e ∈ it.order s.orderMap, s.orderMap.lookup e.1 = some e.2 := fun e he =>
    AList.mem_lookup_iff.mpr ((it.perm s.orderMap).mem_iff.mp he)
  have hlive : ∀ e ∈ it.order s.orderMap, e.2 ∈ s.liveSet := fun e he =>
    mem_liveSet.mpr ⟨e.1, hlookup e he⟩
  have hbucket : ((s.cleared d price).bucket d (s.visited it) j).map
      (fun p => (s'.order p).orderRef) = visitedRefs it s.orderMap a d price j := by
    unfold bucket visited visitedRefs
    rw [List.filter_map, List.filter_map, List.map_map]
    refine (List.map_congr_left fun e he => ?_).trans
      (congrArg (List.map _) (List.filter_congr fun e he => ?_))
    · have he' := (List.mem_filter.mp he).1
      show (s'.order e.2).orderRef = e.1
      rw [(hs.fields e.2 (hlive e he')).1]
      exact h.orderRef e.1 e.2 (hlookup e he')
    · have hbyte : (s.order e.2).side = d.byte ↔ sideOf (s.order e.2).side = d := by
        constructor
        · intro hb; rw [hb, sideOf_byte]
        · intro hd; rw [h.linked.side_byte e.2 (hlive e he), sideAt, hd]
      simp only [Function.comp_apply, ha.lookup_some (hlookup e he), Option.any_some, tickAt,
        cleared_ref_self]
      exact decide_eq_decide.mpr (and_congr_left fun _ => hbyte)
  unfold refsAt
  rw [hs.queue_recentre hrc, if_pos rfl, List.map_append, hbucket]
  by_cases hj : (j : ℕ) = 0
  · rw [if_pos hj, if_pos hj, List.map_singleton, hs.new.1]
  · rw [if_neg hj, if_neg hj, List.map_nil]

end Add

end Refs

/-! ## The abstraction -/

section AbsSteps

variable {s s' : OrderBook n} {a : NaiveBook}

theorem RemoveSpec.abs {r : UInt64} {o : Fin n} (h : Rep s) (ha : Abs s a)
    (hr : s.orderMap.lookup r = some o) (hs : RemoveSpec s r o s') :
    Abs s' { a with orders := a.orders.erase r } := by
  refine ⟨fun r' => ?_, by rw [hs.isOpen]; exact ha.isOpen⟩
  rw [hs.orderMap]
  by_cases e : r' = r
  · subst e
    rw [AList.lookup_erase, AList.lookup_erase]
    rfl
  · rw [AList.lookup_erase_ne e, AList.lookup_erase_ne e, ha.lookup]
    cases hp : s.orderMap.lookup r' with
    | none => rfl
    | some p =>
      have hpo : p ≠ o := fun e' => e (h.lookup_inj hp (e' ▸ hr))
      simp only [Option.map_some, (hs.fields p hpo).view_eq]

theorem AddSpec.abs {it : IterOrder n} {r : UInt64} {shares price : UInt32} {side : UInt8} {o : Fin n}
    (ha : Abs s a) (hs : AddSpec it s r shares price side o s') :
    Abs s' { a with orders := a.orders.insert r ⟨side, price, shares⟩ } := by
  refine ⟨fun r' => ?_, by rw [hs.isOpen]; exact ha.isOpen⟩
  rw [hs.orderMap]
  by_cases e : r' = r
  · subst e
    rw [AList.lookup_insert, AList.lookup_insert, Option.map_some, hs.new.view_eq]
    rfl
  · rw [AList.lookup_insert_ne e, AList.lookup_insert_ne e, ha.lookup]
    cases hp : s.orderMap.lookup r' with
    | none => rfl
    | some p => simp only [Option.map_some, (hs.fields p (mem_liveSet.mpr ⟨r', hp⟩)).view_eq]

theorem ReduceSpec.abs {r : UInt64} {o : Fin n} {qty : UInt32} (h : Rep s) (ha : Abs s a)
    (hr : s.orderMap.lookup r = some o) (hs : ReduceSpec s o qty s') :
    Abs s' { a with orders :=
      a.orders.insert r ⟨(s.order o).side, (s.order o).price, (s.order o).shares - qty⟩ } := by
  refine ⟨fun r' => ?_, by rw [hs.isOpen]; exact ha.isOpen⟩
  rw [hs.orderMap]
  by_cases e : r' = r
  · subst e
    rw [AList.lookup_insert, hr, Option.map_some, hs.order_self]
    rfl
  · rw [AList.lookup_insert_ne e, ha.lookup]
    cases hp : s.orderMap.lookup r' with
    | none => rfl
    | some p =>
      have hpo : p ≠ o := fun e' => e (h.lookup_inj hp (e' ▸ hr))
      simp only [Option.map_some, hs.order_of_ne hpo]

end AbsSteps

/-! ## The events -/

section Events

variable {it : IterOrder n} {s s' : OrderBook n} {a : NaiveBook} {e : Event}

theorem StepSpec.quiet (hins : a.inserts e = none) (hrep : Rep s') (habs : Abs s' (a.step e))
    (href : ∀ d, (s'.sides d).ref = (s.sides d).ref) (hbest : n < 2 ^ 32 → BestOk s → BestOk s')
    (hrefs : ∀ d j, (s'.refsAt d j).Sublist (s.refsAt d j)) : StepSpec it s a e s' where
  rep := hrep
  abs := habs
  ref d := by rw [refAfter_of_quiet hins, href]
  best := hbest
  refs_quiet _ := hrefs
  refs_append _ _ _ h := by rw [hins] at h; cases h
  refs_recentre _ _ _ h := by rw [hins] at h; cases h

theorem Rep.withOpen (h : Rep s) (o : Bool) : Rep { s with isOpen := o } := by
  have hl := (h.linked.of_eq_on { s with isOpen := o } rfl fun _ _ => rfl).1
  exact ⟨hl, h.pool, h.orderRef⟩

theorem StepSpec.idle (h : Rep s) (hins : a.inserts e = none) (o : Bool)
    (habs : Abs { s with isOpen := o } (a.step e)) : StepSpec it s a e { s with isOpen := o } :=
  .quiet hins (h.withOpen o) habs (fun _ => rfl) (fun _ hb => hb) fun _ _ => List.Sublist.refl _

theorem foldl_modifyOrder_sides (f : Order n → Order n) (es : List (Σ _ : UInt64, Fin n))
    (s : OrderBook n) : (es.foldl (fun s e => s.modifyOrder e.2 f) s).sides = s.sides := by
  induction es generalizing s with
  | nil => rfl
  | cons e es ih => exact (ih _).trans rfl

/-- The book behind a halt: nothing but the reference prices is left. -/
theorem halt_eq (it : IterOrder n) (s : OrderBook n) : s.halt it =
    { OrderBook.init n with sides := fun d => { ref := (s.sides d).ref } } := by
  unfold halt
  simp only [foldl_modifyOrder_sides]
  have hopen : ∀ (es : List (Σ _ : UInt64, Fin n)) (t : OrderBook n), t.isOpen = false →
      (es.foldl (fun s e => s.modifyOrder e.2 fun x =>
        { x with next := none, prev := none, levelIdx := -1 }) t).isOpen = false := by
    intro es
    induction es with
    | nil => exact fun _ ht => ht
    | cons e es ih => exact fun t ht => ih _ ht
  rw [hopen _ _ rfl]
  rfl

theorem rep_empty (ref : Side → UInt32) (href : ∀ d, (ref d).toNat < 2 ^ 31) (o : Bool) :
    Rep { OrderBook.init n with sides := fun d => { ref := ref d }, isOpen := o } := by
  set t : OrderBook n := { OrderBook.init n with sides := fun d => { ref := ref d }, isOpen := o }
  have hlive : t.liveSet = ∅ := Set.eq_empty_of_forall_notMem fun p hp => by
    obtain ⟨r, hr⟩ := mem_liveSet.mp hp
    cases hr
  have hlev : ∀ d i, LevelRep t.pool.slots ((t.sides d).levels i) [] := fun _ _ => levelRep_nil _
  have hq : ∀ d i, t.queue d i = [] := fun d i => queue_eq (hlev d i)
  refine ⟨hlive ▸ ⟨⟨nofun, nofun, nofun, href, nofun⟩, fun d i => ?_, fun d i p => ?_, nofun⟩,
    hlive ▸ poolOk_init, nofun⟩
  · rw [hq]; exact hlev d i
  · rw [hq]
    exact ⟨nofun, nofun⟩

theorem rep_init : Rep (OrderBook.init n) := rep_empty (fun _ => 0) (fun _ => by simp) false

theorem bestOk_empty {ref : Side → UInt32} {o : Bool} : BestOk
    { OrderBook.init n with sides := fun d => { ref := ref d }, isOpen := o } :=
  fun _ => isBest_default

theorem bestOk_init : BestOk (OrderBook.init n) := fun _ => isBest_default

theorem abs_init : Abs (OrderBook.init n) NaiveBook.init := ⟨fun _ => rfl, rfl⟩

theorem StepSpec.halt (h : Rep s) :
    StepSpec it s a (.system 'H'.toUInt8) (s.halt it) := by
  rw [halt_eq]
  refine .quiet rfl (rep_empty _ h.linked.ref_lt false) ⟨fun _ => rfl, rfl⟩ (fun _ => rfl)
    (fun _ _ => bestOk_empty) fun d j => ?_
  have hq : queue { OrderBook.init n with sides := fun d => { ref := (s.sides d).ref } } d j = [] :=
    queue_eq (levelRep_nil _)
  unfold refsAt
  rw [hq]
  exact List.nil_sublist _

theorem Rep.lookup_of_mem_refsAt (h : Rep s) {d : Side} {j : Fin kLevels} {r : UInt64}
    (hr : r ∈ s.refsAt d j) :
    ∃ p, s.orderMap.lookup r = some p ∧ s.sideAt p = d ∧ s.tickOf p = (j : ℕ) := by
  obtain ⟨p, hp, rfl⟩ := List.mem_map.mp hr
  obtain ⟨hlive, hd, ht⟩ := (h.linked.mem_queue d j p).mp hp
  exact ⟨p, h.lookup_orderRef hlive, hd, ht⟩

theorem Rep.refsAt_sublist_filter (h : Rep s) {d : Side} {j : Fin kLevels} {r : UInt64}
    (hr : s.orderMap.lookup r = none) {l : List UInt64} (hl : (s.refsAt d j).Sublist l) :
    (s.refsAt d j).Sublist (l.filter (· ≠ r)) := by
  have hne : (s.refsAt d j).filter (· ≠ r) = s.refsAt d j := by
    refine List.filter_eq_self.mpr fun r' hr' => decide_eq_true fun e => ?_
    obtain ⟨p, hp, -⟩ := h.lookup_of_mem_refsAt hr'
    rw [e, hr] at hp
    cases hp
  rw [← hne]
  exact hl.filter _

/-- Insertion into a book `s₁` that has lost at most the replaced order. -/
theorem StepSpec.of_add {s₁ : OrderBook n} {a₁ : NaiveBook} {r : UInt64} {shares price : UInt32}
    {side : UInt8} {o : Fin n} (h₁ : Rep s₁) (ha₁ : Abs s₁ a₁)
    (hins : a.inserts e = some (r, sideOf side, price))
    (hstep : a.step e = { a₁ with orders := a₁.orders.insert r ⟨side, price, shares⟩ })
    (hmap : s₁.orderMap = s.mapBefore e) (hnew : s₁.orderMap.lookup r = none)
    (hlook : ∀ r' ∈ s₁.orderMap, a₁.orders.lookup r' = a.orders.lookup r')
    (href : ∀ d, (s₁.sides d).ref = (s.sides d).ref)
    (hbest : n < 2 ^ 32 → BestOk s → BestOk s₁)
    (hrefs : ∀ d j, (s₁.refsAt d j).Sublist (s.refsAt d j))
    (hs : AddSpec it s₁ r shares price side o s') : StepSpec it s a e s' where
  rep := hs.rep
  abs := hstep ▸ hs.abs ha₁
  ref d := by
    rw [hs.ref]
    unfold refAfter
    simp only [hins, href]
  best hn hb := hs.best hn (hbest hn hb)
  refs_quiet h := by rw [hins] at h; cases h
  refs_append r' d price' h hnr d' j := by
    rw [hins] at h
    cases h
    rw [← href] at hnr
    exact (hs.refs_append h₁ hnr d' j).trans
      ((h₁.refsAt_sublist_filter hnew (hrefs d' j)).append (List.Sublist.refl _))
  refs_recentre r' d price' h hrc := by
    rw [hins] at h
    cases h
    rw [← href] at hrc
    refine ⟨fun d' j hd => ?_, fun j => ?_⟩
    · rw [hs.refs_other h₁ hrc hd]
      exact h₁.refsAt_sublist_filter hnew (hrefs d' j)
    · rw [hs.refs_recentre h₁ ha₁ hrc, hmap]
      refine congrArg (· ++ _) (List.filter_congr fun r' hr' => ?_)
      obtain ⟨x, hx, rfl⟩ := List.mem_map.mp hr'
      have hmem : x.1 ∈ s.mapBefore e := by
        rw [← AList.lookup_isSome, AList.mem_lookup_iff.mpr ((it.perm _).mem_iff.mp hx)]
        rfl
      rw [hlook x.1 (hmap ▸ hmem)]

theorem side_byte_of_wf {side : UInt8} (h : side = 'B'.toUInt8 ∨ side = 'S'.toUInt8) :
    side = (sideOf side).byte := by
  rcases h with rfl | rfl <;> decide

theorem step_add (b : Build) (it : IterOrder n) (h : Rep s) (ha : Abs s a) (hopen : s.isOpen = true)
    {r : UInt64} {side : UInt8} {shares price : UInt32}
    (hw : WfEvent n a (.add r side shares price)) :
    ∃ s', s.apply b it (.add r side shares price) = .ok s' ∧
      StepSpec it s a (.add r side shares price) s' := by
  have haopen : a.isOpen = true := ha.isOpen.trans hopen
  obtain ⟨hr, hside, hprice, hsize⟩ := hw haopen
  obtain ⟨s', o, hs', hadd⟩ := h.add b it r shares (ha.lookup_none.mp hr)
    (side_byte_of_wf hside) hprice (ha.exists_free hsize)
  refine ⟨s', ?_, .of_add h ha ?_ ?_ rfl (ha.lookup_none.mp hr) (fun _ _ => rfl) (fun _ => rfl)
    (fun _ hb => hb) (fun _ _ => List.Sublist.refl _) hadd⟩
  · simp only [apply, addRef, hopen, Bool.not_true, Bool.false_eq_true, if_false, hs']
  · simp only [NaiveBook.inserts, haopen, if_true]
  · simp only [NaiveBook.step, haopen, if_true]

theorem step_delete {b : Build} (it : IterOrder n) (hb : b = .debug → n < 2 ^ 32) (h : Rep s)
    (ha : Abs s a) {r : UInt64} {o : Fin n} (hr : s.orderMap.lookup r = some o)
    (hi : InArray (s.tickOf o)) :
    ∃ s', s.apply b it (.delete r) = .ok s' ∧ StepSpec it s a (.delete r) s' := by
  obtain ⟨s₁, hs₁, hrem⟩ := h.remove hb hr hi
  refine ⟨_, ?_, .quiet rfl hrem.rep (hrem.abs h ha hr) hrem.ref hrem.best (hrem.refs h)⟩
  simp only [apply, deleteRef, hr, hs₁]
  rfl

theorem ReduceSpec.refs {o : Fin n} {qty : UInt32} (hs : ReduceSpec s o qty s') (d : Side)
    (j : Fin kLevels) : s'.refsAt d j = s.refsAt d j := by
  refine refsAt_congr hs.queue (fun p => ?_) d j
  by_cases hp : p = o
  · rw [hp, hs.order_self]
  · rw [hs.order_of_ne hp]

theorem ReduceSpec.tickOf_self {o : Fin n} {qty : UInt32} (hs : ReduceSpec s o qty s') :
    s'.tickOf o = s.tickOf o := by
  unfold tickOf sideAt
  rw [hs.order_self, hs.ref]

theorem step_reduce {b : Build} (it : IterOrder n) (hb : b = .debug → n < 2 ^ 32) (h : Rep s)
    (ha : Abs s a) {r : UInt64} {qty : UInt32} {o : Fin n} (hr : s.orderMap.lookup r = some o)
    (hi : InArray (s.tickOf o)) (hw : WfEvent n a (.reduce r qty)) :
    ∃ s', s.apply b it (.reduce r qty) = .ok s' ∧ StepSpec it s a (.reduce r qty) s' := by
  have hlook := ha.lookup_some hr
  obtain ⟨s₁, hs₁, hred⟩ := h.reduce hb hr hi (hw _ hlook)
  have habs₁ := hred.abs h ha hr
  have hshares : (s₁.order o).shares = (s.order o).shares - qty := by rw [hred.order_self]
  by_cases hz : (s.order o).shares - qty = 0
  · -- nothing is left: the order is removed
    have hr₁ : s₁.orderMap.lookup r = some o := by rw [hred.orderMap]; exact hr
    obtain ⟨s₂, hs₂, hrem⟩ := hred.rep.remove hb hr₁ (by rw [hred.tickOf_self]; exact hi)
    refine ⟨s₂.eraseFree r o, ?_, .quiet rfl hrem.rep ?_ (fun d => ?_) (fun hn hbs => ?_)
      fun d j => ?_⟩
    · simp only [apply, reduceBy, hr, hs₁, ok_bind, hshares, hz, if_true, hs₂]
    · have habs := hrem.abs hred.rep habs₁ hr₁
      simp only [NaiveBook.step, hlook, Order.view, hz, if_true]
      refine ⟨fun r' => ?_, habs.isOpen⟩
      rw [← habs.lookup]
      by_cases e : r' = r
      · rw [e, AList.lookup_erase, AList.lookup_erase]
      · rw [AList.lookup_erase_ne e, AList.lookup_erase_ne e, AList.lookup_insert_ne e]
    · rw [hrem.ref, hred.ref]
    · exact hrem.best hn (hred.best hbs)
    · rw [← hred.refs]
      exact hrem.refs hred.rep d j
  · refine ⟨s₁, ?_, .quiet rfl hred.rep ?_ hred.ref (fun _ => hred.best) fun d j => ?_⟩
    · simp only [apply, reduceBy, hr, hs₁, ok_bind, hshares, hz, if_false]
    · simp only [NaiveBook.step, hlook, Order.view, hz, if_false]
      exact habs₁
    · rw [hred.refs]

theorem step_replace {b : Build} (it : IterOrder n) (hb : b = .debug → n < 2 ^ 32) (h : Rep s)
    (ha : Abs s a) {r r' : UInt64} {shares price : UInt32} {o : Fin n}
    (hr : s.orderMap.lookup r = some o) (hi : InArray (s.tickOf o))
    (hw : WfEvent n a (.replace r r' shares price)) :
    ∃ s', s.apply b it (.replace r r' shares price) = .ok s' ∧
      StepSpec it s a (.replace r r' shares price) s' := by
  have hlook := ha.lookup_some hr
  have ho : o ∈ s.liveSet := mem_liveSet.mpr ⟨r, hr⟩
  obtain ⟨hnew, hprice⟩ := hw (by rw [hlook]; rfl)
  obtain ⟨s₁, hs₁, hrem⟩ := h.remove hb hr hi
  have habs₁ := hrem.abs h ha hr
  have hbyte : (s.order o).side = (sideOf (s.order o).side).byte := h.linked.side_byte o ho
  have hfree : ∃ p, p ∉ (s₁.eraseFree r o).liveSet :=
    ⟨o, by rw [hrem.liveSet]; exact fun hm => hm.2 rfl⟩
  obtain ⟨s', o', hs', hadd⟩ := hrem.rep.add b it r' shares
    (habs₁.lookup_none.mp hnew) hbyte hprice hfree
  refine ⟨s', ?_, .of_add hrem.rep habs₁ ?_ ?_ hrem.orderMap (habs₁.lookup_none.mp hnew)
    (fun r'' hr'' => ?_) hrem.ref hrem.best (hrem.refs h) hadd⟩
  · simp only [apply, replaceRef, hr, hs₁, ok_bind, hs']
  · simp only [NaiveBook.inserts, hlook, Option.map_some, Order.view]
  · simp only [NaiveBook.step, hlook, Order.view]
  · have hne : r'' ≠ r := fun e => by
      rw [hrem.orderMap, AList.mem_erase] at hr''
      exact hr''.1 e
    exact AList.lookup_erase_ne hne

end Events

/-! ## One step -/

section Step

variable {s : OrderBook n} {a : NaiveBook} {e : Event}

theorem step_unknown (b : Build) (it : IterOrder n) (h : Rep s) (ha : Abs s a) {r : UInt64}
    (ht : e.target = some r) (hr : s.orderMap.lookup r = none) :
    ∃ s', s.apply b it e = .ok s' ∧ StepSpec it s a e s' := by
  have hlook : a.orders.lookup r = none := ha.lookup_none.mpr hr
  refine ⟨s, ?_, .idle h ?_ s.isOpen ?_⟩
  · cases e <;> simp only [Event.target, Option.some.injEq, reduceCtorEq] at ht <;> subst ht <;>
      simp only [apply, reduceBy, deleteRef, replaceRef, hr]
  · cases e <;> simp only [Event.target, Option.some.injEq, reduceCtorEq] at ht <;> subst ht <;>
      simp only [NaiveBook.inserts, hlook, Option.map_none]
  · have hstep : a.step e = a ∨ ∃ r, e = .delete r := by
      cases e <;> simp only [Event.target, Option.some.injEq, reduceCtorEq] at ht <;> subst ht <;>
        simp [NaiveBook.step, hlook]
    rcases hstep with hstep | ⟨r', rfl⟩
    · rw [hstep]; exact ha
    · cases ht
      refine ⟨fun r' => ?_, ha.isOpen⟩
      by_cases e : r' = r
      · rw [e, NaiveBook.step, AList.lookup_erase, ← ha.lookup, hlook]
      · rw [NaiveBook.step, AList.lookup_erase_ne e]; exact ha.lookup r'

/-- **One message.** A well-formed event that refers to no order outside the array returns, in both
builds and for every iteration order. -/
theorem step_spec {b : Build} (it : IterOrder n) (hb : b = .debug → n < 2 ^ 32) (h : Rep s)
    (ha : Abs s a) (hw : WfEvent n a e) (hl : s.RefersLinked e) :
    ∃ s', s.apply b it e = .ok s' ∧ StepSpec it s a e s' := by
  cases ht : e.target with
  | some r =>
    cases hr : s.orderMap.lookup r with
    | none => exact step_unknown b it h ha ht hr
    | some o =>
      have hi := h.inArray_of_refersLinked hl ht hr
      cases e with
      | reduce r' qty => cases ht; exact step_reduce it hb h ha hr hi hw
      | delete r' => cases ht; exact step_delete it hb h ha hr hi
      | replace r' newRef shares price => cases ht; exact step_replace it hb h ha hr hi hw
      | system code => cases ht
      | add r' side shares price => cases ht
      | ignore => cases ht
  | none =>
    cases e with
    | system code =>
      by_cases hO : code = 'O'.toUInt8
      · refine ⟨{ s with isOpen := true }, by rw [apply, if_pos hO], .idle h rfl true ?_⟩
        rw [NaiveBook.step, if_pos hO]
        exact ⟨ha.lookup, rfl⟩
      by_cases hC : code = 'C'.toUInt8
      · refine ⟨{ s with isOpen := false }, by rw [apply, if_neg hO, if_pos hC], .idle h rfl false ?_⟩
        rw [NaiveBook.step, if_neg hO, if_pos hC]
        exact ⟨ha.lookup, rfl⟩
      by_cases hH : code = 'H'.toUInt8
      · subst hH
        exact ⟨s.halt it, by rw [apply, if_neg hO, if_neg hC, if_pos rfl], .halt h⟩
      · refine ⟨s, by rw [apply, if_neg hO, if_neg hC, if_neg hH], .idle h rfl s.isOpen ?_⟩
        rw [NaiveBook.step, if_neg hO, if_neg hC, if_neg hH]
        exact ha
    | add r side shares price =>
      by_cases hopen : s.isOpen = true
      · exact step_add b it h ha hopen hw
      · have haopen : ¬ a.isOpen = true := by rw [ha.isOpen]; exact hopen
        have hins : a.inserts (.add r side shares price) = none := if_neg haopen
        refine ⟨s, ?_, .idle h hins s.isOpen ?_⟩
        · simp only [apply, addRef, Bool.eq_false_iff.mpr hopen, Bool.not_false, if_true]
        · rw [NaiveBook.step, if_neg haopen]
          exact ha
    | ignore => exact ⟨s, rfl, .idle h rfl s.isOpen ha⟩
    | reduce r qty => cases ht
    | delete r => cases ht
    | replace r newRef shares price => cases ht

/-- **A reference to an order outside the array does not return**: the assertion of a debug build
fails, a release build indexes its level array with `-1`. -/
theorem step_fault (b : Build) (it : IterOrder n) {r : UInt64} {o : Fin n} (ht : e.target = some r)
    (hr : s.orderMap.lookup r = some o) (hi : (s.order o).levelIdx = -1) :
    ∃ f, s.apply b it e = .error f := by
  obtain ⟨f, hf⟩ := removeOrder_fault b hi
  cases e with
  | reduce r' qty =>
    cases ht
    obtain ⟨f', hf'⟩ := reduceShares_fault b qty hi
    exact ⟨f', by simp only [apply, reduceBy, hr, hf', error_bind]⟩
  | delete r' =>
    cases ht
    exact ⟨f, by simp only [apply, deleteRef, hr, hf, error_bind]⟩
  | replace r' newRef shares price =>
    cases ht
    exact ⟨f, by simp only [apply, replaceRef, hr, hf, error_bind]⟩
  | system code => cases ht
  | add r' side shares price => cases ht
  | ignore => cases ht

/-- **A step returns exactly when it refers to no order outside the array.** -/
theorem step_ok_iff {b : Build} (it : IterOrder n) (hb : b = .debug → n < 2 ^ 32) (h : Rep s)
    (ha : Abs s a) (hw : WfEvent n a e) :
    (∃ s', s.apply b it e = .ok s') ↔ s.RefersLinked e := by
  constructor
  · rintro ⟨s', hs'⟩ r o ht hr hi
    obtain ⟨f, hf⟩ := step_fault b it ht hr hi
    rw [hf] at hs'
    cases hs'
  · intro hl
    obtain ⟨s', hs', -⟩ := step_spec it hb h ha hw hl
    exact ⟨s', hs'⟩

end Step

end OrderBook

end L2Book
