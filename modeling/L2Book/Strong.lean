import L2Book.WeakPipeline

/-!
# Sequential consistency as a case of release and acquire

If every load returns the last write, the threads of `WeakPipeline.lean` take the steps of those of
`Pipeline.lean`.

* `WeakSpsc.strong`, `WeakPipeline.strong`: the state that the last writes show;
* `parserLoads`, `bookLoads`: the variable that the next step of a thread loads;
* `strong_stepParser`, `strong_stepBook`: a step that loads last writes is a step of that state;
* `exists_stepParser`, `exists_stepBook`: every thread can take such a step;
* `Inv.strong`: the invariant passes to that state;
* **`WeakPipeline.exists_of_reachable`**: interleavings are executions under release and acquire.
-/

namespace L2Book

/-! ## The queue -/

namespace WeakSpsc

variable {X T : Type}

/-- The queue that the last writes show. -/
def strong (q : WeakSpsc X T) : Spsc T :=
  ⟨q.mem.latest .head, q.mem.latest .tail, q.mem.cell, q.prod, q.cons⟩

/-- The index that the next step of `try_push` loads. -/
def prodLoads (q : WeakSpsc X T) : Option (Shared X) :=
  match q.prod with
  | .loadHead _ _ => some .head
  | _ => none

/-- The index that the next step of `try_pop` loads. -/
def consLoads (q : WeakSpsc X T) : Option (Shared X) :=
  match q.cons with
  | .loadTail _ => some .tail
  | _ => none

section Steps

variable [DecidableEq X] {k : Fin 64} {q q' : WeakSpsc X T} {mem : Memory (Shared X) Party UInt64 UInt64 T}
  {t : Party} {l : Shared X} {i : ℕ} {v : UInt64}

theorem strong_load {acq : Bool} (hload : q.mem.load acq t l i = some (v, mem)) (pc : ProdPc T)
    (pc' : ConsPc T) : strong ⟨mem, pc, pc'⟩ = { q.strong with prod := pc, cons := pc' } := by
  have hw := Memory.load_writes hload
  rw [strong, Memory.latest_congr (congrFun hw _), Memory.latest_congr (congrFun hw _),
    (Memory.load_cell hload).1]
  rfl

theorem strong_storeTail (v : UInt64) (pc : ProdPc T) :
    strong ⟨q.mem.store .producer .tail v, pc, q.cons⟩ = { q.strong with tail := v, prod := pc } := by
  rw [strong, Memory.latest_store_self, Memory.latest_store_of_ne _ _ (by simp)]
  rfl

theorem strong_storeHead (v : UInt64) (pc : ConsPc T) :
    strong ⟨q.mem.store .consumer .head v, q.prod, pc⟩ = { q.strong with head := v, cons := pc } := by
  rw [strong, Memory.latest_store_self, Memory.latest_store_of_ne _ _ (by simp)]
  rfl

theorem strong_tryPush {item : T} (hs : q.tryPush i item = some q') (hlast : q.mem.Last .tail i) :
    q'.strong = q.strong.tryPush item := by
  obtain ⟨⟨v, mem⟩, hload, rfl⟩ := Option.map_eq_some_iff.mp hs
  obtain rfl := hlast.eq_latest hload
  exact strong_load hload _ _

theorem strong_tryPop (hs : q.tryPop i = some q') (hlast : q.mem.Last .head i) :
    q'.strong = q.strong.tryPop := by
  obtain ⟨⟨v, mem⟩, hload, rfl⟩ := Option.map_eq_some_iff.mp hs
  obtain rfl := hlast.eq_latest hload
  exact strong_load hload _ _

theorem strong_of_load (hs : q.load t l i = some (v, q')) (hlast : q.mem.Last l i) :
    v = q.mem.latest l ∧ q'.strong = q.strong ∧ Frame t q q' := by
  obtain ⟨hload, hq⟩ := of_load hs
  rw [hq]
  exact ⟨hlast.eq_latest hload, strong_load hload _ _, frame_load hload⟩

theorem strong_stepProd {res : Option Bool} (hs : q.stepProd k i = some (q', res))
    (hlast : ∀ l ∈ q.prodLoads, q.mem.Last l i) : q.strong.stepProd k = (q'.strong, res) := by
  cases hpc : q.prod with
  | idle =>
    have hpc' : q.strong.prod = .idle := hpc
    simp only [stepProd, hpc] at hs
    cases hs
    simp only [Spsc.stepProd, hpc']
  | loadHead item t =>
    have hpc' : q.strong.prod = .loadHead item t := hpc
    simp only [stepProd, hpc] at hs
    obtain ⟨⟨v, mem⟩, hload, hres⟩ := Option.map_eq_some_iff.mp hs
    obtain rfl := (hlast .head (by simp [prodLoads, hpc])).eq_latest hload
    by_cases hv : Spsc.next k t = q.mem.latest .head
    · have hfull : Spsc.next k t = q.strong.head := hv
      simp only [if_pos hv, Prod.mk.injEq] at hres
      obtain ⟨rfl, rfl⟩ := hres
      simp only [Spsc.stepProd, hpc', if_pos hfull, strong_load hload]
      rfl
    · have hroom : Spsc.next k t ≠ q.strong.head := hv
      simp only [if_neg hv, Prod.mk.injEq] at hres
      obtain ⟨rfl, rfl⟩ := hres
      simp only [Spsc.stepProd, hpc', if_neg hroom, strong_load hload]
      rfl
  | writeSlot item t =>
    have hpc' : q.strong.prod = .writeSlot item t := hpc
    simp only [stepProd, hpc] at hs
    cases hs
    simp only [Spsc.stepProd, hpc']
    rfl
  | storeTail item t =>
    have hpc' : q.strong.prod = .storeTail item t := hpc
    simp only [stepProd, hpc] at hs
    cases hs
    simp only [Spsc.stepProd, hpc', strong_storeTail]

theorem strong_stepCons {res : Option (Option T)} (hs : q.stepCons k i = some (q', res))
    (hlast : ∀ l ∈ q.consLoads, q.mem.Last l i) : q.strong.stepCons k = (q'.strong, res) := by
  cases hpc : q.cons with
  | idle =>
    have hpc' : q.strong.cons = .idle := hpc
    simp only [stepCons, hpc] at hs
    cases hs
    simp only [Spsc.stepCons, hpc']
  | loadTail c =>
    have hpc' : q.strong.cons = .loadTail c := hpc
    simp only [stepCons, hpc] at hs
    obtain ⟨⟨v, mem⟩, hload, hres⟩ := Option.map_eq_some_iff.mp hs
    obtain rfl := (hlast .tail (by simp [consLoads, hpc])).eq_latest hload
    by_cases hv : c = q.mem.latest .tail
    · have hempty : c = q.strong.tail := hv
      simp only [if_pos hv, Prod.mk.injEq] at hres
      obtain ⟨rfl, rfl⟩ := hres
      simp only [Spsc.stepCons, hpc', if_pos hempty, strong_load hload]
      rfl
    · have hsome : c ≠ q.strong.tail := hv
      simp only [if_neg hv, Prod.mk.injEq] at hres
      obtain ⟨rfl, rfl⟩ := hres
      simp only [Spsc.stepCons, hpc', if_neg hsome, strong_load hload]
      rfl
  | readSlot c =>
    have hpc' : q.strong.cons = .readSlot c := hpc
    simp only [stepCons, hpc] at hs
    cases hs
    simp only [Spsc.stepCons, hpc']
    rfl
  | storeHead c out =>
    have hpc' : q.strong.cons = .storeHead c out := hpc
    simp only [stepCons, hpc] at hs
    cases hs
    simp only [Spsc.stepCons, hpc', strong_storeHead]

theorem exists_stepProd (h : q.mem.Closed) (k : Fin 64) :
    ∃ i, (q.stepProd k i).isSome ∧ ∀ l ∈ q.prodLoads, q.mem.Last l i := by
  cases hpc : q.prod with
  | loadHead item t =>
    obtain ⟨i, v, mem, hload, hlast⟩ := h.exists_last true .producer .head
    exact ⟨i, by simp [stepProd, hpc, hload], by simpa [prodLoads, hpc] using hlast⟩
  | _ => exact ⟨0, by simp [stepProd, hpc], by simp [prodLoads, hpc]⟩

theorem exists_stepCons (h : q.mem.Closed) (k : Fin 64) :
    ∃ i, (q.stepCons k i).isSome ∧ ∀ l ∈ q.consLoads, q.mem.Last l i := by
  cases hpc : q.cons with
  | loadTail c =>
    obtain ⟨i, v, mem, hload, hlast⟩ := h.exists_last true .consumer .tail
    exact ⟨i, by simp [stepCons, hpc, hload], by simpa [consLoads, hpc] using hlast⟩
  | _ => exact ⟨0, by simp [stepCons, hpc], by simp [consLoads, hpc]⟩

end Steps

/-! ### The invariant -/

section Inv

variable {k : Fin 64} {q : WeakSpsc X T} {pushed popped : List T}

theorem Inv.latest_tail (h : Inv k q pushed popped) :
    (q.mem.latest .tail).toNat = pushed.length % 2 ^ (k : ℕ) := by
  have hlast : q.mem.Last .tail pushed.length := h.tails.le
  have hlt : pushed.length < (q.mem.writes .tail).length := by rw [h.tails]; omega
  rw [← hlast.value_eq (List.getElem?_eq_getElem hlt)]
  exact h.tailValue _ _ (List.getElem?_eq_getElem hlt)

theorem Inv.latest_head (h : Inv k q pushed popped) :
    (q.mem.latest .head).toNat = popped.length % 2 ^ (k : ℕ) := by
  have hlast : q.mem.Last .head popped.length := h.heads.le
  have hlt : popped.length < (q.mem.writes .head).length := by rw [h.heads]; omega
  rw [← hlast.value_eq (List.getElem?_eq_getElem hlt)]
  exact h.headValue _ _ (List.getElem?_eq_getElem hlt)

/-- **The invariant passes to the state that the last writes show**: what a side knows of the other one is
less than what has happened. -/
theorem Inv.strong (h : Inv k q pushed popped) : q.strong.Inv k pushed popped := by
  have hgap := h.gap
  have hknown := h.sound.thread .producer
  have hseen := h.sound.thread .consumer
  have hprod := h.prod
  have hcons := h.cons
  have htail : q.strong.tail.toNat = pushed.length % 2 ^ (k : ℕ) := h.latest_tail
  have hhead : q.strong.head.toNat = popped.length % 2 ^ (k : ℕ) := h.latest_head
  refine ⟨h.fifo, by omega, hhead, htail, h.cells, ?_, ?_⟩
  · rw [show q.strong.prod = q.prod from rfl]
    cases hpc : q.prod with
    | idle => trivial
    | loadHead item t =>
      rw [hpc] at hprod
      exact UInt64.toNat_inj.mp (hprod.trans htail.symm)
    | writeSlot item t =>
      rw [hpc] at hprod
      exact ⟨UInt64.toNat_inj.mp (hprod.1.trans htail.symm),
        hprod.2.trans_le (Nat.add_le_add_right hknown.head _)⟩
    | storeTail item t =>
      rw [hpc] at hprod
      rw [hpc] at hgap
      exact ⟨UInt64.toNat_inj.mp (hprod.1.trans htail.symm), hgap, hprod.2⟩
  · rw [show q.strong.cons = q.cons from rfl]
    cases hpc : q.cons with
    | idle => trivial
    | loadTail c =>
      rw [hpc] at hcons
      exact UInt64.toNat_inj.mp (hcons.trans hhead.symm)
    | readSlot c =>
      rw [hpc] at hcons
      exact ⟨UInt64.toNat_inj.mp (hcons.1.trans hhead.symm), hcons.2.trans_le hseen.tail⟩
    | storeHead c out =>
      rw [hpc] at hcons
      exact ⟨UInt64.toNat_inj.mp (hcons.1.trans hhead.symm), hcons.2⟩

end Inv

end WeakSpsc

/-! ## The threads -/

namespace WeakPipeline

variable {n : ℕ} {b : Build} {p p' : WeakPipeline n} {i : ℕ}

/-- The state that the last writes show. -/
def strong (p : WeakPipeline n) : Pipeline n where
  queue := p.queue.strong
  parseDone := p.queue.mem.latest (.other .parseDone) != 0
  msgsParsed := p.queue.mem.latest (.other .msgsParsed)
  msgsBooked := p.queue.mem.latest (.other .msgsBooked)
  reader := p.reader
  parserCount := p.parserCount
  parserPc := p.parserPc
  book := p.book
  bookCount := p.bookCount
  bookPc := p.bookPc
  dispatched := p.dispatched

/-- The variable that the next step of the parser thread loads. -/
def parserLoads (p : WeakPipeline n) : Option (Shared MainVar) :=
  match p.parserPc with
  | .push _ => some .tail
  | .pushing _ => p.queue.prodLoads
  | _ => none

/-- The variable that the next step of the book thread loads. -/
def bookLoads (tailFirst : Bool) (p : WeakPipeline n) : Option (Shared MainVar) :=
  match p.bookPc with
  | .tryPop => some .head
  | .popping => p.queue.consLoads
  | .loadDone => some (.other .parseDone)
  | .empty => some (if tailFirst then .tail else .head)
  | .emptyTail _ => some .tail
  | .emptyHead _ => some .head
  | _ => none

/-- A step of the queue does not show in the other variables. -/
theorem strong_frame {t : Party} {q : WeakSpsc MainVar ParsedMessage} (hf : WeakSpsc.Frame t p.queue q)
    (r : ITCHFileReader) (c c' : UInt64) (pc : ParserPc) (s : OrderBook n) (pc' : BookPc)
    (ds : List (Input n)) :
    strong ⟨q, r, c, pc, s, c', pc', ds⟩ =
      ⟨q.strong, p.strong.parseDone, p.strong.msgsParsed, p.strong.msgsBooked, r, c, pc, s, c', pc', ds⟩ := by
  simp only [strong, Memory.latest_congr (hf.writes _)]

/-- **A step of the parser thread that loads last writes.** -/
theorem strong_stepParser (hs : p.stepParser i = some p')
    (hlast : ∀ l ∈ p.parserLoads, p.queue.mem.Last l i) : p.strong.stepParser = p'.strong := by
  have hqueue : p.strong.queue = p.queue.strong := rfl
  cases hpc : p.parserPc with
  | nextMessage =>
    have hpc' : p.strong.parserPc = .nextMessage := hpc
    have hr : p.strong.reader = p.reader := rfl
    rcases hn : p.reader.nextMessage with ⟨_ | ⟨raw, len⟩, r⟩ <;>
      simp only [stepParser, hpc, hn, Option.some.injEq] at hs <;> subst hs <;>
      simp only [Pipeline.stepParser, hpc', hr, hn] <;> rfl
  | push msg =>
    have hpc' : p.strong.parserPc = .push msg := hpc
    simp only [stepParser, hpc] at hs
    obtain ⟨q, hq, rfl⟩ := Option.map_eq_some_iff.mp hs
    have hstrong := WeakSpsc.strong_tryPush hq (hlast .tail (by simp [parserLoads, hpc]))
    simp only [Pipeline.stepParser, hpc', strong_frame (WeakSpsc.frame_tryPush hq), hstrong]
    rfl
  | pushing msg =>
    have hpc' : p.strong.parserPc = .pushing msg := hpc
    simp only [stepParser, hpc] at hs
    obtain ⟨⟨q, res⟩, hq, rfl⟩ := Option.map_eq_some_iff.mp hs
    have hstrong := WeakSpsc.strong_stepProd hq fun l hl => hlast l (by simpa [parserLoads, hpc] using hl)
    simp only [Pipeline.stepParser, hpc', strong_frame (WeakSpsc.frame_stepProd hq), hqueue, hstrong]
    rfl
  | storeParsed =>
    simp only [stepParser, hpc, Option.some.injEq] at hs
    subst hs
    simp [Pipeline.stepParser, hpc, strong, WeakSpsc.strong, WeakSpsc.store, Memory.latest_store_of_ne]
  | storeDone =>
    simp only [stepParser, hpc, Option.some.injEq] at hs
    subst hs
    simp [Pipeline.stepParser, hpc, strong, WeakSpsc.strong, WeakSpsc.store, Memory.latest_store_of_ne]
  | parse raw len =>
    have hpc' : p.strong.parserPc = .parse raw len := hpc
    simp only [stepParser, hpc, Option.some.injEq] at hs
    subst hs
    simp only [Pipeline.stepParser, hpc']
    rfl
  | increment =>
    have hpc' : p.strong.parserPc = .increment := hpc
    simp only [stepParser, hpc, Option.some.injEq] at hs
    subst hs
    simp only [Pipeline.stepParser, hpc']
    rfl
  | returned =>
    have hpc' : p.strong.parserPc = .returned := hpc
    simp only [stepParser, hpc, Option.some.injEq] at hs
    subst hs
    simp only [Pipeline.stepParser, hpc']

/-- **A step of the book thread that loads last writes.** -/
theorem strong_stepBook {it : IterOrder n} {tailFirst : Bool}
    (hs : p.stepBook b it tailFirst i = .ok (some p'))
    (hlast : ∀ l ∈ p.bookLoads tailFirst, p.queue.mem.Last l i) :
    p.strong.stepBook b it tailFirst = .ok p'.strong := by
  have hqueue : p.strong.queue = p.queue.strong := rfl
  cases hpc : p.bookPc with
  | tryPop =>
    have hpc' : p.strong.bookPc = .tryPop := hpc
    simp only [stepBook, hpc, Except.ok.injEq] at hs
    obtain ⟨q, hq, rfl⟩ := Option.map_eq_some_iff.mp hs
    have hstrong := WeakSpsc.strong_tryPop hq (hlast .head (by simp [bookLoads, hpc]))
    simp only [Pipeline.stepBook, hpc', strong_frame (WeakSpsc.frame_tryPop hq), hstrong]
    rfl
  | popping =>
    have hpc' : p.strong.bookPc = .popping := hpc
    simp only [stepBook, hpc, Except.ok.injEq] at hs
    obtain ⟨⟨q, res⟩, hq, rfl⟩ := Option.map_eq_some_iff.mp hs
    have hstrong := WeakSpsc.strong_stepCons hq fun l hl => hlast l (by simpa [bookLoads, hpc] using hl)
    simp only [Pipeline.stepBook, hpc', strong_frame (WeakSpsc.frame_stepCons hq), hqueue, hstrong]
    rfl
  | dispatch msg =>
    have hpc' : p.strong.bookPc = .dispatch msg := hpc
    have hbook : p.strong.book = p.book := rfl
    simp only [stepBook, hpc] at hs
    obtain ⟨book, hdispatch, hs⟩ := of_bind_eq_ok hs
    cases hs
    simp only [Pipeline.stepBook, hpc', hbook, hdispatch, ok_bind]
    rfl
  | loadDone =>
    have hpc' : p.strong.bookPc = .loadDone := hpc
    simp only [stepBook, hpc, Except.ok.injEq] at hs
    obtain ⟨⟨v, q⟩, hq, rfl⟩ := Option.map_eq_some_iff.mp hs
    obtain ⟨rfl, hstrong, hframe⟩ := WeakSpsc.strong_of_load hq (hlast _ (by simp [bookLoads, hpc]))
    simp only [Pipeline.stepBook, hpc', strong_frame hframe, hstrong]
    simp [strong]
  | empty =>
    have hpc' : p.strong.bookPc = .empty := hpc
    cases tailFirst with
    | true =>
      simp only [stepBook, hpc, if_true, Except.ok.injEq] at hs
      obtain ⟨⟨v, q⟩, hq, rfl⟩ := Option.map_eq_some_iff.mp hs
      obtain ⟨rfl, hstrong, hframe⟩ := WeakSpsc.strong_of_load hq (hlast _ (by simp [bookLoads, hpc]))
      simp only [Pipeline.stepBook, hpc', strong_frame hframe, hstrong]
      rfl
    | false =>
      simp only [stepBook, hpc, Bool.false_eq_true, if_false, Except.ok.injEq] at hs
      obtain ⟨⟨v, q⟩, hq, rfl⟩ := Option.map_eq_some_iff.mp hs
      obtain ⟨rfl, hstrong, hframe⟩ := WeakSpsc.strong_of_load hq (hlast _ (by simp [bookLoads, hpc]))
      simp only [Pipeline.stepBook, hpc', strong_frame hframe, hstrong]
      rfl
  | emptyTail head =>
    have hpc' : p.strong.bookPc = .emptyTail head := hpc
    simp only [stepBook, hpc, Except.ok.injEq] at hs
    obtain ⟨⟨v, q⟩, hq, rfl⟩ := Option.map_eq_some_iff.mp hs
    obtain ⟨rfl, hstrong, hframe⟩ := WeakSpsc.strong_of_load hq (hlast _ (by simp [bookLoads, hpc]))
    simp only [Pipeline.stepBook, hpc', strong_frame hframe, hstrong]
    rfl
  | emptyHead tail =>
    have hpc' : p.strong.bookPc = .emptyHead tail := hpc
    simp only [stepBook, hpc, Except.ok.injEq] at hs
    obtain ⟨⟨v, q⟩, hq, rfl⟩ := Option.map_eq_some_iff.mp hs
    obtain ⟨rfl, hstrong, hframe⟩ := WeakSpsc.strong_of_load hq (hlast _ (by simp [bookLoads, hpc]))
    simp only [Pipeline.stepBook, hpc', strong_frame hframe, hstrong]
    rfl
  | storeBooked =>
    simp only [stepBook, hpc, Except.ok.injEq, Option.some.injEq] at hs
    subst hs
    simp [Pipeline.stepBook, hpc, strong, WeakSpsc.strong, WeakSpsc.store, Memory.latest_store_of_ne]
  | increment =>
    have hpc' : p.strong.bookPc = .increment := hpc
    simp only [stepBook, hpc, Except.ok.injEq, Option.some.injEq] at hs
    subst hs
    simp only [Pipeline.stepBook, hpc']
    rfl
  | returned =>
    have hpc' : p.strong.bookPc = .returned := hpc
    simp only [stepBook, hpc, Except.ok.injEq, Option.some.injEq] at hs
    subst hs
    simp only [Pipeline.stepBook, hpc']

theorem exists_stepParser (h : p.queue.mem.Closed) :
    ∃ i p', p.stepParser i = some p' ∧ ∀ l ∈ p.parserLoads, p.queue.mem.Last l i := by
  cases hpc : p.parserPc with
  | nextMessage =>
    rcases hn : p.reader.nextMessage with ⟨_ | ⟨raw, len⟩, r⟩ <;>
      exact ⟨0, _, by simp only [stepParser, hpc, hn]; rfl, by simp [parserLoads, hpc]⟩
  | push msg =>
    obtain ⟨i, v, mem, hload, hlast⟩ := h.exists_last false .producer .tail
    exact ⟨i, _, by simp only [stepParser, hpc, WeakSpsc.tryPush, hload]; rfl,
      by simpa [parserLoads, hpc] using hlast⟩
  | pushing msg =>
    obtain ⟨i, hsome, hlast⟩ := WeakSpsc.exists_stepProd h kQueueBits
    obtain ⟨⟨q, res⟩, hq⟩ := Option.isSome_iff_exists.mp hsome
    exact ⟨i, _, by simp only [stepParser, hpc, hq]; rfl, by simpa [parserLoads, hpc] using hlast⟩
  | _ => exact ⟨0, _, by simp only [stepParser, hpc]; rfl, by simp [parserLoads, hpc]⟩

/-- The book thread can take a step that loads the last write, unless `dispatch` faults. -/
theorem exists_stepBook (h : p.queue.mem.Closed) (b : Build) (it : IterOrder n) (tailFirst : Bool) :
    ∃ i, (∀ l ∈ p.bookLoads tailFirst, p.queue.mem.Last l i) ∧
      ((∃ p', p.stepBook b it tailFirst i = .ok (some p')) ∨
        ∃ msg e, p.bookPc = .dispatch msg ∧ p.book.dispatch b it msg = .error e) := by
  cases hpc : p.bookPc with
  | tryPop =>
    obtain ⟨i, v, mem, hload, hlast⟩ := h.exists_last false .consumer .head
    exact ⟨i, by simpa [bookLoads, hpc] using hlast,
      .inl ⟨_, by simp only [stepBook, hpc, WeakSpsc.tryPop, hload]; rfl⟩⟩
  | popping =>
    obtain ⟨i, hsome, hlast⟩ := WeakSpsc.exists_stepCons h kQueueBits
    obtain ⟨⟨q, res⟩, hq⟩ := Option.isSome_iff_exists.mp hsome
    exact ⟨i, by simpa [bookLoads, hpc] using hlast, .inl ⟨_, by simp only [stepBook, hpc, hq]; rfl⟩⟩
  | dispatch msg =>
    refine ⟨0, by simp [bookLoads, hpc], ?_⟩
    cases hd : p.book.dispatch b it msg with
    | error e => exact .inr ⟨msg, e, rfl, hd⟩
    | ok s => exact .inl ⟨_, by simp only [stepBook, hpc, hd, ok_bind]; rfl⟩
  | loadDone =>
    obtain ⟨i, v, mem, hload, hlast⟩ := h.exists_last true .consumer (.other .parseDone)
    exact ⟨i, by simpa [bookLoads, hpc] using hlast,
      .inl ⟨_, by simp only [stepBook, hpc, WeakSpsc.load, hload]; rfl⟩⟩
  | empty =>
    cases tailFirst with
    | true =>
      obtain ⟨i, v, mem, hload, hlast⟩ := h.exists_last true .consumer .tail
      exact ⟨i, by simpa [bookLoads, hpc] using hlast,
        .inl ⟨_, by simp only [stepBook, hpc, WeakSpsc.load, hload, if_true]; rfl⟩⟩
    | false =>
      obtain ⟨i, v, mem, hload, hlast⟩ := h.exists_last true .consumer .head
      exact ⟨i, by simpa [bookLoads, hpc] using hlast,
        .inl ⟨_, by simp only [stepBook, hpc, WeakSpsc.load, hload, Bool.false_eq_true, if_false]; rfl⟩⟩
  | emptyTail head =>
    obtain ⟨i, v, mem, hload, hlast⟩ := h.exists_last true .consumer .tail
    exact ⟨i, by simpa [bookLoads, hpc] using hlast,
      .inl ⟨_, by simp only [stepBook, hpc, WeakSpsc.load, hload]; rfl⟩⟩
  | emptyHead tail =>
    obtain ⟨i, v, mem, hload, hlast⟩ := h.exists_last true .consumer .head
    exact ⟨i, by simpa [bookLoads, hpc] using hlast,
      .inl ⟨_, by simp only [stepBook, hpc, WeakSpsc.load, hload]; rfl⟩⟩
  | _ => exact ⟨0, by simp [bookLoads, hpc], .inl ⟨_, by simp only [stepBook, hpc]; rfl⟩⟩

/-! ### The invariant -/

section Inv

variable {msgs pushed : List ParsedMessage}

theorem ParserInv.parseDone_iff (h : ParserInv msgs pushed p) :
    p.strong.parseDone = true ↔ p.parserPc = .returned := by
  have hstored := h.stored
  show (p.queue.mem.latest (.other .parseDone) != 0) = true ↔ _
  cases hpc : p.parserPc with
  | returned =>
    rw [hpc] at hstored
    obtain ⟨⟨view, hset, -⟩, -⟩ := hstored
    simp [hset.latest_eq]
  | storeDone =>
    rw [hpc] at hstored
    simp [hstored.1.latest_eq]
  | _ =>
    rw [hpc] at hstored
    simp [hstored.1.latest_eq]

theorem ParserInv.strong (h : ParserInv msgs pushed p) : p.strong.ParserInv msgs pushed where
  split := h.split
  item msg hpc := by
    have hpc' : p.parserPc = .pushing msg := hpc
    have hitem := h.item
    rwa [hpc'] at hitem
  count := h.count
  parsed := by
    have hstored := h.stored
    rintro (hpc | hpc) <;> rw [show p.parserPc = _ from hpc] at hstored
    · obtain ⟨-, ⟨view, hset⟩, -⟩ := hstored
      exact hset.latest_eq
    · obtain ⟨-, view, hset⟩ := hstored
      exact hset.latest_eq
  done := h.parseDone_iff.mp

/-- **The invariant passes to the state that the last writes show.** -/
theorem Inv.strong (h : Inv b msgs pushed p) : p.strong.Inv b msgs pushed := by
  have hfound := h.book.found
  have hdone : sawDone p.bookPc → p.strong.parseDone = true := fun hsaw =>
    h.parser.parseDone_iff.mpr (h.book.seen hsaw).1
  have hqueue := h.queue.strong
  refine ⟨hqueue, h.parser.strong, h.book.book, h.book.count, ?_⟩
  rw [show p.strong.bookPc = p.bookPc from rfl]
  cases hpc : p.bookPc with
  | empty => exact hdone (by rw [hpc]; trivial)
  | emptyTail head =>
    rw [hpc] at hfound
    refine ⟨hdone (by rw [hpc]; trivial), UInt64.toNat_inj.mp ?_⟩
    have hlen : p.popped.length = p.dispatched.length := by
      rw [popped, BookPc.popped_of_inHand (by rw [hpc]; rfl), List.length_map]
    exact hfound.trans (by rw [← hlen]; exact hqueue.head.symm)
  | emptyHead tail =>
    rw [hpc] at hfound
    exact ⟨hdone (by rw [hpc]; trivial), UInt64.toNat_inj.mp (hfound.trans hqueue.tail.symm)⟩
  | storeBooked =>
    rw [hpc] at hfound
    exact ⟨hdone (by rw [hpc]; trivial), hfound⟩
  | returned =>
    rw [hpc] at hfound
    obtain ⟨hlen, ⟨view, hset⟩, -⟩ := hfound
    exact ⟨hdone (by rw [hpc]; trivial), hlen, hset.latest_eq⟩
  | _ => trivial

end Inv

/-! ### Interleavings -/

/-- **Interleavings are executions under release and acquire**: those in which every load returns the last
write. -/
theorem exists_of_reachable {slots : UInt64 → ParsedMessage} {r : ITCHFileReader} {s : Pipeline n}
    (h : Relation.ReflTransGen (Pipeline.Step b) (.init slots r) s) :
    ∃ p : WeakPipeline n, Relation.ReflTransGen (Step b) (init slots r) p ∧ p.strong = s := by
  induction h with
  | refl => exact ⟨_, .refl, rfl⟩
  | tail _ hs ih =>
    obtain ⟨p, hreach, rfl⟩ := ih
    obtain ⟨pushed, hinv⟩ := inv_of_reachable hreach
    cases hs with
    | parser =>
      obtain ⟨i, p', hstep, hlast⟩ := exists_stepParser hinv.closed
      exact ⟨p', hreach.tail (.parser p p' i hstep), (strong_stepParser hstep hlast).symm⟩
    | book s it tailFirst hbook =>
      obtain ⟨i, hlast, ⟨p', hstep⟩ | ⟨msg, e, hpc, hd⟩⟩ := exists_stepBook hinv.closed b it tailFirst
      · have heq := (strong_stepBook hstep hlast).symm.trans hbook
        exact ⟨p', hreach.tail (.book p p' it tailFirst i hstep), Except.ok.inj heq⟩
      · -- this step is a dispatch that did not fault
        have hpc' : p.strong.bookPc = .dispatch msg := hpc
        simp only [Pipeline.stepBook, hpc'] at hbook
        obtain ⟨book, hok, -⟩ := of_bind_eq_ok hbook
        cases hd.symm.trans hok

theorem exists_of_reachable_oneFrame :
    ∃ (s : Pipeline 1) (p : WeakPipeline 1),
      run (Pipeline.turn .debug) (.init (fun _ => .monostate) ⟨[0, 1, 90], 0⟩)
        Pipeline.oneFrameTurns = .ok s ∧ s.bookPc = .returned ∧ p.strong = s := by
  obtain ⟨s, hrun, hpc⟩ : ∃ s, run (Pipeline.turn .debug)
      (.init (fun _ => .monostate) ⟨[0, 1, 90], 0⟩) Pipeline.oneFrameTurns = .ok s ∧
      s.bookPc = .returned := ⟨_, rfl, rfl⟩
  obtain ⟨p, -, hp⟩ := exists_of_reachable (Pipeline.reachable_iff_run.mpr ⟨_, hrun⟩)
  exact ⟨s, p, hrun, hpc, hp⟩

end WeakPipeline

end L2Book
