import L2Book.Pipeline
import L2Book.Transport.WeakSpsc

/-!
# The two threads of the replay under release and acquire

The threads of `Pipeline.lean` with the memory orders of the source: the queue as in `WeakSpsc.lean`, the
stores of the flag and of the counters with release, the loads of the flag and of `empty()` with acquire. A
load may return an old value.

* `WeakPipeline`: the memory and the local variables of both threads; `stepParser`, `stepBook` with the write
  that is loaded;
* **`WeakPipeline.Inv`**: what holds between any two steps; `Inv.stepParser`, `Inv.stepBook`;
* **`WeakPipeline.weak_sequential`**: the threads do not race and compute what the sequential replay computes.
-/

namespace L2Book

/-- The flag and the counters that the threads of `main` share. -/
inductive MainVar
  | parseDone
  | msgsParsed
  | msgsBooked
  deriving DecidableEq

/-- The message within `try_push`. -/
def ParserPc.item : ParserPc → Option ParsedMessage
  | .pushing msg => some msg
  | _ => none

/-- The variables of `main` and of its two threads. The flag is 1 for `true`. -/
structure WeakPipeline (n : ℕ) where
  queue : WeakSpsc MainVar ParsedMessage
  reader : ITCHFileReader
  parserCount : UInt64
  parserPc : ParserPc
  book : OrderBook n
  bookCount : UInt64
  bookPc : BookPc
  dispatched : List (Input n)

namespace WeakPipeline

variable {n : ℕ}

/-- Both threads at their loops, after the construction of the reader. -/
def init (slots : UInt64 → ParsedMessage) (r : ITCHFileReader) : WeakPipeline n where
  queue := .init (fun _ => 0) slots
  reader := r
  parserCount := 0
  parserPc := .nextMessage
  book := .init n
  bookCount := 0
  bookPc := .tryPop
  dispatched := []

/-- One step of the parser thread, which loads write `i` if it loads. -/
def stepParser (i : ℕ) (p : WeakPipeline n) : Option (WeakPipeline n) :=
  match p.parserPc with
  | .nextMessage =>
    match p.reader.nextMessage with
    | (some (raw, len), r) => some { p with reader := r, parserPc := .parse raw len }
    | (none, r) => some { p with reader := r, parserPc := .storeParsed }
  | .parse raw len =>
    some { p with parserPc := .push (parseMessage (some (p.reader.buf.drop raw)) len) }
  | .push msg => (p.queue.tryPush i msg).map fun q => { p with queue := q, parserPc := .pushing msg }
  | .pushing msg =>
    (p.queue.stepProd kQueueBits i).map fun (q, res) =>
      { p with
        queue := q
        parserPc := match res with
          | none => .pushing msg
          | some true => .increment
          | some false => .push msg }
  | .increment => some { p with parserCount := p.parserCount + 1, parserPc := .nextMessage }
  | .storeParsed =>
    some { p with queue := p.queue.store .producer .msgsParsed p.parserCount, parserPc := .storeDone }
  | .storeDone => some { p with queue := p.queue.store .producer .parseDone 1, parserPc := .returned }
  | .returned => some p

/-- One step of the book thread, which loads write `i` if it loads. `it` is the iteration order of
`order_map_`, and `tailFirst` says which load of `empty()` comes first. -/
def stepBook (b : Build) (it : IterOrder n) (tailFirst : Bool) (i : ℕ) (p : WeakPipeline n) :
    Except Fault (Option (WeakPipeline n)) :=
  match p.bookPc with
  | .tryPop => .ok ((p.queue.tryPop i).map fun q => { p with queue := q, bookPc := .popping })
  | .popping =>
    .ok ((p.queue.stepCons kQueueBits i).map fun (q, res) =>
      { p with
        queue := q
        bookPc := match res with
          | none => .popping
          | some (some msg) => .dispatch msg
          | some none => .loadDone })
  | .dispatch msg => do
    let book ← p.book.dispatch b it msg
    .ok (some { p with book := book, dispatched := p.dispatched ++ [(msg, it)], bookPc := .increment })
  | .increment => .ok (some { p with bookCount := p.bookCount + 1, bookPc := .tryPop })
  | .loadDone =>
    .ok ((p.queue.load .consumer (.other .parseDone) i).map fun (v, q) =>
      { p with queue := q, bookPc := if v ≠ 0 then .empty else .tryPop })
  | .empty =>
    if tailFirst then
      .ok ((p.queue.load .consumer .tail i).map fun (v, q) => { p with queue := q, bookPc := .emptyHead v })
    else
      .ok ((p.queue.load .consumer .head i).map fun (v, q) => { p with queue := q, bookPc := .emptyTail v })
  | .emptyTail head =>
    .ok ((p.queue.load .consumer .tail i).map fun (v, q) =>
      { p with queue := q, bookPc := if head = v then .storeBooked else .tryPop })
  | .emptyHead tail =>
    .ok ((p.queue.load .consumer .head i).map fun (v, q) =>
      { p with queue := q, bookPc := if v = tail then .storeBooked else .tryPop })
  | .storeBooked =>
    .ok (some { p with queue := p.queue.store .consumer .msgsBooked p.bookCount, bookPc := .returned })
  | .returned => .ok (some p)

/-- One step of one thread. -/
inductive Step (b : Build) : WeakPipeline n → WeakPipeline n → Prop
  | parser (p p' : WeakPipeline n) (i : ℕ) : p.stepParser i = some p' → Step b p p'
  | book (p p' : WeakPipeline n) (it : IterOrder n) (tailFirst : Bool) (i : ℕ) :
      p.stepBook b it tailFirst i = .ok (some p') → Step b p p'

/-- What is next: the write to load, and the parser thread (`none`) or the book thread with its choices. -/
abbrev Turn (n : ℕ) := ℕ × Option (IterOrder n × Bool)

def turn (b : Build) (p : WeakPipeline n) : Turn n → Option (WeakPipeline n)
  | (i, none) => p.stepParser i
  | (i, some (it, tailFirst)) =>
    match p.stepBook b it tailFirst i with
    | .ok p' => p'
    | .error _ => none

theorem step_of_turn {b : Build} {p p' : WeakPipeline n} {t : Turn n} (h : p.turn b t = some p') :
    Step b p p' := by
  obtain ⟨i, _ | ⟨it, tailFirst⟩⟩ := t
  · exact .parser p p' i h
  · rw [turn] at h
    split at h
    case h_1 p₁ hs =>
      subst h
      exact .book p p' it tailFirst i hs
    case h_2 => cases h

theorem reachable_of_turns {b : Build} {p p' : WeakPipeline n} {ts : List (Turn n)}
    (h : ts.foldlM (turn b) p = some p') : Relation.ReflTransGen (Step b) p p' := by
  induction ts generalizing p with
  | nil =>
    cases h
    exact .refl
  | cons t ts ih =>
    rw [List.foldlM_cons] at h
    obtain ⟨p₁, ht, h⟩ := Option.bind_eq_some_iff.mp h
    exact .head (step_of_turn ht) (ih h)

/-- The book thread has left its loop. -/
def Left (p : WeakPipeline n) : Prop := p.bookPc.Left

/-- What `main` knows once it has joined both threads. -/
def joined (p : WeakPipeline n) : View (Shared MainVar) Party :=
  (p.queue.mem.view .producer).join (p.queue.mem.view .consumer)

/-! ## The invariant -/

/-- The messages that left the queue. -/
def popped (p : WeakPipeline n) : List ParsedMessage := p.bookPc.popped p.dispatched

/-- The book thread has seen the flag. -/
def sawDone : BookPc → Prop
  | .empty | .emptyTail _ | .emptyHead _ | .storeBooked | .returned => True
  | _ => False

/-- What the parser thread has stored in the flag and its counter. The store of the flag knows of the counter
and of every push. -/
def Stored (mem : Memory (Shared MainVar) Party UInt64 UInt64 ParsedMessage) (count : UInt64) (pushed : ℕ) :
    ParserPc → Prop
  | .storeDone => mem.Unset (.other .parseDone) 0 ∧
      (∃ view, mem.SetOnce (.other .msgsParsed) 0 count view) ∧
      1 ≤ (mem.view .producer).write (.other .msgsParsed)
  | .returned => (∃ view, mem.SetOnce (.other .parseDone) 0 1 view ∧ pushed ≤ view.write .tail ∧
        1 ≤ view.write (.other .msgsParsed)) ∧
      ∃ view, mem.SetOnce (.other .msgsParsed) 0 count view
  | _ => mem.Unset (.other .parseDone) 0 ∧ mem.Unset (.other .msgsParsed) 0

/-- What the loads of `empty()` find, and what the book thread stores in its counter. -/
def Found (mem : Memory (Shared MainVar) Party UInt64 UInt64 ParsedMessage) (count : UInt64)
    (pushed popped : ℕ) : BookPc → Prop
  | .emptyTail head => head.toNat = popped % 2 ^ (kQueueBits : ℕ)
  | .emptyHead tail => tail.toNat = pushed % 2 ^ (kQueueBits : ℕ)
  | .storeBooked => popped = pushed
  | .returned => popped = pushed ∧ (∃ view, mem.SetOnce (.other .msgsBooked) 0 count view) ∧
      1 ≤ (mem.view .consumer).write (.other .msgsBooked)
  | _ => True

/-- The parser thread has pushed the messages `pushed` of `msgs`. -/
structure ParserInv (msgs pushed : List ParsedMessage) (p : WeakPipeline n) : Prop where
  split : pushed ++ p.parserPc.pending p.reader = msgs
  item : p.queue.prod.item = p.parserPc.item
  count : p.parserPc.total p.parserCount = UInt64.ofNat pushed.length
  stored : Stored p.queue.mem p.parserCount pushed.length p.parserPc

/-- The book is that of the dispatched messages. Once the flag was seen the parser thread has returned, and
the book thread knows all that it did. -/
structure BookInv (b : Build) (pushed : List ParsedMessage) (p : WeakPipeline n) : Prop where
  book : (OrderBook.init n).replay b p.dispatched = .ok p.book
  count : p.bookPc.total p.bookCount = UInt64.ofNat p.dispatched.length
  idle : p.bookPc ≠ .popping → p.queue.cons = .idle
  unset : p.bookPc ≠ .returned → p.queue.mem.Unset (.other .msgsBooked) 0
  seen : sawDone p.bookPc → p.parserPc = .returned ∧
    (p.queue.mem.view .consumer).write .tail = pushed.length ∧
    1 ≤ (p.queue.mem.view .consumer).write (.other .msgsParsed)
  found : Found p.queue.mem p.bookCount pushed.length p.dispatched.length p.bookPc

/-- **What holds between any two steps.** -/
structure Inv (b : Build) (msgs pushed : List ParsedMessage) (p : WeakPipeline n) : Prop where
  queue : p.queue.Inv kQueueBits pushed p.popped
  closed : p.queue.mem.Closed
  parser : ParserInv msgs pushed p
  book : BookInv b pushed p

section Inv

variable {b : Build} {msgs pushed : List ParsedMessage} {p p' : WeakPipeline n}

theorem inv_init (slots : UInt64 → ParsedMessage) (r : ITCHFileReader) :
    Inv b r.messages [] (init (n := n) slots r) where
  queue := WeakSpsc.inv_init kQueueBits _ slots
  closed := Memory.closed_init _ _
  parser := ⟨rfl, rfl, rfl, rfl, rfl⟩
  book := ⟨rfl, rfl, fun _ => rfl, fun _ => rfl, False.elim, trivial⟩

/-- The book thread cannot tell what the parser thread does before it sees the flag. -/
theorem BookInv.frame (h : BookInv b pushed p) (hpc : p.parserPc ≠ .returned)
    {q : WeakSpsc MainVar ParsedMessage} (hcons : q.cons = p.queue.cons)
    (hwrites : q.mem.writes (.other .msgsBooked) = p.queue.mem.writes (.other .msgsBooked)) (c : UInt64)
    (r : ITCHFileReader) (pc : ParserPc) (pushed' : List ParsedMessage) :
    BookInv b pushed' { p with queue := q, reader := r, parserCount := c, parserPc := pc } := by
  have hsaw : ¬ sawDone p.bookPc := fun hsaw => hpc (h.seen hsaw).1
  refine ⟨h.book, h.count, fun hne => hcons.trans (h.idle hne), fun hne => ?_, fun hs => absurd hs hsaw, ?_⟩
  · have hunset := h.unset hne
    rwa [Memory.Unset, ← hwrites] at hunset
  · show Found q.mem p.bookCount pushed'.length p.dispatched.length p.bookPc
    revert hsaw
    cases p.bookPc <;> simp [sawDone, Found]

theorem ParserInv.frame (h : ParserInv msgs pushed p) {q : WeakSpsc MainVar ParsedMessage}
    (hprod : q.prod = p.queue.prod)
    (hdone : q.mem.writes (.other .parseDone) = p.queue.mem.writes (.other .parseDone))
    (hparsed : q.mem.writes (.other .msgsParsed) = p.queue.mem.writes (.other .msgsParsed))
    (hview : q.mem.view .producer = p.queue.mem.view .producer) (c : UInt64) (s : OrderBook n) (pc : BookPc)
    (ds : List (Input n)) :
    ParserInv msgs pushed { p with
      queue := q, book := s, bookCount := c, bookPc := pc, dispatched := ds } := by
  refine ⟨h.split, by rw [← h.item, ← hprod], h.count, ?_⟩
  have hstored := h.stored
  show Stored q.mem p.parserCount pushed.length p.parserPc
  cases hpc : p.parserPc <;> rw [hpc] at hstored <;>
    simpa only [Stored, Memory.Unset, Memory.SetOnce, hdone, hparsed, hview] using hstored

/-! ## Steps of the parser thread -/

theorem stored_iff_of_running {mem : Memory (Shared MainVar) Party UInt64 UInt64 ParsedMessage} {c : UInt64}
    {m : ℕ} {pc : ParserPc} (hrun : pc.running = true) :
    Stored mem c m pc ↔ mem.Unset (.other .parseDone) 0 ∧ mem.Unset (.other .msgsParsed) 0 := by
  cases pc with
  | storeDone => cases hrun
  | returned => cases hrun
  | _ => rfl

theorem Inv.running (h : Inv b msgs pushed p) (hrun : p.parserPc.running = true)
    {q : WeakSpsc MainVar ParsedMessage} {r : ITCHFileReader} {c : UInt64} {pc : ParserPc}
    {pushed' : List ParsedMessage} (hframe : WeakSpsc.Frame .producer p.queue q)
    (hq : q.Inv kQueueBits pushed' p.popped) (hpc : pc.running = true)
    (split : pushed' ++ pc.pending r = msgs)
    (item : q.prod.item = pc.item)
    (count : pc.total c = UInt64.ofNat pushed'.length) :
    Inv b msgs pushed' { p with queue := q, reader := r, parserCount := c, parserPc := pc } := by
  have hstored := (stored_iff_of_running hrun).mp h.parser.stored
  have hne : p.parserPc ≠ .returned := by
    rintro hret
    rw [hret] at hrun
    cases hrun
  refine ⟨hq, hframe.closed h.closed, ⟨split, item, count, (stored_iff_of_running hpc).mpr ?_⟩,
    h.book.frame hne (hframe.cons (by decide)) (hframe.writes _) _ _ _ _⟩
  rwa [Memory.Unset, Memory.Unset, hframe.writes, hframe.writes]

theorem Inv.pushing (h : Inv b msgs pushed p) {msg : ParsedMessage} (hpc : p.parserPc = .pushing msg)
    {i : ℕ} (hs : p.stepParser i = some p') : ∃ pushed', Inv b msgs pushed' p' := by
  have hrun : p.parserPc.running = true := by rw [hpc]; rfl
  have hsplit := h.parser.split
  have hcount := h.parser.count
  have hitem := h.parser.item
  simp only [ParserPc.pending, ParserPc.total, hpc, ParserPc.item] at hsplit hcount hitem
  simp only [WeakPipeline.stepParser, hpc] at hs
  obtain ⟨⟨q, res⟩, hq, rfl⟩ := Option.map_eq_some_iff.mp hs
  have hframe := WeakSpsc.frame_stepProd hq
  have hstep := h.queue.stepProd hq
  cases res with
  | none =>
    obtain ⟨hinv, hsame⟩ := hstep
    exact ⟨pushed, h.running hrun hframe hinv rfl hsplit (hsame.trans hitem) hcount⟩
  | some ok =>
    cases ok with
    | false =>
      -- full, or so it seems: the retry loop begins again with the same message
      obtain ⟨-, hinv, hidle, -⟩ := hstep
      exact ⟨pushed, h.running hrun hframe hinv rfl hsplit (by rw [hidle]; rfl) hcount⟩
    | true =>
      obtain ⟨item, t, hprod, hinv, hidle⟩ := hstep
      rw [hprod, ProdPc.item, Option.some.injEq] at hitem
      subst hitem
      refine ⟨pushed ++ [item], h.running hrun hframe hinv rfl ?_ (by rw [hidle]; rfl) ?_⟩
      · rw [← hsplit, List.append_assoc]
        rfl
      · show p.parserCount + 1 = _
        rw [hcount, Pipeline.ofNat_length_snoc]

theorem Inv.storeParsed (h : Inv b msgs pushed p) (hpc : p.parserPc = .storeParsed) :
    Inv b msgs pushed { p with
      queue := p.queue.store .producer .msgsParsed p.parserCount, parserPc := .storeDone } := by
  have hsplit := h.parser.split
  have hcount := h.parser.count
  have hitem := h.parser.item
  obtain ⟨hdone, hparsed⟩ := (stored_iff_of_running (by rw [hpc]; rfl)).mp h.parser.stored
  simp only [ParserPc.pending, ParserPc.total, hpc] at hsplit hcount hitem
  refine ⟨h.queue.storeOther _ _ _, h.closed.store _, ⟨hsplit, hitem, hcount, ?_, ?_, ?_⟩,
    h.book.frame (q := p.queue.store .producer .msgsParsed p.parserCount) (by rw [hpc]; rintro ⟨⟩) rfl
      (Memory.store_writes_of_ne _ _ (by simp) _) _ _ _ _⟩
  · exact (Memory.store_writes_of_ne _ _ (by simp) _).trans hdone
  · exact ⟨_, hparsed.store _⟩
  · have hknown := Memory.le_store_view p.queue.mem .producer (.other .msgsParsed) p.parserCount
    rwa [show p.queue.mem.writes (.other .msgsParsed) = _ from hparsed] at hknown

theorem Inv.storeDone (h : Inv b msgs pushed p) (hpc : p.parserPc = .storeDone) :
    Inv b msgs pushed { p with
      queue := p.queue.store .producer .parseDone 1, parserPc := .returned } := by
  have hsplit := h.parser.split
  have hcount := h.parser.count
  have hitem := h.parser.item
  have hstored := h.parser.stored
  rw [hpc] at hstored
  obtain ⟨hdone, ⟨view, hparsed⟩, hknown⟩ := hstored
  simp only [ParserPc.pending, ParserPc.total, hpc] at hsplit hcount hitem
  have hqueue := h.queue.storeOther .producer .parseDone 1
  have hgrow := Memory.le_view_of_store p.queue.mem .producer (.other .parseDone) 1 .producer
  refine ⟨hqueue, h.closed.store _,
    ⟨hsplit, hitem, hcount, ⟨_, hdone.store _, hqueue.ownTail.ge, ?_⟩, view, ?_⟩,
    h.book.frame (q := p.queue.store .producer .parseDone 1) (by rw [hpc]; rintro ⟨⟩) rfl
      (Memory.store_writes_of_ne _ _ (by simp) _) _ _ _ _⟩
  · exact hknown.trans (hgrow.1 _)
  · exact (Memory.store_writes_of_ne _ _ (by simp) _).trans hparsed

/-- **Every step of the parser thread keeps the invariant.** -/
theorem Inv.stepParser (h : Inv b msgs pushed p) {i : ℕ} (hs : p.stepParser i = some p') :
    ∃ pushed', Inv b msgs pushed' p' := by
  have hsplit := h.parser.split
  have hcount := h.parser.count
  have hitem := h.parser.item
  have hsame := WeakSpsc.frame_refl .producer p.queue
  cases hpc : p.parserPc with
  | nextMessage =>
    have hrun : p.parserPc.running = true := by rw [hpc]; rfl
    simp only [ParserPc.pending, ParserPc.total, hpc] at hsplit hcount hitem
    rcases hn : p.reader.nextMessage with ⟨res, r⟩
    simp only [WeakPipeline.stepParser, hpc, hn] at hs
    cases res with
    | none =>
      cases hs
      rw [ITCHFileReader.messages_of_none hn] at hsplit
      exact ⟨pushed, h.running hrun hsame h.queue rfl hsplit hitem hcount⟩
    | some f =>
      cases hs
      rw [ITCHFileReader.messages_of_some hn, ← ITCHFileReader.message_congr hn] at hsplit
      exact ⟨pushed, h.running hrun hsame h.queue rfl hsplit hitem hcount⟩
  | parse raw len =>
    have hrun : p.parserPc.running = true := by rw [hpc]; rfl
    simp only [WeakPipeline.stepParser, ParserPc.pending, ParserPc.total, hpc] at hs hsplit hcount hitem
    cases hs
    exact ⟨pushed, h.running hrun hsame h.queue rfl hsplit hitem hcount⟩
  | push msg =>
    have hrun : p.parserPc.running = true := by rw [hpc]; rfl
    simp only [WeakPipeline.stepParser, ParserPc.pending, ParserPc.total, hpc] at hs hsplit hcount hitem
    obtain ⟨q, hq, rfl⟩ := Option.map_eq_some_iff.mp hs
    have hidle := ProdPc.eq_idle_of_item hitem
    exact ⟨pushed, h.running hrun (WeakSpsc.frame_tryPush hq) (h.queue.tryPush hidle hq) rfl hsplit
      (WeakSpsc.item_tryPush hq) hcount⟩
  | pushing msg => exact h.pushing hpc hs
  | increment =>
    have hrun : p.parserPc.running = true := by rw [hpc]; rfl
    simp only [WeakPipeline.stepParser, ParserPc.pending, ParserPc.total, hpc] at hs hsplit hcount hitem
    cases hs
    exact ⟨pushed, h.running hrun hsame h.queue rfl hsplit hitem hcount⟩
  | storeParsed =>
    simp only [WeakPipeline.stepParser, hpc] at hs
    cases hs
    exact ⟨pushed, h.storeParsed hpc⟩
  | storeDone =>
    simp only [WeakPipeline.stepParser, hpc] at hs
    cases hs
    exact ⟨pushed, h.storeDone hpc⟩
  | returned =>
    simp only [WeakPipeline.stepParser, hpc] at hs
    cases hs
    exact ⟨pushed, h⟩

/-! ## Steps of the book thread -/

/-- What is next is a load of the flag or of an index by `empty()`. -/
def loads : BookPc → Prop
  | .loadDone | .empty | .emptyTail _ | .emptyHead _ => True
  | _ => False

theorem of_loads (h : loads p.bookPc) : p.bookPc.inHand = [] ∧ p.bookPc ≠ .popping ∧
    p.bookPc ≠ .returned ∧ p.bookPc.total p.bookCount = p.bookCount := by
  revert h
  cases p.bookPc <;> simp [loads, BookPc.inHand, BookPc.total]

theorem BookInv.of_unseen (hsaw : ¬ sawDone p.bookPc)
    (book : (OrderBook.init n).replay b p.dispatched = .ok p.book)
    (count : p.bookPc.total p.bookCount = UInt64.ofNat p.dispatched.length)
    (idle : p.bookPc ≠ .popping → p.queue.cons = .idle)
    (unset : p.queue.mem.Unset (.other .msgsBooked) 0) : BookInv b pushed p := by
  refine ⟨book, count, idle, fun _ => unset, fun hs => absurd hs hsaw, ?_⟩
  revert hsaw
  cases p.bookPc <;> simp [sawDone, Found]

theorem Inv.quiet (h : Inv b msgs pushed p) (hp : p.bookPc.inHand = []) {q : WeakSpsc MainVar ParsedMessage}
    {c : UInt64} {pc : BookPc} (hpc : pc.inHand = []) (hframe : WeakSpsc.Frame .consumer p.queue q)
    (hq : q.Inv kQueueBits pushed p.popped)
    (hb : BookInv b pushed { p with queue := q, bookCount := c, bookPc := pc }) :
    Inv b msgs pushed { p with queue := q, bookCount := c, bookPc := pc } := by
  refine ⟨?_, hframe.closed h.closed, h.parser.frame (hframe.prod (by decide)) (hframe.writes _)
    (hframe.writes _) (hframe.view _ (by decide)) _ _ _ _, hb⟩
  rw [popped, BookPc.popped_of_inHand hp] at hq
  rwa [popped, BookPc.popped_of_inHand hpc]

theorem Inv.unset_of_frame (h : Inv b msgs pushed p) (hne : p.bookPc ≠ .returned)
    {q : WeakSpsc MainVar ParsedMessage} (hframe : WeakSpsc.Frame .consumer p.queue q) :
    q.mem.Unset (.other .msgsBooked) 0 :=
  (hframe.writes _).trans (h.book.unset hne)

theorem Inv.popping (h : Inv b msgs pushed p) (hpc : p.bookPc = .popping) {it : IterOrder n}
    {tailFirst : Bool} {i : ℕ} (hs : p.stepBook b it tailFirst i = .ok (some p')) : Inv b msgs pushed p' := by
  have hp : p.bookPc.inHand = [] := by rw [hpc]; rfl
  have hcount := h.book.count
  simp only [BookPc.total, hpc] at hcount
  simp only [WeakPipeline.stepBook, hpc, Except.ok.injEq] at hs
  obtain ⟨⟨q, res⟩, hq, rfl⟩ := Option.map_eq_some_iff.mp hs
  have hframe := WeakSpsc.frame_stepCons hq
  have hunset := h.unset_of_frame (by rw [hpc]; rintro ⟨⟩) hframe
  have hstep := h.queue.stepCons hq
  cases res with
  | none =>
    exact h.quiet hp rfl hframe hstep (.of_unseen id h.book.book hcount (fun hne => absurd rfl hne) hunset)
  | some res =>
    cases res with
    | none =>
      obtain ⟨-, hinv, hidle, -⟩ := hstep
      exact h.quiet hp rfl hframe hinv (.of_unseen id h.book.book hcount (fun _ => hidle) hunset)
    | some msg =>
      obtain ⟨hinv, hidle, -⟩ := hstep
      rw [popped, BookPc.popped_of_inHand hp] at hinv
      exact ⟨hinv, hframe.closed h.closed, h.parser.frame (hframe.prod (by decide)) (hframe.writes _)
        (hframe.writes _) (hframe.view _ (by decide)) _ _ _ _,
        .of_unseen id h.book.book hcount (fun _ => hidle) hunset⟩

theorem Inv.dispatch (h : Inv b msgs pushed p) {msg : ParsedMessage} (hpc : p.bookPc = .dispatch msg)
    {it : IterOrder n} {tailFirst : Bool} {i : ℕ} (hs : p.stepBook b it tailFirst i = .ok (some p')) :
    Inv b msgs pushed p' := by
  have hqueue := h.queue
  have hcount := h.book.count
  have hidle := h.book.idle (by rw [hpc]; rintro ⟨⟩)
  have hunset := h.book.unset (by rw [hpc]; rintro ⟨⟩)
  simp only [popped, BookPc.popped, hpc] at hqueue
  simp only [BookPc.total, hpc] at hcount
  simp only [WeakPipeline.stepBook, hpc] at hs
  obtain ⟨s, hdispatch, hs⟩ := of_bind_eq_ok hs
  cases hs
  refine ⟨?_, h.closed, h.parser.frame rfl rfl rfl rfl _ _ _ _, .of_unseen id ?_ ?_ (fun _ => hidle) hunset⟩
  · show p.queue.Inv kQueueBits pushed ((p.dispatched ++ [(msg, it)]).map Prod.fst ++ [])
    rw [List.append_nil, List.map_append]
    exact hqueue
  · exact (run_append_of_ok h.book.book _).trans (run_cons_of_ok hdispatch [])
  · show p.bookCount + 1 = _
    rw [hcount, Pipeline.ofNat_length_snoc]

/-- **The load of the flag.** Who finds it set knows all that the parser thread did. -/
theorem Inv.loadDone (h : Inv b msgs pushed p) {i : ℕ} {v : UInt64} {q : WeakSpsc MainVar ParsedMessage}
    (hload : p.queue.load .consumer (.other .parseDone) i = some (v, q)) (hv : v ≠ 0) :
    p.parserPc = .returned ∧ (q.mem.view .consumer).write .tail = pushed.length ∧
      1 ≤ (q.mem.view .consumer).write (.other .msgsParsed) := by
  obtain ⟨hmem, hq⟩ := WeakSpsc.of_load hload
  have hstored := h.parser.stored
  cases hpc : p.parserPc with
  | returned =>
    rw [hpc] at hstored
    obtain ⟨⟨view, hset, htail, hparsed⟩, -⟩ := hstored
    obtain ⟨-, hview⟩ := hset.of_acquire h.queue.indexed hmem hv
    have hsound := ((h.queue.acquire hmem).sound.thread .consumer).tail
    refine ⟨rfl, Nat.le_antisymm hsound ?_, ?_⟩
    · show pushed.length ≤ (q.mem.view .consumer).write .tail
      rw [hview, View.join_write]
      exact htail.trans (le_max_right _ _)
    · rw [hview, View.join_write]
      exact hparsed.trans (le_max_right _ _)
  | storeDone =>
    rw [hpc] at hstored
    exact absurd (hstored.1.eq_of_load hmem) hv
  | _ =>
    rw [hpc] at hstored
    exact absurd (hstored.1.eq_of_load hmem) hv

/-- A load of the book thread does not lose what it has seen. -/
theorem Inv.seen_of_load (h : Inv b msgs pushed p) (hsaw : sawDone p.bookPc) {l : Shared MainVar} {i : ℕ}
    {v : UInt64} {q : WeakSpsc MainVar ParsedMessage} (hload : p.queue.load .consumer l i = some (v, q)) :
    p.parserPc = .returned ∧ (q.mem.view .consumer).write .tail = pushed.length ∧
      1 ≤ (q.mem.view .consumer).write (.other .msgsParsed) := by
  obtain ⟨hmem, -⟩ := WeakSpsc.of_load hload
  obtain ⟨hret, htail, hparsed⟩ := h.book.seen hsaw
  exact ⟨hret, h.queue.knows_of_acquire htail hmem,
    hparsed.trans ((Memory.le_view_of_acquire h.queue.indexed hmem .consumer).1 _)⟩

theorem Inv.load (h : Inv b msgs pushed p) (hl : loads p.bookPc) {l : Shared MainVar} {i : ℕ} {v : UInt64}
    {q : WeakSpsc MainVar ParsedMessage} (hload : p.queue.load .consumer l i = some (v, q)) {pc : BookPc}
    (hpc : pc.inHand = []) (htotal : pc.total p.bookCount = p.bookCount)
    (hseen : sawDone pc → p.parserPc = .returned ∧ (q.mem.view .consumer).write .tail = pushed.length ∧
      1 ≤ (q.mem.view .consumer).write (.other .msgsParsed))
    (hfound : Found q.mem p.bookCount pushed.length p.dispatched.length pc) :
    Inv b msgs pushed { p with queue := q, bookPc := pc } := by
  obtain ⟨hmem, hq⟩ := WeakSpsc.of_load hload
  obtain ⟨hp, hpop, hret, hcount⟩ := of_loads hl
  have hframe : WeakSpsc.Frame .consumer p.queue q := hq ▸ WeakSpsc.frame_load hmem
  have hinv : q.Inv kQueueBits pushed p.popped := hq ▸ h.queue.acquire hmem
  have hidle : q.cons = .idle := by rw [hq, h.book.idle hpop]
  exact h.quiet hp hpc hframe hinv ⟨h.book.book, htotal.trans (hcount.symm.trans h.book.count),
    fun _ => hidle, fun _ => h.unset_of_frame hret hframe, hseen, hfound⟩

theorem Inv.load_head (h : Inv b msgs pushed p) (hl : loads p.bookPc) {i : ℕ} {v : UInt64}
    {q : WeakSpsc MainVar ParsedMessage} (hload : p.queue.load .consumer .head i = some (v, q)) :
    v.toNat = p.dispatched.length % 2 ^ (kQueueBits : ℕ) := by
  obtain ⟨hmem, -⟩ := WeakSpsc.of_load hload
  have hv := h.queue.load_head hmem
  rwa [popped, BookPc.popped_of_inHand (of_loads hl).1, List.length_map] at hv

/-- The value of `tail_` that the book thread loads after it has seen the flag. -/
theorem Inv.load_tail (h : Inv b msgs pushed p) (hsaw : sawDone p.bookPc) {i : ℕ} {v : UInt64}
    {q : WeakSpsc MainVar ParsedMessage} (hload : p.queue.load .consumer .tail i = some (v, q)) :
    v.toNat = pushed.length % 2 ^ (kQueueBits : ℕ) := by
  obtain ⟨hmem, -⟩ := WeakSpsc.of_load hload
  exact h.queue.load_tail (h.book.seen hsaw).2.1 hmem

/-- The loop is left only if the queue is empty after the flag was seen. -/
theorem Inv.length_eq (h : Inv b msgs pushed p) (hl : loads p.bookPc) {head tail : UInt64}
    (hhead : head.toNat = p.dispatched.length % 2 ^ (kQueueBits : ℕ))
    (htail : tail.toNat = pushed.length % 2 ^ (kQueueBits : ℕ)) (heq : head = tail) :
    p.dispatched.length = pushed.length := by
  have hqueue := h.queue
  rw [popped, BookPc.popped_of_inHand (of_loads hl).1] at hqueue
  have hlen := hqueue.length_eq (by rwa [List.length_map]) htail heq
  rwa [List.length_map] at hlen

theorem Inv.loading (h : Inv b msgs pushed p) (hl : loads p.bookPc) {it : IterOrder n} {tailFirst : Bool}
    {i : ℕ} (hs : p.stepBook b it tailFirst i = .ok (some p')) : Inv b msgs pushed p' := by
  have hfound := h.book.found
  cases hpc : p.bookPc with
  | loadDone =>
    simp only [WeakPipeline.stepBook, hpc, Except.ok.injEq] at hs
    obtain ⟨⟨v, q⟩, hload, rfl⟩ := Option.map_eq_some_iff.mp hs
    by_cases hv : v ≠ 0
    · simp only [if_pos hv]
      exact h.load hl hload rfl rfl (fun _ => h.loadDone hload hv) trivial
    · simp only [if_neg hv]
      exact h.load hl hload rfl rfl False.elim trivial
  | empty =>
    have hsaw : sawDone p.bookPc := by rw [hpc]; trivial
    simp only [WeakPipeline.stepBook, hpc] at hs
    cases tailFirst with
    | true =>
      simp only [if_true, Except.ok.injEq] at hs
      obtain ⟨⟨v, q⟩, hload, rfl⟩ := Option.map_eq_some_iff.mp hs
      exact h.load hl hload rfl rfl (fun _ => h.seen_of_load hsaw hload) (h.load_tail hsaw hload)
    | false =>
      simp only [Bool.false_eq_true, if_false, Except.ok.injEq] at hs
      obtain ⟨⟨v, q⟩, hload, rfl⟩ := Option.map_eq_some_iff.mp hs
      exact h.load hl hload rfl rfl (fun _ => h.seen_of_load hsaw hload) (h.load_head hl hload)
  | emptyTail head =>
    have hsaw : sawDone p.bookPc := by rw [hpc]; trivial
    rw [hpc] at hfound
    simp only [WeakPipeline.stepBook, hpc, Except.ok.injEq] at hs
    obtain ⟨⟨v, q⟩, hload, rfl⟩ := Option.map_eq_some_iff.mp hs
    by_cases hv : head = v
    · simp only [if_pos hv]
      exact h.load hl hload rfl rfl (fun _ => h.seen_of_load hsaw hload)
        (h.length_eq hl hfound (h.load_tail hsaw hload) hv)
    · simp only [if_neg hv]
      exact h.load hl hload rfl rfl False.elim trivial
  | emptyHead tail =>
    have hsaw : sawDone p.bookPc := by rw [hpc]; trivial
    rw [hpc] at hfound
    simp only [WeakPipeline.stepBook, hpc, Except.ok.injEq] at hs
    obtain ⟨⟨v, q⟩, hload, rfl⟩ := Option.map_eq_some_iff.mp hs
    by_cases hv : v = tail
    · simp only [if_pos hv]
      exact h.load hl hload rfl rfl (fun _ => h.seen_of_load hsaw hload)
        (h.length_eq hl (h.load_head hl hload) hfound hv)
    · simp only [if_neg hv]
      exact h.load hl hload rfl rfl False.elim trivial
  | _ =>
    rw [hpc] at hl
    exact hl.elim

theorem Inv.storeBooked (h : Inv b msgs pushed p) (hpc : p.bookPc = .storeBooked) :
    Inv b msgs pushed { p with
      queue := p.queue.store .consumer .msgsBooked p.bookCount, bookPc := .returned } := by
  have hp : p.bookPc.inHand = [] := by rw [hpc]; rfl
  have hidle := h.book.idle (by rw [hpc]; rintro ⟨⟩)
  have hunset := h.book.unset (by rw [hpc]; rintro ⟨⟩)
  obtain ⟨hret, htail, hparsed⟩ := h.book.seen (by rw [hpc]; trivial)
  have hcount := h.book.count
  have hfound := h.book.found
  rw [hpc] at hfound
  simp only [BookPc.total, hpc] at hcount
  have hqueue := h.queue.storeOther .consumer .msgsBooked p.bookCount
  have hgrow := (Memory.le_view_of_store p.queue.mem .consumer (.other .msgsBooked) p.bookCount .consumer).1
  have hknown := Memory.le_store_view p.queue.mem .consumer (.other .msgsBooked) p.bookCount
  rw [show p.queue.mem.writes (.other .msgsBooked) = _ from hunset] at hknown
  refine ⟨?_, h.closed.store _, h.parser.frame (q := p.queue.store .consumer .msgsBooked p.bookCount) rfl
    (Memory.store_writes_of_ne _ _ (by simp) _) (Memory.store_writes_of_ne _ _ (by simp) _)
    (Memory.store_view_of_ne _ (by decide) _ _) _ _ _ _,
    ⟨h.book.book, hcount, fun _ => hidle, fun hne => absurd rfl hne, fun _ => ⟨hret, ?_, ?_⟩,
      hfound, ⟨_, hunset.store _⟩, hknown⟩⟩
  · rw [popped, BookPc.popped_of_inHand hp] at hqueue
    rw [popped, BookPc.popped_of_inHand]
    · exact hqueue
    · rfl
  · exact Nat.le_antisymm (hqueue.sound.thread .consumer).tail (htail ▸ hgrow .tail)
  · exact hparsed.trans (hgrow _)

/-- **Every step of the book thread keeps the invariant.** -/
theorem Inv.stepBook (h : Inv b msgs pushed p) {it : IterOrder n} {tailFirst : Bool} {i : ℕ}
    (hs : p.stepBook b it tailFirst i = .ok (some p')) : Inv b msgs pushed p' := by
  by_cases hl : loads p.bookPc
  · exact h.loading hl hs
  have hcount := h.book.count
  cases hpc : p.bookPc with
  | tryPop =>
    have hidle := h.book.idle (by rw [hpc]; rintro ⟨⟩)
    simp only [BookPc.total, WeakPipeline.stepBook, hpc, Except.ok.injEq] at hcount hs
    obtain ⟨q, hq, rfl⟩ := Option.map_eq_some_iff.mp hs
    have hframe := WeakSpsc.frame_tryPop hq
    exact h.quiet (by rw [hpc]; rfl) rfl hframe (h.queue.tryPop hidle hq) (.of_unseen id h.book.book hcount
      (fun hne => absurd rfl hne) (h.unset_of_frame (by rw [hpc]; rintro ⟨⟩) hframe))
  | popping => exact h.popping hpc hs
  | dispatch msg => exact h.dispatch hpc hs
  | increment =>
    have hidle := h.book.idle (by rw [hpc]; rintro ⟨⟩)
    have hunset := h.book.unset (by rw [hpc]; rintro ⟨⟩)
    simp only [BookPc.total, WeakPipeline.stepBook, hpc, Except.ok.injEq] at hcount hs
    cases hs
    exact h.quiet (by rw [hpc]; rfl) rfl (WeakSpsc.frame_refl _ _) h.queue
      (.of_unseen id h.book.book hcount (fun _ => hidle) hunset)
  | storeBooked =>
    simp only [WeakPipeline.stepBook, hpc, Except.ok.injEq, Option.some.injEq] at hs
    subst hs
    exact h.storeBooked hpc
  | returned =>
    simp only [WeakPipeline.stepBook, hpc, Except.ok.injEq, Option.some.injEq] at hs
    subst hs
    exact h
  | _ =>
    rw [hpc] at hl
    exact absurd trivial hl

theorem inv_of_reachable {slots : UInt64 → ParsedMessage} {r : ITCHFileReader}
    (h : Relation.ReflTransGen (Step b) (init slots r) p) : ∃ pushed, Inv b r.messages pushed p := by
  induction h with
  | refl => exact ⟨[], inv_init slots r⟩
  | tail _ hs ih =>
    obtain ⟨pushed, hinv⟩ := ih
    cases hs with
    | parser i hstep => exact hinv.stepParser hstep
    | book it tailFirst i hstep => exact ⟨pushed, hinv.stepBook hstep⟩

/-! ## The sequential replay -/

theorem Inv.popped_isPrefix (h : Inv b msgs pushed p) : p.popped <+: msgs :=
  h.queue.fifo.trans ⟨_, h.parser.split⟩

theorem Inv.left (h : Inv b msgs pushed p) (hl : p.Left) :
    p.parserPc = .returned ∧ p.dispatched.map Prod.fst = msgs := by
  have hfound := h.book.found
  have hp : p.bookPc.inHand = [] := by
    rcases hl with hpc | hpc <;> rw [hpc] <;> rfl
  have hret : p.parserPc = .returned := by
    rcases hl with hpc | hpc <;> exact (h.book.seen (by rw [hpc]; trivial)).1
  have hlen : p.dispatched.length = pushed.length := by
    rcases hl with hpc | hpc <;> rw [hpc] at hfound
    · exact hfound
    · exact hfound.1
  have hsplit := h.parser.split
  have hfifo := h.queue.fifo
  simp only [ParserPc.pending, hret, List.append_nil] at hsplit
  rw [popped, BookPc.popped_of_inHand hp, hsplit] at hfifo
  exact ⟨hret, hfifo.eq_of_length (by rw [List.length_map, hlen, hsplit])⟩

/-- What `main` may load from a counter that was stored once. -/
theorem Inv.visible_iff (h : Inv b msgs pushed p) {x : MainVar} {v v₁ : UInt64}
    {view : View (Shared MainVar) Party} (hset : p.queue.mem.SetOnce (.other x) 0 v₁ view)
    (hknown : 1 ≤ (p.queue.mem.view .consumer).write (.other x)) :
    p.queue.mem.Visible p.joined (.other x) v ↔ v = v₁ := by
  have hprod := h.closed.thread .producer (.other x)
  have hcons := h.closed.thread .consumer (.other x)
  rw [show p.queue.mem.writes (.other x) = _ from hset] at hprod hcons
  simp only [List.length_cons, List.length_nil] at hprod hcons
  refine hset.visible_iff ?_
  rw [joined, View.join_write]
  omega

theorem Inv.visible_counts (h : Inv b msgs pushed p) (hpc : p.bookPc = .returned) (v : UInt64) :
    (p.queue.mem.Visible p.joined (.other .msgsParsed) v ↔ v = UInt64.ofNat msgs.length) ∧
      (p.queue.mem.Visible p.joined (.other .msgsBooked) v ↔ v = UInt64.ofNat msgs.length) := by
  obtain ⟨hret, hall⟩ := h.left (.inr hpc)
  obtain ⟨-, -, hparsed⟩ := h.book.seen (by rw [hpc]; trivial)
  have hstored := h.parser.stored
  have hfound := h.book.found
  have hparser := h.parser.count
  have hbook := h.book.count
  rw [hret] at hstored
  rw [hpc] at hfound
  simp only [ParserPc.total, hret] at hparser
  simp only [BookPc.total, hpc] at hbook
  obtain ⟨-, view, hset⟩ := hstored
  obtain ⟨hlen, ⟨view', hset'⟩, hbooked⟩ := hfound
  rw [← hall, List.length_map, ← hbook]
  rw [← hlen, ← hbook] at hparser
  rw [hparser] at hset
  exact ⟨h.visible_iff hset hparsed, h.visible_iff hset' hbooked⟩

end Inv

/-- **The replay is safe under release and acquire.** For every non-empty file and every execution in which
loads may return old writes, no access to a slot of the queue races with another one. The messages handed to
`dispatch` so far are a prefix of the parsed frames of the file, and the book is the fold of `dispatch` over
those it is done with. If the book thread has left its loop, the parser thread has returned and each message
was dispatched once and in order; if it has returned, `main` can only print the number of the messages as that
of the parsed and of the booked ones. -/
theorem weak_sequential (b : Build) (slots : UInt64 → ParsedMessage) (content : List UInt8)
    (hc : content ≠ []) :
    ∃ r, ITCHFileReader.load content = some r ∧
      ∀ p : WeakPipeline n, Relation.ReflTransGen (Step b) (init slots r) p →
        (∀ msg t, p.queue.prod = .writeSlot msg t → ¬ p.queue.mem.WriteRace .producer t) ∧
        (∀ c, p.queue.cons = .readSlot c → ¬ p.queue.mem.ReadRace .consumer c) ∧
        p.popped <+: r.messages ∧
        (OrderBook.init n).replay b p.dispatched = .ok p.book ∧
        (p.Left → p.parserPc = .returned ∧ p.dispatched.map Prod.fst = r.messages) ∧
        (p.bookPc = .returned → ∀ v,
          (p.queue.mem.Visible p.joined (.other .msgsParsed) v ↔ v = UInt64.ofNat r.messages.length) ∧
          (p.queue.mem.Visible p.joined (.other .msgsBooked) v ↔ v = UInt64.ofNat r.messages.length)) := by
  refine ⟨_, ITCHFileReader.load_of_ne_nil hc, fun p hreach => ?_⟩
  obtain ⟨pushed, hinv⟩ := inv_of_reachable hreach
  exact ⟨fun msg t hpc => hinv.queue.not_writeRace hpc, fun c hpc => hinv.queue.not_readRace hpc,
    hinv.popped_isPrefix, hinv.book.book, hinv.left, hinv.visible_counts⟩

/-- The parser thread runs to its end on a file with one frame. The book thread loads the first writes of
`tail_` and of the flag, then those of the parser thread; it dispatches the message and leaves the loop. -/
def staleTurns : List (Turn 1) :=
  List.replicate 10 (0, none) ++
    [0, 0, 0, 0, 0, 1, 1, 0, 0, 1, 0, 0, 0, 0, 1, 1, 1, 1, 1, 0].map fun i => (i, some (.newest 1, true))

theorem weak_sequential_stale :
    ∃ (r : ITCHFileReader) (p : WeakPipeline 1), ITCHFileReader.load [0, 1, 90] = some r ∧
      staleTurns.foldlM (turn .debug) (init (fun _ => .monostate) r) = some p ∧ p.bookPc = .returned ∧
      p.dispatched.map Prod.fst = r.messages ∧
      p.queue.mem.Visible p.joined (.other .msgsBooked) (UInt64.ofNat r.messages.length) := by
  obtain ⟨r, hr, hall⟩ := weak_sequential (n := 1) .debug (fun _ => .monostate) [0, 1, 90] (by decide)
  obtain rfl : ⟨[0, 1, 90], 0⟩ = r :=
    Option.some.inj ((ITCHFileReader.load_of_ne_nil (by decide)).symm.trans hr)
  obtain ⟨p, hrun, hpc⟩ : ∃ p, staleTurns.foldlM (turn .debug) (init (fun _ => .monostate) ⟨[0, 1, 90], 0⟩) =
      some p ∧ p.bookPc = .returned := ⟨_, rfl, rfl⟩
  obtain ⟨-, -, -, -, hleft, hloads⟩ := hall p (reachable_of_turns hrun)
  exact ⟨_, p, hr, hrun, hpc, (hleft (.inr hpc)).2, ((hloads hpc _).2).mpr rfl⟩

end WeakPipeline

end L2Book
