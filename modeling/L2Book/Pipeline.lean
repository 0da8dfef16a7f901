import Mathlib.Logic.Relation
import L2Book.Book.Naive
import L2Book.Transport.Reader
import L2Book.Transport.Spsc

/-!
# The two threads of the replay

The parser thread and the book thread of `main.cpp`, which share a queue, a flag and two counters. A step
is one call of `next_message`, `parse_message` or `dispatch`, one step of `try_push` or `try_pop`, one
atomic load or store, or one increment of a local counter. Memory is sequentially consistent. The two
loads of `empty()` are operands of one `==`, so either may come first. A thread in which `dispatch`
faults takes no further step.

* `Pipeline`: the shared and the local variables of both threads; `stepParser`, `stepBook`, `Step`;
* `Turn`, **`Pipeline.reachable_iff_run`**: interleavings are runs of schedules;
* `ParserPc.pending`, `BookPc.popped`: the messages that are still to be pushed, and those that left the
  queue; `ParserPc.total`, `BookPc.total`: the counters, with the increment that may be due;
* **`Pipeline.Inv`**: what holds between any two steps; `Inv.stepParser`, `Inv.stepBook`;
* **`Pipeline.sequential`**: the two threads compute what the sequential replay computes.
-/

namespace L2Book

/-- `kQueueCapacity` is `2 ^ kQueueBits`. -/
def kQueueBits : Fin 64 := 16

example : Spsc.capacity kQueueBits = 65536 := by decide

/-- Where the parser thread stands. `push` is the head of the retry loop of `parse_and_push`, `pushing`
lies within `try_push`. -/
inductive ParserPc
  | nextMessage
  | parse (raw : ℕ) (len : UInt16)
  | push (msg : ParsedMessage)
  | pushing (msg : ParsedMessage)
  | increment
  | storeParsed
  | storeDone
  | returned

/-- The stores after the loop have not begun. -/
def ParserPc.running : ParserPc → Bool
  | .storeDone => false
  | .returned => false
  | _ => true

/-- Where the book thread stands. `empty` is the call of `queue.empty()`; in `emptyTail` and `emptyHead`
one of its two loads is still to be done. -/
inductive BookPc
  | tryPop
  | popping
  | dispatch (msg : ParsedMessage)
  | increment
  | loadDone
  | empty
  | emptyTail (head : UInt64)
  | emptyHead (tail : UInt64)
  | storeBooked
  | returned

/-- The messages still to be pushed. -/
def ParserPc.pending (r : ITCHFileReader) : ParserPc → List ParsedMessage
  | .nextMessage => r.messages
  | .parse raw len => r.message (raw, len) :: r.messages
  | .push msg => msg :: r.messages
  | .pushing msg => msg :: r.messages
  | .increment => r.messages
  | .storeParsed => []
  | .storeDone => []
  | .returned => []

def ParserPc.total (count : UInt64) : ParserPc → UInt64
  | .increment => count + 1
  | _ => count

/-- The loop is left. -/
def BookPc.Left (pc : BookPc) : Prop := pc = .storeBooked ∨ pc = .returned

/-- The message handed to `dispatch`. -/
def BookPc.inHand : BookPc → List ParsedMessage
  | .dispatch msg => [msg]
  | _ => []

/-- The messages handed to `dispatch`, the current one included. -/
def BookPc.popped {n : ℕ} (ds : List (Input n)) (pc : BookPc) : List ParsedMessage :=
  ds.map Prod.fst ++ pc.inHand

theorem BookPc.popped_of_inHand {n : ℕ} {ds : List (Input n)} {pc : BookPc} (h : pc.inHand = []) :
    pc.popped ds = ds.map Prod.fst := by
  rw [BookPc.popped, h, List.append_nil]

def BookPc.total (count : UInt64) : BookPc → UInt64
  | .increment => count + 1
  | _ => count

/-- The variables of `main` and of its two threads. `dispatched` records the calls of `dispatch`, each
with the iteration order of `order_map_` at that time. -/
structure Pipeline (n : ℕ) where
  queue : Spsc ParsedMessage
  parseDone : Bool
  msgsParsed : UInt64
  msgsBooked : UInt64
  reader : ITCHFileReader
  parserCount : UInt64
  parserPc : ParserPc
  book : OrderBook n
  bookCount : UInt64
  bookPc : BookPc
  dispatched : List (Input n)

namespace Pipeline

variable {n : ℕ}

/-- Both threads at their loops, after the construction of the reader. -/
def init (slots : UInt64 → ParsedMessage) (r : ITCHFileReader) : Pipeline n where
  queue := .init slots
  parseDone := false
  msgsParsed := 0
  msgsBooked := 0
  reader := r
  parserCount := 0
  parserPc := .nextMessage
  book := .init n
  bookCount := 0
  bookPc := .tryPop
  dispatched := []

/-- One step of the parser thread. -/
def stepParser (p : Pipeline n) : Pipeline n :=
  match p.parserPc with
  | .nextMessage =>
    match p.reader.nextMessage with
    | (some (raw, len), r) => { p with reader := r, parserPc := .parse raw len }
    | (none, r) => { p with reader := r, parserPc := .storeParsed }
  | .parse raw len =>
    { p with parserPc := .push (parseMessage (some (p.reader.buf.drop raw)) len) }
  | .push msg => { p with queue := p.queue.tryPush msg, parserPc := .pushing msg }
  | .pushing msg =>
    { p with
      queue := (p.queue.stepProd kQueueBits).1
      parserPc := match (p.queue.stepProd kQueueBits).2 with
        | none => .pushing msg
        | some true => .increment
        | some false => .push msg }
  | .increment => { p with parserCount := p.parserCount + 1, parserPc := .nextMessage }
  | .storeParsed => { p with msgsParsed := p.parserCount, parserPc := .storeDone }
  | .storeDone => { p with parseDone := true, parserPc := .returned }
  | .returned => p

/-- One step of the book thread. `it` is the iteration order of `order_map_`, and `tailFirst` says which
load of `empty()` comes first. -/
def stepBook (b : Build) (it : IterOrder n) (tailFirst : Bool) (p : Pipeline n) :
    Except Fault (Pipeline n) :=
  match p.bookPc with
  | .tryPop => .ok { p with queue := p.queue.tryPop, bookPc := .popping }
  | .popping =>
    .ok { p with
      queue := (p.queue.stepCons kQueueBits).1
      bookPc := match (p.queue.stepCons kQueueBits).2 with
        | none => .popping
        | some (some msg) => .dispatch msg
        | some none => .loadDone }
  | .dispatch msg => do
    let book ← p.book.dispatch b it msg
    .ok { p with book := book, dispatched := p.dispatched ++ [(msg, it)], bookPc := .increment }
  | .increment => .ok { p with bookCount := p.bookCount + 1, bookPc := .tryPop }
  | .loadDone => .ok { p with bookPc := if p.parseDone then .empty else .tryPop }
  | .empty =>
    .ok { p with bookPc := if tailFirst then .emptyHead p.queue.tail else .emptyTail p.queue.head }
  | .emptyTail head =>
    .ok { p with bookPc := if head = p.queue.tail then .storeBooked else .tryPop }
  | .emptyHead tail =>
    .ok { p with bookPc := if p.queue.head = tail then .storeBooked else .tryPop }
  | .storeBooked => .ok { p with msgsBooked := p.bookCount, bookPc := .returned }
  | .returned => .ok p

/-- One step of one thread. -/
inductive Step (b : Build) : Pipeline n → Pipeline n → Prop
  | parser (p : Pipeline n) : Step b p p.stepParser
  | book (p p' : Pipeline n) (it : IterOrder n) (tailFirst : Bool) :
      p.stepBook b it tailFirst = .ok p' → Step b p p'

/-- The book thread has left its loop. -/
def Left (p : Pipeline n) : Prop := p.bookPc.Left

/-! ## Schedules -/

/-- The thread to run next: the parser thread (`none`), or the book thread with the choices of its step. -/
abbrev Turn (n : ℕ) := Option (IterOrder n × Bool)

def turn (b : Build) (p : Pipeline n) : Turn n → Except Fault (Pipeline n)
  | none => .ok p.stepParser
  | some (it, tailFirst) => p.stepBook b it tailFirst

theorem step_iff_turn {b : Build} {p p' : Pipeline n} : Step b p p' ↔ ∃ t, p.turn b t = .ok p' := by
  constructor
  · intro h
    cases h with
    | parser => exact ⟨none, rfl⟩
    | book _ it tailFirst h => exact ⟨some (it, tailFirst), h⟩
  · rintro ⟨_ | ⟨it, tailFirst⟩, h⟩
    · cases h
      exact .parser p
    · exact .book p p' it tailFirst h

/-- **Interleavings are runs of schedules.** -/
theorem reachable_iff_run {b : Build} {p p' : Pipeline n} :
    Relation.ReflTransGen (Step b) p p' ↔ ∃ ts, run (turn b) p ts = .ok p' := by
  constructor
  · intro h
    induction h with
    | refl => exact ⟨[], rfl⟩
    | tail _ hs ih =>
      obtain ⟨ts, hts⟩ := ih
      obtain ⟨t, ht⟩ := step_iff_turn.mp hs
      exact ⟨ts ++ [t], (run_append_of_ok hts _).trans (run_cons_of_ok ht [])⟩
  · rintro ⟨ts, h⟩
    induction ts generalizing p with
    | nil =>
      cases h
      exact .refl
    | cons t ts ih =>
      rw [run_cons] at h
      obtain ⟨p₁, ht, h⟩ := of_bind_eq_ok h
      exact .head (step_iff_turn.mpr ⟨t, ht⟩) (ih h)

/-! ## The invariant -/

/-- The messages that left the queue. -/
def popped (p : Pipeline n) : List ParsedMessage := p.bookPc.popped p.dispatched

/-- The parser thread has pushed the messages `pushed` of `msgs`. The flag is set after the counter, and
both after the last push. -/
structure ParserInv (msgs pushed : List ParsedMessage) (p : Pipeline n) : Prop where
  split : pushed ++ p.parserPc.pending p.reader = msgs
  item : ∀ msg, p.parserPc = .pushing msg → p.queue.prod.item = some msg
  count : p.parserPc.total p.parserCount = UInt64.ofNat pushed.length
  parsed : p.parserPc = .storeDone ∨ p.parserPc = .returned → p.msgsParsed = p.parserCount
  done : p.parseDone = true → p.parserPc = .returned

/-- The book is that of the dispatched messages; once the flag was seen, the queue stays as the two loads
of `empty()` find it. -/
structure BookInv (b : Build) (pushed : List ParsedMessage) (p : Pipeline n) : Prop where
  book : (OrderBook.init n).replay b p.dispatched = .ok p.book
  count : p.bookPc.total p.bookCount = UInt64.ofNat p.dispatched.length
  exit : match p.bookPc with
    | .empty => p.parseDone = true
    | .emptyTail head => p.parseDone = true ∧ head = p.queue.head
    | .emptyHead tail => p.parseDone = true ∧ tail = p.queue.tail
    | .storeBooked => p.parseDone = true ∧ p.dispatched.length = pushed.length
    | .returned => p.parseDone = true ∧ p.dispatched.length = pushed.length ∧
        p.msgsBooked = p.bookCount
    | _ => True

/-- **What holds between any two steps.** -/
structure Inv (b : Build) (msgs pushed : List ParsedMessage) (p : Pipeline n) : Prop where
  queue : p.queue.Inv kQueueBits pushed p.popped
  parser : ParserInv msgs pushed p
  book : BookInv b pushed p

section Inv

variable {b : Build} {msgs pushed : List ParsedMessage} {p p' : Pipeline n}

theorem ofNat_length_snoc {α : Type} (l : List α) (x : α) :
    UInt64.ofNat (l ++ [x]).length = UInt64.ofNat l.length + 1 := by
  rw [List.length_append, List.length_singleton, UInt64.ofNat_add]
  rfl

theorem ParserInv.of_running (hd : p.parseDone = false) (hrun : p.parserPc.running = true)
    (split : pushed ++ p.parserPc.pending p.reader = msgs)
    (item : ∀ msg, p.parserPc = .pushing msg → p.queue.prod.item = some msg)
    (count : p.parserPc.total p.parserCount = UInt64.ofNat pushed.length) : ParserInv msgs pushed p := by
  refine ⟨split, item, count, ?_, fun h => ?_⟩
  · rintro (h | h)
    · rw [h] at hrun
      cases hrun
    · rw [h] at hrun
      cases hrun
  · rw [hd] at h
    cases h

theorem inv_init (slots : UInt64 → ParsedMessage) (r : ITCHFileReader) :
    Inv b r.messages [] (init (n := n) slots r) where
  queue := Spsc.inv_init kQueueBits slots
  parser := .of_running rfl rfl rfl nofun rfl
  book := ⟨rfl, rfl, trivial⟩

/-- The book thread cannot tell what the parser thread does before it sets the flag. -/
theorem BookInv.frame (h : BookInv b pushed p) (hd : p.parseDone = false)
    (q : Spsc ParsedMessage) (d : Bool) (m c : UInt64) (r : ITCHFileReader) (pc : ParserPc)
    (pushed' : List ParsedMessage) :
    BookInv b pushed' { p with
      queue := q, parseDone := d, msgsParsed := m, reader := r, parserCount := c, parserPc := pc } := by
  refine ⟨h.book, h.count, ?_⟩
  have hexit := h.exit
  revert hexit
  simp only [hd]
  cases p.bookPc <;> simp

theorem ParserInv.frame (h : ParserInv msgs pushed p) {q : Spsc ParsedMessage}
    (hq : q.prod = p.queue.prod) (m c : UInt64) (s : OrderBook n) (pc : BookPc) (ds : List (Input n)) :
    ParserInv msgs pushed { p with
      queue := q, msgsBooked := m, book := s, bookCount := c, bookPc := pc, dispatched := ds } :=
  ⟨h.split, fun msg hpc => by rw [hq]; exact h.item msg hpc, h.count, h.parsed, h.done⟩

/-! ## Steps of the parser thread -/

theorem ParserInv.parseDone_eq_false (h : ParserInv msgs pushed p) (hpc : p.parserPc ≠ .returned) :
    p.parseDone = false := by
  cases hd : p.parseDone with
  | false => rfl
  | true => exact absurd (h.done hd) hpc

theorem Inv.pushing (h : Inv b msgs pushed p) {msg : ParsedMessage} (hpc : p.parserPc = .pushing msg) :
    ∃ pushed', Inv b msgs pushed' p.stepParser := by
  have hd := h.parser.parseDone_eq_false (by rw [hpc]; rintro ⟨⟩)
  have hsplit := h.parser.split
  have hcount := h.parser.count
  have hitem := h.parser.item msg hpc
  simp only [ParserPc.pending, ParserPc.total, hpc] at hsplit hcount
  have hstep := h.queue.stepProd
  simp only [stepParser, hpc]
  cases hres : (p.queue.stepProd kQueueBits).2 with
  | none =>
    rw [hres] at hstep
    refine ⟨pushed, hstep, .of_running hd rfl hsplit ?_ hcount, h.book.frame hd _ _ _ _ _ _ _⟩
    rintro _ ⟨⟩
    rw [← hitem]
    exact Spsc.item_stepProd hres
  | some ok =>
    rw [hres] at hstep
    cases ok with
    | false =>
      -- full: the retry loop begins again with the same message
      obtain ⟨-, hq, -, -⟩ := hstep
      refine ⟨pushed, hq, .of_running hd rfl hsplit ?_ hcount, h.book.frame hd _ _ _ _ _ _ _⟩
      rintro _ ⟨⟩
    | true =>
      obtain ⟨item, t, hprod, hq, -, -⟩ := hstep
      rw [hprod, ProdPc.item, Option.some.injEq] at hitem
      subst hitem
      refine ⟨pushed ++ [item], hq, .of_running hd rfl ?_ ?_ ?_, h.book.frame hd _ _ _ _ _ _ _⟩
      · rw [← hsplit, List.append_assoc]
        rfl
      · rintro _ ⟨⟩
      · show p.parserCount + 1 = _
        rw [hcount, ofNat_length_snoc]

/-- **Every step of the parser thread keeps the invariant.** -/
theorem Inv.stepParser (h : Inv b msgs pushed p) : ∃ pushed', Inv b msgs pushed' p.stepParser := by
  by_cases hr : p.parserPc = .returned
  · refine ⟨pushed, ?_⟩
    simp only [Pipeline.stepParser, hr]
    exact h
  have hd := h.parser.parseDone_eq_false hr
  have hsplit := h.parser.split
  have hcount := h.parser.count
  cases hpc : p.parserPc with
  | nextMessage =>
    simp only [ParserPc.pending, ParserPc.total, hpc] at hsplit hcount
    rcases hn : p.reader.nextMessage with ⟨res, r⟩
    cases res with
    | none =>
      simp only [Pipeline.stepParser, hpc, hn]
      rw [ITCHFileReader.messages_of_none hn] at hsplit
      exact ⟨pushed, h.queue, .of_running hd rfl hsplit nofun hcount,
        h.book.frame hd _ _ _ _ _ _ _⟩
    | some f =>
      simp only [Pipeline.stepParser, hpc, hn]
      rw [ITCHFileReader.messages_of_some hn, ← ITCHFileReader.message_congr hn] at hsplit
      exact ⟨pushed, h.queue, .of_running hd rfl hsplit nofun hcount,
        h.book.frame hd _ _ _ _ _ _ _⟩
  | parse raw len =>
    simp only [Pipeline.stepParser, ParserPc.pending, ParserPc.total, hpc] at hsplit hcount ⊢
    exact ⟨pushed, h.queue, .of_running hd rfl hsplit nofun hcount,
      h.book.frame hd _ _ _ _ _ _ _⟩
  | push msg =>
    simp only [Pipeline.stepParser, ParserPc.pending, ParserPc.total, hpc] at hsplit hcount ⊢
    refine ⟨pushed, h.queue.tryPush msg, .of_running hd rfl hsplit ?_ hcount,
      h.book.frame hd _ _ _ _ _ _ _⟩
    rintro _ ⟨⟩
    rfl
  | pushing msg => exact h.pushing hpc
  | increment =>
    simp only [Pipeline.stepParser, ParserPc.pending, ParserPc.total, hpc] at hsplit hcount ⊢
    exact ⟨pushed, h.queue, .of_running hd rfl hsplit nofun hcount,
      h.book.frame hd _ _ _ _ _ _ _⟩
  | storeParsed =>
    simp only [Pipeline.stepParser, ParserPc.pending, ParserPc.total, hpc] at hsplit hcount ⊢
    exact ⟨pushed, h.queue, ⟨hsplit, nofun, hcount, fun _ => rfl, fun ht => absurd ht (by simp [hd])⟩,
      h.book.frame hd _ _ _ _ _ _ _⟩
  | storeDone =>
    have hparsed := h.parser.parsed (.inl hpc)
    simp only [Pipeline.stepParser, ParserPc.pending, ParserPc.total, hpc] at hsplit hcount ⊢
    exact ⟨pushed, h.queue, ⟨hsplit, nofun, hcount, fun _ => hparsed, fun _ => rfl⟩,
      h.book.frame hd _ _ _ _ _ _ _⟩
  | returned => exact absurd hpc hr

/-! ## Steps of the book thread -/

theorem exists_dispatch_of_inHand (h : p.bookPc.inHand ≠ []) : ∃ msg, p.bookPc = .dispatch msg := by
  cases hpc : p.bookPc with
  | dispatch msg => exact ⟨msg, rfl⟩
  | _ =>
    rw [hpc] at h
    exact absurd rfl h

theorem Inv.quiet (h : Inv b msgs pushed p) (hp : p.bookPc.inHand = [])
    {q : Spsc ParsedMessage} {m c : UInt64} {pc : BookPc} (hpc : pc.inHand = [])
    (hq : q.Inv kQueueBits pushed p.popped) (hprod : q.prod = p.queue.prod)
    (hb : BookInv b pushed { p with queue := q, msgsBooked := m, bookCount := c, bookPc := pc }) :
    Inv b msgs pushed { p with queue := q, msgsBooked := m, bookCount := c, bookPc := pc } := by
  refine ⟨?_, h.parser.frame hprod _ _ _ _ _, hb⟩
  rw [popped, BookPc.popped_of_inHand hp] at hq
  rw [popped, BookPc.popped_of_inHand hpc]
  exact hq

theorem Inv.popping (h : Inv b msgs pushed p) (hpc : p.bookPc = .popping) {it : IterOrder n}
    {tailFirst : Bool} (hs : p.stepBook b it tailFirst = .ok p') : Inv b msgs pushed p' := by
  have hp : p.bookPc.inHand = [] := by
    rw [hpc]
    rfl
  have hcount := h.book.count
  have hstep := h.queue.stepCons
  simp only [BookPc.total, hpc] at hcount
  simp only [Pipeline.stepBook, hpc, Except.ok.injEq] at hs
  subst hs
  cases hres : (p.queue.stepCons kQueueBits).2 with
  | none =>
    rw [hres] at hstep
    exact h.quiet hp rfl hstep Spsc.stepCons_prod ⟨h.book.book, hcount, trivial⟩
  | some res =>
    rw [hres] at hstep
    cases res with
    | none => exact h.quiet hp rfl hstep.2.1 Spsc.stepCons_prod ⟨h.book.book, hcount, trivial⟩
    | some msg =>
      rw [popped, BookPc.popped_of_inHand hp] at hstep
      exact ⟨hstep.1, h.parser.frame Spsc.stepCons_prod _ _ _ _ _, ⟨h.book.book, hcount, trivial⟩⟩

theorem Inv.dispatch (h : Inv b msgs pushed p) {msg : ParsedMessage} (hpc : p.bookPc = .dispatch msg)
    {it : IterOrder n} {tailFirst : Bool} (hs : p.stepBook b it tailFirst = .ok p') :
    Inv b msgs pushed p' := by
  have hqueue := h.queue
  have hcount := h.book.count
  simp only [popped, BookPc.popped, hpc] at hqueue
  simp only [BookPc.total, hpc] at hcount
  simp only [Pipeline.stepBook, hpc] at hs
  obtain ⟨s, hdispatch, hs⟩ := of_bind_eq_ok hs
  cases hs
  refine ⟨?_, h.parser.frame rfl _ _ _ _ _, ?_, ?_, trivial⟩
  · show p.queue.Inv kQueueBits pushed ((p.dispatched ++ [(msg, it)]).map Prod.fst ++ [])
    rw [List.append_nil, List.map_append]
    exact hqueue
  · exact (run_append_of_ok h.book.book _).trans (run_cons_of_ok hdispatch [])
  · show p.bookCount + 1 = _
    rw [hcount, ofNat_length_snoc]

/-- The loop is left only if the queue is empty after the flag was set. -/
theorem Inv.length_eq (h : Inv b msgs pushed p) (hp : p.bookPc.inHand = [])
    (he : p.queue.head = p.queue.tail) : p.dispatched.length = pushed.length := by
  have hlen := h.queue.empty_iff.mp he
  rwa [popped, BookPc.popped_of_inHand hp, List.length_map] at hlen

/-- **Every step of the book thread keeps the invariant.** -/
theorem Inv.stepBook (h : Inv b msgs pushed p) {it : IterOrder n} {tailFirst : Bool}
    (hs : p.stepBook b it tailFirst = .ok p') : Inv b msgs pushed p' := by
  by_cases hp : p.bookPc.inHand = []
  swap
  · obtain ⟨msg, hpc⟩ := exists_dispatch_of_inHand hp
    exact h.dispatch hpc hs
  have hcount := h.book.count
  have hexit := h.book.exit
  cases hpc : p.bookPc with
  | popping => exact h.popping hpc hs
  | dispatch msg => exact h.dispatch hpc hs
  | tryPop =>
    simp only [BookPc.total, Pipeline.stepBook, hpc, Except.ok.injEq] at hcount hs
    subst hs
    exact h.quiet hp rfl h.queue.tryPop rfl ⟨h.book.book, hcount, trivial⟩
  | increment =>
    simp only [BookPc.total, Pipeline.stepBook, hpc, Except.ok.injEq] at hcount hs
    subst hs
    exact h.quiet hp rfl h.queue rfl ⟨h.book.book, hcount, trivial⟩
  | loadDone =>
    simp only [BookPc.total, Pipeline.stepBook, hpc, Except.ok.injEq] at hcount hs
    subst hs
    split_ifs with hdone
    · exact h.quiet hp rfl h.queue rfl ⟨h.book.book, hcount, hdone⟩
    · exact h.quiet hp rfl h.queue rfl ⟨h.book.book, hcount, trivial⟩
  | empty =>
    simp only [BookPc.total, Pipeline.stepBook, hpc, Except.ok.injEq] at hcount hexit hs
    subst hs
    split_ifs
    · exact h.quiet hp rfl h.queue rfl ⟨h.book.book, hcount, hexit, rfl⟩
    · exact h.quiet hp rfl h.queue rfl ⟨h.book.book, hcount, hexit, rfl⟩
  | emptyTail head =>
    simp only [BookPc.total, Pipeline.stepBook, hpc, Except.ok.injEq] at hcount hexit hs
    subst hs
    obtain ⟨hdone, rfl⟩ := hexit
    split_ifs with he
    · exact h.quiet hp rfl h.queue rfl ⟨h.book.book, hcount, hdone, h.length_eq hp he⟩
    · exact h.quiet hp rfl h.queue rfl ⟨h.book.book, hcount, trivial⟩
  | emptyHead tail =>
    simp only [BookPc.total, Pipeline.stepBook, hpc, Except.ok.injEq] at hcount hexit hs
    subst hs
    obtain ⟨hdone, rfl⟩ := hexit
    split_ifs with he
    · exact h.quiet hp rfl h.queue rfl ⟨h.book.book, hcount, hdone, h.length_eq hp he⟩
    · exact h.quiet hp rfl h.queue rfl ⟨h.book.book, hcount, trivial⟩
  | storeBooked =>
    simp only [BookPc.total, Pipeline.stepBook, hpc, Except.ok.injEq] at hcount hexit hs
    subst hs
    exact h.quiet hp rfl h.queue rfl ⟨h.book.book, hcount, hexit.1, hexit.2, rfl⟩
  | returned =>
    simp only [Pipeline.stepBook, hpc, Except.ok.injEq] at hs
    subst hs
    exact h

theorem inv_of_reachable {slots : UInt64 → ParsedMessage} {r : ITCHFileReader}
    (h : Relation.ReflTransGen (Step b) (init slots r) p) : ∃ pushed, Inv b r.messages pushed p := by
  induction h with
  | refl => exact ⟨[], inv_init slots r⟩
  | tail _ hs ih =>
    obtain ⟨pushed, hinv⟩ := ih
    cases hs with
    | parser => exact hinv.stepParser
    | book _ it tailFirst hstep => exact ⟨pushed, hinv.stepBook hstep⟩

/-! ## The sequential replay -/

theorem Inv.popped_isPrefix (h : Inv b msgs pushed p) : p.popped <+: msgs :=
  h.queue.fifo.trans ⟨_, h.parser.split⟩

/-- Once the loop is left, the parser thread has returned and all messages are dispatched. -/
theorem Inv.left (h : Inv b msgs pushed p) (hl : p.Left) :
    p.parserPc = .returned ∧ p.dispatched.map Prod.fst = msgs ∧ p.bookCount = p.msgsParsed := by
  have hp : p.bookPc.inHand = [] := by
    rcases hl with hpc | hpc <;> rw [hpc] <;> rfl
  have hexit : p.parseDone = true ∧ p.dispatched.length = pushed.length := by
    have := h.book.exit
    rcases hl with hpc | hpc
    · rw [hpc] at this
      exact this
    · rw [hpc] at this
      exact ⟨this.1, this.2.1⟩
  obtain ⟨hdone, hlen⟩ := hexit
  have hret := h.parser.done hdone
  have hsplit := h.parser.split
  have hparser := h.parser.count
  have hbook := h.book.count
  have hfifo := h.queue.fifo
  simp only [ParserPc.pending, ParserPc.total, hret, List.append_nil] at hsplit hparser
  rw [popped, BookPc.popped_of_inHand hp, hsplit] at hfifo
  refine ⟨hret, hfifo.eq_of_length (by rw [List.length_map, hlen, hsplit]), ?_⟩
  rw [h.parser.parsed (.inr hret), hparser, ← hlen, ← hbook]
  rcases hl with hpc | hpc <;> simp only [BookPc.total, hpc]

end Inv

/-- **The two threads compute the sequential replay.** For every non-empty file and every interleaving, the
messages handed to `dispatch` so far are a prefix of the parsed frames of the file, and the book is the
fold of `dispatch` over those it is done with. If the book thread has left its loop, it has dispatched
each message once and in order, and has counted as many messages as the parser thread. -/
theorem sequential (b : Build) (slots : UInt64 → ParsedMessage) (content : List UInt8)
    (hc : content ≠ []) :
    ∃ r, ITCHFileReader.load content = some r ∧
      ∀ p : Pipeline n, Relation.ReflTransGen (Step b) (init slots r) p →
        p.popped <+: r.messages ∧
        p.dispatched.map Prod.fst <+: r.messages ∧
        (OrderBook.init n).replay b p.dispatched = .ok p.book ∧
        (p.Left → p.dispatched.map Prod.fst = r.messages ∧ p.bookCount = p.msgsParsed) ∧
        (p.bookPc = .returned → p.msgsBooked = p.msgsParsed) := by
  refine ⟨_, ITCHFileReader.load_of_ne_nil hc, fun p hreach => ?_⟩
  obtain ⟨pushed, hinv⟩ := inv_of_reachable hreach
  have hpopped := hinv.popped_isPrefix
  refine ⟨hpopped, List.IsPrefix.trans ⟨_, rfl⟩ hpopped, hinv.book.book, fun hl => (hinv.left hl).2,
    fun hpc => ?_⟩
  have hexit := hinv.book.exit
  rw [hpc] at hexit
  rw [hexit.2.2]
  exact (hinv.left (.inr hpc)).2.2

/-- The book thread finds the queue empty and the flag unset; the parser thread runs to its end on a file
with one frame; the book thread dispatches its message and leaves the loop. -/
def oneFrameTurns : List (Turn 1) :=
  List.replicate 3 (some (.newest 1, false)) ++ List.replicate 10 none ++
    List.replicate 12 (some (.newest 1, true))

theorem sequential_oneFrame :
    ∃ (r : ITCHFileReader) (p : Pipeline 1), ITCHFileReader.load [0, 1, 90] = some r ∧
      run (turn .debug) (init (fun _ => .monostate) r) oneFrameTurns = .ok p ∧ p.bookPc = .returned ∧
      p.dispatched.map Prod.fst = r.messages ∧ p.msgsBooked = p.msgsParsed := by
  obtain ⟨r, hr, hall⟩ := sequential (n := 1) .debug (fun _ => .monostate) [0, 1, 90] (by decide)
  obtain rfl : ⟨[0, 1, 90], 0⟩ = r :=
    Option.some.inj ((ITCHFileReader.load_of_ne_nil (by decide)).symm.trans hr)
  obtain ⟨p, hrun, hpc⟩ : ∃ p, run (turn .debug) (init (fun _ => .monostate) ⟨[0, 1, 90], 0⟩)
      oneFrameTurns = .ok p ∧ p.bookPc = .returned := ⟨_, rfl, rfl⟩
  obtain ⟨-, -, -, hleft, hbooked⟩ := hall p (reachable_iff_run.mpr ⟨_, hrun⟩)
  exact ⟨_, p, hr, hrun, hpc, (hleft (.inr hpc)).1, hbooked hpc⟩

end Pipeline

end L2Book
