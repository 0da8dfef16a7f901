import Mathlib.Data.Fintype.Defs
import Mathlib.Data.Finset.Insert
import L2Book.Lib.Fair
import L2Book.Pipeline

/-!
# Both threads come to their end

Under any schedule in which both threads keep having turns, the two threads of `main.cpp` finish. Neither
can do so alone: the parser thread waits for room in the queue, the book thread for the flag. What is
left to do is counted in pushes, pops and the exit of the parser thread, none of which is ever undone.
While the parser thread runs and the queue has room, the parser thread is the one that must come to its
next push; otherwise the book thread must come to its next pop, or out of its loop.

* `Thread`, `thread`: whose turn it is; `helper`: the thread that must move;
* `todo`, `parserPhase`, `bookPhase`, `rank`: the measure;
* `Alert`: a thread within a call of the queue has one open, and an exited parser thread has set the flag;
* **`progress`**: the measure decreases in every round;
* **`completes`**: so the replay is over after a number of rounds that is linear in the file.
-/

namespace L2Book

namespace Pipeline

/-- The threads of `main`. -/
inductive Thread
  | parser
  | book
deriving DecidableEq

instance : Fintype Thread := ⟨{.parser, .book}, fun θ => by cases θ <;> simp⟩

variable {n : ℕ}

def thread : Turn n → Thread
  | none => .parser
  | some _ => .book

/-! ## The measure -/

/-- `try_push` would return `false`. -/
abbrev Full (p : Pipeline n) : Prop := Spsc.next kQueueBits p.queue.tail = p.queue.head

/-- The parser thread has left its function. -/
def exited (p : Pipeline n) : Bool :=
  match p.parserPc with
  | .returned => true
  | _ => false

/-- The thread that must move. -/
def helper (p : Pipeline n) : Thread := if p.exited = true ∨ p.Full then .book else .parser

/-- Pushes, pops and the exit of the parser thread that are still to come, for a file of `total` messages. -/
def todo (total : ℕ) (p : Pipeline n) : ℕ :=
  (p.parserPc.pending p.reader).length + (if p.exited then 0 else 1) + (total - p.popped.length)

/-- The distance of the parser thread from its next push, or from its exit, while there is room. -/
def parserPhase (p : Pipeline n) : ℕ :=
  match p.parserPc with
  | .increment => 9
  | .nextMessage => 8
  | .parse _ _ => 7
  | .push _ => 6
  | .pushing _ =>
    match p.queue.prod with
    | .writeSlot _ _ => 4
    | .storeTail _ _ => 3
    | _ => 5
  | .storeParsed => 2
  | .storeDone => 1
  | .returned => 0

/-- The distance of the book thread from its next pop if there is a message in the queue, and from its exit
if there is none and the parser thread has exited. -/
def bookPhase (p : Pipeline n) : ℕ :=
  let back := if p.queue.head = p.queue.tail then 0 else 9
  match p.bookPc with
  | .dispatch _ => 14
  | .increment => 13
  | .tryPop => 12
  | .popping =>
    match p.queue.cons with
    | .readSlot _ => 10
    | .storeHead _ _ => 9
    | _ => 11
  | .loadDone => 8 + back
  | .empty => 7 + back
  | .emptyTail _ => 6 + back
  | .emptyHead _ => 6 + back
  | .storeBooked => 5
  | .returned => 0

/-- **The measure**: what is left to do, and how far the helper is from doing the next of it. -/
def rank (total : ℕ) (p : Pipeline n) : ℕ :=
  18 * p.todo total + if p.helper = .parser then p.parserPhase else p.bookPhase

section Measure

variable {p p' : Pipeline n} {total : ℕ}

theorem parserPhase_le : p.parserPhase ≤ 9 := by
  unfold parserPhase
  split <;> try omega
  split <;> omega

theorem bookPhase_le : p.bookPhase ≤ 17 := by
  have hback : (if p.queue.head = p.queue.tail then 0 else 9) ≤ 9 := by split_ifs <;> omega
  unfold bookPhase
  dsimp only
  split <;> try omega
  split <;> omega

theorem rank_lt_of_todo (h : p'.todo total < p.todo total) : p'.rank total < p.rank total := by
  have hp := parserPhase_le (p := p')
  have hb := bookPhase_le (p := p')
  unfold rank
  split_ifs <;> omega

theorem exited_iff : p.exited = true ↔ p.parserPc = .returned := by
  unfold exited
  cases p.parserPc <;> simp

end Measure

/-! ## What a step does to the measure -/

/-- A thread within a call of the queue has it open, and an exited parser thread has set the flag. -/
structure Alert (p : Pipeline n) : Prop where
  popping : p.bookPc = .popping → p.queue.cons ≠ .idle
  done : p.parserPc = .returned → p.parseDone = true

theorem alert_init (slots : UInt64 → ParsedMessage) (r : ITCHFileReader) :
    Alert (init (n := n) slots r) := ⟨nofun, nofun⟩

section Step

variable {b : Build} {msgs pushed : List ParsedMessage} {p p' : Pipeline n} {total : ℕ}

theorem stepParser_frame :
    p.stepParser.queue.head = p.queue.head ∧ p.stepParser.queue.cons = p.queue.cons ∧
      p.stepParser.bookPc = p.bookPc ∧ p.stepParser.popped = p.popped := by
  unfold stepParser
  split
  case h_1 => split <;> exact ⟨rfl, rfl, rfl, rfl⟩
  case h_4 => exact ⟨Spsc.stepProd_head, Spsc.stepProd_cons, rfl, rfl⟩
  all_goals exact ⟨rfl, rfl, rfl, rfl⟩

theorem Alert.stepParser (h : Alert p) : Alert p.stepParser := by
  obtain ⟨-, hcons, hpc, -⟩ := stepParser_frame (p := p)
  refine ⟨fun hp => ?_, ?_⟩
  · rw [hcons]
    exact h.popping (hpc ▸ hp)
  · have hdone := h.done
    unfold Pipeline.stepParser
    split
    case h_1 => split <;> nofun
    case h_4 =>
      dsimp only
      split <;> nofun
    case h_7 => exact fun _ => rfl
    case h_8 => exact hdone
    all_goals nofun

/-- A step within `try_push` completes the push, or comes closer to it unless the queue is full. -/
theorem Inv.pushing_measure (h : Inv b msgs pushed p) {msg : ParsedMessage}
    (hpc : p.parserPc = .pushing msg) :
    p.stepParser.todo total < p.todo total ∨
      p.stepParser.todo total = p.todo total ∧ p.stepParser.queue.tail = p.queue.tail ∧
        p.stepParser.exited = false ∧ (¬ p.Full → p.stepParser.parserPhase < p.parserPhase) := by
  have hitem := h.parser.item msg hpc
  have hprod := h.queue.prod
  cases hq : p.queue.prod with
  | idle =>
    rw [hq] at hitem
    cases hitem
  | loadHead item t =>
    rw [hq] at hprod
    subst hprod
    by_cases hf : p.Full
    · refine .inr ⟨?_, ?_, ?_, fun hn => absurd hf hn⟩ <;>
        simp [todo, popped, ParserPc.pending, exited, Pipeline.stepParser, hpc, Spsc.stepProd, hq, hf]
    · refine .inr ⟨?_, ?_, ?_, fun _ => ?_⟩ <;>
        simp [todo, popped, ParserPc.pending, exited, parserPhase, Pipeline.stepParser, hpc, Spsc.stepProd,
          hq, hf]
  | writeSlot item t =>
    refine .inr ⟨?_, ?_, ?_, fun _ => ?_⟩ <;>
      simp [todo, popped, ParserPc.pending, exited, parserPhase, Pipeline.stepParser, hpc, Spsc.stepProd, hq]
  | storeTail item t =>
    left
    simp [todo, popped, ParserPc.pending, exited, Pipeline.stepParser, hpc, Spsc.stepProd, hq]

/-- **A step of the parser thread** completes a push or its exit, or comes closer to it unless the queue is
full. -/
theorem Inv.stepParser_measure (h : Inv b msgs pushed p) (total : ℕ) (hr : p.exited = false) :
    p.stepParser.todo total < p.todo total ∨
      p.stepParser.todo total = p.todo total ∧ p.stepParser.queue.tail = p.queue.tail ∧
        p.stepParser.exited = false ∧ (¬ p.Full → p.stepParser.parserPhase < p.parserPhase) := by
  cases hpc : p.parserPc with
  | pushing msg => exact h.pushing_measure hpc
  | returned =>
    rw [exited_iff.mpr hpc] at hr
    cases hr
  | storeDone =>
    left
    simp [todo, popped, ParserPc.pending, exited, Pipeline.stepParser, hpc]
  | nextMessage =>
    right
    rcases hn : p.reader.nextMessage with ⟨_ | f, r⟩
    · have hmsgs := ITCHFileReader.messages_of_none hn
      refine ⟨?_, ?_, ?_, fun _ => ?_⟩ <;>
        simp [todo, popped, ParserPc.pending, exited, parserPhase, Pipeline.stepParser, hpc, hn, hmsgs]
    · have hmsgs := ITCHFileReader.messages_of_some hn
      refine ⟨?_, ?_, ?_, fun _ => ?_⟩ <;>
        simp [todo, popped, ParserPc.pending, exited, parserPhase, Pipeline.stepParser, hpc, hn, hmsgs]
  | _ =>
    right
    refine ⟨?_, ?_, ?_, fun _ => ?_⟩ <;>
      simp [todo, popped, ParserPc.pending, exited, parserPhase, Pipeline.stepParser, hpc, Spsc.tryPush]

/-! ## Steps of the book thread -/

theorem stepBook_frame {it : IterOrder n} {tailFirst : Bool} (hs : p.stepBook b it tailFirst = .ok p') :
    p'.queue.tail = p.queue.tail ∧ p'.queue.prod = p.queue.prod ∧ p'.parserPc = p.parserPc ∧
      p'.parseDone = p.parseDone ∧ p'.reader = p.reader := by
  unfold stepBook at hs
  split at hs
  case h_2 =>
    cases hs
    exact ⟨Spsc.stepCons_tail, Spsc.stepCons_prod, rfl, rfl, rfl⟩
  case h_3 =>
    obtain ⟨s, -, hs⟩ := of_bind_eq_ok hs
    cases hs
    exact ⟨rfl, rfl, rfl, rfl, rfl⟩
  all_goals
    cases hs
    exact ⟨rfl, rfl, rfl, rfl, rfl⟩

theorem todo_stepBook (total : ℕ) {it : IterOrder n} {tailFirst : Bool}
    (hs : p.stepBook b it tailFirst = .ok p') (hpopped : p'.popped = p.popped) :
    p'.todo total = p.todo total := by
  obtain ⟨-, -, hpc, -, hreader⟩ := stepBook_frame hs
  rw [todo, todo, exited, exited, hpc, hreader, hpopped]

theorem Alert.stepBook (h : Alert p) {it : IterOrder n} {tailFirst : Bool}
    (hs : p.stepBook b it tailFirst = .ok p') : Alert p' := by
  obtain ⟨-, -, hpc, hdone, -⟩ := stepBook_frame hs
  refine ⟨?_, fun hr => ?_⟩
  · cases hb : p.bookPc with
    | tryPop =>
      simp only [Pipeline.stepBook, hb, Except.ok.injEq] at hs
      subst hs
      exact fun _ he => by cases he
    | popping =>
      simp only [Pipeline.stepBook, hb, Except.ok.injEq] at hs
      subst hs
      have hopen := h.popping hb
      revert hopen
      unfold Spsc.stepCons
      split
      · simp_all
      · split_ifs <;> simp
      · simp
      · simp
    | dispatch msg =>
      simp only [Pipeline.stepBook, hb] at hs
      obtain ⟨s, -, hs⟩ := of_bind_eq_ok hs
      cases hs
      exact fun he => by cases he
    | _ =>
      simp only [Pipeline.stepBook, hb, Except.ok.injEq] at hs
      subst hs
      try split_ifs
      all_goals simp [hb]
  · rw [hdone]
    exact h.done (hpc ▸ hr)

theorem Inv.ne_of_full (h : Inv b msgs pushed p) (hf : p.Full) : p.queue.head ≠ p.queue.tail := by
  intro he
  have hfull := h.queue.full_iff.mp hf
  rw [h.queue.empty_iff.mp he] at hfull
  have hcap : 2 ^ (kQueueBits : ℕ) = 65536 := rfl
  omega

/-- A step within `try_pop` completes the pop or comes closer to it, or it finds the queue empty. -/
theorem Inv.popping_measure (h : Inv b msgs pushed p) (ha : Alert p) (hpc : p.bookPc = .popping)
    {it : IterOrder n} {tailFirst : Bool} (hs : p.stepBook b it tailFirst = .ok p') :
    p'.todo msgs.length < p.todo msgs.length ∨
      p'.todo msgs.length = p.todo msgs.length ∧ p'.queue.head = p.queue.head ∧
        p'.bookPhase < p.bookPhase := by
  have hcons := h.queue.cons
  have hlen := ((h.stepBook hs).popped_isPrefix).length_le
  obtain ⟨-, -, hx, -, hreader⟩ := stepBook_frame hs
  have htodo := todo_stepBook msgs.length hs
  simp only [Pipeline.stepBook, hpc, Except.ok.injEq] at hs
  cases hq : p.queue.cons with
  | idle => exact absurd hq (ha.popping hpc)
  | loadTail h' =>
    rw [hq] at hcons
    subst hcons
    by_cases he : p.queue.head = p.queue.tail
    · simp only [Spsc.stepCons, hq, he, if_true] at hs
      subst hs
      refine .inr ⟨htodo ?_, he.symm, ?_⟩
      · simp [popped, BookPc.popped, BookPc.inHand, hpc]
      · simp [bookPhase, hpc, hq]
    · simp only [Spsc.stepCons, hq, he, if_false] at hs
      subst hs
      refine .inr ⟨htodo ?_, rfl, ?_⟩
      · simp [popped, BookPc.popped, BookPc.inHand, hpc]
      · simp [bookPhase, hpc, hq]
  | readSlot h' =>
    simp only [Spsc.stepCons, hq] at hs
    subst hs
    refine .inr ⟨htodo ?_, rfl, ?_⟩
    · simp [popped, BookPc.popped, BookPc.inHand, hpc]
    · simp [bookPhase, hpc, hq]
  | storeHead h' out =>
    left
    simp only [Spsc.stepCons, hq] at hs
    subst hs
    rw [todo, todo, exited, exited, hx, hreader]
    simp only [popped, BookPc.popped, hpc, BookPc.inHand, List.length_append, List.length_map,
      List.length_nil, List.length_singleton] at hlen ⊢
    omega

/-- **A step of the book thread** completes a pop, or comes closer to it or to the exit, unless the queue is
empty and the parser thread still runs. -/
theorem Inv.stepBook_measure (h : Inv b msgs pushed p) (ha : Alert p) (hG : p.bookPc ≠ .returned)
    {it : IterOrder n} {tailFirst : Bool} (hs : p.stepBook b it tailFirst = .ok p') :
    p'.todo msgs.length < p.todo msgs.length ∨
      p'.todo msgs.length = p.todo msgs.length ∧ p'.queue.head = p.queue.head ∧
        (p.exited = true ∨ p.Full → p'.bookPhase < p.bookPhase) := by
  have hexit := h.book.exit
  have htodo := todo_stepBook msgs.length hs
  cases hpc : p.bookPc with
  | popping =>
    refine (h.popping_measure ha hpc hs).imp id ?_
    rintro ⟨htodo, hhead, hlt⟩
    exact ⟨htodo, hhead, fun _ => hlt⟩
  | returned => exact absurd hpc hG
  | dispatch msg =>
    simp only [Pipeline.stepBook, hpc] at hs
    obtain ⟨s, -, hs⟩ := of_bind_eq_ok hs
    cases hs
    refine .inr ⟨htodo ?_, rfl, fun _ => ?_⟩
    · simp [popped, BookPc.popped, BookPc.inHand, hpc]
    · simp [bookPhase, hpc]
  | loadDone =>
    simp only [Pipeline.stepBook, hpc, Except.ok.injEq] at hs
    subst hs
    refine .inr ⟨htodo ?_, rfl, fun hw => ?_⟩
    · split_ifs <;> simp [popped, BookPc.popped, BookPc.inHand, hpc]
    · cases hd : p.parseDone with
      | true => simp [bookPhase, hpc]
      | false =>
        -- the parser thread still runs, so the queue is full
        have hf : p.Full := hw.resolve_left fun hx => by
          rw [ha.done (exited_iff.mp hx)] at hd
          cases hd
        simp [bookPhase, hpc, h.ne_of_full hf]
  | empty =>
    simp only [Pipeline.stepBook, hpc, Except.ok.injEq] at hs
    subst hs
    refine .inr ⟨htodo ?_, rfl, fun _ => ?_⟩
    · split_ifs <;> simp [popped, BookPc.popped, BookPc.inHand, hpc]
    · split_ifs <;> simp [bookPhase, hpc]
  | emptyTail head =>
    simp only [hpc] at hexit
    obtain ⟨-, rfl⟩ := hexit
    simp only [Pipeline.stepBook, hpc, Except.ok.injEq] at hs
    subst hs
    refine .inr ⟨htodo ?_, rfl, fun _ => ?_⟩
    · split_ifs <;> simp [popped, BookPc.popped, BookPc.inHand, hpc]
    · split_ifs with he <;> simp [bookPhase, hpc, he]
  | emptyHead tail =>
    simp only [hpc] at hexit
    obtain ⟨-, rfl⟩ := hexit
    simp only [Pipeline.stepBook, hpc, Except.ok.injEq] at hs
    subst hs
    refine .inr ⟨htodo ?_, rfl, fun _ => ?_⟩
    · split_ifs <;> simp [popped, BookPc.popped, BookPc.inHand, hpc]
    · split_ifs with he <;> simp [bookPhase, hpc, he]
  | _ =>
    simp only [Pipeline.stepBook, hpc, Except.ok.injEq] at hs
    subst hs
    refine .inr ⟨htodo ?_, rfl, fun _ => ?_⟩
    · simp [popped, BookPc.popped, BookPc.inHand, hpc]
    · simp [bookPhase, hpc, Spsc.tryPop]

/-! ## Progress -/

theorem helper_eq_book : p.helper = .book ↔ p.exited = true ∨ p.Full := by
  unfold helper
  split_ifs with hw
  · exact ⟨fun _ => hw, fun _ => rfl⟩
  · exact ⟨nofun, fun hw' => absurd hw' hw⟩

theorem helper_congr (hhead : p'.queue.head = p.queue.head) (htail : p'.queue.tail = p.queue.tail)
    (hx : p'.exited = p.exited) : p'.helper = p.helper := by
  unfold helper Full
  rw [hx, hhead, htail]

theorem Inv.stepParser_rank (h : Inv b msgs pushed p) :
    p.stepParser.rank total < p.rank total ∨ p.stepParser.rank total = p.rank total ∧
      p.stepParser.helper = p.helper ∧ Thread.parser ≠ p.helper := by
  cases hx : p.exited with
  | true =>
    have hself : p.stepParser = p := by simp only [Pipeline.stepParser, exited_iff.mp hx]
    rw [hself, helper_eq_book.mpr (.inl hx)]
    exact .inr ⟨rfl, rfl, fun he => by cases he⟩
  | false =>
    obtain ⟨hhead, hcons, hpc, -⟩ := stepParser_frame (p := p)
    rcases h.stepParser_measure total hx with hlt | ⟨htodo, htail, hx', hphase⟩
    · exact .inl (rank_lt_of_todo hlt)
    have hhelper := helper_congr hhead htail (hx'.trans hx.symm)
    by_cases hf : p.Full
    · -- the parser thread waits for room
      have hbook := helper_eq_book.mpr (.inr hf)
      refine .inr ⟨?_, hhelper, fun he => by cases he.trans hbook⟩
      rw [rank, rank, hhelper, htodo, bookPhase, bookPhase, hhead, htail, hcons, hpc, hbook]
      rfl
    · left
      have hparser : p.helper = .parser := by
        unfold helper
        rw [if_neg]
        rintro (hx₁ | hf₁)
        · rw [hx] at hx₁
          cases hx₁
        · exact hf hf₁
      have := hphase hf
      rw [rank, rank, hhelper, htodo, hparser, if_pos rfl, if_pos rfl]
      omega

theorem Inv.stepBook_rank (h : Inv b msgs pushed p) (ha : Alert p) (hG : p.bookPc ≠ .returned)
    {it : IterOrder n} {tailFirst : Bool} (hs : p.stepBook b it tailFirst = .ok p') :
    p'.rank msgs.length < p.rank msgs.length ∨ p'.rank msgs.length = p.rank msgs.length ∧
      p'.helper = p.helper ∧ Thread.book ≠ p.helper := by
  obtain ⟨htail, hprod, hpc, -, -⟩ := stepBook_frame hs
  rcases h.stepBook_measure ha hG hs with hlt | ⟨htodo, hhead, hphase⟩
  · exact .inl (rank_lt_of_todo hlt)
  have hhelper := helper_congr hhead htail (by rw [exited, exited, hpc])
  cases hw : p.helper with
  | book =>
    left
    have := hphase (helper_eq_book.mp hw)
    rw [rank, rank, hhelper, htodo, hw]
    exact Nat.add_lt_add_left this _
  | parser =>
    refine .inr ⟨?_, hhelper.trans hw, fun he => by cases he⟩
    rw [rank, rank, hhelper, htodo, hw, if_pos rfl, if_pos rfl, parserPhase, parserPhase, hprod, hpc]

/-- **The measure decreases in every round** until the book thread has returned. -/
theorem progress (b : Build) (msgs : List ParsedMessage) :
    Progress (turn (n := n) b) thread (fun p => (∃ pushed, Inv b msgs pushed p) ∧ Alert p)
      (fun p => p.bookPc = .returned) (rank msgs.length) helper where
  inv p t p' hp ht := by
    obtain ⟨⟨pushed, hinv⟩, ha⟩ := hp
    cases t with
    | none =>
      cases ht
      exact ⟨hinv.stepParser, ha.stepParser⟩
    | some c => exact ⟨⟨pushed, hinv.stepBook ht⟩, ha.stepBook ht⟩
  stable p t p' _ hG ht := by
    cases t with
    | none =>
      cases ht
      rw [(stepParser_frame (p := p)).2.2.1, hG]
    | some c =>
      simp only [turn, Pipeline.stepBook, hG, Except.ok.injEq] at ht
      rw [← ht, hG]
  step p t p' hp hG ht := by
    obtain ⟨⟨pushed, hinv⟩, ha⟩ := hp
    cases t with
    | none =>
      cases ht
      exact hinv.stepParser_rank
    | some c => exact hinv.stepBook_rank ha hG ht

end Step

section Run

variable {b : Build} {msgs pushed : List ParsedMessage} {p p' : Pipeline n}

theorem alert_of_reachable {slots : UInt64 → ParsedMessage} {r : ITCHFileReader}
    (h : Relation.ReflTransGen (Step b) (init slots r) p) :
    (∃ pushed, Inv b r.messages pushed p) ∧ Alert p := by
  obtain ⟨ts, hts⟩ := reachable_iff_run.mp h
  exact (progress b r.messages).inv_run ⟨⟨[], inv_init slots r⟩, alert_init slots r⟩ hts

theorem Inv.rank_lt (h : Inv b msgs pushed p) : p.rank msgs.length < 36 * (msgs.length + 1) := by
  have hsplit := congrArg List.length h.parser.split
  have hp := parserPhase_le (p := p)
  have hb := bookPhase_le (p := p)
  rw [List.length_append] at hsplit
  unfold rank todo
  split_ifs <;> omega

/-- The threads fault in `dispatch` only. -/
theorem Inv.turn_error (h : Inv b msgs pushed p) {t : Turn n} {e : Fault} (ht : p.turn b t = .error e) :
    ∃ feed : List (Input n), feed.map Prod.fst <+: msgs ∧ (OrderBook.init n).replay b feed = .error e := by
  rcases t with _ | ⟨it, tailFirst⟩
  · cases ht
  · simp only [turn] at ht
    cases hpc : p.bookPc with
    | dispatch msg =>
      have hprefix := h.popped_isPrefix
      simp only [popped, BookPc.popped, hpc, BookPc.inHand] at hprefix
      refine ⟨p.dispatched ++ [(msg, it)], by rwa [List.map_append], ?_⟩
      rw [OrderBook.replay, run_append_of_ok h.book.book]
      cases hd : p.book.dispatch b it msg with
      | error e' =>
        simp only [Pipeline.stepBook, hpc, hd, error_bind] at ht
        cases ht
        exact run_cons_of_error hd []
      | ok s =>
        simp only [Pipeline.stepBook, hpc, hd, ok_bind] at ht
        cases ht
    | _ =>
      simp only [Pipeline.stepBook, hpc] at ht
      cases ht

end Run

/-- Both threads have returned, and the messages were dispatched and counted. -/
structure Finished (msgs : List ParsedMessage) (p : Pipeline n) : Prop where
  parser : p.parserPc = .returned
  book : p.bookPc = .returned
  dispatched : p.dispatched.map Prod.fst = msgs
  parsed : p.msgsParsed = UInt64.ofNat msgs.length
  booked : p.msgsBooked = p.msgsParsed

section Run

variable {b : Build} {msgs pushed : List ParsedMessage} {p : Pipeline n}

theorem Inv.finished (h : Inv b msgs pushed p) (hret : p.bookPc = .returned) : Finished msgs p := by
  obtain ⟨hparser, hall, hcount⟩ := h.left (.inr hret)
  have hexit := h.book.exit
  have htotal := h.parser.count
  have hsplit := h.parser.split
  rw [hret] at hexit
  simp only [ParserPc.total, ParserPc.pending, hparser, List.append_nil] at htotal hsplit
  refine ⟨hparser, hret, hall, ?_, hexit.2.2.trans hcount⟩
  rw [h.parser.parsed (.inr hparser), htotal, hsplit]

theorem finished_or_fault (hI : (∃ pushed, Inv b msgs pushed p) ∧ Alert p) {ts : List (Turn n)}
    (hts : Rounds thread (36 * (msgs.length + 1)) ts) :
    (∃ p', run (turn b) p ts = .ok p' ∧ Finished msgs p') ∨
      ∃ e, run (turn b) p ts = .error e ∧ ∃ feed : List (Input n),
        feed.map Prod.fst <+: msgs ∧ (OrderBook.init n).replay b feed = .error e := by
  obtain ⟨pushed, hinv⟩ := hI.1
  cases hr : run (turn b) p ts with
  | error e =>
    obtain ⟨pre, t, -, p₁, -, hpre, ht⟩ := run_eq_error hr
    obtain ⟨pushed₁, hinv₁⟩ := ((progress b msgs).inv_run hI hpre).1
    exact .inr ⟨e, rfl, hinv₁.turn_error ht⟩
  | ok p' =>
    obtain ⟨pushed', hinv'⟩ := ((progress b msgs).inv_run hI hr).1
    exact .inl ⟨p', rfl, hinv'.finished ((progress b msgs).goal_of_rounds hI hinv.rank_lt hts hr)⟩

end Run

/-- **The replay comes to its end.** From every state that the two threads reach on a non-empty file, a
schedule with `36` rounds for each message and `36` more either ends with both threads returned, all
messages dispatched in order and both counters at their number, or it ends in a fault of `dispatch`, which
a sequential replay of a part of the messages meets as well. -/
theorem completes (b : Build) (slots : UInt64 → ParsedMessage) (content : List UInt8)
    (hc : content ≠ []) :
    ∃ r, ITCHFileReader.load content = some r ∧
      ∀ p : Pipeline n, Relation.ReflTransGen (Step b) (init slots r) p →
        ∀ ts, Rounds thread (36 * (r.messages.length + 1)) ts →
          (∃ p', run (turn b) p ts = .ok p' ∧ Finished r.messages p') ∨
            ∃ e, run (turn b) p ts = .error e ∧ ∃ feed : List (Input n),
              feed.map Prod.fst <+: r.messages ∧ (OrderBook.init n).replay b feed = .error e :=
  ⟨_, ITCHFileReader.load_of_ne_nil hc, fun _ hreach _ hts =>
    finished_or_fault (alert_of_reachable hreach) hts⟩

/-- The two threads take turns. -/
def alternateTurns (m : ℕ) : List (Turn 1) :=
  (List.replicate m [none, some (.newest 1, true)]).flatten

theorem rounds_alternateTurns (m : ℕ) : Rounds thread m (alternateTurns m) :=
  rounds_replicate (fun θ => by cases θ <;> simp [thread]) m

theorem completes_oneFrame :
    ∃ (r : ITCHFileReader) (p : Pipeline 1), ITCHFileReader.load [0, 1, 90] = some r ∧
      run (turn .debug) (init (fun _ => .monostate) r) (alternateTurns 72) = .ok p ∧
      p.bookPc = .returned ∧ p.msgsBooked = 1 := by
  obtain ⟨r, hr, hall⟩ := completes (n := 1) .debug (fun _ => .monostate) [0, 1, 90] (by decide)
  obtain rfl : ⟨[0, 1, 90], 0⟩ = r :=
    Option.some.inj ((ITCHFileReader.load_of_ne_nil (by decide)).symm.trans hr)
  have hfirst : ITCHFileReader.nextMessage ⟨[0, 1, 90], 0⟩ = (some (2, 1), ⟨[0, 1, 90], 3⟩) := rfl
  have hlast : ITCHFileReader.nextMessage ⟨[0, 1, 90], 3⟩ = (none, ⟨[0, 1, 90], 3⟩) := rfl
  have hmsgs : ITCHFileReader.messages ⟨[0, 1, 90], 0⟩ = [.monostate] := by
    rw [ITCHFileReader.messages_of_some hfirst, ITCHFileReader.messages_of_none hlast]
    rfl
  rw [hmsgs] at hall
  rcases hall _ .refl (alternateTurns 72) (rounds_alternateTurns 72) with hok | ⟨e, -, feed, hpre, he⟩
  · obtain ⟨p, hrun, hp⟩ := hok
    exact ⟨_, p, hr, hrun, hp.book, hp.booked.trans hp.parsed⟩
  · -- the book ignores the one message of the file
    rcases feed with _ | ⟨⟨msg, it⟩, _ | ⟨x, feed⟩⟩
    · cases he
    · obtain ⟨rfl, -⟩ := List.cons_prefix_cons.mp hpre
      cases he
    · have := hpre.length_le
      simp at this

/-- **Under a fair schedule** the replay comes to its end as well. -/
theorem finished_of_fair {b : Build} {slots : UInt64 → ParsedMessage} {r : ITCHFileReader} {f : ℕ → Turn n}
    (hf : Fair thread f)
    (hsafe : ∀ feed : List (Input n), feed.map Prod.fst <+: r.messages →
      ∃ s, (OrderBook.init n).replay b feed = .ok s) :
    ∃ len p, run (turn b) (init slots r) (turns f 0 len) = .ok p ∧ Finished r.messages p := by
  obtain ⟨len, hlen⟩ := hf.exists_rounds (36 * (r.messages.length + 1)) 0
  rcases finished_or_fault (alert_of_reachable .refl) hlen with ⟨p, hp⟩ | ⟨e, -, feed, hpre, he⟩
  · exact ⟨len, p, hp⟩
  · obtain ⟨s, hs⟩ := hsafe feed hpre
    rw [hs] at he
    cases he

end Pipeline

end L2Book
