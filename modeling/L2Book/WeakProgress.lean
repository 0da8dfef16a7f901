import Mathlib.Data.Fintype.Defs
import Mathlib.Data.Finset.Insert
import L2Book.Progress
import L2Book.Strong

/-!
# Both threads come to their end under release and acquire

Loads may return old writes, so both threads may go around their loops although the queue has room, or a
message, or the flag is set. The threads store finitely often. If every store is seen in the end, then from
some step on only last writes are loaded, and the threads take the steps of `Pipeline.lean` from a state that
has the invariant of `Progress.lean`.

* `loaded`: the variable that a turn loads; `Execution`: infinite executions; `Finished`;
* `Opened`: a call of `try_pop` has begun; `Inv.alert`: what the measure of `Progress.lean` rests on;
* `Inv.exists_turn`: no thread is stuck; `Inv.length_writes_le`: there are finitely many stores;
* `Execution.strong_run`: an execution without old loads is an interleaving;
* **`weak_completes`**: fair executions come to their end.
-/

namespace L2Book

instance : Fintype MainVar := ⟨{.parseDone, .msgsParsed, .msgsBooked}, fun x => by cases x <;> simp⟩

instance {X : Type} [Finite X] : Finite (Shared X) :=
  .of_surjective (fun x : Option (Option X) => x.elim .head fun y => y.elim .tail .other) fun l => by
    cases l with
    | head => exact ⟨none, rfl⟩
    | tail => exact ⟨some none, rfl⟩
    | other x => exact ⟨some (some x), rfl⟩

namespace WeakPipeline

variable {n : ℕ}

/-- The variable that a turn loads. -/
def loaded (p : WeakPipeline n) : Turn n → Option (Shared MainVar)
  | (_, none) => p.parserLoads
  | (_, some (_, tailFirst)) => p.bookLoads tailFirst

/-- An infinite execution. -/
structure Execution (b : Build) (p₀ : WeakPipeline n) (f : ℕ → Turn n) (e : ℕ → WeakPipeline n) :
    Prop where
  start : e 0 = p₀
  step : ∀ k, (e k).turn b (f k) = some (e (k + 1))

/-- Both threads have returned, the messages were dispatched, and `main` loads their number from both
counters. -/
structure Finished (msgs : List ParsedMessage) (p : WeakPipeline n) : Prop where
  parser : p.parserPc = .returned
  book : p.bookPc = .returned
  dispatched : p.dispatched.map Prod.fst = msgs
  parsed : ∀ v, p.queue.mem.Visible p.joined (.other .msgsParsed) v ↔ v = UInt64.ofNat msgs.length
  booked : ∀ v, p.queue.mem.Visible p.joined (.other .msgsBooked) v ↔ v = UInt64.ofNat msgs.length

/-- A call of `try_pop` that the book thread is within has begun. -/
def Opened (p : WeakPipeline n) : Prop := p.bookPc = .popping → p.queue.cons ≠ .idle

section Steps

variable {b : Build} {msgs pushed : List ParsedMessage} {p p' : WeakPipeline n} {i : ℕ} {t : Turn n}

theorem Opened.stepParser (h : Opened p) (hs : p.stepParser i = some p') : Opened p' := by
  have hsame : p'.bookPc = p.bookPc ∧ p'.queue.cons = p.queue.cons := by
    cases hpc : p.parserPc with
    | nextMessage =>
      rcases hn : p.reader.nextMessage with ⟨_ | ⟨raw, len⟩, r⟩ <;>
        simp only [WeakPipeline.stepParser, hpc, hn, Option.some.injEq] at hs <;> subst hs <;>
        exact ⟨rfl, rfl⟩
    | push msg =>
      simp only [WeakPipeline.stepParser, hpc] at hs
      obtain ⟨q, hq, rfl⟩ := Option.map_eq_some_iff.mp hs
      exact ⟨rfl, (WeakSpsc.frame_tryPush hq).cons (by decide)⟩
    | pushing msg =>
      simp only [WeakPipeline.stepParser, hpc] at hs
      obtain ⟨⟨q, res⟩, hq, rfl⟩ := Option.map_eq_some_iff.mp hs
      exact ⟨rfl, (WeakSpsc.frame_stepProd hq).cons (by decide)⟩
    | _ =>
      simp only [WeakPipeline.stepParser, hpc, Option.some.injEq] at hs
      subst hs
      exact ⟨rfl, rfl⟩
  obtain ⟨hpc, hcons⟩ := hsame
  rwa [Opened, hpc, hcons]

theorem Opened.stepBook (h : Opened p) {it : IterOrder n} {tailFirst : Bool}
    (hs : p.stepBook b it tailFirst i = .ok (some p')) : Opened p' := by
  intro hpop
  cases hpc : p.bookPc with
  | tryPop =>
    simp only [WeakPipeline.stepBook, hpc, Except.ok.injEq] at hs
    obtain ⟨q, hq, rfl⟩ := Option.map_eq_some_iff.mp hs
    obtain ⟨⟨v, mem⟩, -, rfl⟩ := Option.map_eq_some_iff.mp hq
    rintro ⟨⟩
  | popping =>
    have hopen := h hpc
    simp only [WeakPipeline.stepBook, hpc, Except.ok.injEq] at hs
    obtain ⟨⟨q, res⟩, hq, rfl⟩ := Option.map_eq_some_iff.mp hs
    -- the call goes on
    cases hc : p.queue.cons with
    | idle => exact absurd hc hopen
    | loadTail c =>
      simp only [WeakSpsc.stepCons, hc] at hq
      obtain ⟨⟨v, mem⟩, -, hres⟩ := Option.map_eq_some_iff.mp hq
      split_ifs at hres <;> cases hres
      · cases hpop
      · rintro ⟨⟩
    | readSlot c =>
      simp only [WeakSpsc.stepCons, hc] at hq
      cases hq
      rintro ⟨⟩
    | storeHead c out =>
      simp only [WeakSpsc.stepCons, hc] at hq
      cases hq
      cases hpop
  | dispatch msg =>
    simp only [WeakPipeline.stepBook, hpc] at hs
    obtain ⟨book, -, hs⟩ := of_bind_eq_ok hs
    cases hs
    cases hpop
  | loadDone =>
    simp only [WeakPipeline.stepBook, hpc, Except.ok.injEq] at hs
    obtain ⟨⟨v, q⟩, -, rfl⟩ := Option.map_eq_some_iff.mp hs
    dsimp only at hpop
    split_ifs at hpop
  | empty =>
    simp only [WeakPipeline.stepBook, hpc] at hs
    split_ifs at hs <;> simp only [Except.ok.injEq] at hs <;>
      obtain ⟨⟨v, q⟩, -, rfl⟩ := Option.map_eq_some_iff.mp hs <;> cases hpop
  | emptyTail head =>
    simp only [WeakPipeline.stepBook, hpc, Except.ok.injEq] at hs
    obtain ⟨⟨v, q⟩, -, rfl⟩ := Option.map_eq_some_iff.mp hs
    dsimp only at hpop
    split_ifs at hpop
  | emptyHead tail =>
    simp only [WeakPipeline.stepBook, hpc, Except.ok.injEq] at hs
    obtain ⟨⟨v, q⟩, -, rfl⟩ := Option.map_eq_some_iff.mp hs
    dsimp only at hpop
    split_ifs at hpop
  | increment =>
    simp only [WeakPipeline.stepBook, hpc, Except.ok.injEq, Option.some.injEq] at hs
    subst hs
    cases hpop
  | storeBooked =>
    simp only [WeakPipeline.stepBook, hpc, Except.ok.injEq, Option.some.injEq] at hs
    subst hs
    cases hpop
  | returned =>
    simp only [WeakPipeline.stepBook, hpc, Except.ok.injEq, Option.some.injEq] at hs
    subst hs
    rw [hpc] at hpop
    cases hpop

theorem opened_of_reachable {slots : UInt64 → ParsedMessage} {r : ITCHFileReader}
    (h : Relation.ReflTransGen (Step b) (init slots r) p) : Opened p := by
  induction h with
  | refl => exact fun hpc => by cases hpc
  | tail _ hs ih =>
    cases hs with
    | parser i hstep => exact ih.stepParser hstep
    | book it tailFirst i hstep => exact ih.stepBook hstep

theorem Inv.alert (h : Inv b msgs pushed p) (ho : Opened p) : p.strong.Alert where
  popping := ho
  done := h.parser.parseDone_iff.mpr

theorem strong_turn (ht : p.turn b t = some p') (hlast : ∀ l ∈ p.loaded t, p.queue.mem.Last l t.1) :
    p.strong.turn b t.2 = .ok p'.strong := by
  obtain ⟨i, _ | ⟨it, tailFirst⟩⟩ := t
  · exact congrArg Except.ok (strong_stepParser ht hlast)
  · rw [turn] at ht
    split at ht
    case h_1 p₁ hs =>
      subst ht
      exact strong_stepBook hs hlast
    case h_2 => cases ht

theorem turn_of_returned (hp : p.parserPc = .returned) (hb : p.bookPc = .returned) (b : Build) (t : Turn n) :
    p.turn b t = some p := by
  obtain ⟨i, _ | ⟨it, tailFirst⟩⟩ := t
  · simp only [turn, WeakPipeline.stepParser, hp]
  · simp only [turn, WeakPipeline.stepBook, hb]

theorem loaded_of_returned (hp : p.parserPc = .returned) (hb : p.bookPc = .returned) (t : Turn n) :
    p.loaded t = none := by
  obtain ⟨i, _ | ⟨it, tailFirst⟩⟩ := t
  · simp only [loaded, parserLoads, hp]
  · simp only [loaded, bookLoads, hb]

/-- **No thread is stuck**: it can take a step, unless it is in a call of `dispatch` that faults. -/
theorem Inv.exists_turn (h : Inv b msgs pushed p) (t : Pipeline.Turn n) :
    (∃ i p', p.turn b (i, t) = some p') ∨ ∃ it msg e, t.map Prod.fst = some it ∧
      p.bookPc = .dispatch msg ∧ (p.dispatched ++ [(msg, it)]).map Prod.fst <+: msgs ∧
      (OrderBook.init n).replay b (p.dispatched ++ [(msg, it)]) = .error e := by
  rcases t with _ | ⟨it, tailFirst⟩
  · obtain ⟨i, p', hs, -⟩ := exists_stepParser h.closed
    exact .inl ⟨i, p', hs⟩
  · obtain ⟨i, -, ⟨p', hs⟩ | ⟨msg, e, hpc, hd⟩⟩ := exists_stepBook h.closed b it tailFirst
    · exact .inl ⟨i, p', by simp only [turn, hs]⟩
    · have hprefix := h.popped_isPrefix
      simp only [popped, BookPc.popped, hpc, BookPc.inHand] at hprefix
      refine .inr ⟨it, msg, e, rfl, hpc, by rwa [List.map_append], ?_⟩
      rw [OrderBook.replay, run_append_of_ok h.book.book]
      exact run_cons_of_error hd []

/-- **The threads store finitely often.** -/
theorem Inv.length_writes_le (h : Inv b msgs pushed p) (l : Shared MainVar) :
    (p.queue.mem.writes l).length ≤ msgs.length + 2 := by
  have hsplit := congrArg List.length h.parser.split
  have hfifo := h.queue.length_le
  rw [List.length_append] at hsplit
  have hstored := h.parser.stored
  have hunset := h.book.unset
  have hfound := h.book.found
  match l with
  | .head =>
    rw [h.queue.heads]
    omega
  | .tail =>
    rw [h.queue.tails]
    omega
  | .other .parseDone =>
    cases hpc : p.parserPc with
    | returned =>
      rw [hpc] at hstored
      obtain ⟨⟨view, hset, -⟩, -⟩ := hstored
      rw [hset.length_eq]
      omega
    | _ =>
      rw [hpc] at hstored
      rw [hstored.1.length_eq]
      omega
  | .other .msgsParsed =>
    cases hpc : p.parserPc with
    | returned =>
      rw [hpc] at hstored
      obtain ⟨-, view, hset⟩ := hstored
      rw [hset.length_eq]
      omega
    | storeDone =>
      rw [hpc] at hstored
      obtain ⟨-, ⟨view, hset⟩, -⟩ := hstored
      rw [hset.length_eq]
      omega
    | _ =>
      rw [hpc] at hstored
      rw [hstored.2.length_eq]
      omega
  | .other .msgsBooked =>
    by_cases hpc : p.bookPc = .returned
    · rw [hpc] at hfound
      obtain ⟨-, ⟨view, hset⟩, -⟩ := hfound
      rw [hset.length_eq]
      omega
    · rw [(hunset hpc).length_eq]
      omega

theorem Inv.finished (h : Inv b msgs pushed p) (hpc : p.bookPc = .returned) : Finished msgs p := by
  obtain ⟨hret, hall⟩ := h.left (.inr hpc)
  exact ⟨hret, hpc, hall, fun v => (h.visible_counts hpc v).1, fun v => (h.visible_counts hpc v).2⟩

end Steps

/-! ## Infinite executions -/

section Execution

variable {b : Build} {p₀ : WeakPipeline n} {f : ℕ → Turn n} {e : ℕ → WeakPipeline n}

theorem Execution.reachable (h : Execution b p₀ f e) (k : ℕ) : Relation.ReflTransGen (Step b) p₀ (e k) := by
  induction k with
  | zero =>
    rw [h.start]
  | succ k ih => exact ih.tail (step_of_turn (h.step k))

/-- From where all loads are of last writes, the execution is a run of the sequentially consistent threads. -/
theorem Execution.strong_run (h : Execution b p₀ f e) {K : ℕ}
    (hlast : ∀ k ≥ K, ∀ l ∈ (e k).loaded (f k), (e k).queue.mem.Last l (f k).1) (len : ℕ) :
    run (Pipeline.turn b) (e K).strong (turns (fun k => (f k).2) K len) = .ok (e (K + len)).strong := by
  induction len with
  | zero => rfl
  | succ len ih =>
    rw [turns_append, run_append_of_ok ih]
    exact run_cons_of_ok (strong_turn (h.step _) (hlast _ (by omega))) []

theorem Execution.stays (h : Execution b p₀ f e) {K : ℕ} (hp : (e K).parserPc = .returned)
    (hb : (e K).bookPc = .returned) : ∀ k ≥ K, e k = e K := by
  intro k hk
  induction k, hk using Nat.le_induction with
  | base => rfl
  | succ k hk ih =>
    have hstep := h.step k
    rw [ih, turn_of_returned hp hb] at hstep
    exact (Option.some.inj hstep).symm

/-- A run in which both threads return, and turns without effect after it. -/
theorem exists_execution {ts : List (Turn n)} {p p' : WeakPipeline n}
    (h : ts.foldlM (turn b) p = some p') (hp : p'.parserPc = .returned) (hb : p'.bookPc = .returned)
    (g : ℕ → Turn n) :
    ∃ e, Execution b p (fun k => ts.getD k (g k)) e ∧ ∀ k ≥ ts.length, e k = p' := by
  induction ts generalizing p g with
  | nil =>
    cases h
    exact ⟨fun _ => p', ⟨rfl, fun k => turn_of_returned hp hb b _⟩, fun _ _ => rfl⟩
  | cons t ts ih =>
    rw [List.foldlM_cons] at h
    obtain ⟨p₁, ht, h⟩ := Option.bind_eq_some_iff.mp h
    obtain ⟨e, hexec, hend⟩ := ih h fun k => g (k + 1)
    refine ⟨fun k => Nat.casesOn k p e, ⟨rfl, fun k => ?_⟩, fun k hk => ?_⟩
    · cases k with
      | zero =>
        show p.turn b t = some (e 0)
        rw [ht, hexec.start]
      | succ k => exact hexec.step k
    · cases k with
      | zero => exact absurd hk (Nat.not_succ_le_zero _)
      | succ k => exact hend k (Nat.le_of_succ_le_succ hk)

end Execution

/-- **The replay ends under release and acquire.** For every non-empty file, from each state that the two
threads reach each of them can go on, unless it is the book thread at a `dispatch` that faults, as it does in
the sequential replay of the messages up to this one. In every infinite execution in which both threads keep
having turns and every store is seen in the end, both threads return; the messages are dispatched then, and
`main` loads their number from both counters. -/
theorem weak_completes (b : Build) (slots : UInt64 → ParsedMessage) (content : List UInt8)
    (hc : content ≠ []) :
    ∃ r, ITCHFileReader.load content = some r ∧
      (∀ p : WeakPipeline n, Relation.ReflTransGen (Step b) (init slots r) p → ∀ t : Pipeline.Turn n,
        (∃ i p', p.turn b (i, t) = some p') ∨ ∃ it msg e, t.map Prod.fst = some it ∧
          p.bookPc = .dispatch msg ∧ (p.dispatched ++ [(msg, it)]).map Prod.fst <+: r.messages ∧
          (OrderBook.init n).replay b (p.dispatched ++ [(msg, it)]) = .error e) ∧
      ∀ (f : ℕ → Turn n) (e : ℕ → WeakPipeline n), Execution b (init slots r) f e →
        Fair Pipeline.thread (fun k => (f k).2) →
        Memory.Seen (fun k => (e k).queue.mem) (fun k => ((e k).loaded (f k)).map fun l => (l, (f k).1)) →
        ∃ K, Finished r.messages (e K) ∧ ∀ k ≥ K, e k = e K := by
  refine ⟨_, ITCHFileReader.load_of_ne_nil hc, fun p hreach t => ?_, fun f e hexec hfair hseen => ?_⟩
  · obtain ⟨pushed, hinv⟩ := inv_of_reachable hreach
    exact hinv.exists_turn t
  · have hinv := fun k => inv_of_reachable (hexec.reachable k)
    -- the stores come to an end, and with them the old loads
    obtain ⟨K, hK⟩ := hseen.exists_last fun k l => (hinv k).elim fun _ h => h.length_writes_le l
    have hlast : ∀ k ≥ K, ∀ l ∈ (e k).loaded (f k), (e k).queue.mem.Last l (f k).1 := by
      intro k hk l hl
      exact hK k hk l _ (by rw [show (e k).loaded (f k) = some l from hl]; rfl)
    obtain ⟨pushed, hstart⟩ := hinv K
    have halert := hstart.alert (opened_of_reachable (hexec.reachable K))
    obtain ⟨len, hrounds⟩ := hfair.exists_rounds (36 * (_ + 1)) K
    have hrun := hexec.strong_run hlast len
    rcases Pipeline.finished_or_fault ⟨⟨pushed, hstart.strong⟩, halert⟩ hrounds with
      ⟨s, hs, hfin⟩ | ⟨err, herr, -⟩
    · obtain rfl := Except.ok.inj (hrun.symm.trans hs)
      obtain ⟨_, hend⟩ := hinv (K + len)
      exact ⟨K + len, hend.finished hfin.book, hexec.stays hfin.parser hfin.book⟩
    · cases hrun.symm.trans herr

/-- The turns of an execution with old loads, and then the two threads in turn. -/
def staleThenTurns (k : ℕ) : Turn 1 :=
  staleTurns.getD k (0, if k % 2 = 0 then none else some (.newest 1, true))

theorem staleThenTurns_of_le {k : ℕ} (hk : 30 ≤ k) :
    staleThenTurns k = (0, if k % 2 = 0 then none else some (.newest 1, true)) := by
  have hlen : staleTurns.length = 30 := rfl
  rw [staleThenTurns, List.getD_eq_getElem?_getD, List.getElem?_eq_none (hlen ▸ hk)]
  rfl

theorem fair_staleThenTurns : Fair Pipeline.thread fun k => (staleThenTurns k).2 := by
  intro θ k
  cases θ with
  | parser =>
    have heven : 2 * (k + 30) % 2 = 0 := by omega
    refine ⟨2 * (k + 30), by omega, ?_⟩
    simp only [staleThenTurns_of_le (show 30 ≤ 2 * (k + 30) by omega), if_pos heven, Pipeline.thread]
  | book =>
    have hodd : ¬ (2 * (k + 30) + 1) % 2 = 0 := by omega
    refine ⟨2 * (k + 30) + 1, by omega, ?_⟩
    simp only [staleThenTurns_of_le (show 30 ≤ 2 * (k + 30) + 1 by omega), if_neg hodd, Pipeline.thread]

theorem weak_completes_stale :
    ∃ (r : ITCHFileReader) (e : ℕ → WeakPipeline 1), ITCHFileReader.load [0, 1, 90] = some r ∧
      Execution .debug (init (fun _ => .monostate) r) staleThenTurns e ∧
      ∃ K, Finished r.messages (e K) ∧ ∀ k ≥ K, e k = e K := by
  obtain ⟨r, hr, -, hall⟩ := weak_completes (n := 1) .debug (fun _ => .monostate) [0, 1, 90] (by decide)
  obtain rfl : ⟨[0, 1, 90], 0⟩ = r :=
    Option.some.inj ((ITCHFileReader.load_of_ne_nil (by decide)).symm.trans hr)
  obtain ⟨p, hrun, hp, hb⟩ : ∃ p, staleTurns.foldlM (turn .debug)
      (init (fun _ => .monostate) ⟨[0, 1, 90], 0⟩) = some p ∧ p.parserPc = .returned ∧
      p.bookPc = .returned := ⟨_, rfl, rfl, rfl⟩
  obtain ⟨e, hexec, hend⟩ := exists_execution hrun hp hb
    fun k => (0, if k % 2 = 0 then none else some (.newest 1, true))
  refine ⟨_, e, hr, hexec, hall staleThenTurns e hexec fair_staleThenTurns fun k l => ?_⟩
  refine ⟨staleTurns.length, fun k' hk' i hload => ?_⟩
  have hnone : (e k').loaded (staleThenTurns k') = none := by
    rw [hend k' hk', loaded_of_returned hp hb]
  simp [hnone] at hload

end WeakPipeline

end L2Book
