import Mathlib.Logic.Relation
import L2Book.Lib.Linear
import L2Book.Transport.Spsc

/-!
# Executions of the queue

One producer runs any sequence of `try_push` calls and one consumer any sequence of `try_pop` calls; their
steps interleave arbitrarily.

* `QueueOp`, **`BoundedFifo`**: the sequential queue of bounded capacity;
* `Exec`: the queue together with the calls that have returned; `Exec.Step`: one step of one side;
* `Exec.Inv`, `Exec.Inv.step`: the invariant of executions;
* **`Exec.linearizable`**: every execution is linearizable to a bounded queue that holds one value less
  than there are slots.
-/

namespace L2Book

/-- A call and what it returned; `pop none` is a `try_pop` that returned `false`. -/
inductive QueueOp (T : Type)
  | push (item : T) (ok : Bool)
  | pop (res : Option T)

/-- **The bounded queue**: `push` fails exactly on a full queue, `pop` exactly on an empty one. -/
def BoundedFifo {T : Type} (cap : ℕ) (q : List T) : QueueOp T → List T → Prop
  | .push x true, q' => q.length < cap ∧ q' = q ++ [x]
  | .push _ false, q' => q.length = cap ∧ q' = q
  | .pop (some v), q' => q = v :: q'
  | .pop none, q' => q = [] ∧ q' = q

/-- The values of the successful pushes. -/
def pushedOf {T : Type} (ops : List (QueueOp T)) : List T :=
  ops.filterMap fun
    | .push x true => some x
    | _ => none

/-- The values of the successful pops. -/
def poppedOf {T : Type} (ops : List (QueueOp T)) : List T :=
  ops.filterMap fun
    | .pop res => res
    | _ => none

/-- The queue, the number of steps so far, the step in which the current call of each side began, and the
completed calls in the order of their return. -/
structure Exec (T : Type) where
  queue : Spsc T
  now : ℕ
  prodStart : ℕ
  consStart : ℕ
  calls : List (Call (QueueOp T))

namespace Exec

variable {T : Type}

def init (slots : UInt64 → T) : Exec T := ⟨Spsc.init slots, 0, 0, 0, []⟩

def callPush (e : Exec T) (item : T) : Exec T :=
  { e with queue := e.queue.tryPush item, now := e.now + 1, prodStart := e.now }

def callPop (e : Exec T) : Exec T :=
  { e with queue := e.queue.tryPop, now := e.now + 1, consStart := e.now }

def stepProd (k : Fin 64) (e : Exec T) : Exec T :=
  { e with
    queue := (e.queue.stepProd k).1
    now := e.now + 1
    calls := match e.queue.prod.item, (e.queue.stepProd k).2 with
      | some item, some ok => e.calls ++ [⟨.push item ok, e.prodStart, e.now⟩]
      | _, _ => e.calls }

def stepCons (k : Fin 64) (e : Exec T) : Exec T :=
  { e with
    queue := (e.queue.stepCons k).1
    now := e.now + 1
    calls := match (e.queue.stepCons k).2 with
      | some res => e.calls ++ [⟨.pop res, e.consStart, e.now⟩]
      | none => e.calls }

/-- One step of one side. A side begins a call when it is idle and then runs it to its end. -/
inductive Step (k : Fin 64) : Exec T → Exec T → Prop
  | callPush (e : Exec T) (item : T) : e.queue.prod = .idle → Step k e (e.callPush item)
  | prod (e : Exec T) : e.queue.prod ≠ .idle → Step k e (e.stepProd k)
  | callPop (e : Exec T) : e.queue.cons = .idle → Step k e e.callPop
  | cons (e : Exec T) : e.queue.cons ≠ .idle → Step k e (e.stepCons k)

/-- The completed calls. -/
def ops (e : Exec T) : List (QueueOp T) := e.calls.map (·.op)

/-- The values of the successful pushes and pops so far. -/
def pushed (e : Exec T) : List T := pushedOf e.ops

def popped (e : Exec T) : List T := poppedOf e.ops

/-- **The invariant of executions.** -/
structure Inv (k : Fin 64) (e : Exec T) : Prop where
  queue : e.queue.Inv k e.pushed e.popped
  legal : SeqRun (BoundedFifo (2 ^ (k : ℕ) - 1)) [] e.ops (e.pushed.drop e.popped.length)
  order : ReturnOrder e.now e.calls
  prodStart : e.prodStart ≤ e.now
  consStart : e.consStart ≤ e.now

theorem inv_init (k : Fin 64) (slots : UInt64 → T) : Inv k (init slots) :=
  ⟨Spsc.inv_init k slots, rfl, returnOrder_nil 0, le_rfl, le_rfl⟩

section Steps

variable {k : Fin 64} {e : Exec T}

theorem Inv.quiet {q : Spsc T} (h : Inv k e) (hq : q.Inv k e.pushed e.popped) {p c : ℕ}
    (hp : p ≤ e.now + 1) (hc : c ≤ e.now + 1) :
    Inv k { e with queue := q, now := e.now + 1, prodStart := p, consStart := c } :=
  ⟨hq, h.legal, h.order.tick, hp, hc⟩

theorem Inv.returns {q : Spsc T} {op : QueueOp T} {start : ℕ} (h : Inv k e) (hs : start ≤ e.now)
    (hq : q.Inv k (e.pushed ++ pushedOf [op]) (e.popped ++ poppedOf [op]))
    (hl : BoundedFifo (2 ^ (k : ℕ) - 1) (e.pushed.drop e.popped.length) op
      ((e.pushed ++ pushedOf [op]).drop (e.popped ++ poppedOf [op]).length)) :
    Inv k { e with queue := q, now := e.now + 1, calls := e.calls ++ [⟨op, start, e.now⟩] } := by
  set e' : Exec T := { e with queue := q, now := e.now + 1, calls := e.calls ++ [⟨op, start, e.now⟩] }
  have hops : e'.ops = e.ops ++ [op] := List.map_append
  have hpushed : e'.pushed = e.pushed ++ pushedOf [op] := by
    unfold pushed
    rw [hops]
    exact List.filterMap_append
  have hpopped : e'.popped = e.popped ++ poppedOf [op] := by
    unfold popped
    rw [hops]
    exact List.filterMap_append
  refine ⟨?_, ?_, h.order.snoc hs op, ?_, ?_⟩
  · rw [hpushed, hpopped]
    exact hq
  · rw [hops, hpushed, hpopped]
    exact h.legal.snoc hl
  · exact h.prodStart.trans (Nat.le_succ _)
  · exact h.consStart.trans (Nat.le_succ _)

theorem Inv.stepProd (h : Inv k e) : Inv k (e.stepProd k) := by
  have hstep := h.queue.stepProd
  have hle := h.queue.length_le
  unfold Exec.stepProd
  cases hr : (e.queue.stepProd k).2 with
  | none =>
    rw [hr] at hstep
    have := h.quiet hstep (h.prodStart.trans (Nat.le_succ _)) (h.consStart.trans (Nat.le_succ _))
    cases e.queue.prod.item <;> exact this
  | some ok =>
    rw [hr] at hstep
    cases ok with
    | false =>
      obtain ⟨⟨item, t, hp⟩, hinv, -, hfull⟩ := hstep
      simp only [hp, ProdPc.item]
      refine h.returns h.prodStart ?_ ?_
      · simpa [pushedOf, poppedOf] using hinv
      · refine ⟨?_, by simp [pushedOf, poppedOf]⟩
        rw [List.length_drop]
        omega
    | true =>
      obtain ⟨item, t, hp, hinv, -, hroom⟩ := hstep
      simp only [hp, ProdPc.item]
      refine h.returns h.prodStart ?_ ?_
      · simpa [pushedOf, poppedOf] using hinv
      · refine ⟨?_, ?_⟩
        · rw [List.length_drop]
          omega
        · simp only [pushedOf, poppedOf, List.filterMap_cons, List.filterMap_nil, List.append_nil]
          exact List.drop_append_of_le_length hle

theorem Inv.stepCons (h : Inv k e) : Inv k (e.stepCons k) := by
  have hstep := h.queue.stepCons
  have hle := h.queue.length_le
  unfold Exec.stepCons
  cases hr : (e.queue.stepCons k).2 with
  | none =>
    rw [hr] at hstep
    exact h.quiet hstep (h.prodStart.trans (Nat.le_succ _)) (h.consStart.trans (Nat.le_succ _))
  | some res =>
    rw [hr] at hstep
    cases res with
    | none =>
      obtain ⟨-, hinv, -, hempty⟩ := hstep
      refine h.returns h.consStart ?_ ?_
      · simpa [pushedOf, poppedOf] using hinv
      · refine ⟨?_, by simp [pushedOf, poppedOf]⟩
        exact List.drop_eq_nil_of_le hempty.ge
    | some v =>
      obtain ⟨hinv, -, hv⟩ := hstep
      refine h.returns h.consStart ?_ ?_
      · simpa [pushedOf, poppedOf] using hinv
      · obtain ⟨hlt, hget⟩ := List.getElem?_eq_some_iff.mp hv
        simp only [BoundedFifo, pushedOf, poppedOf, List.filterMap_cons, List.filterMap_nil,
          List.append_nil, List.length_append, List.length_singleton]
        rw [List.drop_eq_getElem_cons hlt, hget]

/-- **Every step keeps the invariant.** -/
theorem Inv.step {e' : Exec T} (h : Inv k e) (hs : Step k e e') : Inv k e' := by
  cases hs with
  | callPush item _ =>
    exact h.quiet (h.queue.tryPush item) (Nat.le_succ _) (h.consStart.trans (Nat.le_succ _))
  | prod _ => exact h.stepProd
  | callPop _ => exact h.quiet h.queue.tryPop (h.prodStart.trans (Nat.le_succ _)) (Nat.le_succ _)
  | cons _ => exact h.stepCons

theorem inv_of_reachable {slots : UInt64 → T} (h : Relation.ReflTransGen (Step k) (init slots) e) :
    Inv k e := by
  induction h with
  | refl => exact inv_init k slots
  | tail _ hs ih => exact ih.step hs

end Steps

/-- **The queue is linearizable** to a bounded queue of capacity `2 ^ k - 1`. The popped values are a
prefix of the pushed ones; `false` is returned in the step that loads the other side's index, by
`try_push` on a full queue and by `try_pop` on an empty one; and `size_approx` and `empty` are exact
when no call is in progress. -/
theorem linearizable (k : Fin 64) (slots : UInt64 → T) (e : Exec T)
    (h : Relation.ReflTransGen (Step k) (init slots) e) :
    (∃ L, Linearizes (BoundedFifo (2 ^ (k : ℕ) - 1)) [] e.calls L) ∧
    e.popped <+: e.pushed ∧
    ((e.queue.stepProd k).2 = some false → (∃ item t, e.queue.prod = .loadHead item t) ∧
      e.pushed.length = e.popped.length + (2 ^ (k : ℕ) - 1)) ∧
    ((e.queue.stepCons k).2 = some none → (∃ h', e.queue.cons = .loadTail h') ∧
      e.pushed.length = e.popped.length) ∧
    (e.queue.prod = .idle → e.queue.cons = .idle →
      (e.queue.sizeApprox k).toNat = e.pushed.length - e.popped.length ∧
      (e.queue.empty = true ↔ e.pushed.length = e.popped.length)) := by
  have hinv := inv_of_reachable h
  refine ⟨⟨e.calls, linearizes_of_returnOrder hinv.order hinv.legal⟩, hinv.queue.fifo, fun hf => ?_,
    fun hf => ?_, fun _ _ => ⟨hinv.queue.toNat_sizeApprox, ?_⟩⟩
  · have hstep := hinv.queue.stepProd
    rw [hf] at hstep
    have hpos := Nat.two_pow_pos (k : ℕ)
    exact ⟨hstep.1, by have := hstep.2.2.2; omega⟩
  · have hstep := hinv.queue.stepCons
    rw [hf] at hstep
    exact ⟨hstep.1, hstep.2.2.2.symm⟩
  · rw [Spsc.empty, beq_iff_eq, hinv.queue.empty_iff]
    exact eq_comm

/-- `try_push(7)` run to its end while a `try_pop` has only loaded `head_`. -/
def overlap (k : Fin 64) : Exec ℕ :=
  ((((init fun _ => 0).callPop.callPush 7).stepProd k).stepProd k).stepProd k

theorem linearizable_overlap :
    (∃ L, Linearizes (BoundedFifo 1) [] (overlap 1).calls L) ∧ (overlap 1).pushed = [7] ∧
      (overlap 1).popped <+: (overlap 1).pushed ∧
      (((overlap 1).queue.stepProd 1).2 = some false → (∃ item t, (overlap 1).queue.prod = .loadHead item t) ∧
        (overlap 1).pushed.length = (overlap 1).popped.length + 1) := by
  have hcalls : Relation.ReflTransGen (Step 1) (init fun _ => 0) ((init fun _ => 0).callPop.callPush 7) :=
    (Relation.ReflTransGen.single (.callPop _ rfl)).tail (.callPush _ 7 rfl)
  have hreach : Relation.ReflTransGen (Step 1) (init fun _ => 0) (overlap 1) :=
    ((hcalls.tail (.prod _ (by decide))).tail (.prod _ (by decide))).tail (.prod _ (by decide))
  obtain ⟨hlin, hfifo, hfull, -⟩ := linearizable 1 _ (overlap 1) hreach
  exact ⟨hlin, rfl, hfifo, hfull⟩

end Exec

end L2Book
