import L2Book.Book.Step

/-!
# Whole feeds

* `Covers`: a computation returns everything another one returns; **`dispatch_covers`**: a release
  build does what a debug build does as long as no assertion fails;
* **`Sim s r`**: the book `s` represents the naive book and the reference prices `r`;
* `RefersLinkedAll`: no message of a feed refers to an order outside the array;
* `Sim.step`, **`Sim.replay`**: well-formed messages and feeds keep `Sim`;
* **`Sim.replay_ok_iff`**: a well-formed feed runs to its end exactly when it meets
  `RefersLinkedAll`; `Sim.of_replay`: whatever a run reaches is represented;
* **`replay_prefix_iff`**: when a condition on messages is exact in both builds.
-/

namespace L2Book

/-! ## Debug and release -/

section Covers

variable {α β : Type}

/-- `y` returns whatever `x` returns. -/
def Covers (x y : Except Fault α) : Prop := ∀ v, x = .ok v → y = .ok v

theorem Covers.refl (x : Except Fault α) : Covers x x := fun _ h => h

theorem Covers.bind {x y : Except Fault α} {f g : α → Except Fault β} (h : Covers x y)
    (hf : ∀ v, Covers (f v) (g v)) : Covers (x >>= f) (y >>= g) := by
  intro v hv
  cases hx : x with
  | error e => rw [hx, error_bind] at hv; cases hv
  | ok u =>
    rw [hx, ok_bind] at hv
    rw [h u hx, ok_bind]
    exact hf u v hv

theorem Covers.ite {c : Prop} [Decidable c] {x y x' y' : Except Fault α} (h : Covers x y)
    (h' : Covers x' y') : Covers (if c then x else x') (if c then y else y') := by
  split_ifs
  · exact h
  · exact h'

theorem check_covers (b : Build) (c : Prop) [Decidable c] :
    Covers (b.check c) (Build.release.check c) := by
  intro v hv
  cases v
  exact check_ok nofun

end Covers

variable {n : ℕ}

theorem PriceLevel.removeOrder_covers (b : Build) (lvl : PriceLevel n) (h : Fin n → Order n)
    (o : Fin n) : Covers (lvl.removeOrder b h o) (lvl.removeOrder .release h o) :=
  (check_covers b _).bind fun _ => (check_covers b _).bind fun _ => .refl _

theorem PriceLevel.reduceShares_covers (b : Build) (lvl : PriceLevel n) (h : Fin n → Order n)
    (o : Fin n) (qty : UInt32) :
    Covers (lvl.reduceShares b h o qty) (lvl.reduceShares .release h o qty) :=
  (check_covers b _).bind fun _ => .refl _

theorem OrderPool.alloc_covers (b : Build) (pool : OrderPool n) :
    Covers (pool.alloc b) (pool.alloc .release) :=
  (check_covers b _).bind fun _ => .refl _

namespace OrderBook

theorem insertOn_covers (b : Build) (d : Side)
    (rec : UInt32 → OrderBook n → Except Fault (OrderBook n)) (s : OrderBook n) (o : Fin n) :
    Covers (insertOn b d rec s o) (insertOn .release d rec s o) :=
  (Covers.refl _).bind fun _ => .ite
    ((Covers.refl _).bind fun _ => (Covers.refl _).bind fun _ => (check_covers b _).bind fun _ => .refl _)
    ((check_covers b _).bind fun _ => .refl _)

theorem insertOrder_covers (b : Build) (it : IterOrder n) (s : OrderBook n) (o : Fin n) :
    Covers (s.insertOrder b it o) (s.insertOrder .release it o) := by
  rw [insertOrder_eq, insertOrder_eq]
  exact insertOn_covers b _ _ s o

theorem removeOrder_covers (b : Build) (s : OrderBook n) (o : Fin n) :
    Covers (s.removeOrder b o) (s.removeOrder .release o) :=
  (check_covers b _).bind fun _ => (Covers.refl _).bind fun _ =>
    (PriceLevel.removeOrder_covers b _ _ o).bind fun _ => .refl _

theorem reduceShares_covers (b : Build) (s : OrderBook n) (o : Fin n) (qty : UInt32) :
    Covers (s.reduceShares b o qty) (s.reduceShares .release o qty) :=
  (check_covers b _).bind fun _ => (Covers.refl _).bind fun _ =>
    (PriceLevel.reduceShares_covers b _ _ o qty).bind fun _ => .refl _

theorem addNew_covers (b : Build) (it : IterOrder n) (s : OrderBook n) (r : UInt64)
    (shares price : UInt32) (side : UInt8) :
    Covers (s.addNew b it r shares price side) (s.addNew .release it r shares price side) :=
  (s.pool.alloc_covers b).bind fun _ => (insertOrder_covers b it _ _).bind fun _ => .refl _

/-- **A release build does what a debug build does** as long as no assertion fails. -/
theorem dispatch_covers (b : Build) (it : IterOrder n) (s : OrderBook n) (m : ParsedMessage) :
    Covers (s.dispatch b it m) (s.dispatch .release it m) := by
  rw [dispatch_eq_apply, dispatch_eq_apply]
  cases m.event with
  | system code => exact .refl _
  | ignore => exact .refl _
  | add r side shares price => exact .ite (.refl _) (addNew_covers b it s r shares price side)
  | reduce r qty =>
    simp only [apply, reduceBy]
    cases s.orderMap.lookup r with
    | none => exact .refl _
    | some o =>
      exact (reduceShares_covers b s o qty).bind fun s₁ => .ite
        ((removeOrder_covers b s₁ o).bind fun _ => .refl _) (.refl _)
  | delete r =>
    simp only [apply, deleteRef]
    cases s.orderMap.lookup r with
    | none => exact .refl _
    | some o => exact (removeOrder_covers b s o).bind fun _ => .refl _
  | replace r r' shares price =>
    simp only [apply, replaceRef]
    cases s.orderMap.lookup r with
    | none => exact .refl _
    | some o => exact (removeOrder_covers b s o).bind fun s₁ => addNew_covers b it _ r' shares price _

/-! ## The simulation relation -/

/-- **The book `s` represents `r`.** -/
structure Sim (s : OrderBook n) (r : RefBook) : Prop where
  rep : Rep s
  abs : Abs s r.book
  ref : ∀ d, (s.sides d).ref = r.ref d
  best : n < 2 ^ 32 → BestOk s

theorem sim_init : Sim (OrderBook.init n) RefBook.init :=
  ⟨rep_init, abs_init, fun _ => rfl, fun _ => bestOk_init⟩

/-- No message of the feed refers to an order outside the array. -/
def RefersLinkedAll (b : Build) : OrderBook n → List (Input n) → Prop :=
  EveryStep (fun s x => s.dispatch b x.2 x.1) fun s x => s.RefersLinked x.1.event

section Sim

variable {b : Build} {s s' : OrderBook n} {r : RefBook} {x : Input n} {feed : List (Input n)}

theorem Sim.of_stepSpec {it : IterOrder n} {e : Event} (h : Sim s r)
    (hs : StepSpec it s r.book e s') : Sim s' (r.step e) where
  rep := hs.rep
  abs := hs.abs
  ref d := by rw [hs.ref, h.ref]; rfl
  best hn := hs.best hn (h.best hn)

/-- Whether an order is linked can be read off the feed. -/
theorem Sim.inArray_iff (h : Sim s r) (p : Fin n) :
    InArray (s.tickOf p) ↔ r.Holds (s.order p).view := by
  unfold tickOf RefBook.Holds
  rw [h.ref]
  rfl

theorem Sim.refersLinked_iff (h : Sim s r) (e : Event) : s.RefersLinked e ↔ r.Reaches e := by
  constructor
  · intro hl ref o ht ho
    rw [h.abs.lookup, Option.map_eq_some_iff] at ho
    obtain ⟨p, hp, rfl⟩ := ho
    exact (h.inArray_iff p).mp (h.rep.inArray_of_refersLinked hl ht hp)
  · intro hr ref p ht hp hneg
    have hin := (h.inArray_iff p).mpr (hr ref _ ht (h.abs.lookup_some hp))
    have := (h.rep.linked.levelIdx_nonneg (mem_liveSet.mpr ⟨ref, hp⟩)).mpr hin
    omega

theorem Sim.step (h : Sim s r) (hb : b = .debug → n < 2 ^ 32) (hw : WfEvent n r.book x.1.event)
    (hl : s.RefersLinked x.1.event) :
    ∃ s', s.dispatch b x.2 x.1 = .ok s' ∧ StepSpec x.2 s r.book x.1.event s' := by
  rw [dispatch_eq_apply]
  exact step_spec x.2 hb h.rep h.abs hw hl

theorem Sim.of_dispatch (h : Sim s r) (hw : WfEvent n r.book x.1.event)
    (hs : s.dispatch b x.2 x.1 = .ok s') :
    s.RefersLinked x.1.event ∧ StepSpec x.2 s r.book x.1.event s' := by
  have hrel : s.dispatch .release x.2 x.1 = .ok s' := dispatch_covers b x.2 s x.1 s' hs
  have hl : s.RefersLinked x.1.event := by
    rw [dispatch_eq_apply] at hrel
    exact (step_ok_iff (b := .release) x.2 nofun h.rep h.abs hw).mp ⟨s', hrel⟩
  obtain ⟨s₁, hs₁, hspec⟩ := h.step (b := .release) nofun hw hl
  rw [hrel] at hs₁
  cases hs₁
  exact ⟨hl, hspec⟩

theorem Sim.of_dispatch_ok (h : Sim s r) (hw : WfEvent n r.book x.1.event)
    (hs : s.dispatch b x.2 x.1 = .ok s') : Sim s' (r.step x.1.event) :=
  h.of_stepSpec (h.of_dispatch hw hs).2

theorem Sim.step_sim (h : Sim s r) (hb : b = .debug → n < 2 ^ 32)
    (hw : WfEvent n r.book x.1.event) (hl : s.RefersLinked x.1.event) :
    ∃ s', s.dispatch b x.2 x.1 = .ok s' ∧ Sim s' (r.step x.1.event) := by
  obtain ⟨s', hs', hspec⟩ := h.step hb hw hl
  exact ⟨s', hs', h.of_stepSpec hspec⟩

/-! ## Runs -/

/-- **A well-formed feed runs to its end** when no message refers to an order outside the array. -/
theorem Sim.replay (h : Sim s r) (hb : b = .debug → n < 2 ^ 32) (hw : WellFormedFrom r.book feed)
    (hl : RefersLinkedAll b s feed) :
    ∃ s', s.replay b feed = .ok s' ∧ Sim s' (r.replay feed) := by
  refine run_sim Sim (fun s r x h hw hl => ?_) h ((r.along_wellFormed feed).mpr hw) hl
  exact h.step_sim hb hw hl

theorem Sim.of_replay (h : Sim s r) (hw : WellFormedFrom r.book feed)
    (hs : s.replay b feed = .ok s') : Sim s' (r.replay feed) := by
  refine run_rel Sim (fun s r x s' h hw hs => ?_) h ((r.along_wellFormed feed).mpr hw) hs
  exact h.of_dispatch_ok hw hs

/-- **A well-formed feed is fault free exactly when it refers to no order outside the array.** -/
theorem Sim.replay_ok_iff (h : Sim s r) (hb : b = .debug → n < 2 ^ 32)
    (hw : WellFormedFrom r.book feed) :
    (∃ s', s.replay b feed = .ok s') ↔ RefersLinkedAll b s feed := by
  refine run_ok_iff Sim (fun s r x s' h hw hs => ?_) (fun s r x h hw => ⟨?_, fun hl => ?_⟩) h
    ((r.along_wellFormed feed).mpr hw)
  · exact h.of_dispatch_ok hw hs
  · rintro ⟨s', hs'⟩
    exact (h.of_dispatch hw hs').1
  · obtain ⟨s', hs', -⟩ := h.step hb hw hl
    exact ⟨s', hs'⟩

theorem Sim.refersLinkedAll (h : Sim s r) (hw : WellFormedFrom r.book feed)
    (hr : r.Along (fun r x => r.Reaches x.1.event) feed) : RefersLinkedAll b s feed := by
  refine everyStep_of_guided Sim (fun s r x s' h hw hs => ?_) (fun s r x h _ hr => ?_) h
    ((r.along_wellFormed feed).mpr hw) hr
  · exact h.of_dispatch_ok hw hs
  · exact (h.refersLinked_iff _).mpr hr

theorem Sim.along_reaches (h : Sim s r) (hb : b = .debug → n < 2 ^ 32)
    (hw : WellFormedFrom r.book feed) (hl : RefersLinkedAll b s feed) :
    r.Along (fun r x => r.Reaches x.1.event) feed := by
  refine guided_of_everyStep Sim (fun s r x h hw hl => ?_) (fun s r x h _ hl => ?_) h
    ((r.along_wellFormed feed).mpr hw) hl
  · exact h.step_sim hb hw hl
  · exact (h.refersLinked_iff _).mp hl

end Sim

/-! ## Both builds -/

/-- **Exact conditions.** If every message that meets `C` is handled in both builds and keeps the book
related to the abstract state, and every other message makes a release build lose `P`, then the book has `P`
after every message exactly if all messages meet `C`. -/
theorem replay_prefix_iff {α : Type} {astep : α → Input n → α} {W : α → Input n → Prop}
    {C : OrderBook n → Input n → Prop} {P : OrderBook n → Prop} (R : OrderBook n → α → Prop)
    (hP : ∀ s a, R s a → P s)
    (hgood : ∀ b : Build, (b = .debug → n < 2 ^ 32) → ∀ s a x, R s a → W a x → C s x →
      ∃ s', s.dispatch b x.2 x.1 = .ok s' ∧ R s' (astep a x))
    (hbad : ∀ s a x, R s a → W a x → ¬ C s x → ∃ s', s.dispatch .release x.2 x.1 = .ok s' ∧ ¬ P s')
    {s : OrderBook n} {a : α} {feed : List (Input n)} (hR : R s a) (hW : Guided astep W a feed) :
    (∀ pre, pre <+: feed → ∀ b : Build, ((b = .debug → n < 2 ^ 32) → ∃ s', s.replay b pre = .ok s') ∧
        ∀ s', s.replay b pre = .ok s' → P s') ↔
      EveryStep (fun s x => s.dispatch .release x.2 x.1) C s feed := by
  have hiff := run_prefix_iff R hP (hgood .release nofun) hbad hR hW
  rw [← hiff]
  constructor
  · intro h pre hpre
    obtain ⟨hrun, hp⟩ := h pre hpre .release
    obtain ⟨s', hs'⟩ := hrun nofun
    exact ⟨s', hs', hp s' hs'⟩
  · intro h pre hpre b
    have hcovers : ∀ (s : OrderBook n) (x : Input n) s', s.dispatch b x.2 x.1 = .ok s' →
        s.dispatch .release x.2 x.1 = .ok s' := fun s x s' hs => dispatch_covers b x.2 s x.1 s' hs
    refine ⟨fun hb => ?_, fun s' hs' => ?_⟩
    · have hC : EveryStep (fun s x => s.dispatch b x.2 x.1) C s pre :=
        .of_step hcovers ((hiff.mp h).of_isPrefix hpre)
      obtain ⟨s', hs', -⟩ := run_sim R (hgood b hb) hR (hW.of_isPrefix hpre) hC
      exact ⟨s', hs'⟩
    · obtain ⟨s₁, hs₁, hp⟩ := h pre hpre
      have hrel : run (fun s x => s.dispatch .release x.2 x.1) s pre = .ok s' := run_of_step hcovers hs'
      rw [hrel] at hs₁
      cases hs₁
      exact hp

end OrderBook

end L2Book
