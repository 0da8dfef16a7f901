import Mathlib.Data.List.Basic

/-!
# Runs of fallible transition systems

A system is a step function `σ → μ → Except ε σ`; a run folds it over a list of inputs and stops at
the first fault. Conditions on inputs are stated either against the concrete state before each step
(`EveryStep`) or against a total abstract system that reads the same inputs (`Guided`).

* `run`, `run_append`, `run_snoc_ok`;
* **`run_sim`**: a relation between the concrete and the abstract state that every step keeps holds
  at the end of every run, and no such run faults;
* `run_rel`: its version for runs that returned; **`run_invariant`**: for an invariant of one system;
* `Guided.of_isPrefix`, `EveryStep.of_isPrefix`: conditions pass to prefixes; `everyStep_of_guided`,
  `guided_of_everyStep`: and from one kind to the other; `everyStep_congr`;
* **`run_lockstep`**: two systems that stay `Together` step by step do so over whole runs;
* **`run_ok_iff`**: when a step is fault free exactly under a condition, so is the run; **`run_prefix_iff`**:
  when a property survives a step exactly under a condition, it does so along the run.
-/

namespace L2Book

variable {σ α μ ε : Type}

theorem ok_bind (x : σ) (f : σ → Except ε α) : ((.ok x : Except ε σ) >>= f) = f x := rfl

theorem error_bind (e : ε) (f : σ → Except ε α) : ((.error e : Except ε σ) >>= f) = .error e := rfl

/-- A computation that returned did so in both of its parts. -/
theorem of_bind_eq_ok {x : Except ε σ} {f : σ → Except ε α} {v : α} (h : x >>= f = .ok v) :
    ∃ u, x = .ok u ∧ f u = .ok v := by
  cases x with
  | error e => cases h
  | ok u => exact ⟨u, rfl, h⟩

/-- Fold a fallible step over the inputs. -/
def run (step : σ → μ → Except ε σ) (s : σ) (ms : List μ) : Except ε σ := ms.foldlM step s

/-- `C` holds of the state before every step that the run reaches. -/
def EveryStep (step : σ → μ → Except ε σ) (C : σ → μ → Prop) : σ → List μ → Prop
  | _, [] => True
  | s, m :: ms => C s m ∧ ∀ s', step s m = .ok s' → EveryStep step C s' ms

/-- `W` holds of the abstract state before every input. -/
def Guided (astep : α → μ → α) (W : α → μ → Prop) : α → List μ → Prop
  | _, [] => True
  | a, m :: ms => W a m ∧ Guided astep W (astep a m) ms

section Rules

variable {step : σ → μ → Except ε σ} {astep : α → μ → α} {C : σ → μ → Prop} {W : α → μ → Prop}

@[simp] theorem run_nil (s : σ) : run step s [] = .ok s := rfl

theorem run_cons (s : σ) (m : μ) (ms : List μ) :
    run step s (m :: ms) = step s m >>= fun s' => run step s' ms := List.foldlM_cons ..

theorem run_cons_of_ok {s s' : σ} {m : μ} (h : step s m = .ok s') (ms : List μ) :
    run step s (m :: ms) = run step s' ms := by
  rw [run_cons, h, ok_bind]

theorem run_cons_of_error {s : σ} {m : μ} {e : ε} (h : step s m = .error e) (ms : List μ) :
    run step s (m :: ms) = .error e := by
  rw [run_cons, h, error_bind]

theorem run_append (s : σ) (ms ms' : List μ) :
    run step s (ms ++ ms') = run step s ms >>= fun s' => run step s' ms' := by
  induction ms generalizing s with
  | nil => rfl
  | cons m ms ih =>
    cases h : step s m with
    | error e => rw [List.cons_append, run_cons_of_error h, run_cons_of_error h]; rfl
    | ok s' => rw [List.cons_append, run_cons_of_ok h, run_cons_of_ok h, ih]

theorem run_append_of_ok {s s' : σ} {ms : List μ} (h : run step s ms = .ok s') (ms' : List μ) :
    run step s (ms ++ ms') = run step s' ms' := by
  rw [run_append, h, ok_bind]

theorem run_snoc_ok {s s'' : σ} {ms : List μ} {m : μ} (h : run step s (ms ++ [m]) = .ok s'') :
    ∃ s', run step s ms = .ok s' ∧ step s' m = .ok s'' := by
  rw [run_append] at h
  obtain ⟨s', hs, h⟩ := of_bind_eq_ok h
  rw [run_cons] at h
  obtain ⟨s₁, hm, h⟩ := of_bind_eq_ok h
  cases h
  exact ⟨s', hs, hm⟩

theorem run_snoc_of_ok {s s' s'' : σ} {ms : List μ} {m : μ} (hs : run step s ms = .ok s')
    (hm : step s' m = .ok s'') : run step s (ms ++ [m]) = .ok s'' := by
  rw [run_append_of_ok hs, run_cons_of_ok hm, run_nil]

theorem run_eq_error {s : σ} {ms : List μ} {e : ε} (h : run step s ms = .error e) :
    ∃ pre m post s', ms = pre ++ m :: post ∧ run step s pre = .ok s' ∧ step s' m = .error e := by
  induction ms generalizing s with
  | nil => cases h
  | cons m ms ih =>
    cases hm : step s m with
    | error e' =>
      rw [run_cons_of_error hm] at h
      cases h
      exact ⟨[], m, ms, s, rfl, rfl, hm⟩
    | ok s₁ =>
      rw [run_cons_of_ok hm] at h
      obtain ⟨pre, m', post, s', rfl, hpre, he⟩ := ih h
      exact ⟨m :: pre, m', post, s', rfl, (run_cons_of_ok hm pre).trans hpre, he⟩

theorem Guided.append {a : α} {ms ms' : List μ} :
    Guided astep W a (ms ++ ms') ↔
      Guided astep W a ms ∧ Guided astep W (ms.foldl astep a) ms' := by
  induction ms generalizing a with
  | nil => simp [Guided]
  | cons m ms ih => simp only [List.cons_append, Guided, ih, List.foldl_cons, and_assoc]

theorem Guided.of_isPrefix {a : α} {pre ms : List μ} (h : Guided astep W a ms) (hp : pre <+: ms) :
    Guided astep W a pre := by
  obtain ⟨rest, rfl⟩ := hp
  exact (Guided.append.mp h).1

theorem Guided.and {W' : α → μ → Prop} {a : α} {ms : List μ} (h : Guided astep W a ms)
    (h' : Guided astep W' a ms) : Guided astep (fun a m => W a m ∧ W' a m) a ms := by
  induction ms generalizing a with
  | nil => trivial
  | cons m ms ih => exact ⟨⟨h.1, h'.1⟩, ih h.2 h'.2⟩

/-- Conditions pass along a map between abstract systems. -/
theorem Guided.comap {β : Type} {bstep : β → μ → β} {V : β → μ → Prop} (f : α → β)
    (hf : ∀ a m, f (astep a m) = bstep (f a) m) (a : α) (ms : List μ) :
    Guided astep (fun a m => V (f a) m) a ms ↔ Guided bstep V (f a) ms := by
  induction ms generalizing a with
  | nil => exact Iff.rfl
  | cons m ms ih => simp only [Guided, ih, hf]

theorem Guided.map {ν : Type} (f : ν → μ) (a : α) (ms : List ν) :
    Guided astep W a (ms.map f) ↔
      Guided (fun a m => astep a (f m)) (fun a m => W a (f m)) a ms := by
  induction ms generalizing a with
  | nil => exact Iff.rfl
  | cons m ms ih => exact and_congr_right fun _ => ih _

/-- **Simulation rule.** If every step from related states is fault free and keeps them related,
then so is every run. -/
theorem run_sim (R : σ → α → Prop)
    (hstep : ∀ s a m, R s a → W a m → C s m → ∃ s', step s m = .ok s' ∧ R s' (astep a m))
    {s : σ} {a : α} {ms : List μ} (hR : R s a) (hW : Guided astep W a ms)
    (hC : EveryStep step C s ms) : ∃ s', run step s ms = .ok s' ∧ R s' (ms.foldl astep a) := by
  induction ms generalizing s a with
  | nil => exact ⟨s, rfl, hR⟩
  | cons m ms ih =>
    obtain ⟨s', hs', hR'⟩ := hstep s a m hR hW.1 hC.1
    obtain ⟨s'', hs'', hR''⟩ := ih hR' hW.2 (hC.2 s' hs')
    exact ⟨s'', by rw [run_cons_of_ok hs', hs''], hR''⟩

/-- **Partial simulation rule.** The states of a run that does not fault stay related. -/
theorem run_rel (R : σ → α → Prop)
    (hstep : ∀ s a m s', R s a → W a m → step s m = .ok s' → R s' (astep a m))
    {s s' : σ} {a : α} {ms : List μ} (hR : R s a) (hW : Guided astep W a ms)
    (hs : run step s ms = .ok s') : R s' (ms.foldl astep a) := by
  induction ms generalizing s a with
  | nil => cases hs; exact hR
  | cons m ms ih =>
    cases h : step s m with
    | error e => rw [run_cons_of_error h] at hs; cases hs
    | ok s₁ =>
      rw [run_cons_of_ok h] at hs
      exact ih (hstep s a m s₁ hR hW.1 h) hW.2 hs

/-- **Invariant rule.** What every step that returns keeps holds after every run that returned. -/
theorem run_invariant (P : σ → Prop) (hstep : ∀ s m s', P s → step s m = .ok s' → P s') {s s' : σ}
    {ms : List μ} (h : P s) (hs : run step s ms = .ok s') : P s' := by
  induction ms generalizing s with
  | nil => cases hs; exact h
  | cons m ms ih =>
    rw [run_cons] at hs
    obtain ⟨s₁, hs₁, hs⟩ := of_bind_eq_ok hs
    exact ih (hstep s m s₁ h hs₁) hs

theorem everyStep_append {s : σ} {ms ms' : List μ} : EveryStep step C s (ms ++ ms') ↔
    EveryStep step C s ms ∧ ∀ s', run step s ms = .ok s' → EveryStep step C s' ms' := by
  induction ms generalizing s with
  | nil =>
    refine ⟨fun h => ⟨trivial, fun s' hs' => ?_⟩, fun h => h.2 s rfl⟩
    cases hs'
    exact h
  | cons m ms ih =>
    constructor
    · rintro ⟨hC, hrest⟩
      refine ⟨⟨hC, fun s₁ hs₁ => (ih.mp (hrest s₁ hs₁)).1⟩, fun s' hs' => ?_⟩
      rw [run_cons] at hs'
      obtain ⟨s₁, hs₁, hs'⟩ := of_bind_eq_ok hs'
      exact (ih.mp (hrest s₁ hs₁)).2 s' hs'
    · rintro ⟨⟨hC, hrest⟩, hend⟩
      refine ⟨hC, fun s₁ hs₁ => ih.mpr ⟨hrest s₁ hs₁, fun s' hs' => hend s' ?_⟩⟩
      rw [run_cons_of_ok hs₁, hs']

theorem EveryStep.of_isPrefix {s : σ} {pre ms : List μ} (h : EveryStep step C s ms)
    (hp : pre <+: ms) : EveryStep step C s pre := by
  obtain ⟨rest, rfl⟩ := hp
  exact (everyStep_append.mp h).1

theorem EveryStep.of_step {step' : σ → μ → Except ε σ}
    (hstep : ∀ s m s', step' s m = .ok s' → step s m = .ok s') {s : σ} {ms : List μ}
    (h : EveryStep step C s ms) : EveryStep step' C s ms := by
  induction ms generalizing s with
  | nil => trivial
  | cons m ms ih => exact ⟨h.1, fun s' hs' => ih (h.2 s' (hstep s m s' hs'))⟩

theorem run_of_step {step' : σ → μ → Except ε σ}
    (hstep : ∀ s m s', step' s m = .ok s' → step s m = .ok s') {s s' : σ} {ms : List μ}
    (hs : run step' s ms = .ok s') : run step s ms = .ok s' := by
  induction ms generalizing s with
  | nil => exact hs
  | cons m ms ih =>
    rw [run_cons] at hs
    obtain ⟨s₁, hs₁, hs⟩ := of_bind_eq_ok hs
    rw [run_cons_of_ok (hstep s m s₁ hs₁)]
    exact ih hs

theorem everyStep_congr {C' : σ → μ → Prop} (R : σ → α → Prop)
    (hstep : ∀ s a m s', R s a → W a m → step s m = .ok s' → R s' (astep a m))
    (hC : ∀ s a m, R s a → W a m → (C s m ↔ C' s m))
    {s : σ} {a : α} {ms : List μ} (hR : R s a) (hW : Guided astep W a ms) :
    EveryStep step C s ms ↔ EveryStep step C' s ms := by
  induction ms generalizing s a with
  | nil => exact Iff.rfl
  | cons m ms ih =>
    refine and_congr (hC s a m hR hW.1) (forall_congr' fun s' => forall_congr' fun hs' => ?_)
    exact ih (hstep s a m s' hR hW.1 hs') hW.2

/-- What holds of the related abstract state at every concrete step holds along the run, and back. -/
theorem everyStep_of_guided (R : σ → α → Prop)
    (hstep : ∀ s a m s', R s a → W a m → step s m = .ok s' → R s' (astep a m))
    {V : α → μ → Prop} (hV : ∀ s a m, R s a → W a m → V a m → C s m)
    {s : σ} {a : α} {ms : List μ} (hR : R s a) (hW : Guided astep W a ms)
    (h : Guided astep V a ms) : EveryStep step C s ms := by
  induction ms generalizing s a with
  | nil => trivial
  | cons m ms ih =>
    exact ⟨hV s a m hR hW.1 h.1, fun s' hs' => ih (hstep s a m s' hR hW.1 hs') hW.2 h.2⟩

theorem guided_of_everyStep (R : σ → α → Prop)
    (hstep : ∀ s a m, R s a → W a m → C s m → ∃ s', step s m = .ok s' ∧ R s' (astep a m))
    {V : α → μ → Prop} (hV : ∀ s a m, R s a → W a m → C s m → V a m)
    {s : σ} {a : α} {ms : List μ} (hR : R s a) (hW : Guided astep W a ms)
    (h : EveryStep step C s ms) : Guided astep V a ms := by
  induction ms generalizing s a with
  | nil => trivial
  | cons m ms ih =>
    obtain ⟨s', hs', hR'⟩ := hstep s a m hR hW.1 h.1
    exact ⟨hV s a m hR hW.1 h.1, ih hR' hW.2 (h.2 s' hs')⟩

theorem run_map {ν : Type} (f : ν → μ) (s : σ) (ms : List ν) :
    run step s (ms.map f) = run (fun s m => step s (f m)) s ms := List.foldlM_map

/-- Two computations return related values or both fault. -/
def Together {τ : Type} (R : σ → τ → Prop) : Except ε σ → Except ε τ → Prop
  | .ok s, .ok t => R s t
  | .error _, .error _ => True
  | _, _ => False

/-- **Lockstep rule.** Two systems that read the same inputs and stay together step by step stay
together over whole runs. -/
theorem run_lockstep {τ : Type} {step' : τ → μ → Except ε τ} (R : α → σ → τ → Prop)
    (hstep : ∀ a s t m, R a s t → W a m → Together (R (astep a m)) (step s m) (step' t m))
    {a : α} {s : σ} {t : τ} {ms : List μ} (hR : R a s t) (hW : Guided astep W a ms) :
    Together (R (ms.foldl astep a)) (run step s ms) (run step' t ms) := by
  induction ms generalizing a s t with
  | nil => exact hR
  | cons m ms ih =>
    have h := hstep a s t m hR hW.1
    cases hs : step s m with
    | error e =>
      cases ht : step' t m with
      | error e' => rw [run_cons_of_error hs, run_cons_of_error ht]; trivial
      | ok t' => rw [hs, ht] at h; exact h.elim
    | ok s' =>
      cases ht : step' t m with
      | error e' => rw [hs, ht] at h; exact h.elim
      | ok t' =>
        rw [hs, ht] at h
        rw [run_cons_of_ok hs, run_cons_of_ok ht]
        exact ih h hW.2

theorem Together.bind {τ β : Type} {R : σ → τ → Prop} {R' : α → β → Prop} {x : Except ε σ}
    {y : Except ε τ} {f : σ → Except ε α} {g : τ → Except ε β} (h : Together R x y)
    (hf : ∀ s t, R s t → Together R' (f s) (g t)) : Together R' (x >>= f) (y >>= g) := by
  cases x <;> cases y
  · trivial
  · exact h.elim
  · exact h.elim
  · exact hf _ _ h

theorem Together.refl (x : Except ε σ) : Together (fun s t => s = t) x x := by
  cases x
  · trivial
  · rfl

theorem Together.mono {τ : Type} {R R' : σ → τ → Prop} (hR : ∀ s t, R s t → R' s t)
    {x : Except ε σ} {y : Except ε τ} (h : Together R x y) : Together R' x y := by
  cases x <;> cases y
  · trivial
  · exact h
  · exact h
  · exact hR _ _ h

theorem Together.results {τ : Type} {R : σ → τ → Prop} {x : Except ε σ} {y : Except ε τ}
    (h : Together R x y) : Together (fun s t => R s t ∧ x = .ok s ∧ y = .ok t) x y := by
  cases x <;> cases y
  · trivial
  · exact h
  · exact h
  · exact ⟨h, rfl, rfl⟩

/-- **A run is fault free exactly when every step meets its condition.** -/
theorem run_ok_iff (R : σ → α → Prop)
    (hstep : ∀ s a m s', R s a → W a m → step s m = .ok s' → R s' (astep a m))
    (hok : ∀ s a m, R s a → W a m → ((∃ s', step s m = .ok s') ↔ C s m))
    {s : σ} {a : α} {ms : List μ} (hR : R s a) (hW : Guided astep W a ms) :
    (∃ s', run step s ms = .ok s') ↔ EveryStep step C s ms := by
  induction ms generalizing s a with
  | nil => exact ⟨fun _ => trivial, fun _ => ⟨s, rfl⟩⟩
  | cons m ms ih =>
    constructor
    · rintro ⟨s'', hs''⟩
      cases h : step s m with
      | error e => rw [run_cons_of_error h] at hs''; cases hs''
      | ok s₁ =>
        refine ⟨(hok s a m hR hW.1).mp ⟨s₁, h⟩, fun s' hs' => ?_⟩
        obtain rfl : s₁ = s' := by rw [h] at hs'; cases hs'; rfl
        rw [run_cons_of_ok h] at hs''
        exact (ih (hstep s a m s₁ hR hW.1 h) hW.2).mp ⟨s'', hs''⟩
    · rintro ⟨hC, hrest⟩
      obtain ⟨s₁, h⟩ := (hok s a m hR hW.1).mpr hC
      obtain ⟨s'', hs''⟩ := (ih (hstep s a m s₁ hR hW.1 h) hW.2).mpr (hrest s₁ h)
      exact ⟨s'', by rw [run_cons_of_ok h, hs'']⟩

/-- **Exactness rule.** If steps that meet `C` keep the states related and every other step leads to a state
without `P`, then `P` holds after all prefixes of a run exactly if all its steps meet `C`. -/
theorem run_prefix_iff (R : σ → α → Prop) {P : σ → Prop} (hP : ∀ s a, R s a → P s)
    (hgood : ∀ s a m, R s a → W a m → C s m → ∃ s', step s m = .ok s' ∧ R s' (astep a m))
    (hbad : ∀ s a m, R s a → W a m → ¬ C s m → ∃ s', step s m = .ok s' ∧ ¬ P s')
    {s : σ} {a : α} {ms : List μ} (hR : R s a) (hW : Guided astep W a ms) :
    (∀ pre, pre <+: ms → ∃ s', run step s pre = .ok s' ∧ P s') ↔ EveryStep step C s ms := by
  constructor
  · intro h
    induction ms generalizing s a with
    | nil => trivial
    | cons m ms ih =>
      have hC : C s m := by
        by_contra hC
        obtain ⟨s₁, hs₁, hnot⟩ := hbad s a m hR hW.1 hC
        obtain ⟨s', hs', hp⟩ := h [m] (List.prefix_append [m] ms)
        rw [run_cons_of_ok hs₁, run_nil] at hs'
        cases hs'
        exact hnot hp
      obtain ⟨s₁, hs₁, hR₁⟩ := hgood s a m hR hW.1 hC
      refine ⟨hC, fun s₂ hs₂ => ?_⟩
      obtain rfl : s₁ = s₂ := Except.ok.inj (hs₁.symm.trans hs₂)
      refine ih hR₁ hW.2 fun pre hpre => ?_
      have hrun := h (m :: pre) (List.prefix_cons_inj m |>.mpr hpre)
      rwa [run_cons_of_ok hs₁] at hrun
  · intro h pre hpre
    obtain ⟨s', hs', hR'⟩ := run_sim R hgood hR (hW.of_isPrefix hpre) (h.of_isPrefix hpre)
    exact ⟨s', hs', hP _ _ hR'⟩

end Rules

end L2Book
