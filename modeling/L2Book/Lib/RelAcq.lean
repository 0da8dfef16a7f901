import Mathlib.Data.Set.Finite.Lattice
import Mathlib.Logic.Function.Basic
import Mathlib.Order.Lattice.Nat

/-!
# Release and acquire

A memory with atomic locations, release stores, relaxed and acquire loads, and with plain cells. A load may
return any write that is not older than one its thread knows of; an acquire load learns what the writer
knew. Writes are ordered as they take place: each location is meant for the stores of one thread.

* `View`: what happened before a point in a thread; `Memory`: the writes, the views, the cells and the last
  accesses to them;
* `load`, `store`, `readCell`, `writeCell`; `ReadRace`, `WriteRace`: accesses to a cell that nothing orders;
* `Indexed`: a write knows its number; `view_of_acquire`, `load_relaxed`: what a load changes;
* **`Views`**: a property of all views, with a rule for each operation; `Closed`: views know of writes only;
* `latest`, `Last`, `Closed.exists_last`: every thread may load the last write;
* `Unset`, `SetOnce`, **`SetOnce.of_acquire`**: a variable that is stored once passes on what the writer knew;
* `Seen`, **`Seen.exists_last`**: if every store is seen in the end and there are finitely many, then in the
  end only last writes are loaded.
-/

namespace L2Book

variable {Loc Tid Cell V D : Type}

/-! ## Views -/

/-- **What happened before**: the number of the latest known write to each location, and how many plain
accesses of each thread are known. -/
structure View (Loc Tid : Type) where
  write : Loc → ℕ
  access : Tid → ℕ

namespace View

def bot : View Loc Tid := ⟨fun _ => 0, fun _ => 0⟩

def join (v w : View Loc Tid) : View Loc Tid :=
  ⟨fun l => max (v.write l) (w.write l), fun t => max (v.access t) (w.access t)⟩

/-- The second view knows what the first one knows. -/
instance : LE (View Loc Tid) where
  le v w := (∀ l, v.write l ≤ w.write l) ∧ ∀ t, v.access t ≤ w.access t

/-- Write number `i` of `l` becomes known. -/
def see [DecidableEq Loc] (v : View Loc Tid) (l : Loc) (i : ℕ) : View Loc Tid :=
  { v with write := Function.update v.write l (max (v.write l) i) }

/-- One more access of thread `t`. -/
def tick [DecidableEq Tid] (v : View Loc Tid) (t : Tid) : View Loc Tid :=
  { v with access := Function.update v.access t (v.access t + 1) }

section Ops

variable (v w : View Loc Tid)

@[simp] theorem join_write (l : Loc) : (v.join w).write l = max (v.write l) (w.write l) := rfl

@[simp] theorem join_access (t : Tid) : (v.join w).access t = max (v.access t) (w.access t) := rfl

@[simp] theorem see_access [DecidableEq Loc] (l : Loc) (i : ℕ) : (v.see l i).access = v.access := rfl

@[simp] theorem see_write_self [DecidableEq Loc] (l : Loc) (i : ℕ) :
    (v.see l i).write l = max (v.write l) i := Function.update_self _ _ _

theorem see_write_of_ne [DecidableEq Loc] {l l' : Loc} (h : l' ≠ l) (i : ℕ) :
    (v.see l i).write l' = v.write l' := Function.update_of_ne h _ _

@[simp] theorem tick_write [DecidableEq Tid] (t : Tid) : (v.tick t).write = v.write := rfl

@[simp] theorem tick_access_self [DecidableEq Tid] (t : Tid) :
    (v.tick t).access t = v.access t + 1 := Function.update_self _ _ _

theorem tick_access_of_ne [DecidableEq Tid] {t t' : Tid} (h : t' ≠ t) :
    (v.tick t).access t' = v.access t' := Function.update_of_ne h _ _

theorem le_refl : v ≤ v := ⟨fun _ => Nat.le_refl _, fun _ => Nat.le_refl _⟩

theorem le_join : v ≤ v.join w := ⟨fun _ => Nat.le_max_left _ _, fun _ => Nat.le_max_left _ _⟩

theorem le_see [DecidableEq Loc] (l : Loc) (i : ℕ) : v ≤ v.see l i := by
  refine ⟨fun l' => ?_, fun _ => Nat.le_refl _⟩
  by_cases hl : l' = l
  · subst hl
    rw [see_write_self]
    omega
  · exact Nat.le_of_eq (see_write_of_ne v hl i).symm

/-- Nothing is learned from a write that is known. -/
theorem see_of_le [DecidableEq Loc] {l : Loc} {i : ℕ} (h : i ≤ v.write l) : v.see l i = v := by
  rw [see, Nat.max_eq_left h, Function.update_eq_self]

theorem see_join_of_le [DecidableEq Loc] {l : Loc} {i : ℕ} (h : i ≤ w.write l) :
    (v.see l i).join w = v.join w := by
  have hwrite : (fun l' => max ((v.see l i).write l') (w.write l')) =
      fun l' => max (v.write l') (w.write l') := by
    funext l'
    by_cases hl : l' = l
    · subst hl
      rw [see_write_self]
      omega
    · rw [see_write_of_ne v hl]
  rw [join, hwrite]
  rfl

end Ops

end View

/-! ## Memories -/

/-- A write to an atomic location, with what the writer knew. -/
structure Write (Loc Tid V : Type) where
  value : V
  view : View Loc Tid

/-- **The memory**: the writes to each location, what each thread knows, the plain cells, and for each of them
its last write and the last read by each thread, as numbers of that thread's accesses. -/
structure Memory (Loc Tid Cell V D : Type) where
  writes : Loc → List (Write Loc Tid V)
  view : Tid → View Loc Tid
  cell : Cell → D
  written : Cell → Option (Tid × ℕ)
  read : Cell → Tid → ℕ

namespace Memory

def init (value : Loc → V) (cell : Cell → D) : Memory Loc Tid Cell V D where
  writes l := [⟨value l, .bot⟩]
  view _ := .bot
  cell := cell
  written _ := none
  read _ _ := 0

section Ops

variable [DecidableEq Loc] [DecidableEq Tid] [DecidableEq Cell]

/-- Thread `t` loads write number `i` of `l`. -/
def load (m : Memory Loc Tid Cell V D) (acquire : Bool) (t : Tid) (l : Loc) (i : ℕ) :
    Option (V × Memory Loc Tid Cell V D) :=
  if (m.view t).write l ≤ i then
    (m.writes l)[i]?.map fun w =>
      let view := (m.view t).see l i
      (w.value, { m with view := Function.update m.view t (if acquire then view.join w.view else view) })
  else none

/-- Thread `t` stores `v` in `l`, a release store. -/
def store (m : Memory Loc Tid Cell V D) (t : Tid) (l : Loc) (v : V) : Memory Loc Tid Cell V D :=
  let view := (m.view t).see l (m.writes l).length
  { m with
    writes := Function.update m.writes l (m.writes l ++ [⟨v, view⟩])
    view := Function.update m.view t view }

/-- Thread `t` reads the cell `c`. -/
def readCell (m : Memory Loc Tid Cell V D) (t : Tid) (c : Cell) : Memory Loc Tid Cell V D :=
  { m with
    view := Function.update m.view t ((m.view t).tick t)
    read := Function.update m.read c (Function.update (m.read c) t ((m.view t).access t + 1)) }

/-- Thread `t` writes `d` to the cell `c`. -/
def writeCell (m : Memory Loc Tid Cell V D) (t : Tid) (c : Cell) (d : D) : Memory Loc Tid Cell V D :=
  { m with
    view := Function.update m.view t ((m.view t).tick t)
    cell := Function.update m.cell c d
    written := Function.update m.written c (some (t, (m.view t).access t + 1)) }

/-- **A data race of a read**: thread `t` does not know of the last write, by another thread. -/
def ReadRace (m : Memory Loc Tid Cell V D) (t : Tid) (c : Cell) : Prop :=
  ∃ u n, m.written c = some (u, n) ∧ u ≠ t ∧ (m.view t).access u < n

/-- **A data race of a write**: thread `t` does not know of the last write or of the last read of some other
thread. -/
def WriteRace (m : Memory Loc Tid Cell V D) (t : Tid) (c : Cell) : Prop :=
  m.ReadRace t c ∨ ∃ u, u ≠ t ∧ (m.view t).access u < m.read c u

end Ops

/-! ## Writes and their numbers -/

/-- Every write knows its number. -/
def Indexed (m : Memory Loc Tid Cell V D) : Prop :=
  ∀ l i (w : Write Loc Tid V), (m.writes l)[i]? = some w → i ≤ w.view.write l

theorem indexed_init (value : Loc → V) (cell : Cell → D) :
    (init value cell : Memory Loc Tid Cell V D).Indexed := by
  intro l i w h
  cases i with
  | zero => exact Nat.zero_le _
  | succ i => cases h

/-! ## Properties of all views -/

/-- **The views of all threads and of all writes** have the property. -/
structure Views (S : View Loc Tid → Prop) (m : Memory Loc Tid Cell V D) : Prop where
  thread : ∀ t, S (m.view t)
  write : ∀ l, ∀ w ∈ m.writes l, S w.view

theorem Views.mono {S S' : View Loc Tid → Prop} {m : Memory Loc Tid Cell V D} (h : Views S m)
    (hS : ∀ v, S v → S' v) : Views S' m :=
  ⟨fun t => hS _ (h.thread t), fun l w hw => hS _ (h.write l w hw)⟩

theorem views_init {S : View Loc Tid → Prop} (hS : S .bot) (value : Loc → V) (cell : Cell → D) :
    Views S (init value cell : Memory Loc Tid Cell V D) :=
  ⟨fun _ => hS, fun l w hw => by
    obtain rfl := List.mem_singleton.mp hw
    exact hS⟩

section Ops

variable [DecidableEq Loc] [DecidableEq Tid] {m m' : Memory Loc Tid Cell V D} {acq : Bool} {t : Tid}
  {l : Loc} {i : ℕ} {v : V}

theorem of_load (h : m.load acq t l i = some (v, m')) :
    ∃ w, (m.writes l)[i]? = some w ∧ (m.view t).write l ≤ i ∧ v = w.value ∧
      m' = { m with
        view := Function.update m.view t
          (if acq then ((m.view t).see l i).join w.view else (m.view t).see l i) } := by
  by_cases hle : (m.view t).write l ≤ i
  · rw [load, if_pos hle] at h
    obtain ⟨w, hw, heq⟩ := Option.map_eq_some_iff.mp h
    cases heq
    exact ⟨w, hw, hle, rfl, rfl⟩
  · rw [load, if_neg hle] at h
    cases h

theorem load_writes (h : m.load acq t l i = some (v, m')) : m'.writes = m.writes := by
  obtain ⟨w, -, -, -, rfl⟩ := of_load h
  rfl

theorem load_cell (h : m.load acq t l i = some (v, m')) :
    m'.cell = m.cell ∧ m'.written = m.written ∧ m'.read = m.read := by
  obtain ⟨w, -, -, -, rfl⟩ := of_load h
  exact ⟨rfl, rfl, rfl⟩

theorem load_view_of_ne (h : m.load acq t l i = some (v, m')) {u : Tid} (hu : u ≠ t) :
    m'.view u = m.view u := by
  obtain ⟨w, -, -, -, rfl⟩ := of_load h
  exact Function.update_of_ne hu _ _

/-- **An acquire load** learns what the writer knew. -/
theorem view_of_acquire (hm : m.Indexed) (h : m.load true t l i = some (v, m')) :
    ∃ w, (m.writes l)[i]? = some w ∧ v = w.value ∧ (m.view t).write l ≤ i ∧ i ≤ w.view.write l ∧
      m'.view t = (m.view t).join w.view := by
  obtain ⟨w, hw, hle, hv, rfl⟩ := of_load h
  refine ⟨w, hw, hv, hle, hm l i w hw, ?_⟩
  rw [if_pos rfl, View.see_join_of_le _ _ (hm l i w hw)]
  exact Function.update_self _ _ _

/-- Threads forget nothing in an acquire load. -/
theorem le_view_of_acquire (hm : m.Indexed) (h : m.load true t l i = some (v, m')) (u : Tid) :
    m.view u ≤ m'.view u := by
  by_cases hu : u = t
  · subst hu
    obtain ⟨w, -, -, -, -, hview⟩ := view_of_acquire hm h
    rw [hview]
    exact View.le_join _ _
  · rw [load_view_of_ne h hu]
    exact View.le_refl _

theorem le_view_of_store (m : Memory Loc Tid Cell V D) (t : Tid) (l : Loc) (v : V) (u : Tid) :
    m.view u ≤ (m.store t l v).view u := by
  by_cases hu : u = t
  · subst hu
    simp only [store, Function.update_self]
    exact View.le_see _ _ _
  · simp only [store, Function.update_of_ne hu]
    exact View.le_refl _

@[simp] theorem store_cell (m : Memory Loc Tid Cell V D) (t : Tid) (l : Loc) (v : V) :
    (m.store t l v).cell = m.cell := rfl

theorem store_writes_of_ne (m : Memory Loc Tid Cell V D) (t : Tid) {l l' : Loc} (h : l' ≠ l) (v : V) :
    (m.store t l v).writes l' = m.writes l' := Function.update_of_ne h _ _

theorem store_view_of_ne (m : Memory Loc Tid Cell V D) {t u : Tid} (h : u ≠ t) (l : Loc) (v : V) :
    (m.store t l v).view u = m.view u := Function.update_of_ne h _ _

theorem le_store_view (m : Memory Loc Tid Cell V D) (t : Tid) (l : Loc) (v : V) :
    (m.writes l).length ≤ ((m.store t l v).view t).write l := by
  simp only [store, Function.update_self, View.see_write_self]
  omega

theorem load_relaxed (hi : i ≤ (m.view t).write l) (h : m.load false t l i = some (v, m')) : m' = m := by
  obtain ⟨w, -, -, -, rfl⟩ := of_load h
  rw [if_neg (by decide), View.see_of_le _ hi, Function.update_eq_self]

/-- A thread that knows the last write reads it. -/
theorem load_last (hlast : (m.writes l).length ≤ (m.view t).write l + 1)
    (h : m.load acq t l i = some (v, m')) : i = (m.view t).write l := by
  obtain ⟨w, hw, hle, -⟩ := of_load h
  obtain ⟨hlt, -⟩ := List.getElem?_eq_some_iff.mp hw
  omega

theorem Indexed.load (hm : m.Indexed) (h : m.load acq t l i = some (v, m')) : m'.Indexed := by
  rw [Indexed, load_writes h]
  exact hm

theorem Indexed.store (hm : m.Indexed) (v : V) : (m.store t l v).Indexed := by
  intro l' i w hw
  by_cases hl : l' = l
  · subst hl
    simp only [Memory.store, Function.update_self] at hw
    rcases Nat.lt_or_ge i (m.writes l').length with hi | hi
    · rw [List.getElem?_append_left hi] at hw
      exact hm l' i w hw
    · obtain ⟨hlt, -⟩ := List.getElem?_eq_some_iff.mp hw
      rw [List.length_append, List.length_singleton] at hlt
      obtain rfl : i = (m.writes l').length := by omega
      rw [List.getElem?_concat_length] at hw
      cases hw
      rw [View.see_write_self]
      omega
  · simp only [Memory.store, Function.update_of_ne hl] at hw
    exact hm l' i w hw

/-! ## What keeps a property of all views -/

variable {S : View Loc Tid → Prop}

theorem Views.acquire (h : Views S m) (hm : m.Indexed) (hjoin : ∀ v w, S v → S w → S (v.join w))
    (hload : m.load true t l i = some (v, m')) : Views S m' := by
  refine ⟨fun u => ?_, fun l' w hw => ?_⟩
  · by_cases hu : u = t
    · subst hu
      obtain ⟨w, hw, -, -, -, hview⟩ := view_of_acquire hm hload
      rw [hview]
      exact hjoin _ _ (h.thread u) (h.write l w (List.mem_of_getElem? hw))
    · rw [load_view_of_ne hload hu]
      exact h.thread u
  · rw [load_writes hload] at hw
    exact h.write l' w hw

theorem Views.store (h : Views S m) (hS : S ((m.view t).see l (m.writes l).length)) (v : V) :
    Views S (m.store t l v) := by
  refine ⟨fun u => ?_, fun l' w hw => ?_⟩
  · by_cases hu : u = t
    · subst hu
      simpa [Memory.store] using hS
    · simpa [Memory.store, hu] using h.thread u
  · by_cases hl : l' = l
    · subst hl
      simp only [Memory.store, Function.update_self, List.mem_append, List.mem_singleton] at hw
      rcases hw with hw | rfl
      · exact h.write l' w hw
      · exact hS
    · simp only [Memory.store, Function.update_of_ne hl] at hw
      exact h.write l' w hw

omit [DecidableEq Loc] in
theorem Views.tick (h : Views S m) (hS : S ((m.view t).tick t)) (hwrites : m'.writes = m.writes)
    (hview : m'.view = Function.update m.view t ((m.view t).tick t)) : Views S m' := by
  refine ⟨fun u => ?_, fun l w hw => ?_⟩
  · rw [hview]
    by_cases hu : u = t
    · subst hu
      simpa using hS
    · simpa [hu] using h.thread u
  · rw [hwrites] at hw
    exact h.write l w hw

/-! ## Views know of writes only -/

def Closed (m : Memory Loc Tid Cell V D) : Prop :=
  m.Views fun v => ∀ l, v.write l < (m.writes l).length

omit [DecidableEq Loc] [DecidableEq Tid] in
theorem closed_init (value : Loc → V) (cell : Cell → D) :
    (init value cell : Memory Loc Tid Cell V D).Closed :=
  views_init (fun _ => Nat.one_pos) value cell

theorem Closed.load (h : m.Closed) (hload : m.load acq t l i = some (v, m')) : m'.Closed := by
  have hwrites := load_writes hload
  obtain ⟨w, hw, -, -, rfl⟩ := of_load hload
  have hsee : ∀ l', ((m.view t).see l i).write l' < (m.writes l').length := by
    intro l'
    by_cases hl : l' = l
    · subst hl
      rw [View.see_write_self]
      exact Nat.max_lt.mpr ⟨h.thread t l', (List.getElem?_eq_some_iff.mp hw).1⟩
    · rw [View.see_write_of_ne _ hl]
      exact h.thread t l'
  refine ⟨fun u l' => ?_, h.write⟩
  by_cases hu : u = t
  · subst hu
    simp only [Function.update_self]
    cases acq with
    | false => exact hsee l'
    | true => exact Nat.max_lt.mpr ⟨hsee l', h.write l w (List.mem_of_getElem? hw) l'⟩
  · simp only [Function.update_of_ne hu]
    exact h.thread u l'

theorem Closed.store (h : m.Closed) (v : V) : (m.store t l v).Closed := by
  have hmore : ∀ l', (m.writes l').length ≤ ((m.store t l v).writes l').length := by
    intro l'
    by_cases hl : l' = l
    · subst hl
      simp [Memory.store]
    · simp [Memory.store, hl]
  refine (Views.mono h fun w hw l' => Nat.lt_of_lt_of_le (hw l') (hmore l')).store (fun l' => ?_) v
  by_cases hl : l' = l
  · subst hl
    have := h.thread t l'
    simp only [View.see_write_self, Memory.store, Function.update_self, List.length_append,
      List.length_singleton]
    omega
  · rw [View.see_write_of_ne _ hl]
    exact Nat.lt_of_lt_of_le (h.thread t l') (hmore l')

omit [DecidableEq Loc] in
theorem Closed.tick (h : m.Closed) (hwrites : m'.writes = m.writes)
    (hview : m'.view = Function.update m.view t ((m.view t).tick t)) : m'.Closed := by
  have hviews := Views.tick h (h.thread t) hwrites hview
  rw [Closed, hwrites]
  exact hviews

/-! ## Last writes -/

/-- The last write to `l`. -/
def latest [Inhabited V] (m : Memory Loc Tid Cell V D) (l : Loc) : V :=
  ((m.writes l).getLast?.map Write.value).getD default

omit [DecidableEq Loc] [DecidableEq Tid] in
theorem latest_congr [Inhabited V] (h : m'.writes l = m.writes l) : m'.latest l = m.latest l := by
  rw [latest, latest, h]

@[simp] theorem latest_store_self [Inhabited V] (m : Memory Loc Tid Cell V D) (t : Tid) (l : Loc) (v : V) :
    (m.store t l v).latest l = v := by
  simp [latest, Memory.store]

theorem latest_store_of_ne [Inhabited V] (m : Memory Loc Tid Cell V D) (t : Tid) {l l' : Loc} (h : l' ≠ l)
    (v : V) : (m.store t l v).latest l' = m.latest l' := latest_congr (store_writes_of_ne m t h v)

/-- There is no write to `l` after write `i`. -/
def Last (m : Memory Loc Tid Cell V D) (l : Loc) (i : ℕ) : Prop := (m.writes l).length ≤ i + 1

omit [DecidableEq Loc] [DecidableEq Tid] in
theorem Last.value_eq [Inhabited V] (h : m.Last l i) {w : Write Loc Tid V} (hw : (m.writes l)[i]? = some w) :
    w.value = m.latest l := by
  have hlt := (List.getElem?_eq_some_iff.mp hw).1
  unfold Last at h
  rw [latest, List.getLast?_eq_getElem?, show (m.writes l).length - 1 = i by omega, hw]
  rfl

theorem Last.eq_latest [Inhabited V] (h : m.Last l i) (hload : m.load acq t l i = some (v, m')) :
    v = m.latest l := by
  obtain ⟨w, hw, -, rfl, -⟩ := of_load hload
  exact h.value_eq hw

theorem Closed.exists_last (h : m.Closed) (acq : Bool) (t : Tid) (l : Loc) :
    ∃ i v m', m.load acq t l i = some (v, m') ∧ m.Last l i := by
  have hlt := h.thread t l
  have hi : (m.writes l).length - 1 < (m.writes l).length := by omega
  refine ⟨(m.writes l).length - 1, ?_⟩
  rw [Memory.load, if_pos (by omega), List.getElem?_eq_getElem hi]
  exact ⟨_, _, rfl, Nat.le_add_of_sub_le (Nat.le_refl _)⟩

/-! ## Variables that are stored once -/

/-- Nobody has stored in `l`. -/
def Unset (m : Memory Loc Tid Cell V D) (l : Loc) (v₀ : V) : Prop := m.writes l = [⟨v₀, .bot⟩]

/-- The only store in `l` was that of `v`, by a thread that knew `view`. -/
def SetOnce (m : Memory Loc Tid Cell V D) (l : Loc) (v₀ v : V) (view : View Loc Tid) : Prop :=
  m.writes l = [⟨v₀, .bot⟩, ⟨v, view⟩]

/-- A thread with this view may load `v`. -/
def Visible (m : Memory Loc Tid Cell V D) (view : View Loc Tid) (l : Loc) (v : V) : Prop :=
  ∃ (i : ℕ) (w : Write Loc Tid V), view.write l ≤ i ∧ (m.writes l)[i]? = some w ∧ v = w.value

variable {v₀ v₁ : V} {view : View Loc Tid}

omit [DecidableEq Loc] [DecidableEq Tid] in
theorem Unset.latest_eq [Inhabited V] (h : m.Unset l v₀) : m.latest l = v₀ := by
  rw [latest, show m.writes l = _ from h]
  rfl

omit [DecidableEq Loc] [DecidableEq Tid] in
theorem Unset.length_eq (h : m.Unset l v₀) : (m.writes l).length = 1 := congrArg List.length h

omit [DecidableEq Loc] [DecidableEq Tid] in
theorem SetOnce.length_eq (h : m.SetOnce l v₀ v view) : (m.writes l).length = 2 := congrArg List.length h

omit [DecidableEq Loc] [DecidableEq Tid] in
theorem SetOnce.latest_eq [Inhabited V] (h : m.SetOnce l v₀ v view) : m.latest l = v := by
  rw [latest, show m.writes l = _ from h]
  rfl

theorem Unset.store (h : m.Unset l v₀) (v : V) :
    (m.store t l v).SetOnce l v₀ v ((m.store t l v).view t) := by
  have hwrites : m.writes l = [⟨v₀, .bot⟩] := h
  simp [SetOnce, Memory.store, hwrites]

theorem Unset.eq_of_load (h : m.Unset l v₀) (hload : m.load acq t l i = some (v, m')) : v = v₀ := by
  have hwrites : m.writes l = [⟨v₀, .bot⟩] := h
  obtain ⟨w, hw, -, rfl, -⟩ := of_load hload
  rw [hwrites] at hw
  obtain rfl := List.mem_singleton.mp (List.mem_of_getElem? hw)
  rfl

/-- **Message passing.** Who loads the stored value knows what the writer knew. -/
theorem SetOnce.of_acquire (h : m.SetOnce l v₀ v₁ view) (hm : m.Indexed)
    (hload : m.load true t l i = some (v, m')) (hne : v ≠ v₀) :
    v = v₁ ∧ m'.view t = (m.view t).join view := by
  have hwrites : m.writes l = [⟨v₀, .bot⟩, ⟨v₁, view⟩] := h
  obtain ⟨w, hw, rfl, -, -, hview⟩ := view_of_acquire hm hload
  rw [hwrites] at hw
  match i, hw with
  | 0, hw =>
    cases hw
    exact absurd rfl hne
  | 1, hw =>
    cases hw
    exact ⟨rfl, hview⟩

omit [DecidableEq Loc] [DecidableEq Tid] in
/-- Who knows of the store loads its value. -/
theorem SetOnce.visible_iff (h : m.SetOnce l v₀ v₁ view) {view' : View Loc Tid} (hknown : view'.write l = 1) :
    m.Visible view' l v ↔ v = v₁ := by
  have hwrites : m.writes l = [⟨v₀, .bot⟩, ⟨v₁, view⟩] := h
  constructor
  · rintro ⟨i, w, hi, hw, rfl⟩
    rw [hwrites] at hw
    match i, hw with
    | 0, _ => omega
    | 1, hw =>
      cases hw
      rfl
  · rintro rfl
    exact ⟨1, ⟨v, view⟩, Nat.le_of_eq hknown, by rw [hwrites]; rfl, rfl⟩

/-! ## Infinite executions -/

/-- **Every store is seen in the end**: from some step on no load returns an older write. Step `k` loads write
`i` to `l` if `loads k` is `some (l, i)`. -/
def Seen (m : ℕ → Memory Loc Tid Cell V D) (loads : ℕ → Option (Loc × ℕ)) : Prop :=
  ∀ k l, ∃ K, ∀ k' ≥ K, ∀ i, loads k' = some (l, i) → ((m k).writes l).length ≤ i + 1

omit [DecidableEq Loc] [DecidableEq Tid] in
/-- **After the last store** every load returns a last write, from some step on. -/
theorem Seen.exists_last [Finite Loc] {m : ℕ → Memory Loc Tid Cell V D} {loads : ℕ → Option (Loc × ℕ)}
    (h : Seen m loads) {B : ℕ} (hfew : ∀ k l, ((m k).writes l).length ≤ B) :
    ∃ K, ∀ k ≥ K, ∀ l i, loads k = some (l, i) → (m k).Last l i := by
  have hmost : ∀ l, ∃ j, ∀ k, ((m k).writes l).length ≤ ((m j).writes l).length := by
    intro l
    have hbdd : BddAbove (Set.range fun k => ((m k).writes l).length) := by
      refine ⟨B, ?_⟩
      rintro _ ⟨k, rfl⟩
      exact hfew k l
    obtain ⟨j, hj⟩ := Nat.sSup_mem (Set.range_nonempty _) hbdd
    refine ⟨j, fun k => ?_⟩
    show ((m k).writes l).length ≤ (fun k => ((m k).writes l).length) j
    rw [hj]
    exact le_csSup hbdd ⟨k, rfl⟩
  choose j hj using hmost
  choose K hK using fun l => h (j l) l
  obtain ⟨top, htop⟩ := (Set.finite_range K).bddAbove
  refine ⟨top, fun k hk l i hload => ?_⟩
  have hle : K l ≤ top := htop ⟨l, rfl⟩
  exact (hj l k).trans (hK l k (hle.trans hk) i hload)

end Ops

end Memory

end L2Book
