import L2Book.Lib.RelAcq
import L2Book.Transport.Execution

/-!
# The queue under release and acquire

`SPSCQueue` with the memory orders of `spsc_queue.hpp`: each side loads its own index relaxed and the index of
the other side with acquire, and stores its own with release. A load may return an old value. The slots are
plain memory.

* `WeakSpsc`: the memory and where each side stands; `tryPush`, `stepProd`, `tryPop`, `stepCons` with the
  number of the write that is loaded;
* `Sound`: what a view may claim; **`WeakSpsc.Inv`**: the invariant; `Inv.acquire`, `Inv.stepProd`,
  `Inv.stepCons`, `Inv.storeOther`: every step keeps it;
* `Frame`: what a step of one side leaves as it is;
* `Inv.not_writeRace`, `Inv.not_readRace`: no access to a slot races with another;
* `WeakExec`, **`weak_safe`**: executions.
-/

namespace L2Book

/-- The two threads. -/
inductive Party
  | producer
  | consumer
  deriving DecidableEq

/-- The atomic variables: the indices of the queue, and others. -/
inductive Shared (X : Type)
  | head
  | tail
  | other (x : X)
  deriving DecidableEq

/-- `SPSCQueue<T, Capacity>` in its memory, with the local state of both sides. -/
structure WeakSpsc (X T : Type) where
  mem : Memory (Shared X) Party UInt64 UInt64 T
  prod : ProdPc T
  cons : ConsPc T

/-- The slot is written, but `tail_` is not stored yet. -/
def ProdPc.ahead {T : Type} : ProdPc T → ℕ
  | .storeTail _ _ => 1
  | _ => 0

theorem ProdPc.eq_idle_of_item {T : Type} {pc : ProdPc T} (h : pc.item = none) : pc = .idle := by
  cases pc with
  | idle => rfl
  | _ => cases h

/-- The slot is read, but `head_` is not stored yet. -/
def ConsPc.ahead {T : Type} : ConsPc T → ℕ
  | .storeHead _ _ => 1
  | _ => 0

namespace WeakSpsc

variable {X T : Type}

/-- Both indices at 0, the other variables at `value`. -/
def init (value : X → UInt64) (slots : UInt64 → T) : WeakSpsc X T where
  mem := .init (fun
    | .head => 0
    | .tail => 0
    | .other x => value x) slots
  prod := .idle
  cons := .idle

section Steps

variable [DecidableEq X] (k : Fin 64)

/-- `try_push(item)` begins and loads write `i` of `tail_`, relaxed. -/
def tryPush (q : WeakSpsc X T) (i : ℕ) (item : T) : Option (WeakSpsc X T) :=
  (q.mem.load false .producer .tail i).map fun (t, mem) => { q with mem := mem, prod := .loadHead item t }

/-- The next step of `try_push`, with the value it returns if this is its last one. It loads write `i` of
`head_`, with acquire. -/
def stepProd (i : ℕ) (q : WeakSpsc X T) : Option (WeakSpsc X T × Option Bool) :=
  match q.prod with
  | .idle => some (q, none)
  | .loadHead item t =>
    (q.mem.load true .producer .head i).map fun (h, mem) =>
      if Spsc.next k t = h then ({ q with mem := mem, prod := .idle }, some false)
      else ({ q with mem := mem, prod := .writeSlot item t }, none)
  | .writeSlot item t =>
    some ({ q with mem := q.mem.writeCell .producer t item, prod := .storeTail item t }, none)
  | .storeTail _ t =>
    some ({ q with mem := q.mem.store .producer .tail (Spsc.next k t), prod := .idle }, some true)

/-- `try_pop(out)` begins and loads write `i` of `head_`, relaxed. -/
def tryPop (q : WeakSpsc X T) (i : ℕ) : Option (WeakSpsc X T) :=
  (q.mem.load false .consumer .head i).map fun (h, mem) => { q with mem := mem, cons := .loadTail h }

/-- The next step of `try_pop`, with `out` or `none` (for `false`) if this is its last one. It loads write `i`
of `tail_`, with acquire. -/
def stepCons (i : ℕ) (q : WeakSpsc X T) : Option (WeakSpsc X T × Option (Option T)) :=
  match q.cons with
  | .idle => some (q, none)
  | .loadTail h =>
    (q.mem.load true .consumer .tail i).map fun (t, mem) =>
      if h = t then ({ q with mem := mem, cons := .idle }, some none)
      else ({ q with mem := mem, cons := .readSlot h }, none)
  | .readSlot h =>
    some ({ q with mem := q.mem.readCell .consumer h, cons := .storeHead h (q.mem.cell h) }, none)
  | .storeHead h out =>
    some ({ q with mem := q.mem.store .consumer .head (Spsc.next k h), cons := .idle }, some (some out))

/-- Thread `t` loads write `i` of `l`, with acquire. -/
def load (q : WeakSpsc X T) (t : Party) (l : Shared X) (i : ℕ) : Option (UInt64 × WeakSpsc X T) :=
  (q.mem.load true t l i).map fun (v, mem) => (v, { q with mem := mem })

/-- Thread `t` stores `v` in another variable, with release. -/
def store (q : WeakSpsc X T) (t : Party) (x : X) (v : UInt64) : WeakSpsc X T :=
  { q with mem := q.mem.store t (.other x) v }

end Steps

/-! ## What a step leaves as it is -/

/-- **A step of thread `t`** stores in no other variable and does not touch the other side. -/
structure Frame (t : Party) (q q' : WeakSpsc X T) : Prop where
  writes : ∀ x, q'.mem.writes (.other x) = q.mem.writes (.other x)
  view : ∀ u, u ≠ t → q'.mem.view u = q.mem.view u
  prod : t ≠ .producer → q'.prod = q.prod
  cons : t ≠ .consumer → q'.cons = q.cons
  closed : q.mem.Closed → q'.mem.Closed

section Frame

variable {k : Fin 64} {q q' : WeakSpsc X T} {t : Party} {l : Shared X} {i : ℕ} {v : UInt64}
  {mem : Memory (Shared X) Party UInt64 UInt64 T}

theorem Frame.setProd (h : Frame .producer q q') (pc : ProdPc T) :
    Frame .producer q { q' with prod := pc } :=
  ⟨h.writes, h.view, fun hne => absurd rfl hne, h.cons, h.closed⟩

theorem Frame.setCons (h : Frame .consumer q q') (pc : ConsPc T) :
    Frame .consumer q { q' with cons := pc } :=
  ⟨h.writes, h.view, h.prod, fun hne => absurd rfl hne, h.closed⟩

theorem frame_refl (t : Party) (q : WeakSpsc X T) : Frame t q q :=
  ⟨fun _ => rfl, fun _ _ => rfl, fun _ => rfl, fun _ => rfl, id⟩

variable [DecidableEq X]

theorem frame_load {acq : Bool} (hload : q.mem.load acq t l i = some (v, mem)) :
    Frame t q { q with mem := mem } :=
  ⟨fun _ => congrFun (Memory.load_writes hload) _, fun _ => Memory.load_view_of_ne hload, fun _ => rfl,
    fun _ => rfl, fun h => h.load hload⟩

theorem frame_store (hl : ∀ x, l ≠ .other x) : Frame t q { q with mem := q.mem.store t l v } :=
  ⟨fun x => by simp [Memory.store, (hl x).symm], fun u hu => by simp [Memory.store, hu], fun _ => rfl,
    fun _ => rfl, fun h => h.store v⟩

theorem frame_tryPush {item : T} (hs : q.tryPush i item = some q') : Frame .producer q q' := by
  obtain ⟨⟨v, m⟩, hload, rfl⟩ := Option.map_eq_some_iff.mp hs
  exact (frame_load hload).setProd _

theorem item_tryPush {item : T} (hs : q.tryPush i item = some q') : q'.prod.item = some item := by
  obtain ⟨⟨v, m⟩, -, rfl⟩ := Option.map_eq_some_iff.mp hs
  rfl

theorem frame_stepProd {res : Option Bool} (hs : q.stepProd k i = some (q', res)) :
    Frame .producer q q' := by
  cases hpc : q.prod with
  | idle =>
    simp only [stepProd, hpc] at hs
    cases hs
    exact frame_refl _ _
  | loadHead item t =>
    simp only [stepProd, hpc] at hs
    obtain ⟨⟨v, m⟩, hload, hres⟩ := Option.map_eq_some_iff.mp hs
    split_ifs at hres <;> cases hres <;> exact (frame_load hload).setProd _
  | writeSlot item t =>
    simp only [stepProd, hpc] at hs
    cases hs
    exact ⟨fun _ => rfl, fun u hu => by simp [Memory.writeCell, hu], fun hne => absurd rfl hne,
      fun _ => rfl, fun h => h.tick rfl rfl⟩
  | storeTail item t =>
    simp only [stepProd, hpc] at hs
    cases hs
    exact (frame_store (by simp)).setProd _

theorem of_load (hs : q.load t l i = some (v, q')) :
    q.mem.load true t l i = some (v, q'.mem) ∧ q' = { q with mem := q'.mem } := by
  obtain ⟨⟨v', m⟩, hload, heq⟩ := Option.map_eq_some_iff.mp hs
  cases heq
  exact ⟨hload, rfl⟩

theorem frame_tryPop (hs : q.tryPop i = some q') : Frame .consumer q q' := by
  obtain ⟨⟨v, m⟩, hload, rfl⟩ := Option.map_eq_some_iff.mp hs
  exact (frame_load hload).setCons _

theorem frame_stepCons {res : Option (Option T)} (hs : q.stepCons k i = some (q', res)) :
    Frame .consumer q q' := by
  cases hpc : q.cons with
  | idle =>
    simp only [stepCons, hpc] at hs
    cases hs
    exact frame_refl _ _
  | loadTail c =>
    simp only [stepCons, hpc] at hs
    obtain ⟨⟨v, m⟩, hload, hres⟩ := Option.map_eq_some_iff.mp hs
    split_ifs at hres <;> cases hres <;> exact (frame_load hload).setCons _
  | readSlot c =>
    simp only [stepCons, hpc] at hs
    cases hs
    exact ⟨fun _ => rfl, fun u hu => by simp [Memory.readCell, hu], fun _ => rfl,
      fun hne => absurd rfl hne, fun h => h.tick rfl rfl⟩
  | storeHead c out =>
    simp only [stepCons, hpc] at hs
    cases hs
    exact (frame_store (by simp)).setCons _

end Frame

/-! ## The invariant -/

/-- **What a view may claim** after `p` stores of `tail_` and `c` of `head_`, and after `ap` accesses to slots
by the producer and `ac` by the consumer: who knows of a push knows of its slot, and so for pops. -/
structure Sound (p c ap ac : ℕ) (v : View (Shared X) Party) : Prop where
  tail : v.write .tail ≤ p
  head : v.write .head ≤ c
  pushed : v.write .tail ≤ v.access .producer
  popped : v.write .head ≤ v.access .consumer
  producer : v.access .producer ≤ ap
  consumer : v.access .consumer ≤ ac

theorem Sound.join {p c ap ac : ℕ} {v w : View (Shared X) Party} (hv : Sound p c ap ac v)
    (hw : Sound p c ap ac w) : Sound p c ap ac (v.join w) := by
  obtain ⟨h₁, h₂, h₃, h₄, h₅, h₆⟩ := hv
  obtain ⟨h₁', h₂', h₃', h₄', h₅', h₆'⟩ := hw
  constructor <;> simp only [View.join_write, View.join_access] <;> omega

theorem Sound.mono {p c ap ac p' c' ap' ac' : ℕ} {v : View (Shared X) Party} (h : Sound p c ap ac v)
    (hp : p ≤ p') (hc : c ≤ c') (hap : ap ≤ ap') (hac : ac ≤ ac') : Sound p' c' ap' ac' v :=
  ⟨h.tail.trans hp, h.head.trans hc, h.pushed, h.popped, h.producer.trans hap, h.consumer.trans hac⟩

theorem value_snoc {k : Fin 64} {ws : List (Write (Shared X) Party UInt64)} {n : ℕ}
    (hlen : ws.length = n + 1) (hws : ∀ i w, ws[i]? = some w → w.value.toNat = i % 2 ^ (k : ℕ))
    {w' : Write (Shared X) Party UInt64} (hw' : w'.value.toNat = (n + 1) % 2 ^ (k : ℕ)) (i : ℕ)
    (w : Write (Shared X) Party UInt64) (h : (ws ++ [w'])[i]? = some w) :
    w.value.toNat = i % 2 ^ (k : ℕ) := by
  rcases Nat.lt_or_ge i ws.length with hi | hi
  · rw [List.getElem?_append_left hi] at h
    exact hws i w h
  · obtain ⟨hlt, -⟩ := List.getElem?_eq_some_iff.mp h
    rw [List.length_append, List.length_singleton] at hlt
    obtain rfl : i = ws.length := by omega
    rw [List.getElem?_concat_length] at h
    cases h
    rw [hlen]
    exact hw'

/-- Where the producer stands: its copy of `tail_`, room in the ring, the written slot. -/
def ProdOk (k : Fin 64) (mem : Memory (Shared X) Party UInt64 UInt64 T) (pushed : List T) :
    ProdPc T → Prop
  | .idle => True
  | .loadHead _ t => t.toNat = pushed.length % 2 ^ (k : ℕ)
  | .writeSlot _ t => t.toNat = pushed.length % 2 ^ (k : ℕ) ∧
      pushed.length + 1 < (mem.view .producer).write .head + 2 ^ (k : ℕ)
  | .storeTail item t => t.toNat = pushed.length % 2 ^ (k : ℕ) ∧ mem.cell t = item

/-- Where the consumer stands: its copy of `head_`, a value in the ring, the value read. -/
def ConsOk (k : Fin 64) (mem : Memory (Shared X) Party UInt64 UInt64 T) (pushed popped : List T) :
    ConsPc T → Prop
  | .idle => True
  | .loadTail h => h.toNat = popped.length % 2 ^ (k : ℕ)
  | .readSlot h => h.toNat = popped.length % 2 ^ (k : ℕ) ∧
      popped.length < (mem.view .consumer).write .tail
  | .storeHead h out => h.toNat = popped.length % 2 ^ (k : ℕ) ∧ pushed[popped.length]? = some out

/-- **The invariant.** As in `Spsc.Inv` the slots between the indices hold the values that were pushed and not
popped. The consumer may not yet know of all pushes, nor the producer of all pops. The last accesses to a
slot were those of its current or of an earlier turn. -/
structure Inv (k : Fin 64) (q : WeakSpsc X T) (pushed popped : List T) : Prop where
  fifo : popped <+: pushed
  indexed : q.mem.Indexed
  sound : q.mem.Views (Sound pushed.length popped.length (pushed.length + q.prod.ahead)
    (popped.length + q.cons.ahead))
  tails : (q.mem.writes .tail).length = pushed.length + 1
  heads : (q.mem.writes .head).length = popped.length + 1
  tailValue : ∀ i w, (q.mem.writes .tail)[i]? = some w → w.value.toNat = i % 2 ^ (k : ℕ)
  headValue : ∀ i w, (q.mem.writes .head)[i]? = some w → w.value.toNat = i % 2 ^ (k : ℕ)
  ownTail : (q.mem.view .producer).write .tail = pushed.length
  ownHead : (q.mem.view .consumer).write .head = popped.length
  ownPush : (q.mem.view .producer).access .producer = pushed.length + q.prod.ahead
  ownPop : (q.mem.view .consumer).access .consumer = popped.length + q.cons.ahead
  room : pushed.length + q.prod.ahead < (q.mem.view .producer).write .head + 2 ^ (k : ℕ)
  seen : popped.length + q.cons.ahead ≤ (q.mem.view .consumer).write .tail
  cells : ∀ i, popped.length ≤ i → i < pushed.length → ∀ j : UInt64, j.toNat = i % 2 ^ (k : ℕ) →
    pushed[i]? = some (q.mem.cell j)
  written : ∀ j u n, q.mem.written j = some (u, n) → u = .producer ∧ 1 ≤ n ∧
    n ≤ pushed.length + q.prod.ahead ∧ (n - 1) % 2 ^ (k : ℕ) = j.toNat
  read : ∀ j, q.mem.read j .consumer ≠ 0 → q.mem.read j .consumer ≤ popped.length + q.cons.ahead ∧
    (q.mem.read j .consumer - 1) % 2 ^ (k : ℕ) = j.toNat
  prod : ProdOk k q.mem pushed q.prod
  cons : ConsOk k q.mem pushed popped q.cons

theorem inv_init (k : Fin 64) (value : X → UInt64) (slots : UInt64 → T) :
    Inv k (init value slots) [] [] where
  fifo := List.prefix_rfl
  indexed := Memory.indexed_init _ _
  sound := Memory.views_init ⟨le_rfl, le_rfl, le_rfl, le_rfl, le_rfl, le_rfl⟩ _ _
  tails := rfl
  heads := rfl
  tailValue i w h := by
    cases i with
    | zero =>
      cases h
      simp
    | succ i => cases h
  headValue i w h := by
    cases i with
    | zero =>
      cases h
      simp
    | succ i => cases h
  ownTail := rfl
  ownHead := rfl
  ownPush := rfl
  ownPop := rfl
  room := by
    show 0 < 0 + 2 ^ (k : ℕ)
    rw [Nat.zero_add]
    exact Nat.two_pow_pos _
  seen := le_rfl
  cells i _ hi := absurd hi (by simp)
  written j u n h := by cases h
  read j h := absurd rfl h
  prod := trivial
  cons := trivial

section Inv

variable {k : Fin 64} {q : WeakSpsc X T} {pushed popped : List T}
  {mem : Memory (Shared X) Party UInt64 UInt64 T}

theorem Inv.length_le (h : Inv k q pushed popped) : popped.length ≤ pushed.length := h.fifo.length_le

/-- The producer never runs a turn ahead. -/
theorem Inv.gap (h : Inv k q pushed popped) :
    pushed.length + q.prod.ahead < popped.length + 2 ^ (k : ℕ) := by
  have hroom := h.room
  have hhead := (h.sound.thread .producer).head
  omega

theorem Inv.behind (h : Inv k q pushed popped) : popped.length + q.cons.ahead ≤ pushed.length :=
  h.seen.trans (h.sound.thread .consumer).tail

/-! ## No races -/

/-- **The producer does not write to a slot that the consumer may be reading.** -/
theorem Inv.not_writeRace [DecidableEq X] (h : Inv k q pushed popped) {item : T} {t : UInt64}
    (hpc : q.prod = .writeSlot item t) : ¬ q.mem.WriteRace .producer t := by
  have hprod := h.prod
  rw [hpc] at hprod
  obtain ⟨ht, hroom⟩ := hprod
  have hbehind := h.behind
  have hknown := (h.sound.thread .producer).popped
  rintro (⟨u, n, hw, hu, -⟩ | ⟨u, hu, hlt⟩)
  · exact hu (h.written t u n hw).1
  · cases u with
    | producer => exact hu rfl
    | consumer =>
      have hpos : q.mem.read t .consumer ≠ 0 := by omega
      obtain ⟨hle, hmod⟩ := h.read t hpos
      -- the last read of the slot was at least one turn ago
      have hturn : q.mem.read t .consumer - 1 + 2 ^ (k : ℕ) ≤ pushed.length := by
        by_contra hfew
        have heq := Spsc.eq_of_mod_eq (hmod.trans ht) (by omega) (by omega)
        omega
      omega

/-- **The consumer does not read a slot that the producer may be writing.** -/
theorem Inv.not_readRace (h : Inv k q pushed popped) {t : UInt64} (hpc : q.cons = .readSlot t) :
    ¬ q.mem.ReadRace .consumer t := by
  have hcons := h.cons
  rw [hpc] at hcons
  obtain ⟨ht, hseen⟩ := hcons
  have hgap := h.gap
  have hknown := (h.sound.thread .consumer).pushed
  rintro ⟨u, n, hw, -, hlt⟩
  obtain ⟨rfl, hpos, hle, hmod⟩ := h.written t u n hw
  -- the last write to the slot was in this turn
  have hturn : n - 1 ≤ popped.length := by
    by_contra hmore
    have heq := Spsc.eq_of_mod_eq (ht.symm.trans hmod.symm) (by omega) (by omega)
    omega
  omega

/-! ## Steps that only learn -/

theorem ProdOk.mono {pc : ProdPc T} (h : ProdOk k q.mem pushed pc)
    (hle : q.mem.view .producer ≤ mem.view .producer) (hcell : mem.cell = q.mem.cell) :
    ProdOk k mem pushed pc := by
  have hhead := hle.1 .head
  cases pc with
  | idle => trivial
  | loadHead item t => exact h
  | writeSlot item t => exact ⟨h.1, h.2.trans_le (Nat.add_le_add_right hhead _)⟩
  | storeTail item t => exact ⟨h.1, hcell ▸ h.2⟩

theorem ConsOk.mono {pc : ConsPc T} (h : ConsOk k q.mem pushed popped pc)
    (hle : q.mem.view .consumer ≤ mem.view .consumer) : ConsOk k mem pushed popped pc := by
  cases pc with
  | readSlot t => exact ⟨h.1, h.2.trans_le (hle.1 .tail)⟩
  | _ => exact h

theorem Inv.grow (h : Inv k q pushed popped) (hidx : mem.Indexed)
    (hsound : mem.Views (Sound pushed.length popped.length (pushed.length + q.prod.ahead)
      (popped.length + q.cons.ahead)))
    (htail : mem.writes .tail = q.mem.writes .tail) (hhead : mem.writes .head = q.mem.writes .head)
    (hle : ∀ u, q.mem.view u ≤ mem.view u) (hcell : mem.cell = q.mem.cell)
    (hwritten : mem.written = q.mem.written) (hread : mem.read = q.mem.read) :
    Inv k { q with mem := mem } pushed popped := by
  have hp := hle .producer
  have hc := hle .consumer
  have hsp := hsound.thread .producer
  have hsc := hsound.thread .consumer
  have hroom := h.room
  have hseen := h.seen
  refine ⟨h.fifo, hidx, hsound, htail ▸ h.tails, hhead ▸ h.heads, htail ▸ h.tailValue,
    hhead ▸ h.headValue, ?_, ?_, ?_, ?_, ?_, ?_, ?_, ?_, ?_, h.prod.mono hp hcell, h.cons.mono hc⟩
  · exact Nat.le_antisymm hsp.tail (h.ownTail ▸ hp.1 .tail)
  · exact Nat.le_antisymm hsc.head (h.ownHead ▸ hc.1 .head)
  · exact Nat.le_antisymm hsp.producer (h.ownPush ▸ hp.2 .producer)
  · exact Nat.le_antisymm hsc.consumer (h.ownPop ▸ hc.2 .consumer)
  · have := hp.1 .head
    show pushed.length + q.prod.ahead < (mem.view .producer).write .head + 2 ^ (k : ℕ)
    omega
  · have := hc.1 .tail
    show popped.length + q.cons.ahead ≤ (mem.view .consumer).write .tail
    omega
  · simpa only [hcell] using h.cells
  · simpa only [hwritten] using h.written
  · simpa only [hread] using h.read

theorem Inv.setProd (h : Inv k q pushed popped) {pc : ProdPc T} (ha : pc.ahead = q.prod.ahead)
    (hpc : ProdOk k q.mem pushed pc) : Inv k { q with prod := pc } pushed popped :=
  { h with
    sound := by simpa only [ha] using h.sound
    ownPush := h.ownPush.trans (by rw [ha])
    room := by simpa only [ha] using h.room
    written := by simpa only [ha] using h.written
    prod := hpc }

theorem Inv.setCons (h : Inv k q pushed popped) {pc : ConsPc T} (ha : pc.ahead = q.cons.ahead)
    (hpc : ConsOk k q.mem pushed popped pc) : Inv k { q with cons := pc } pushed popped :=
  { h with
    sound := by simpa only [ha] using h.sound
    ownPop := h.ownPop.trans (by rw [ha])
    seen := by simpa only [ha] using h.seen
    read := by simpa only [ha] using h.read
    cons := hpc }

variable [DecidableEq X] {t : Party} {l : Shared X} {i : ℕ} {v : UInt64}

/-- **An acquire load of any variable** keeps the invariant. -/
theorem Inv.acquire (h : Inv k q pushed popped) (hload : q.mem.load true t l i = some (v, mem)) :
    Inv k { q with mem := mem } pushed popped := by
  have hw := Memory.load_writes hload
  obtain ⟨hcell, hwritten, hread⟩ := Memory.load_cell hload
  exact h.grow (h.indexed.load hload) (h.sound.acquire h.indexed (fun _ _ => Sound.join) hload)
    (congrFun hw _) (congrFun hw _) (Memory.le_view_of_acquire h.indexed hload) hcell hwritten hread

/-- **A store to another variable** keeps the invariant. -/
theorem Inv.storeOther (h : Inv k q pushed popped) (t : Party) (x : X) (v : UInt64) :
    Inv k { q with mem := q.mem.store t (.other x) v } pushed popped := by
  refine h.grow (h.indexed.store v) (h.sound.store ?_ v) ?_ ?_ (Memory.le_view_of_store _ _ _ _) rfl rfl rfl
  · obtain ⟨h₁, h₂, h₃, h₄, h₅, h₆⟩ := h.sound.thread t
    constructor <;> simp only [View.see_access, View.see_write_of_ne _ (show Shared.tail ≠ .other x by simp),
      View.see_write_of_ne _ (show Shared.head ≠ .other x by simp)] <;> assumption
  · simp [Memory.store]
  · simp [Memory.store]

/-! ## Steps of the producer -/

theorem Inv.tryPush (h : Inv k q pushed popped) {q' : WeakSpsc X T} {item : T} (hidle : q.prod = .idle)
    (hs : q.tryPush i item = some q') : Inv k q' pushed popped := by
  obtain ⟨⟨t, m⟩, hload, rfl⟩ := Option.map_eq_some_iff.mp hs
  have hown := h.ownTail
  have hi := Memory.load_last (by rw [h.tails, hown]) hload
  have hm : m = q.mem := Memory.load_relaxed hi.le hload
  subst hm
  obtain ⟨w, hw, -, rfl, -⟩ := Memory.of_load hload
  refine h.setProd (by rw [hidle]; rfl) ?_
  rw [hi, hown] at hw
  exact h.tailValue _ w hw

/-- **The load of `head_`.** The queue is found full only if it was full when that write took place, as far
as the producer goes. -/
theorem Inv.loadHead (h : Inv k q pushed popped) {item : T} {t v : UInt64}
    (hpc : q.prod = .loadHead item t) (hload : q.mem.load true .producer .head i = some (v, mem)) :
    i ≤ popped.length ∧ Inv k { q with mem := mem, prod := .idle } pushed popped ∧
      (Spsc.next k t = v → pushed.length + 1 = i + 2 ^ (k : ℕ)) ∧
      (Spsc.next k t ≠ v → Inv k { q with mem := mem, prod := .writeSlot item t } pushed popped) := by
  have hprod := h.prod
  rw [hpc] at hprod
  have hnext := Spsc.toNat_next k hprod
  have hahead : q.prod.ahead = 0 := by rw [hpc]; rfl
  have h' := h.acquire hload
  obtain ⟨w, hw, rfl, hle, hiw, hview⟩ := Memory.view_of_acquire h.indexed hload
  have hvalue := h.headValue i w hw
  have hheads := h.heads
  obtain ⟨hlt, -⟩ := List.getElem?_eq_some_iff.mp hw
  have hroom := h.room
  have hknown : i ≤ (mem.view .producer).write .head := by
    rw [hview, View.join_write]
    omega
  have hlen := h.length_le
  refine ⟨by omega, h'.setProd hahead.symm trivial, fun hfull => ?_, fun hne => ?_⟩
  · rw [hfull, hvalue] at hnext
    by_contra hnot
    have heq := Spsc.eq_of_mod_eq hnext (by omega) (by omega)
    omega
  · refine h'.setProd hahead.symm ⟨hprod, ?_⟩
    have hnot : pushed.length + 1 ≠ i + 2 ^ (k : ℕ) := by
      intro heq
      refine hne (UInt64.toNat_inj.mp ?_)
      rw [hnext, hvalue, heq, Nat.add_mod_right]
    show pushed.length + 1 < (mem.view .producer).write .head + 2 ^ (k : ℕ)
    omega

omit [DecidableEq X] in
theorem Inv.writeSlot (h : Inv k q pushed popped) {item : T} {t : UInt64}
    (hpc : q.prod = .writeSlot item t) :
    Inv k { q with mem := q.mem.writeCell .producer t item, prod := .storeTail item t } pushed popped := by
  have hprod := h.prod
  rw [hpc] at hprod
  obtain ⟨ht, hroom⟩ := hprod
  have hahead : q.prod.ahead = 0 := by rw [hpc]; rfl
  have hgap := h.gap
  have hpush := h.ownPush
  have hsound := h.sound
  have hwritten := h.written
  rw [hahead] at hpush hsound hwritten
  exact
  { h with
    sound := by
      refine (hsound.mono fun v hv => hv.mono le_rfl le_rfl (Nat.le_succ _) le_rfl).tick ?_ rfl rfl
      obtain ⟨h₁, h₂, h₃, h₄, -, h₆⟩ := hsound.thread .producer
      refine ⟨h₁, h₂, ?_, ?_, ?_, ?_⟩
      · rw [View.tick_write, View.tick_access_self]
        omega
      · rwa [View.tick_write, View.tick_access_of_ne _ (by decide)]
      · rw [View.tick_access_self, hpush]
      · rwa [View.tick_access_of_ne _ (by decide)]
    ownTail := by simpa [Memory.writeCell] using h.ownTail
    ownHead := by simpa [Memory.writeCell] using h.ownHead
    ownPush := by simp [Memory.writeCell, hpush, ProdPc.ahead]
    ownPop := by simpa [Memory.writeCell] using h.ownPop
    room := by simpa [Memory.writeCell, ProdPc.ahead] using hroom
    seen := by simpa [Memory.writeCell] using h.seen
    cells := fun i hlo hhi j hj => by
      -- the slot holds no value that is still to be read
      have hne : j ≠ t := by
        rintro rfl
        have := Spsc.eq_of_mod_eq (hj.symm.trans ht) (by omega) (by omega)
        omega
      show pushed[i]? = some (Function.update q.mem.cell t item j)
      rw [Function.update_of_ne hne]
      exact h.cells i hlo hhi j hj
    written := fun j u n hw => by
      by_cases hj : j = t
      · subst hj
        simp only [Memory.writeCell, Function.update_self, hpush] at hw
        cases hw
        exact ⟨rfl, by omega, le_rfl, ht.symm⟩
      · simp only [Memory.writeCell, Function.update_of_ne hj] at hw
        obtain ⟨hu, hpos, hle, hmod⟩ := hwritten j u n hw
        exact ⟨hu, hpos, Nat.le_succ_of_le hle, hmod⟩
    prod := ⟨ht, Function.update_self _ _ _⟩
    cons := by
      have hcons := h.cons
      revert hcons
      cases q.cons with
      | readSlot c => exact fun hcons => ⟨hcons.1, by simpa [Memory.writeCell] using hcons.2⟩
      | _ => exact id }

theorem Inv.storeTail (h : Inv k q pushed popped) {item : T} {t : UInt64}
    (hpc : q.prod = .storeTail item t) :
    Inv k { q with mem := q.mem.store .producer .tail (Spsc.next k t), prod := .idle } (pushed ++ [item])
      popped := by
  have hprod := h.prod
  rw [hpc] at hprod
  obtain ⟨ht, hcell⟩ := hprod
  have hahead : q.prod.ahead = 1 := by rw [hpc]; rfl
  have hlen : (pushed ++ [item]).length = pushed.length + 1 := by simp
  have hle := h.length_le
  have hroom := h.room
  have hsound := h.sound
  have hpush := h.ownPush
  have hwritten := h.written
  have hown := h.ownTail
  have hbehind := h.behind
  rw [hahead] at hpush hsound hwritten hroom
  have hsee : (q.mem.view .producer).see .tail (q.mem.writes .tail).length =
      (q.mem.view .producer).see .tail (pushed.length + 1) := by rw [h.tails]
  exact
  { fifo := h.fifo.trans (List.prefix_append _ _)
    indexed := h.indexed.store _
    sound := by
      rw [hlen]
      refine (hsound.mono fun v hv => hv.mono (Nat.le_succ _) le_rfl le_rfl le_rfl).store ?_ _
      obtain ⟨h₁, h₂, h₃, h₄, h₅, h₆⟩ := hsound.thread .producer
      rw [hsee]
      refine ⟨?_, ?_, ?_, ?_, h₅, h₆⟩
      · rw [View.see_write_self]
        omega
      · rwa [View.see_write_of_ne _ (by simp)]
      · rw [View.see_write_self, View.see_access]
        omega
      · rwa [View.see_write_of_ne _ (by simp), View.see_access]
    tails := by simp [Memory.store, h.tails]
    heads := by simpa [Memory.store] using h.heads
    tailValue := by
      simp only [Memory.store, Function.update_self]
      exact value_snoc h.tails h.tailValue (Spsc.toNat_next k ht)
    headValue := by simpa [Memory.store] using h.headValue
    ownTail := by
      simp only [Memory.store, Function.update_self, View.see_write_self, h.tails, hlen]
      omega
    ownHead := by simpa [Memory.store] using h.ownHead
    ownPush := by simpa [Memory.store, ProdPc.ahead] using hpush
    ownPop := by simpa [Memory.store] using h.ownPop
    room := by
      simp only [Memory.store, Function.update_self, hlen]
      rwa [View.see_write_of_ne _ (by simp)]
    seen := by simpa [Memory.store] using h.seen
    cells := fun i hlo hhi j hj => by
      rw [hlen] at hhi
      rcases Nat.lt_succ_iff_lt_or_eq.mp hhi with hi | rfl
      · rw [List.getElem?_append_left hi]
        exact h.cells i hlo hi j hj
      · -- the new value lies in the slot written before
        obtain rfl : j = t := UInt64.toNat_inj.mp (hj.trans ht.symm)
        rw [List.getElem?_concat_length]
        exact congrArg some hcell.symm
    written := by
      rw [hlen]
      exact hwritten
    read := h.read
    prod := trivial
    cons := by
      have hcons := h.cons
      revert hcons
      cases hc : q.cons with
      | idle => exact id
      | loadTail c => exact id
      | readSlot c => exact fun hcons => ⟨hcons.1, by simpa [Memory.store] using hcons.2⟩
      | storeHead c out =>
        rintro ⟨hc', hout⟩
        refine ⟨hc', ?_⟩
        rw [List.getElem?_append_left (List.getElem?_eq_some_iff.mp hout).1]
        exact hout }

/-! ## Steps of the consumer -/

theorem Inv.tryPop (h : Inv k q pushed popped) {q' : WeakSpsc X T} (hidle : q.cons = .idle)
    (hs : q.tryPop i = some q') : Inv k q' pushed popped := by
  obtain ⟨⟨c, m⟩, hload, rfl⟩ := Option.map_eq_some_iff.mp hs
  have hown := h.ownHead
  have hi := Memory.load_last (by rw [h.heads, hown]) hload
  have hm : m = q.mem := Memory.load_relaxed hi.le hload
  subst hm
  obtain ⟨w, hw, -, rfl, -⟩ := Memory.of_load hload
  refine h.setCons (by rw [hidle]; rfl) ?_
  rw [hi, hown] at hw
  exact h.headValue _ w hw

/-- **The load of `tail_`.** The queue is found empty only if it was empty when that write took place, as far
as the consumer goes. -/
theorem Inv.loadTail (h : Inv k q pushed popped) {c v : UInt64} (hpc : q.cons = .loadTail c)
    (hload : q.mem.load true .consumer .tail i = some (v, mem)) :
    i ≤ pushed.length ∧ Inv k { q with mem := mem, cons := .idle } pushed popped ∧
      (c = v → popped.length = i) ∧
      (c ≠ v → Inv k { q with mem := mem, cons := .readSlot c } pushed popped) := by
  have hcons := h.cons
  rw [hpc] at hcons
  have hcons : c.toNat = popped.length % 2 ^ (k : ℕ) := hcons
  have hahead : q.cons.ahead = 0 := by rw [hpc]; rfl
  have h' := h.acquire hload
  obtain ⟨w, hw, rfl, hle, hiw, hview⟩ := Memory.view_of_acquire h.indexed hload
  have hvalue := h.tailValue i w hw
  have htails := h.tails
  obtain ⟨hlt, -⟩ := List.getElem?_eq_some_iff.mp hw
  have hgap := h.gap
  have hseen := h.seen
  have hknown : i ≤ (mem.view .consumer).write .tail := by
    rw [hview, View.join_write]
    omega
  refine ⟨by omega, h'.setCons hahead.symm trivial, fun hempty => ?_, fun hne => ?_⟩
  · rw [hempty, hvalue] at hcons
    exact Spsc.eq_of_mod_eq hcons.symm (by omega) (by omega)
  · refine h'.setCons hahead.symm ⟨hcons, ?_⟩
    have hnot : popped.length ≠ i := by
      intro heq
      exact hne (UInt64.toNat_inj.mp (by rw [hcons, hvalue, heq]))
    show popped.length < (mem.view .consumer).write .tail
    omega

omit [DecidableEq X] in
theorem Inv.readSlot (h : Inv k q pushed popped) {c : UInt64} (hpc : q.cons = .readSlot c) :
    Inv k { q with mem := q.mem.readCell .consumer c, cons := .storeHead c (q.mem.cell c) } pushed
      popped := by
  have hcons := h.cons
  rw [hpc] at hcons
  obtain ⟨hc, hseen⟩ := hcons
  have hahead : q.cons.ahead = 0 := by rw [hpc]; rfl
  have hpop := h.ownPop
  have hsound := h.sound
  have hread := h.read
  have hlt := hseen.trans_le (h.sound.thread .consumer).tail
  rw [hahead] at hpop hsound hread
  exact
  { h with
    sound := by
      refine (hsound.mono fun v hv => hv.mono le_rfl le_rfl le_rfl (Nat.le_succ _)).tick ?_ rfl rfl
      obtain ⟨h₁, h₂, h₃, h₄, h₅, -⟩ := hsound.thread .consumer
      refine ⟨h₁, h₂, ?_, ?_, ?_, ?_⟩
      · rwa [View.tick_write, View.tick_access_of_ne _ (by decide)]
      · rw [View.tick_write, View.tick_access_self]
        omega
      · rwa [View.tick_access_of_ne _ (by decide)]
      · rw [View.tick_access_self, hpop]
    ownTail := by simpa [Memory.readCell] using h.ownTail
    ownHead := by simpa [Memory.readCell] using h.ownHead
    ownPush := by simpa [Memory.readCell] using h.ownPush
    ownPop := by simp [Memory.readCell, hpop, ConsPc.ahead]
    room := by simpa [Memory.readCell] using h.room
    seen := by simpa [Memory.readCell, ConsPc.ahead, Nat.succ_le_iff] using hseen
    read := fun j hj => by
      by_cases hjc : j = c
      · subst hjc
        simp only [Memory.readCell, Function.update_self, hpop] at hj ⊢
        exact ⟨le_rfl, hc.symm⟩
      · simp only [Memory.readCell, Function.update_of_ne hjc] at hj ⊢
        obtain ⟨hle, hmod⟩ := hread j hj
        exact ⟨Nat.le_succ_of_le hle, hmod⟩
    prod := by
      have hprod := h.prod
      revert hprod
      cases q.prod with
      | writeSlot item t => exact fun hprod => ⟨hprod.1, by simpa [Memory.readCell] using hprod.2⟩
      | _ => exact id
    cons := ⟨hc, h.cells popped.length le_rfl hlt c hc⟩ }

theorem Inv.storeHead (h : Inv k q pushed popped) {c : UInt64} {out : T} (hpc : q.cons = .storeHead c out) :
    Inv k { q with mem := q.mem.store .consumer .head (Spsc.next k c), cons := .idle } pushed
      (popped ++ [out]) ∧ pushed[popped.length]? = some out := by
  have hcons := h.cons
  rw [hpc] at hcons
  obtain ⟨hc, hout⟩ := hcons
  have hahead : q.cons.ahead = 1 := by rw [hpc]; rfl
  have hlen : (popped ++ [out]).length = popped.length + 1 := by simp
  have hsound := h.sound
  have hpop := h.ownPop
  have hread := h.read
  have hseen := h.seen
  have hown := h.ownHead
  rw [hahead] at hpop hsound hread hseen
  have hsee : (q.mem.view .consumer).see .head (q.mem.writes .head).length =
      (q.mem.view .consumer).see .head (popped.length + 1) := by rw [h.heads]
  refine ⟨?_, hout⟩
  exact
  { fifo := by
      obtain ⟨rest, rfl⟩ := h.fifo
      rw [List.getElem?_append_right le_rfl, Nat.sub_self, ← List.head?_eq_getElem?] at hout
      obtain ⟨rest', rfl⟩ := List.head?_eq_some_iff.mp hout
      exact ⟨rest', by rw [List.append_assoc, List.singleton_append]⟩
    indexed := h.indexed.store _
    sound := by
      rw [hlen]
      refine (hsound.mono fun v hv => hv.mono le_rfl (Nat.le_succ _) le_rfl le_rfl).store ?_ _
      obtain ⟨h₁, h₂, h₃, h₄, h₅, h₆⟩ := hsound.thread .consumer
      rw [hsee]
      refine ⟨?_, ?_, ?_, ?_, h₅, h₆⟩
      · rwa [View.see_write_of_ne _ (by simp)]
      · rw [View.see_write_self]
        omega
      · rwa [View.see_write_of_ne _ (by simp), View.see_access]
      · rw [View.see_write_self, View.see_access]
        omega
    tails := by simpa [Memory.store] using h.tails
    heads := by simp [Memory.store, h.heads]
    tailValue := by simpa [Memory.store] using h.tailValue
    headValue := by
      simp only [Memory.store, Function.update_self]
      exact value_snoc h.heads h.headValue (Spsc.toNat_next k hc)
    ownTail := by simpa [Memory.store] using h.ownTail
    ownHead := by
      simp only [Memory.store, Function.update_self, View.see_write_self, h.heads, hlen]
      omega
    ownPush := by simpa [Memory.store] using h.ownPush
    ownPop := by simpa [Memory.store, ConsPc.ahead] using hpop
    room := by simpa [Memory.store] using h.room
    seen := by
      simp only [Memory.store, Function.update_self, hlen]
      rwa [View.see_write_of_ne _ (by simp)]
    cells := fun i hlo hhi j hj => h.cells i (by omega) hhi j hj
    written := h.written
    read := by
      rw [hlen]
      exact hread
    prod := by
      have hprod := h.prod
      revert hprod
      cases q.prod with
      | writeSlot item t => exact fun hprod => ⟨hprod.1, by simpa [Memory.store] using hprod.2⟩
      | _ => exact id
    cons := trivial }

/-! ## Loads of a side that knows the last store -/

theorem Inv.load_head (h : Inv k q pushed popped)
    (hload : q.mem.load true .consumer .head i = some (v, mem)) :
    v.toNat = popped.length % 2 ^ (k : ℕ) := by
  have hown := h.ownHead
  have hi := Memory.load_last (by rw [h.heads, hown]) hload
  obtain ⟨w, hw, -, rfl, -⟩ := Memory.of_load hload
  rw [hi, hown] at hw
  exact h.headValue _ w hw

/-- A consumer that knows of all pushes loads the last `tail_`. -/
theorem Inv.load_tail (h : Inv k q pushed popped)
    (hknown : (q.mem.view .consumer).write .tail = pushed.length)
    (hload : q.mem.load true .consumer .tail i = some (v, mem)) :
    v.toNat = pushed.length % 2 ^ (k : ℕ) := by
  have hi := Memory.load_last (by rw [h.tails, hknown]) hload
  obtain ⟨w, hw, -, rfl, -⟩ := Memory.of_load hload
  rw [hi, hknown] at hw
  exact h.tailValue _ w hw

theorem Inv.knows_of_acquire (h : Inv k q pushed popped)
    (hknown : (q.mem.view .consumer).write .tail = pushed.length)
    (hload : q.mem.load true .consumer l i = some (v, mem)) :
    (mem.view .consumer).write .tail = pushed.length := by
  have hle := (Memory.le_view_of_acquire h.indexed hload .consumer).1 .tail
  have hsound := ((h.acquire hload).sound.thread .consumer).tail
  exact Nat.le_antisymm hsound (hknown ▸ hle)

omit [DecidableEq X] in
theorem Inv.length_eq (h : Inv k q pushed popped) {a b : UInt64} (ha : a.toNat = popped.length % 2 ^ (k : ℕ))
    (hb : b.toNat = pushed.length % 2 ^ (k : ℕ)) (hab : a = b) : popped.length = pushed.length := by
  have hgap := h.gap
  have hle := h.length_le
  rw [hab, hb] at ha
  exact Spsc.eq_of_mod_eq ha.symm (by omega) (by omega)

/-! ## Whole calls -/

/-- **A step of `try_push`.** -/
theorem Inv.stepProd (h : Inv k q pushed popped) {q' : WeakSpsc X T} {res : Option Bool}
    (hs : q.stepProd k i = some (q', res)) :
    match res with
    | none => Inv k q' pushed popped ∧ q'.prod.item = q.prod.item
    | some false => (∃ item t, q.prod = .loadHead item t) ∧ Inv k q' pushed popped ∧ q'.prod = .idle ∧
        i ≤ popped.length ∧ pushed.length + 1 = i + 2 ^ (k : ℕ)
    | some true => ∃ item t, q.prod = .storeTail item t ∧ Inv k q' (pushed ++ [item]) popped ∧
        q'.prod = .idle := by
  cases hpc : q.prod with
  | idle =>
    simp only [WeakSpsc.stepProd, hpc] at hs
    cases hs
    exact ⟨h, by rw [hpc]⟩
  | loadHead item t =>
    simp only [WeakSpsc.stepProd, hpc] at hs
    obtain ⟨⟨v, m⟩, hload, hres⟩ := Option.map_eq_some_iff.mp hs
    obtain ⟨hi, hidle, hfull, hgo⟩ := h.loadHead hpc hload
    by_cases hv : Spsc.next k t = v
    · rw [if_pos hv] at hres
      cases hres
      exact ⟨⟨item, t, rfl⟩, hidle, rfl, hi, hfull hv⟩
    · rw [if_neg hv] at hres
      cases hres
      exact ⟨hgo hv, rfl⟩
  | writeSlot item t =>
    simp only [WeakSpsc.stepProd, hpc] at hs
    cases hs
    exact ⟨h.writeSlot hpc, rfl⟩
  | storeTail item t =>
    simp only [WeakSpsc.stepProd, hpc] at hs
    cases hs
    exact ⟨item, t, rfl, h.storeTail hpc, rfl⟩

/-- **A step of `try_pop`.** -/
theorem Inv.stepCons (h : Inv k q pushed popped) {q' : WeakSpsc X T} {res : Option (Option T)}
    (hs : q.stepCons k i = some (q', res)) :
    match res with
    | none => Inv k q' pushed popped
    | some none => (∃ c, q.cons = .loadTail c) ∧ Inv k q' pushed popped ∧ q'.cons = .idle ∧
        i ≤ pushed.length ∧ popped.length = i
    | some (some out) => Inv k q' pushed (popped ++ [out]) ∧ q'.cons = .idle ∧
        pushed[popped.length]? = some out := by
  cases hpc : q.cons with
  | idle =>
    simp only [WeakSpsc.stepCons, hpc] at hs
    cases hs
    exact h
  | loadTail c =>
    simp only [WeakSpsc.stepCons, hpc] at hs
    obtain ⟨⟨v, m⟩, hload, hres⟩ := Option.map_eq_some_iff.mp hs
    obtain ⟨hi, hidle, hempty, hgo⟩ := h.loadTail hpc hload
    by_cases hv : c = v
    · rw [if_pos hv] at hres
      cases hres
      exact ⟨⟨c, rfl⟩, hidle, rfl, hi, hempty hv⟩
    · rw [if_neg hv] at hres
      cases hres
      exact hgo hv
  | readSlot c =>
    simp only [WeakSpsc.stepCons, hpc] at hs
    cases hs
    exact h.readSlot hpc
  | storeHead c out =>
    simp only [WeakSpsc.stepCons, hpc] at hs
    cases hs
    obtain ⟨hinv, hout⟩ := h.storeHead hpc
    exact ⟨hinv, rfl, hout⟩

end Inv

end WeakSpsc

/-! ## Executions -/

/-- The queue and the calls that have returned. -/
structure WeakExec (T : Type) where
  queue : WeakSpsc Empty T
  ops : List (QueueOp T)

namespace WeakExec

variable {T : Type}

def init (slots : UInt64 → T) : WeakExec T := ⟨.init (fun x => x.elim) slots, []⟩

/-- What a step of the producer completes. -/
def prodOps (q : WeakSpsc Empty T) (res : Option Bool) : List (QueueOp T) :=
  match q.prod.item, res with
  | some item, some ok => [.push item ok]
  | _, _ => []

/-- What a step of the consumer completes. -/
def consOps (res : Option (Option T)) : List (QueueOp T) :=
  match res with
  | some res => [.pop res]
  | none => []

/-- One step of one side, with the write that it loads. -/
inductive Step (k : Fin 64) : WeakExec T → WeakExec T → Prop
  | callPush (e : WeakExec T) (item : T) (i : ℕ) (q : WeakSpsc Empty T) : e.queue.prod = .idle →
      e.queue.tryPush i item = some q → Step k e ⟨q, e.ops⟩
  | prod (e : WeakExec T) (i : ℕ) (q : WeakSpsc Empty T) (res : Option Bool) :
      e.queue.stepProd k i = some (q, res) → Step k e ⟨q, e.ops ++ prodOps e.queue res⟩
  | callPop (e : WeakExec T) (i : ℕ) (q : WeakSpsc Empty T) : e.queue.cons = .idle →
      e.queue.tryPop i = some q → Step k e ⟨q, e.ops⟩
  | cons (e : WeakExec T) (i : ℕ) (q : WeakSpsc Empty T) (res : Option (Option T)) :
      e.queue.stepCons k i = some (q, res) → Step k e ⟨q, e.ops ++ consOps res⟩

/-- The values of the successful pushes and pops so far. -/
def pushed (e : WeakExec T) : List T := pushedOf e.ops

def popped (e : WeakExec T) : List T := poppedOf e.ops

/-- The invariant holds with the recorded values. -/
def Inv (k : Fin 64) (e : WeakExec T) : Prop := e.queue.Inv k e.pushed e.popped

theorem inv_append {k : Fin 64} {e : WeakExec T} {q : WeakSpsc Empty T} {ops : List (QueueOp T)}
    (h : q.Inv k (e.pushed ++ pushedOf ops) (e.popped ++ poppedOf ops)) : Inv k ⟨q, e.ops ++ ops⟩ := by
  have hpushed : pushed ⟨q, e.ops ++ ops⟩ = e.pushed ++ pushedOf ops := List.filterMap_append
  have hpopped : popped ⟨q, e.ops ++ ops⟩ = e.popped ++ poppedOf ops := List.filterMap_append
  rw [Inv, hpushed, hpopped]
  exact h

theorem Inv.step {k : Fin 64} {e e' : WeakExec T} (h : Inv k e) (hs : Step k e e') : Inv k e' := by
  cases hs with
  | callPush item i q hidle hq => exact WeakSpsc.Inv.tryPush h hidle hq
  | prod i q res hq =>
    have hstep := WeakSpsc.Inv.stepProd h hq
    refine inv_append ?_
    cases res with
    | none =>
      have hnone : prodOps e.queue none = [] := by
        unfold prodOps
        cases e.queue.prod.item <;> rfl
      simpa [hnone, pushedOf, poppedOf] using hstep.1
    | some ok =>
      cases ok with
      | false =>
        obtain ⟨⟨item, t, hpc⟩, hinv, -⟩ := hstep
        simpa [prodOps, hpc, ProdPc.item, pushedOf, poppedOf] using hinv
      | true =>
        obtain ⟨item, t, hpc, hinv, -⟩ := hstep
        simpa [prodOps, hpc, ProdPc.item, pushedOf, poppedOf] using hinv
  | callPop i q hidle hq => exact WeakSpsc.Inv.tryPop h hidle hq
  | cons i q res hq =>
    have hstep := WeakSpsc.Inv.stepCons h hq
    refine inv_append ?_
    cases res with
    | none => simpa [consOps, pushedOf, poppedOf] using hstep
    | some res =>
      cases res with
      | none => simpa [consOps, pushedOf, poppedOf] using hstep.2.1
      | some out => simpa [consOps, pushedOf, poppedOf] using hstep.1

theorem inv_of_reachable {k : Fin 64} {slots : UInt64 → T} {e : WeakExec T}
    (h : Relation.ReflTransGen (Step k) (init slots) e) : Inv k e := by
  induction h with
  | refl => exact WeakSpsc.inv_init k _ slots
  | tail _ hs ih => exact ih.step hs

/-- **The queue is safe under release and acquire.** In every execution in which loads may return old writes,
no access to a slot races with another one, and the popped values are a prefix of the pushed ones, fewer than
`2 ^ k` behind. `try_push` returns `false` only if the queue was full when the write of `head_` that it loads
took place, counting the pushes since, and `try_pop` only if all pushes up to the write of `tail_` that it
loads have been popped. -/
theorem weak_safe (k : Fin 64) (slots : UInt64 → T) (e : WeakExec T)
    (h : Relation.ReflTransGen (Step k) (init slots) e) :
    (∀ item t, e.queue.prod = .writeSlot item t → ¬ e.queue.mem.WriteRace .producer t) ∧
    (∀ c, e.queue.cons = .readSlot c → ¬ e.queue.mem.ReadRace .consumer c) ∧
    e.popped <+: e.pushed ∧ e.pushed.length < e.popped.length + 2 ^ (k : ℕ) ∧
    (∀ i q, e.queue.stepProd k i = some (q, some false) →
      i ≤ e.popped.length ∧ e.pushed.length = i + (2 ^ (k : ℕ) - 1)) ∧
    (∀ i q, e.queue.stepCons k i = some (q, some none) →
      i ≤ e.pushed.length ∧ e.popped.length = i) := by
  have hinv := inv_of_reachable h
  have hpos := Nat.two_pow_pos (k : ℕ)
  refine ⟨fun item t hpc => hinv.not_writeRace hpc, fun c hpc => hinv.not_readRace hpc, hinv.fifo,
    (Nat.le_add_right _ _).trans_lt hinv.gap, fun i q hs => ?_, fun i q hs => ?_⟩
  · obtain ⟨-, -, -, hi, hfull⟩ := hinv.stepProd hs
    exact ⟨hi, by omega⟩
  · obtain ⟨-, -, -, hi, hempty⟩ := hinv.stepCons hs
    exact ⟨hi, hempty⟩

/-- A push that loads the first write of `head_` finds a queue of two slots full, although it is empty. -/
theorem weak_safe_stale : ∃ e : WeakExec ℕ, e.pushed = [7] ∧ e.popped = [7] ∧
    ∃ q, e.queue.stepProd 1 0 = some (q, some false) ∧ e.pushed.length = 0 + (2 ^ 1 - 1) := by
  have hpush := (((Relation.ReflTransGen.single (Step.callPush (k := 1) (init fun _ => 0) 7 0 _ rfl rfl)).tail
    (.prod _ 0 _ _ rfl)).tail (.prod _ 0 _ _ rfl)).tail (.prod _ 0 _ _ rfl)
  have hpop := (((hpush.tail (.callPop _ 0 _ rfl rfl)).tail (.cons _ 1 _ _ rfl)).tail
    (.cons _ 0 _ _ rfl)).tail (.cons _ 0 _ _ rfl)
  have hreach := hpop.tail (.callPush _ 8 1 _ rfl rfl)
  obtain ⟨-, -, -, -, hfull, -⟩ := weak_safe 1 _ _ hreach
  exact ⟨_, rfl, rfl, _, rfl, (hfull 0 _ rfl).2⟩

end WeakExec

end L2Book
