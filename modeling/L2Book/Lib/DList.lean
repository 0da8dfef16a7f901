import Mathlib.Data.List.Induction
import Mathlib.Data.List.Nodup
import Mathlib.Logic.Function.Basic

/-!
# Intrusive linked lists over a heap

A heap assigns to every cell a forward and a backward link (`Links`). Lists live in the links
only: `IsList hd tl l` says that the cells `l`, from head to tail, form a nil-terminated doubly
linked list without repetition, and `IsChain` is the singly linked version used by free lists.

* `Seg`: a segment of a doubly linked list between two outer cells; `seg_append`, `Seg.congr`;
* **`IsList.append`**, **`IsList.unlink`**: linking a cell behind the tail and unlinking a cell
  from any position;
* `IsList.congr`, `append_frame`, `unlink_frame`: lists that share no cell with the operation are
  untouched;
* `IsChain`: `IsChain.congr`, `IsChain.cons_of_some`, `IsChain.eq_nil_of_none`;
* `walk`: the cells met from a head by following forward links, `IsList.walk_eq`.
-/

namespace L2Book

variable {P : Type} [DecidableEq P]

/-- The forward and backward links of a heap of cells. -/
structure Links (P : Type) where
  next : P → Option P
  prev : P → Option P

namespace Links

/-- The cells `l` are linked one after the other, the first one back to `before` and the last one
on to `after`. -/
def Seg (L : Links P) : Option P → List P → Option P → Prop
  | _, [], _ => True
  | before, p :: l, after =>
    L.prev p = before ∧ L.next p = l.head?.or after ∧ Seg L (some p) l after

/-- **A doubly linked list** with cells `l`, head `hd` and tail `tl`. -/
structure IsList (L : Links P) (hd tl : Option P) (l : List P) : Prop where
  head : hd = l.head?
  tail : tl = l.getLast?
  seg : L.Seg none l none
  nodup : l.Nodup

omit [DecidableEq P] in
theorem seg_append (L : Links P) (before after : Option P) (l₁ l₂ : List P) :
    L.Seg before (l₁ ++ l₂) after ↔
      L.Seg before l₁ (l₂.head?.or after) ∧ L.Seg (l₁.getLast?.or before) l₂ after := by
  induction l₁ generalizing before with
  | nil => simp [Seg]
  | cons p l₁ ih =>
    have hlast : ((p :: l₁).getLast?).or before = l₁.getLast?.or (some p) := by
      rw [List.getLast?_cons]
      cases l₁.getLast? <;> rfl
    simp only [List.cons_append, Seg, ih, List.head?_append, Option.or_assoc, hlast, and_assoc]

omit [DecidableEq P] in
theorem Seg.congr {L L' : Links P} {l : List P} (hn : ∀ p ∈ l, L'.next p = L.next p)
    (hp : ∀ p ∈ l, L'.prev p = L.prev p) {before after : Option P} (h : L.Seg before l after) :
    L'.Seg before l after := by
  induction l generalizing before with
  | nil => trivial
  | cons p l ih =>
    obtain ⟨h₁, h₂, h₃⟩ := h
    exact ⟨(hp p List.mem_cons_self).trans h₁, (hn p List.mem_cons_self).trans h₂,
      ih (fun q hq => hn q (List.mem_cons_of_mem _ hq))
        (fun q hq => hp q (List.mem_cons_of_mem _ hq)) h₃⟩

omit [DecidableEq P] in
/-- A list is untouched when the links of its cells are. -/
theorem IsList.congr {L L' : Links P} {hd tl : Option P} {l : List P}
    (hn : ∀ p ∈ l, L'.next p = L.next p) (hp : ∀ p ∈ l, L'.prev p = L.prev p)
    (h : L.IsList hd tl l) : L'.IsList hd tl l :=
  ⟨h.head, h.tail, h.seg.congr hn hp, h.nodup⟩

omit [DecidableEq P] in
theorem isList_nil (L : Links P) : L.IsList none none [] := ⟨rfl, rfl, trivial, List.nodup_nil⟩

omit [DecidableEq P] in
theorem IsList.tail_mem {L : Links P} {hd : Option P} {l : List P} {t : P}
    (h : L.IsList hd (some t) l) : t ∈ l := List.mem_of_getLast? h.tail.symm

/-! ## Linking behind the tail -/

/-- Link cell `o` behind the tail `tl`: the tail is overwritten first on an empty list. -/
def append (L : Links P) (tl : Option P) (o : P) : Links P where
  next p := if tl = some p then some o else if p = o then none else L.next p
  prev p := if p = o then tl else L.prev p

theorem append_frame (L : Links P) {tl : Option P} {o p : P} (ht : tl ≠ some p) (ho : p ≠ o) :
    (L.append tl o).next p = L.next p ∧ (L.append tl o).prev p = L.prev p := by
  simp [append, ht, ho]

/-- **Appending.** -/
theorem IsList.append {L : Links P} {hd tl : Option P} {l : List P} {o : P}
    (h : L.IsList hd tl l) (ho : o ∉ l) :
    (L.append tl o).IsList (hd.or (some o)) (some o) (l ++ [o]) := by
  refine ⟨by simp [h.head], by simp, ?_, ?_⟩
  · rw [seg_append]
    have hprev : (L.append tl o).prev o = tl := by simp [Links.append]
    have hlast : (L.append tl o).next o = none := by
      have : tl ≠ some o := fun e => ho (List.mem_of_getLast? (h.tail ▸ e))
      simp [Links.append, this]
    refine ⟨?_, ?_, hlast, trivial⟩
    swap
    · rw [hprev, h.tail, Option.or_none]
    -- only the last cell's forward link changes, so cut the list in front of it
    rcases List.eq_nil_or_concat l with rfl | ⟨l', t, rfl⟩
    · trivial
    · have ht : tl = some t := by simpa using h.tail
      have hnd := h.nodup
      rw [List.concat_eq_append] at hnd ho ⊢
      have hseg := h.seg
      rw [List.concat_eq_append, seg_append] at hseg
      rw [seg_append]
      have hto : t ≠ o := fun e => ho (by simp [e])
      refine ⟨hseg.1.congr (fun p hp => ?_) (fun p hp => ?_), ?_⟩
      · have hpt : t ≠ p := fun e =>
          (List.nodup_append.mp hnd).2.2 p hp t (by simp) e.symm
        have hpo : p ≠ o := fun e => ho (by simp [← e, hp])
        simp [Links.append, ht, hpt, hpo]
      · have hpo : p ≠ o := fun e => ho (by simp [← e, hp])
        simp [Links.append, hpo]
      · have h2 := hseg.2
        simp only [Seg] at h2 ⊢
        refine ⟨?_, ?_, trivial⟩
        · simp [Links.append, hto, h2.1]
        · simp [Links.append, ht]
  · rw [List.nodup_append]
    exact ⟨h.nodup, List.nodup_singleton o, fun a ha b hb e => ho (by simp_all)⟩

/-! ## Unlinking -/

/-- Unlink cell `o`: its neighbours are joined and its own links cleared. -/
def unlink (L : Links P) (o : P) : Links P where
  next p := if p = o then none else if L.prev o = some p then L.next o else L.next p
  prev p := if p = o then none else if L.next o = some p then L.prev o else L.prev p

theorem unlink_frame (L : Links P) {o p : P} (ho : p ≠ o) (hp : L.prev o ≠ some p)
    (hn : L.next o ≠ some p) :
    (L.unlink o).next p = L.next p ∧ (L.unlink o).prev p = L.prev p := by
  simp [unlink, ho, hp, hn]

omit [DecidableEq P] in
theorem IsList.links_mid {L : Links P} {hd tl : Option P} {l₁ l₂ : List P} {o : P}
    (h : L.IsList hd tl (l₁ ++ o :: l₂)) : L.prev o = l₁.getLast? ∧ L.next o = l₂.head? := by
  have := ((seg_append L none none l₁ (o :: l₂)).mp h.seg).2
  simp only [Seg, Option.or_none] at this
  exact ⟨this.1, this.2.1⟩

omit [DecidableEq P] in
theorem IsList.links_mem {L : Links P} {hd tl : Option P} {l : List P} {o p : P}
    (h : L.IsList hd tl l) (ho : o ∈ l) (hp : L.prev o = some p ∨ L.next o = some p) : p ∈ l := by
  obtain ⟨l₁, l₂, rfl⟩ := List.append_of_mem ho
  obtain ⟨h₁, h₂⟩ := h.links_mid
  rcases hp with hp | hp
  · exact List.mem_append_left _ (List.mem_of_getLast? (h₁ ▸ hp))
  · exact List.mem_append_right _ (List.mem_cons_of_mem _ (List.mem_of_head? (h₂ ▸ hp)))

/-- **Unlinking.** The head moves on when the first cell goes, the tail moves back when the last
one does. -/
theorem IsList.unlink {L : Links P} {hd tl : Option P} {l : List P} {o : P}
    (h : L.IsList hd tl l) (ho : o ∈ l) :
    (L.unlink o).IsList (if L.prev o = none then L.next o else hd)
      (if L.next o = none then L.prev o else tl) (l.erase o) := by
  obtain ⟨l₁, l₂, rfl⟩ := List.append_of_mem ho
  obtain ⟨hprev, hnext⟩ := h.links_mid
  have hnd := h.nodup
  rw [List.nodup_append, List.nodup_cons] at hnd
  obtain ⟨hnd₁, ⟨hol₂, hnd₂⟩, hdisj⟩ := hnd
  have hol₁ : o ∉ l₁ := fun ho' => hdisj o ho' o List.mem_cons_self rfl
  have herase : (l₁ ++ o :: l₂).erase o = l₁ ++ l₂ := by
    rw [List.erase_append_right _ hol₁, List.erase_cons_head]
  rw [herase]
  have hseg := h.seg
  rw [seg_append] at hseg
  obtain ⟨hs₁, -, -, hs₂⟩ := hseg
  refine ⟨?_, ?_, (seg_append _ _ _ _ _).mpr ⟨?_, ?_⟩, ?_⟩
  · cases l₁ using List.reverseRecOn with
    | nil => simp [hprev, hnext]
    | append_singleton l₁ a => simp [hprev, h.head]
  · cases l₂ with
    | nil => simp [hprev, hnext]
    | cons a l₂ => simp [hnext, h.tail]
  · -- in front of `o` only the last cell's forward link changes
    cases l₁ using List.reverseRecOn with
    | nil => trivial
    | append_singleton l₁ a =>
      rw [seg_append] at hs₁ ⊢
      have hnd₁' := hnd₁
      rw [List.nodup_append] at hnd₁'
      have hpa : ∀ p ∈ l₁, a ≠ p := fun p hp e => hnd₁'.2.2 p hp a (by simp) e.symm
      have hpo : ∀ p ∈ l₁ ++ [a], p ≠ o := fun p hp e => hol₁ (e ▸ hp)
      have hn2 : ∀ p ∈ l₁ ++ [a], L.next o ≠ some p := fun p hp e =>
        hdisj p hp p (List.mem_cons_of_mem _ (List.mem_of_head? (hnext ▸ e))) rfl
      refine ⟨hs₁.1.congr (fun p hp => ?_) (fun p hp => ?_), ?_⟩
      · have hp' : p ∈ l₁ ++ [a] := List.mem_append_left _ hp
        exact (unlink_frame L (hpo p hp') (by simp [hprev, hpa p hp]) (hn2 p hp')).1
      · have hp' : p ∈ l₁ ++ [a] := List.mem_append_left _ hp
        exact (unlink_frame L (hpo p hp') (by simp [hprev, hpa p hp]) (hn2 p hp')).2
      · have ha : a ∈ l₁ ++ [a] := by simp
        have h2 := hs₁.2
        simp only [Seg] at h2 ⊢
        refine ⟨?_, ?_, trivial⟩
        · simp [Links.unlink, hpo a ha, hn2 a ha, h2.1]
        · simp [Links.unlink, hpo a ha, hprev, hnext]
  · -- behind `o` only the first cell's backward link changes
    cases l₂ with
    | nil => trivial
    | cons b l₂ =>
      have hnd₂' := List.nodup_cons.mp hnd₂
      have hpo : ∀ p ∈ b :: l₂, p ≠ o := fun p hp e => hol₂ (e ▸ hp)
      have hp2 : ∀ p ∈ b :: l₂, L.prev o ≠ some p := fun p hp e =>
        hdisj p (List.mem_of_getLast? (hprev ▸ e)) p (List.mem_cons_of_mem _ hp) rfl
      have hpb : ∀ p ∈ l₂, b ≠ p := fun p hp e => hnd₂'.1 (e ▸ hp)
      obtain ⟨-, h2, h3⟩ := hs₂
      have hb : b ∈ b :: l₂ := List.mem_cons_self
      refine ⟨?_, ?_, h3.congr (fun p hp => ?_) (fun p hp => ?_)⟩
      · simp [Links.unlink, hpo b hb, hnext, hprev]
      · simp [Links.unlink, hpo b hb, hp2 b hb, h2]
      · have hp' : p ∈ b :: l₂ := List.mem_cons_of_mem _ hp
        exact (unlink_frame L (hpo p hp') (hp2 p hp') (by simp [hnext, hpb p hp])).1
      · have hp' : p ∈ b :: l₂ := List.mem_cons_of_mem _ hp
        exact (unlink_frame L (hpo p hp') (hp2 p hp') (by simp [hnext, hpb p hp])).2
  · rw [List.nodup_append]
    exact ⟨hnd₁, hnd₂, fun a ha b hb => hdisj a ha b (List.mem_cons_of_mem _ hb)⟩

/-! ## Walking a list -/

/-- The cells met from `hd` by following forward links, at most `fuel` of them. -/
def walk (L : Links P) : ℕ → Option P → List P
  | 0, _ => []
  | _, none => []
  | fuel + 1, some p => p :: walk L fuel (L.next p)

omit [DecidableEq P] in
theorem Seg.walk_eq {L : Links P} {l : List P} {before : Option P} (h : L.Seg before l none)
    {fuel : ℕ} (hf : l.length ≤ fuel) : L.walk fuel l.head? = l := by
  induction l generalizing before fuel with
  | nil => cases fuel <;> rfl
  | cons p l ih =>
    obtain ⟨-, hn, hs⟩ := h
    cases fuel with
    | zero => simp at hf
    | succ fuel =>
      simp only [List.head?_cons, walk, hn, Option.or_none]
      rw [ih hs (by simpa using hf)]

omit [DecidableEq P] in
/-- **A walk from the head meets exactly the cells of the list.** -/
theorem IsList.walk_eq {L : Links P} {hd tl : Option P} {l : List P} (h : L.IsList hd tl l)
    {fuel : ℕ} (hf : l.length ≤ fuel) : L.walk fuel hd = l := by
  rw [h.head]
  exact h.seg.walk_eq hf

end Links

/-! ## Singly linked chains -/

/-- `l` is the nil-terminated chain of forward links that starts at `hd`. -/
def IsChain (next : P → Option P) : Option P → List P → Prop
  | hd, [] => hd = none
  | hd, p :: l => hd = some p ∧ IsChain next (next p) l

omit [DecidableEq P] in
theorem IsChain.congr {next next' : P → Option P} {l : List P} (hn : ∀ p ∈ l, next' p = next p)
    {hd : Option P} (h : IsChain next hd l) : IsChain next' hd l := by
  induction l generalizing hd with
  | nil => exact h
  | cons p l ih =>
    obtain ⟨h₁, h₂⟩ := h
    refine ⟨h₁, ?_⟩
    rw [hn p List.mem_cons_self]
    exact ih (fun q hq => hn q (List.mem_cons_of_mem _ hq)) h₂

omit [DecidableEq P] in
theorem IsChain.cons_of_some {next : P → Option P} {l : List P} {p : P}
    (h : IsChain next (some p) l) : ∃ l', l = p :: l' ∧ IsChain next (next p) l' := by
  cases l with
  | nil => cases h
  | cons q l' =>
    obtain ⟨h₁, h₂⟩ := h
    obtain rfl := Option.some.inj h₁
    exact ⟨l', rfl, h₂⟩

omit [DecidableEq P] in
theorem IsChain.eq_nil_of_none {next : P → Option P} {l : List P} (h : IsChain next none l) :
    l = [] := by
  cases l with
  | nil => rfl
  | cons q l' => exact absurd h.1 (by simp)

end L2Book
