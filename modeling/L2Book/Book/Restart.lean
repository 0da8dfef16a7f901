import L2Book.Book.Contents
import L2Book.Book.Ghosts

/-!
# Restarting from the live orders

A book can be rebuilt without its history: open a fresh one and add every live order, in any order.

* `Tidy`: the live orders of a feed that the book can follow have valid sides, prices and numbers;
  **`Tidy.step`**, `tidy_after`;
* `addAll`, `NaiveBook.restart`: the events of the rebuild; `lookup_addAll`, `feedOkFrom_addAll`: what they
  do, and that the book can follow them;
* **`replay_restart`**: the rebuilt book has the totals of the first one from then on.
-/

namespace L2Book

/-! ## Live orders -/

/-- The order has a valid side and a valid price inside the window of its side. -/
def OrderOk (lo : Side → ℕ) (o : NaiveOrder) : Prop :=
  (o.side = 'B'.toUInt8 ∨ o.side = 'S'.toUInt8) ∧ PriceOk o.price ∧ InWindow lo (sideOf o.side) o.price

/-- **The live orders** are valid and fit into a pool of `n` slots. -/
structure Tidy (n : ℕ) (lo : Side → ℕ) (a : NaiveBook) : Prop where
  order : ∀ ref o, a.orders.lookup ref = some o → OrderOk lo o
  size : a.size ≤ n

theorem size_erase_of_live (m : AList fun _ : UInt64 => NaiveOrder) {ref : UInt64} {o : NaiveOrder}
    (h : m.lookup ref = some o) : (m.erase ref).keys.length + 1 = m.keys.length := by
  have hmem : ref ∈ m.keys := AList.mem_keys.mp (AList.lookup_isSome.mp (by rw [h]; rfl))
  have hpos := List.length_pos_of_mem hmem
  rw [AList.keys_erase, List.length_erase_of_mem hmem]
  omega

section Tidy

variable {n : ℕ} {lo : Side → ℕ} {a : NaiveBook} {e : Event}

theorem tidy_init : Tidy n lo .init := ⟨nofun, Nat.zero_le n⟩

theorem Tidy.size_step (h : Tidy n lo a) (hw : WfEvent n a e) : (a.step e).size ≤ n := by
  have hsize := h.size
  unfold NaiveBook.size at hsize ⊢
  cases e with
  | system code =>
    simp only [NaiveBook.step]
    split_ifs <;> first | exact hsize | exact Nat.zero_le n
  | add ref side shares price =>
    simp only [NaiveBook.step]
    split_ifs with hopen
    · have hlt := (hw hopen).2.2.2
      have hle := NaiveBook.length_keys_insert_le a.orders ref ⟨side, price, shares⟩
      unfold NaiveBook.size at hlt
      exact hle.trans hlt
    · exact hsize
  | reduce ref qty =>
    simp only [NaiveBook.step]
    cases hr : a.orders.lookup ref with
    | none => exact hsize
    | some o =>
      dsimp only
      split_ifs
      · exact (NaiveBook.length_keys_erase_le _ _).trans hsize
      · exact (NaiveBook.length_keys_insert_of_mem hr _).le.trans hsize
  | delete ref => exact (NaiveBook.length_keys_erase_le _ _).trans hsize
  | replace oldRef newRef shares price =>
    simp only [NaiveBook.step]
    cases hr : a.orders.lookup oldRef with
    | none => exact hsize
    | some o =>
      have h₁ := size_erase_of_live _ hr
      have h₂ := NaiveBook.length_keys_insert_le (a.orders.erase oldRef) newRef ⟨o.side, price, shares⟩
      dsimp only
      omega
  | ignore => exact hsize

theorem Tidy.order_step (h : Tidy n lo a) (hw : WfEvent n a e) (hin : InsertsWithin lo a e)
    {ref : UInt64} {o : NaiveOrder} (ho : (a.step e).orders.lookup ref = some o) : OrderOk lo o := by
  rcases NaiveBook.lookup_step ho with hins | ⟨o', ho', hside, hprice, -⟩
  · refine ⟨?_, priceOk_of_inserts hw hins, hin _ _ _ hins⟩
    -- the side byte is that of the message or of the replaced order
    cases e with
    | add r side shares price =>
      simp only [NaiveBook.inserts] at hins
      split_ifs at hins with hopen
      rw [Option.some.injEq, Prod.mk.injEq] at hins
      obtain rfl := hins.1
      simp only [NaiveBook.step, hopen, if_true] at ho
      rw [AList.lookup_insert] at ho
      cases ho
      exact (hw hopen).2.1
    | replace r r' shares price =>
      simp only [NaiveBook.inserts, Option.map_eq_some_iff] at hins
      obtain ⟨o', ho', heq⟩ := hins
      rw [Prod.mk.injEq] at heq
      obtain rfl := heq.1
      simp only [NaiveBook.step, ho'] at ho
      rw [AList.lookup_insert] at ho
      cases ho
      exact (h.order _ _ ho').1
    | _ => cases hins
  · obtain ⟨h₁, h₂, h₃⟩ := h.order ref o' ho'
    rw [hside] at h₁ h₃
    rw [hprice] at h₂ h₃
    exact ⟨h₁, h₂, h₃⟩

/-- **Every event keeps the live orders valid.** -/
theorem Tidy.step (h : Tidy n lo a) (hw : WfEvent n a e) (hin : InsertsWithin lo a e) :
    Tidy n lo (a.step e) := ⟨fun _ _ ho => h.order_step hw hin ho, h.size_step hw⟩

theorem tidy_after {es : List Event} (h : Tidy n lo a) (hok : FeedOkFrom n lo a es) :
    Tidy n lo (es.foldl NaiveBook.step a) := by
  induction es generalizing a with
  | nil => exact h
  | cons e es ih =>
    obtain ⟨⟨hw, hws⟩, ⟨hin, hins⟩⟩ := hok
    exact ih (h.step hw hin) ⟨hws, hins⟩

end Tidy

/-! ## The rebuild -/

/-- One add for each listed order. -/
def addAll (l : List (Σ _ : UInt64, NaiveOrder)) : List Event :=
  l.map fun e => .add e.1 e.2.side e.2.shares e.2.price

/-- **The rebuild**: open, add the listed orders, and close if the book was closed. -/
def NaiveBook.restart (a : NaiveBook) (l : List (Σ _ : UInt64, NaiveOrder)) : List Event :=
  .system 'O'.toUInt8 :: addAll l ++ if a.isOpen then [] else [.system 'C'.toUInt8]

section Rebuild

variable {n : ℕ} {lo : Side → ℕ} {a : NaiveBook} {l : List (Σ _ : UInt64, NaiveOrder)}

theorem isOpen_addAll (hopen : a.isOpen = true) :
    ((addAll l).foldl NaiveBook.step a).isOpen = true := by
  induction l generalizing a with
  | nil => exact hopen
  | cons e l ih =>
    refine ih ?_
    simp only [NaiveBook.step, hopen, if_true]

/-- The added orders are live, and so is what was live before. -/
theorem lookup_addAll (hopen : a.isOpen = true) (hnd : l.NodupKeys) (ref : UInt64) :
    ((addAll l).foldl NaiveBook.step a).orders.lookup ref =
      (l.dlookup ref).or (a.orders.lookup ref) := by
  induction l generalizing a with
  | nil => rfl
  | cons e l ih =>
    obtain ⟨r, o⟩ := e
    obtain ⟨hnew, hnd⟩ := List.nodupKeys_cons.mp hnd
    have hstep : a.step (.add r o.side o.shares o.price) = { a with orders := a.orders.insert r o } := by
      simp only [NaiveBook.step, hopen, if_true]
    have hrest := ih (a := a.step (.add r o.side o.shares o.price)) (by rw [hstep]; exact hopen) hnd
    show ((addAll l).foldl NaiveBook.step (a.step (.add r o.side o.shares o.price))).orders.lookup ref = _
    rw [hrest, hstep]
    by_cases hr : ref = r
    · subst hr
      rw [List.dlookup_cons_eq, List.dlookup_eq_none.mpr hnew, AList.lookup_insert]
      rfl
    · rw [List.dlookup_cons_ne _ _ hr, AList.lookup_insert_ne hr]

/-- **The book can follow the adds.** -/
theorem feedOkFrom_addAll (hopen : a.isOpen = true) (hnd : l.NodupKeys)
    (hnew : ∀ e ∈ l, a.orders.lookup e.1 = none) (hok : ∀ e ∈ l, OrderOk lo e.2)
    (hsize : a.size + l.length ≤ n) : FeedOkFrom n lo a (addAll l) := by
  induction l generalizing a with
  | nil => exact ⟨trivial, trivial⟩
  | cons e l ih =>
    obtain ⟨r, o⟩ := e
    obtain ⟨hfresh, hnd⟩ := List.nodupKeys_cons.mp hnd
    obtain ⟨hside, hprice, hwin⟩ := hok _ List.mem_cons_self
    have hstep : a.step (.add r o.side o.shares o.price) = { a with orders := a.orders.insert r o } := by
      simp only [NaiveBook.step, hopen, if_true]
    have hle := NaiveBook.length_keys_insert_le a.orders r o
    rw [List.length_cons] at hsize
    have hnew' : ∀ e ∈ l, (a.step (.add r o.side o.shares o.price)).orders.lookup e.1 = none := by
      intro e he
      have hne : e.1 ≠ r := by
        intro he'
        have hmem := List.mem_keys_of_mem he
        rw [he'] at hmem
        exact hfresh hmem
      rw [hstep]
      show (a.orders.insert r o).lookup e.1 = none
      rw [AList.lookup_insert_ne hne]
      exact hnew e (List.mem_cons_of_mem _ he)
    have hsize' : (a.step (.add r o.side o.shares o.price)).size + l.length ≤ n := by
      rw [hstep]
      unfold NaiveBook.size at hsize ⊢
      show (a.orders.insert r o).keys.length + l.length ≤ n
      omega
    obtain ⟨hws, hins⟩ := ih (by rw [hstep]; exact hopen) hnd hnew'
      (fun e he => hok e (List.mem_cons_of_mem _ he)) hsize'
    refine ⟨⟨fun _ => ⟨hnew _ List.mem_cons_self, hside, hprice, by omega⟩, hws⟩, ⟨?_, hins⟩⟩
    intro ref d price h
    simp only [NaiveBook.inserts, hopen, if_true] at h
    cases h
    exact hwin

/-- An empty book in an open session. -/
def NaiveBook.opened : NaiveBook := { NaiveBook.init with isOpen := true }

theorem step_opened : NaiveBook.init.step (.system 'O'.toUInt8) = .opened := rfl

/-- **The rebuild restores the contents.** -/
theorem contents_restart (hl : l.Perm a.orders.entries) :
    (NaiveBook.after (a.restart l)).contents = a.contents := by
  have hnd : l.NodupKeys := (List.perm_nodupKeys hl).mpr a.orders.nodupKeys
  have hadd : ((addAll l).foldl NaiveBook.step .opened).contents = { a.contents with isOpen := true } := by
    ext1
    · funext ref
      show ((addAll l).foldl NaiveBook.step .opened).orders.lookup ref = a.orders.lookup ref
      rw [lookup_addAll rfl hnd, List.perm_dlookup ref hnd hl]
      exact Option.or_none
    · exact isOpen_addAll rfl
  rw [NaiveBook.after, NaiveBook.restart, List.cons_append, List.foldl_cons, step_opened,
    List.foldl_append, NaiveBook.contents_foldl, hadd]
  ext1
  · cases a.isOpen <;> rfl
  · show (List.foldl Contents.step _ _).isOpen = a.isOpen
    cases a.isOpen <;> rfl

/-- **The book can follow the rebuild.** -/
theorem feedOk_restart (h : Tidy n lo a) (hl : l.Perm a.orders.entries) : FeedOk n lo (a.restart l) := by
  have hnd : l.NodupKeys := (List.perm_nodupKeys hl).mpr a.orders.nodupKeys
  have hok : ∀ e ∈ l, OrderOk lo e.2 := fun e he =>
    h.order e.1 e.2 (AList.mem_lookup_iff.mpr (hl.mem_iff.mp he))
  have hsize : NaiveBook.opened.size + l.length ≤ n := by
    have hlen : l.length = a.size := by
      rw [hl.length_eq]
      exact (List.length_map _).symm
    rw [hlen]
    exact (Nat.zero_add _).trans_le h.size
  have hadd : FeedOkFrom n lo .opened (addAll l) := feedOkFrom_addAll rfl hnd (fun _ _ => rfl) hok hsize
  rw [NaiveBook.restart, List.cons_append]
  have happ : FeedOkFrom n lo .opened
      (addAll l ++ if a.isOpen then [] else [.system 'C'.toUInt8]) := by
    refine feedOkFrom_append.mpr ⟨hadd, ?_⟩
    split_ifs
    · exact ⟨trivial, trivial⟩
    · exact ⟨⟨trivial, trivial⟩, ⟨fun _ _ _ h => (by cases h), trivial⟩⟩
  exact ⟨⟨trivial, happ.wellFormed⟩, ⟨fun _ _ _ h => (by cases h), happ.windowed⟩⟩

end Rebuild

/-- **A book can be rebuilt from its live orders.** Let the book be able to follow the events
`before ++ rest`. A fresh book, with at least as large a pool, that is opened and given one add for each order
live after `before`, in any order, and the close if the session was closed then, can follow `rest` too; and it
has the totals of the book that saw everything. The queues and the reference prices may differ. -/
theorem replay_restart {n m : ℕ} (hn : n < 2 ^ 32) (hm : m < 2 ^ 32) (hnm : n ≤ m) (b b' : Build)
    {lo : Side → ℕ} {before rest : List Event} (hok : FeedOk n lo (before ++ rest))
    {l : List (Σ _ : UInt64, NaiveOrder)} (hl : l.Perm (NaiveBook.after before).orders.entries)
    (feed : List (Input n)) (feed' : List (Input m)) (he : events feed = before ++ rest)
    (he' : events feed' = (NaiveBook.after before).restart l ++ rest) :
    ∃ s t, (OrderBook.init n).replay b feed = .ok s ∧ (OrderBook.init m).replay b' feed' = .ok t ∧
      SameTotals s t := by
  obtain ⟨hbefore, hrest⟩ := feedOkFrom_append.mp hok
  have htidy : Tidy n lo (.after before) := tidy_after tidy_init hbefore
  have hstart : FeedOk m lo ((NaiveBook.after before).restart l) :=
    (feedOk_restart htidy hl).congr hnm rfl
  have hc := contents_restart hl
  have hok' : FeedOk m lo ((NaiveBook.after before).restart l ++ rest) :=
    feedOkFrom_append.mpr ⟨hstart, hrest.congr hnm hc.symm⟩
  obtain ⟨s, hs, ha⟩ := FeedOkFrom.exists_replay (he ▸ hok) hn b List.prefix_rfl
  obtain ⟨t, ht, ha'⟩ := FeedOkFrom.exists_replay (he' ▸ hok') hm b' List.prefix_rfl
  refine ⟨s, t, hs, ht, ha.sameTotals ha' ?_⟩
  rw [he, he', NaiveBook.after, NaiveBook.after, List.foldl_append, List.foldl_append,
    NaiveBook.contents_foldl, NaiveBook.contents_foldl _ rest]
  exact congrArg (fun c => rest.foldl Contents.step c) hc.symm

/-- Two asks, of which the first is deleted. -/
def askDeleted : List (Input 4) :=
  [(sysMsg 'O'.toUInt8, .newest 4), (addMsg 1 'S'.toUInt8 25 5, .newest 4),
    (addMsg 2 'S'.toUInt8 21 7, .newest 4), (delMsg 1, .newest 4)]

/-- The remaining ask alone. -/
def askRestarted : List (Input 5) :=
  [(sysMsg 'O'.toUInt8, .oldest 5), (addMsg 2 'S'.toUInt8 21 7, .oldest 5)]

theorem replay_restart_askDeleted :
    ∃ s t, (OrderBook.init 4).replay .debug (askDeleted ++ [(delMsg 9, .newest 4)]) = .ok s ∧
      (OrderBook.init 5).replay .release (askRestarted ++ [(delMsg 9, .oldest 5)]) = .ok t ∧
      SameTotals s t := by
  have hok : FeedOk 4 (fun _ => 2) (events askDeleted ++ [.delete 9]) := by
    refine ⟨⟨trivial, fun _ => ⟨rfl, .inr rfl, ⟨by decide, by decide⟩, by decide⟩,
      fun _ => ⟨rfl, .inr rfl, ⟨by decide, by decide⟩, by decide⟩, trivial, trivial, trivial⟩,
      ⟨fun _ _ _ h => (by cases h), fun _ _ _ h => ?_, fun _ _ _ h => ?_,
        fun _ _ _ h => (by cases h), fun _ _ _ h => (by cases h), trivial⟩⟩ <;>
      · cases h
        exact ⟨by decide, by decide⟩
  exact replay_restart (by decide) (by decide) (by decide) .debug .release hok (List.Perm.refl _)
    (askDeleted ++ [(delMsg 9, .newest 4)]) (askRestarted ++ [(delMsg 9, .oldest 5)]) rfl rfl

end L2Book
