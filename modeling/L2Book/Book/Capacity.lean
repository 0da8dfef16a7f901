import L2Book.Book.Invariant
import L2Book.Book.Restart

/-!
# Running out of slots

`OrderPool::alloc` has no answer for a full pool: it asserts, or in a release build reads through `nullptr`.

* `exhausted`: the fault of each build; `addRef_full`: an add to a full book ends with it;
* `wfEvent_of_size`, `FeedOkFrom.of_sizes`: a feed fits into a pool if the live orders do at any time;
* `exists_first`: the first prefix of a list without a property;
* **`replay_capacity`**: the book follows a feed up to the first add for which it has no slot.
-/

namespace L2Book

/-- The fault of `alloc()` on a full pool. -/
def exhausted : Build → Fault
  | .debug => .assertion
  | .release => .nullDeref

theorem exists_first {α : Type} {P : List α → Prop} (l : List α) (hnil : P []) :
    (∀ pre, pre <+: l → P pre) ∨
      ∃ pre x post, l = pre ++ x :: post ∧ (∀ q, q <+: pre → P q) ∧ ¬ P (pre ++ [x]) := by
  induction l using List.reverseRecOn with
  | nil =>
    refine .inl fun pre hpre => ?_
    rw [List.prefix_nil.mp hpre]
    exact hnil
  | append_singleton l x ih =>
    rcases ih with hall | ⟨pre, y, post, rfl, hpre, hbad⟩
    · by_cases hx : P (l ++ [x])
      · refine .inl fun pre hpre => ?_
        rcases List.prefix_concat_iff.mp hpre with rfl | hpre
        · exact hx
        · exact hall pre hpre
      · exact .inr ⟨l, x, [], rfl, hall, hx⟩
    · exact .inr ⟨pre, y, post ++ [x], by rw [List.append_assoc, List.cons_append], hpre, hbad⟩

section Capacity

variable {n m : ℕ} {lo : Side → ℕ} {a : NaiveBook} {e : Event} {es : List Event}

/-- An event that leaves more than `n` orders where there were at most `n` is an add to a full book. -/
theorem size_step_lt (hle : a.size ≤ n) (h : n < (a.step e).size) :
    a.size = n ∧ a.isOpen = true ∧ ∃ ref side shares price, e = .add ref side shares price := by
  have hstep := NaiveBook.size_step_le a e
  cases e with
  | add ref side shares price =>
    cases hopen : a.isOpen with
    | true =>
      simp only [Event.isInsertion, if_true] at hstep
      exact ⟨by omega, rfl, ref, side, shares, price, rfl⟩
    | false =>
      simp only [NaiveBook.step, hopen, Bool.false_eq_true, if_false] at h
      omega
  | replace oldRef newRef shares price =>
    cases hr : a.orders.lookup oldRef with
    | none =>
      simp only [NaiveBook.step, hr] at h
      omega
    | some o =>
      -- one order leaves before the other one comes
      have hdel := size_erase_of_live _ hr
      have hins := NaiveBook.length_keys_insert_le (a.orders.erase oldRef) newRef ⟨o.side, price, shares⟩
      simp only [NaiveBook.step, hr] at h
      have hlt : n < ((a.orders.erase oldRef).insert newRef ⟨o.side, price, shares⟩).keys.length := h
      unfold NaiveBook.size at hle
      omega
  | _ =>
    simp only [Event.isInsertion, Bool.false_eq_true, if_false] at hstep
    omega

theorem wfEvent_of_size (hw : WfEvent m a e) (h : (a.step e).size ≤ n) : WfEvent n a e := by
  cases e with
  | add ref side shares price =>
    intro hopen
    obtain ⟨hnew, hside, hprice, -⟩ := hw hopen
    refine ⟨hnew, hside, hprice, ?_⟩
    have hstep : a.step (.add ref side shares price) =
        { a with orders := a.orders.insert ref ⟨side, price, shares⟩ } := by
      simp only [NaiveBook.step, hopen, if_true]
    have hmem : ref ∉ a.orders.keys := fun hm => by
      have hsome := AList.lookup_isSome.mpr (AList.mem_keys.mpr hm)
      rw [hnew] at hsome
      cases hsome
    rw [hstep] at h
    unfold NaiveBook.size at h ⊢
    rw [AList.keys_insert, List.length_cons, List.erase_of_not_mem hmem] at h
    exact h
  | _ => exact hw

theorem FeedOkFrom.of_sizes (h : FeedOkFrom m lo a es)
    (hsize : ∀ pre, pre <+: es → (pre.foldl NaiveBook.step a).size ≤ n) : FeedOkFrom n lo a es := by
  induction es generalizing a with
  | nil => exact ⟨trivial, trivial⟩
  | cons e es ih =>
    obtain ⟨⟨hw, hws⟩, ⟨hin, hins⟩⟩ := h
    have hfirst := hsize [e] ⟨es, rfl⟩
    obtain ⟨hws', hins'⟩ := ih ⟨hws, hins⟩ fun pre hpre =>
      hsize (e :: pre) (List.cons_prefix_cons.mpr ⟨rfl, hpre⟩)
    exact ⟨⟨wfEvent_of_size hw hfirst, hws'⟩, ⟨hin, hins'⟩⟩

end Capacity

namespace OrderBook

variable {n : ℕ} {s : OrderBook n} {r : RefBook}

/-- **An add to a full book** is not survived. -/
theorem Sim.addRef_full (h : Sim s r) (hsize : r.book.size = n) (hopen : r.book.isOpen = true)
    (b : Build) (it : IterOrder n) (ref : UInt64) (side : UInt8) (shares price : UInt32) :
    s.addRef b it ref side shares price = .error (exhausted b) := by
  have hopen' : s.isOpen = true := h.abs.isOpen ▸ hopen
  have halloc : s.pool.alloc b = .error (exhausted b) := by
    have hfull : s.pool.freeHead = none := h.rep.poolInvariant.full.mpr (h.abs.size_eq ▸ hsize)
    rw [OrderPool.alloc, hfull]
    cases b <;> rfl
  rw [OrderBook.addRef, hopen', OrderBook.addNew, halloc]
  rfl

/-- **A full book stops at the next add.** Let the book be able to follow a feed but for the number of live
orders. If at most `n` orders are live at any time, a book with `n` slots follows it. Otherwise there is a
first message that makes more orders live; up to it the book agrees with the naive book, which holds `n`
orders by then, and at that message the book ends with the fault of its build. -/
theorem replay_capacity {m : ℕ} (hn : n < 2 ^ 32) (b : Build) {lo : Side → ℕ} (feed : List (Input n))
    (hok : FeedOk m lo (events feed)) :
    ((∀ pre, pre <+: feed → (NaiveBook.after (events pre)).size ≤ n) ∧
      ∃ s, (OrderBook.init n).replay b feed = .ok s ∧ Agrees s (.after (events feed))) ∨
    ∃ pre x post s, feed = pre ++ x :: post ∧ (OrderBook.init n).replay b pre = .ok s ∧
      Agrees s (.after (events pre)) ∧ (NaiveBook.after (events pre)).size = n ∧
      n < (NaiveBook.after (events (pre ++ [x]))).size ∧
      s.dispatch b x.2 x.1 = .error (exhausted b) ∧
      (OrderBook.init n).replay b feed = .error (exhausted b) := by
  have hfits : ∀ l : List (Input n), l <+: feed →
      (∀ pre, pre <+: l → (NaiveBook.after (events pre)).size ≤ n) → FeedOk n lo (events l) := by
    intro l hl hsize
    refine (hok.of_isPrefix (hl.map _)).of_sizes fun pre hpre => ?_
    obtain ⟨post, hpost⟩ := hpre
    obtain ⟨l₁, l₂, rfl, rfl, -⟩ := List.map_eq_append_iff.mp hpost.symm
    exact hsize l₁ ⟨l₂, rfl⟩
  rcases exists_first (P := fun l => (NaiveBook.after (events l)).size ≤ n) feed (Nat.zero_le n) with
    hall | ⟨pre, x, post, rfl, hpre, hbad⟩
  · exact .inl ⟨hall, (hfits feed List.prefix_rfl hall).exists_replay hn b List.prefix_rfl⟩
  · have hok' : FeedOk n lo (events pre) := hfits pre ⟨x :: post, rfl⟩ hpre
    obtain ⟨s, hs, ha⟩ := hok'.exists_replay hn b List.prefix_rfl
    obtain ⟨r, hsim, -, hbook⟩ := hok'.sim hs
    have hsnoc : NaiveBook.after (events (pre ++ [x])) = (NaiveBook.after (events pre)).step x.1.event := by
      rw [events, List.map_append, NaiveBook.after, List.foldl_append]
      rfl
    have hlt := not_le.mp hbad
    rw [hsnoc] at hlt
    obtain ⟨hsize, hopen, ref, side, shares, price, he⟩ := size_step_lt (hpre pre List.prefix_rfl) hlt
    have hfault : s.dispatch b x.2 x.1 = .error (exhausted b) := by
      rw [dispatch_eq_apply, he]
      exact hsim.addRef_full (hbook ▸ hsize) (hbook ▸ hopen) b x.2 ref side shares price
    refine .inr ⟨pre, x, post, s, rfl, hs, ha, hsize, hsnoc ▸ hlt, hfault, ?_⟩
    refine (run_append_of_ok hs _).trans ?_
    refine run_cons_of_error ?_ post
    exact hfault

/-- One slot, and an add before the only order is deleted. -/
def overfull : List (Input 1) :=
  [(sysMsg 'O'.toUInt8, .newest 1), (addMsg 7 'S'.toUInt8 31 4, .newest 1),
    (addMsg 8 'S'.toUInt8 30 4, .newest 1), (delMsg 7, .newest 1)]

theorem replay_capacity_overfull :
    (OrderBook.init 1).replay .release overfull = .error .nullDeref := by
  have hok : FeedOk 6 (fun _ => 4) (events overfull) := by
    refine ⟨⟨trivial, fun _ => ⟨rfl, .inr rfl, ⟨by decide, by decide⟩, by decide⟩,
      fun _ => ⟨rfl, .inr rfl, ⟨by decide, by decide⟩, by decide⟩, trivial, trivial⟩,
      ⟨fun _ _ _ h => (by cases h), fun _ _ _ h => ?_, fun _ _ _ h => ?_,
        fun _ _ _ h => (by cases h), trivial⟩⟩ <;>
      · cases h
        exact ⟨by decide, by decide⟩
  rcases replay_capacity (by decide) .release overfull hok with ⟨hall, -⟩ | ⟨_, _, _, _, -, -, -, -, -, -, h⟩
  · exact absurd (hall (overfull.take 3) (List.take_prefix _ _)) (by decide)
  · exact h

end OrderBook

end L2Book
