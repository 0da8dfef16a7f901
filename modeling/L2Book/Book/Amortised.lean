import L2Book.Lib.Cost
import L2Book.Book.Contents
import L2Book.Book.Invariant

/-!
# The cost of re-centring

A re-centre visits every live order. Within a window it happens only when a better price than the reference
price arrives, and the reference price never becomes worse again, also not by a halt.

* `inserting`, `rebuilds`: the message makes `insert_order` re-centre a side; **`rebuilds_iff`**: these are
  the messages that change a reference price that was set;
* `rebuildCount`, `rebuildLoops`: the re-centres of a run, and the iterations of their loops;
* `headroom`, `headroom_step`: how far the reference price has moved through its window;
* **`recentre_amortised`**: a side is re-centred fewer than `kLevels` times, however long the feed is.
-/

namespace L2Book

namespace OrderBook

variable {n : ℕ}

/-- Side and price of the order that the message inserts. -/
def inserting (s : OrderBook n) : Event → Option (Side × UInt32)
  | .add _ side _ price => if s.isOpen then some (sideOf side, price) else none
  | .replace oldRef _ _ price => (s.orderMap.lookup oldRef).map fun o => (sideOf (s.order o).side, price)
  | _ => none

/-- `insert_order` re-centres side `d`. -/
def rebuilds (d : Side) (s : OrderBook n) (e : Event) : Bool :=
  match s.inserting e with
  | some (d', price) => decide (d' = d ∧ Recentres d (s.sides d).ref price)
  | none => false

/-- The number of re-centres of side `d`. -/
def rebuildCount (b : Build) (d : Side) : OrderBook n → List (Input n) → ℕ :=
  totalCost (fun s x => s.dispatch b x.2 x.1) fun s x => if s.rebuilds d x.1.event then 1 else 0

/-- The number of iterations of their loops over `order_map_`. -/
def rebuildLoops (b : Build) (d : Side) : OrderBook n → List (Input n) → ℕ :=
  totalCost (fun s x => s.dispatch b x.2 x.1) fun s x =>
    if s.rebuilds d x.1.event then (s.mapBefore x.1.event).keys.length else 0

section Rebuilds

variable {b : Build} {s s' : OrderBook n} {r : RefBook} {x : Input n} {d : Side} {e : Event}

theorem Sim.inserting_eq (h : Sim s r) (e : Event) :
    s.inserting e = (r.book.inserts e).map Prod.snd := by
  cases e with
  | add ref side shares price =>
    simp only [inserting, NaiveBook.inserts, h.abs.isOpen]
    split_ifs <;> rfl
  | replace oldRef newRef shares price =>
    simp only [inserting, NaiveBook.inserts, h.abs.lookup, Option.map_map]
    rfl
  | _ => rfl

theorem Sim.rebuilds_iff_inserts (h : Sim s r) : s.rebuilds d e = true ↔
    ∃ ref price, r.book.inserts e = some (ref, d, price) ∧ Recentres d (r.ref d) price := by
  unfold rebuilds
  rw [h.inserting_eq, h.ref]
  cases r.book.inserts e with
  | none => exact ⟨fun h => (by cases h), fun ⟨_, _, h, _⟩ => (by cases h)⟩
  | some i =>
    obtain ⟨ref, d', price⟩ := i
    simp only [Option.map_some, decide_eq_true_iff]
    constructor
    · rintro ⟨rfl, hrc⟩
      exact ⟨ref, price, rfl, hrc⟩
    · rintro ⟨ref', price', heq, hrc⟩
      cases heq
      exact ⟨rfl, hrc⟩

theorem ne_of_recentres {ref price : UInt32} (h : Recentres d ref price) : price ≠ ref := by
  rintro rfl
  refine h.2 ?_
  rw [tick_self]
  exact inArray_zero

/-- **A re-centre is what changes a reference price** that was set. -/
theorem Sim.rebuilds_iff (h : Sim s r) (hw : WfEvent n r.book x.1.event)
    (hs : s.dispatch b x.2 x.1 = .ok s') : s.rebuilds d x.1.event = true ↔
      (s.sides d).ref ≠ 0 ∧ (s'.sides d).ref ≠ (s.sides d).ref := by
  rw [h.rebuilds_iff_inserts, (h.of_dispatch hw hs).2.ref, h.ref]
  cases hins : r.book.inserts x.1.event with
  | none =>
    rw [refAfter_of_quiet hins]
    exact ⟨fun ⟨_, _, h, _⟩ => (by cases h), fun h => absurd rfl h.2⟩
  | some i =>
    obtain ⟨ref, d', price⟩ := i
    rw [refAfter_of_inserts hins]
    constructor
    · rintro ⟨ref', price', heq, hrc⟩
      cases heq
      rw [if_pos rfl, nextRef_of_recentres hrc]
      exact ⟨hrc.1, ne_of_recentres hrc⟩
    · rintro ⟨hne, hchange⟩
      split_ifs at hchange with hd
      · subst hd
        refine ⟨ref, price, rfl, ?_⟩
        by_contra hrc
        exact hchange (nextRef_of_not_recentres hne hrc)
      · exact absurd rfl hchange

end Rebuilds

/-! ## Headroom -/

/-- How far a reference price has moved into its window. -/
def headroom (lo : Side → ℕ) : Side → UInt32 → ℕ
  | .bid, ref => ref.toNat - lo .bid
  | .ask, ref => if ref = 0 then 0 else lo .ask + (kLevels - 1) - ref.toNat

section Headroom

variable {lo : Side → ℕ} {r : RefBook} {e : Event} {d : Side}

theorem headroom_zero (lo : Side → ℕ) (d : Side) : headroom lo d 0 = 0 := by
  cases d with
  | bid => exact Nat.zero_sub _
  | ask => rfl

theorem headroom_lt (h : r.WindowInv lo) (d : Side) : headroom lo d (r.ref d) < kLevels := by
  rcases h.ref d with hz | ⟨hlo, hhi⟩
  · rw [hz, headroom_zero]
    decide
  · cases d with
    | bid =>
      simp only [headroom]
      omega
    | ask =>
      simp only [headroom]
      split_ifs <;> omega

/-- A price that re-centres the side lies further inside. -/
theorem headroom_lt_of_recentres {ref price : UInt32} (href : InWindow lo d ref)
    (hprice : InWindow lo d price) (hp : PriceOk price) (hrc : Recentres d ref price) :
    headroom lo d ref < headroom lo d price := by
  obtain ⟨hne, hout⟩ := hrc
  have hp0 : price ≠ 0 := ne_zero_of_priceOk hp
  unfold InArray at hout
  obtain ⟨h₁, h₂⟩ := href
  obtain ⟨h₃, h₄⟩ := hprice
  cases d with
  | bid =>
    simp only [tick, headroom] at *
    omega
  | ask =>
    simp only [tick, headroom, if_neg hne, if_neg hp0] at *
    omega

theorem headroom_le_step (h : r.WindowInv lo) (hw : WfEvent n r.book e) (hin : InsertsWithin lo r.book e)
    (d : Side) : headroom lo d (r.ref d) ≤ headroom lo d ((r.step e).ref d) := by
  have href : (r.step e).ref d = refAfter r.book e d (r.ref d) := rfl
  rw [href]
  cases hins : r.book.inserts e with
  | none => rw [refAfter_of_quiet hins]
  | some i =>
    obtain ⟨ref, d', price⟩ := i
    rw [refAfter_of_inserts hins]
    split_ifs with hd
    · subst hd
      rcases h.ref d with hz | href
      · rw [hz, headroom_zero]
        exact Nat.zero_le _
      · by_cases hrc : Recentres d (r.ref d) price
        · rw [nextRef_of_recentres hrc]
          exact (headroom_lt_of_recentres href (hin _ _ _ hins) (priceOk_of_inserts hw hins) hrc).le
        · by_cases hz : r.ref d = 0
          · rw [hz, headroom_zero]
            exact Nat.zero_le _
          · rw [nextRef_of_not_recentres hz hrc]
    · exact le_rfl

/-- **A re-centre is paid for** with the headroom that it uses up. -/
theorem Sim.headroom_step {s : OrderBook n} (hsim : Sim s r) (h : r.WindowInv lo)
    (hw : WfEvent n r.book e) (hin : InsertsWithin lo r.book e) (d : Side) :
    (if s.rebuilds d e then 1 else 0) + headroom lo d (r.ref d) ≤
      headroom lo d ((r.step e).ref d) := by
  split_ifs with hre
  · obtain ⟨ref, price, hins, hrc⟩ := hsim.rebuilds_iff_inserts.mp hre
    have href : (r.step e).ref d = price := by
      have hafter : (r.step e).ref d = refAfter r.book e d (r.ref d) := rfl
      rw [hafter, refAfter_of_inserts hins, if_pos rfl, nextRef_of_recentres hrc]
    have hlt := headroom_lt_of_recentres ((h.ref d).resolve_left hrc.1) (hin _ _ _ hins)
      (priceOk_of_inserts hw hins) hrc
    rw [href]
    omega
  · rw [Nat.zero_add]
    exact headroom_le_step h hw hin d

end Headroom

/-! ## Whole feeds -/

theorem orderCount_le {s : OrderBook n} (h : Rep s) : s.orderCount ≤ n := by
  obtain ⟨free, -, hperm⟩ := h.poolInvariant.slots
  have hlen := hperm.length_eq
  rw [List.length_append, liveSlots_length, List.length_finRange] at hlen
  omega

theorem length_keys_mapBefore_le (s : OrderBook n) (e : Event) :
    (s.mapBefore e).keys.length ≤ s.orderCount := by
  cases e with
  | replace oldRef newRef shares price =>
    show (s.orderMap.erase oldRef).keys.length ≤ s.orderMap.keys.length
    rw [AList.keys_erase]
    exact List.length_erase_le
  | _ => exact le_rfl

/-- The state, what it represents, and the window. -/
def Windows (lo : Side → ℕ) (s : OrderBook n) (r : RefBook) : Prop := Sim s r ∧ r.WindowInv lo

/-- **Re-centring is amortised.** While a book follows a feed, it re-centres each side fewer than `kLevels`
times, however long the feed is, and the loops over `order_map_` take at most `(kLevels - 1) * n` iterations
a side. -/
theorem recentre_amortised (hn : n < 2 ^ 32) (b : Build) {lo : Side → ℕ} (feed : List (Input n))
    (hok : FeedOk n lo (events feed)) (d : Side) :
    rebuildCount b d (.init n) feed < kLevels ∧ rebuildLoops b d (.init n) feed ≤ (kLevels - 1) * n := by
  have hfeed : events feed <+: events feed := List.prefix_rfl
  obtain ⟨s, hs, -⟩ := hok.exists_replay hn b hfeed
  obtain ⟨hw, hwin⟩ := feedOk_iff.mp hok
  have hW : Guided (fun r x => r.step x.1.event)
      (fun r x => WfEvent n r.book x.1.event ∧ InsertsWithin lo r.book x.1.event) RefBook.init feed := by
    refine Guided.and ((RefBook.init.along_wellFormed feed).mpr hw) ?_
    refine (Guided.comap (V := fun a (x : Input n) => InsertsWithin lo a x.1.event) RefBook.book ?_ _ _).mpr
      hwin
    exact fun _ _ => rfl
  have hstep : ∀ (s : OrderBook n) (r : RefBook) (x : Input n) s', Windows lo s r →
      WfEvent n r.book x.1.event ∧ InsertsWithin lo r.book x.1.event → s.dispatch b x.2 x.1 = .ok s' →
      Windows lo s' (r.step x.1.event) :=
    fun s r x s' h hx hs => ⟨h.1.of_dispatch_ok hx.1 hs, h.2.step hx.2⟩
  have hinit : Windows lo (OrderBook.init n) .init := ⟨sim_init, windowInv_init lo⟩
  have hcount : rebuildCount b d (.init n) feed < kLevels := by
    have hpaid := totalCost_add_le (Windows lo) (fun r : RefBook => headroom lo d (r.ref d)) hstep
      (fun s r x h hx => h.1.headroom_step h.2 hx.1 hx.2 d) hinit hW hs
    have hend : Windows lo s (RefBook.init.replay feed) := run_rel (Windows lo)
      (fun s r x s' h hx hs => hstep s r x s' h hx hs) hinit hW hs
    have hlt := headroom_lt hend.2 d
    unfold rebuildCount
    exact (Nat.le_of_add_right_le hpaid).trans_lt hlt
  refine ⟨hcount, ?_⟩
  have hloops : rebuildLoops b d (.init n) feed ≤ n * rebuildCount b d (.init n) feed := by
    refine totalCost_le_mul (Windows lo) hstep (fun s r x h hx => ?_) hinit hW
    split_ifs
    · rw [Nat.mul_one]
      exact (length_keys_mapBefore_le s _).trans (orderCount_le h.1.rep)
    · exact Nat.zero_le _
  calc rebuildLoops b d (.init n) feed ≤ n * rebuildCount b d (.init n) feed := hloops
    _ ≤ n * (kLevels - 1) := Nat.mul_le_mul_left n (Nat.le_sub_one_of_lt hcount)
    _ = (kLevels - 1) * n := Nat.mul_comm _ _

theorem recentre_amortised_sampleFeed : rebuildCount .debug .bid (.init 2) sampleFeed < kLevels ∧
    rebuildLoops .debug .bid (.init 2) sampleFeed ≤ (kLevels - 1) * 2 :=
  recentre_amortised (by decide) .debug sampleFeed
    (feedOk_iff.mpr ⟨wellFormed_sampleFeed, windowed_sampleFeed⟩) .bid

end OrderBook

end L2Book
