import Mathlib.Algebra.Order.BigOperators.Group.Finset
import L2Book.Book.Window

/-!
# Reused references

Neither `on_add` nor `on_replace` looks the new reference up before it inserts.

* `NoGhosts`: the counts of all levels add up to `order_count()`, and every linked order is the one the
  map holds under its reference;
* `ArbitraryRefs`: feeds in which an insertion may reuse a live reference; `FreshRef`: it does not;
* `ArbitraryRefs.wellFormed`: with fresh references such a feed is well formed;
* `Sim.noGhosts_iff_countAt`: a well-formed feed leaves no ghosts as long as the 32-bit counts do not wrap;
* `addNew_ghost`: the first reuse leaves one;
* **`noGhosts_iff`**: no ghosts after any message exactly if no reference is reused and no count wraps.
-/

namespace L2Book

variable {n : ℕ}

/-! ## The feeds -/

/-- Events with valid sides, prices and quantities whose references are arbitrary. -/
def ReuseEvent (lo : Side → ℕ) (a : NaiveBook) : Event → Prop
  | .add _ side _ price => a.isOpen = true →
    (side = 'B'.toUInt8 ∨ side = 'S'.toUInt8) ∧ PriceOk price ∧ InWindow lo (sideOf side) price
  | .reduce ref qty => ∀ o, a.orders.lookup ref = some o → qty ≤ o.shares
  | .replace oldRef _ _ price => ∀ o, a.orders.lookup oldRef = some o →
    PriceOk price ∧ InWindow lo (sideOf o.side) price
  | _ => True

/-- Adds and replaces. -/
def Event.isInsertion : Event → Bool
  | .add .. => true
  | .replace .. => true
  | _ => false

/-- The number of adds and replaces of a feed. -/
def insertions (feed : List (Input n)) : ℕ := feed.countP fun x => x.1.event.isInsertion

/-- **Feeds with arbitrary references**, and with at most as many adds and replaces as the pool has
slots. -/
structure ArbitraryRefs (lo : Side → ℕ) (feed : List (Input n)) : Prop where
  events : Guided (fun a x => a.step x.1.event) (fun a x => ReuseEvent lo a x.1.event) NaiveBook.init feed
  capacity : insertions feed ≤ n

/-- A reference that the event inserts is not live, unless the event replaces it. -/
def FreshRef (a : NaiveBook) (e : Event) : Prop :=
  ∀ ref d price, a.inserts e = some (ref, d, price) →
    e.target = some ref ∨ a.orders.lookup ref = none

/-- No insertion of the feed reuses a live reference. -/
def FreshRefs (feed : List (Input n)) : Prop :=
  Guided (fun a x => a.step x.1.event) (fun a x => FreshRef a x.1.event) NaiveBook.init feed

/-- At no time does a price of one side hold `2 ^ 32` orders. -/
def CountsFit (feed : List (Input n)) : Prop :=
  ∀ pre, pre <+: feed → ∀ d price, (NaiveBook.init.replay pre).countAt d price < 2 ^ 32

namespace NaiveBook

theorem length_keys_insert_le (m : AList fun _ : UInt64 => NaiveOrder) (r : UInt64) (o : NaiveOrder) :
    (m.insert r o).keys.length ≤ m.keys.length + 1 := by
  rw [AList.keys_insert, List.length_cons]
  exact Nat.succ_le_succ List.erase_sublist.length_le

theorem length_keys_erase_le (m : AList fun _ : UInt64 => NaiveOrder) (r : UInt64) :
    (m.erase r).keys.length ≤ m.keys.length := by
  rw [AList.keys_erase]
  exact List.erase_sublist.length_le

theorem length_keys_insert_of_mem {m : AList fun _ : UInt64 => NaiveOrder} {r : UInt64} {o : NaiveOrder}
    (hr : m.lookup r = some o) (o' : NaiveOrder) : (m.insert r o').keys.length = m.keys.length := by
  have hmem : r ∈ m.keys := AList.mem_keys.mp (AList.lookup_isSome.mp (by rw [hr]; rfl))
  rw [AList.keys_insert, List.length_cons, List.length_erase_of_mem hmem]
  have := List.length_pos_of_mem hmem
  omega

theorem size_step_le (a : NaiveBook) (e : Event) :
    (a.step e).size ≤ a.size + if e.isInsertion then 1 else 0 := by
  cases e with
  | system code =>
    show (a.step (.system code)).size ≤ a.size
    simp only [step]
    split_ifs
    · exact le_rfl
    · exact le_rfl
    · exact Nat.zero_le _
    · exact le_rfl
  | add r side shares price =>
    show (a.step (.add r side shares price)).size ≤ a.size + 1
    simp only [step]
    split_ifs
    · exact length_keys_insert_le _ _ _
    · exact Nat.le_succ _
  | reduce r qty =>
    show (a.step (.reduce r qty)).size ≤ a.size
    simp only [step]
    cases hr : a.orders.lookup r with
    | none => exact le_rfl
    | some o =>
      simp only
      split_ifs
      · exact length_keys_erase_le _ _
      · exact (length_keys_insert_of_mem hr _).le
  | delete r => exact length_keys_erase_le _ _
  | replace r r' shares price =>
    show (a.step (.replace r r' shares price)).size ≤ a.size + 1
    simp only [step]
    cases hr : a.orders.lookup r with
    | none => exact Nat.le_succ _
    | some o =>
      have hins := length_keys_insert_le (a.orders.erase r) r' ⟨o.side, price, shares⟩
      have her := length_keys_erase_le a.orders r
      exact hins.trans (Nat.succ_le_succ her)
  | ignore => exact le_rfl

end NaiveBook

theorem insertions_cons (x : Input n) (feed : List (Input n)) :
    insertions (x :: feed) = insertions feed + if x.1.event.isInsertion then 1 else 0 :=
  List.countP_cons

theorem insertions_append (feed feed' : List (Input n)) :
    insertions (feed ++ feed') = insertions feed + insertions feed' := List.countP_append

/-- The live orders are at most the insertions so far. -/
theorem NaiveBook.size_replay_le (a : NaiveBook) (feed : List (Input n)) :
    (a.replay feed).size ≤ a.size + insertions feed := by
  induction feed generalizing a with
  | nil => exact le_rfl
  | cons x feed ih =>
    have hsize := a.size_step_le x.1.event
    have hrest := ih (a.step x.1.event)
    rw [insertions_cons]
    show ((a.step x.1.event).replay feed).size ≤ _
    omega

theorem insertions_le_of_isPrefix {pre feed : List (Input n)} (h : pre <+: feed) :
    insertions pre ≤ insertions feed := h.sublist.countP_le

theorem ArbitraryRefs.of_isPrefix {lo : Side → ℕ} {pre feed : List (Input n)} (h : ArbitraryRefs lo feed)
    (hpre : pre <+: feed) : ArbitraryRefs lo pre :=
  ⟨Guided.of_isPrefix h.events hpre, (insertions_le_of_isPrefix hpre).trans h.capacity⟩

theorem ReuseEvent.wfEvent {lo : Side → ℕ} {a : NaiveBook} {e : Event} (h : ReuseEvent lo a e)
    (hf : FreshRef a e) (hn : (a.size + if e.isInsertion then 1 else 0) ≤ n) : WfEvent n a e := by
  cases e with
  | add r side shares price =>
    intro hopen
    obtain ⟨hside, hprice, -⟩ := h hopen
    rcases hf r (sideOf side) price (if_pos hopen) with ht | hr
    · cases ht
    · exact ⟨hr, hside, hprice, hn⟩
  | reduce r qty => exact h
  | replace r r' shares price =>
    intro hr
    obtain ⟨o, ho⟩ := Option.isSome_iff_exists.mp hr
    refine ⟨?_, (h o ho).1⟩
    have hins : a.inserts (.replace r r' shares price) = some (r', sideOf o.side, price) := by
      simp only [NaiveBook.inserts, ho, Option.map_some]
    rcases hf r' _ price hins with ht | hr'
    · cases ht
      exact AList.lookup_erase _ _
    · by_cases e : r' = r
      · rw [e]
        exact AList.lookup_erase _ _
      · rw [AList.lookup_erase_ne e, hr']
  | system code => trivial
  | delete r => trivial
  | ignore => trivial

theorem ReuseEvent.window {lo : Side → ℕ} {a : NaiveBook} {e : Event} (h : ReuseEvent lo a e)
    {ref : UInt64} {d : Side} {price : UInt32} (hins : a.inserts e = some (ref, d, price)) :
    InWindow lo d price := by
  cases e with
  | add r side shares p =>
    simp only [NaiveBook.inserts] at hins
    split_ifs at hins with hopen
    cases hins
    exact (h hopen).2.2
  | replace r r' shares p =>
    simp only [NaiveBook.inserts, Option.map_eq_some_iff] at hins
    obtain ⟨o, ho, heq⟩ := hins
    cases heq
    exact (h o ho).2
  | reduce r qty => cases hins
  | system code => cases hins
  | delete r => cases hins
  | ignore => cases hins

/-- **With fresh references the feed is well formed.** -/
theorem wellFormedFrom_of_fresh {lo : Side → ℕ} {a : NaiveBook} {feed : List (Input n)}
    (he : Guided (fun a x => a.step x.1.event) (fun a x => ReuseEvent lo a x.1.event) a feed)
    (hf : Guided (fun a x => a.step x.1.event) (fun a x => FreshRef a x.1.event) a feed)
    (hn : a.size + insertions feed ≤ n) : WellFormedFrom a feed ∧ WindowedFrom lo a feed := by
  induction feed generalizing a with
  | nil => exact ⟨trivial, trivial⟩
  | cons x feed ih =>
    rw [insertions_cons] at hn
    have hsize := a.size_step_le x.1.event
    have hnext : (a.step x.1.event).size + insertions feed ≤ n := by omega
    obtain ⟨hw, hwin⟩ := ih he.2 hf.2 hnext
    exact ⟨⟨he.1.wfEvent hf.1 (by omega), hw⟩, fun _ _ _ hins => he.1.window hins, hwin⟩

theorem ArbitraryRefs.wellFormed {lo : Side → ℕ} {feed : List (Input n)} (h : ArbitraryRefs lo feed)
    (hf : FreshRefs feed) : WellFormed feed ∧ Windowed lo feed :=
  wellFormedFrom_of_fresh h.events hf ((Nat.zero_add _).le.trans h.capacity)

namespace OrderBook

/-- **No ghost liquidity.** -/
structure NoGhosts (s : OrderBook n) : Prop where
  count : ∑ i, ((s.sides .bid).levels i).orderCount.toNat +
    ∑ i, ((s.sides .ask).levels i).orderCount.toNat = s.orderCount
  linked : ∀ d i, ∀ p ∈ s.queue d i, s.orderMap.lookup (s.order p).orderRef = some p

/-! ## Counting -/

section Counts

variable {s : OrderBook n} {r : RefBook}

/-- The levels of a side partition its orders. -/
theorem Rep.sum_queue_length (h : Rep s) (hi : ∀ p ∈ s.liveSet, InArray (s.tickOf p)) (d : Side) :
    ∑ i, (s.queue d i).length = (s.liveSlots.filter fun p => s.sideAt p = d).length := by
  have hunion : (s.liveSlots.filter fun p => s.sideAt p = d).toFinset =
      Finset.univ.biUnion fun i => (s.queue d i).toFinset := by
    ext p
    simp only [List.mem_toFinset, List.mem_filter, decide_eq_true_eq, Finset.mem_biUnion,
      Finset.mem_univ, true_and]
    constructor
    · rintro ⟨hp, rfl⟩
      exact ⟨_, h.linked.mem_queue_slotOf hp (hi p hp)⟩
    · rintro ⟨i, hp⟩
      obtain ⟨hlive, hd, -⟩ := (h.linked.mem_queue d i p).mp hp
      exact ⟨hlive, hd⟩
  have hdisj : ∀ i ∈ Finset.univ, ∀ j ∈ Finset.univ, i ≠ j →
      Disjoint (s.queue d i).toFinset (s.queue d j).toFinset := by
    intro i _ j _ hij
    refine Finset.disjoint_left.mpr fun p hp hp' => hij ?_
    exact (h.linked.queue_unique (List.mem_toFinset.mp hp') (List.mem_toFinset.mp hp)).2
  rw [← List.toFinset_card_of_nodup (h.nodup.filter _), hunion, Finset.card_biUnion hdisj]
  exact Finset.sum_congr rfl fun i _ => (List.toFinset_card_of_nodup (h.linked.level d i).list.nodup).symm

theorem Rep.sum_queue_lengths (h : Rep s) (hi : ∀ p ∈ s.liveSet, InArray (s.tickOf p)) :
    ∑ i, (s.queue .bid i).length + ∑ i, (s.queue .ask i).length = s.orderCount := by
  have hsplit := List.length_eq_length_filter_add (l := s.liveSlots) fun p => decide (s.sideAt p = .bid)
  have hask : (s.liveSlots.filter fun p => !decide (s.sideAt p = .bid)) =
      s.liveSlots.filter fun p => s.sideAt p = .ask := by
    refine List.filter_congr fun p _ => ?_
    cases s.sideAt p <;> rfl
  rw [h.sum_queue_length hi, h.sum_queue_length hi, ← liveSlots_length, hsplit, hask]

/-- The counts of the levels add up exactly if none of them has wrapped. -/
theorem Rep.count_eq_iff (h : Rep s) (hi : ∀ p ∈ s.liveSet, InArray (s.tickOf p)) :
    ∑ i, ((s.sides .bid).levels i).orderCount.toNat +
      ∑ i, ((s.sides .ask).levels i).orderCount.toNat = s.orderCount ↔
    ∀ d i, (s.queue d i).length < 2 ^ 32 := by
  have hle : ∀ d i, ((s.sides d).levels i).orderCount.toNat ≤ (s.queue d i).length := by
    intro d i
    rw [h.orderCount_toNat]
    exact Nat.mod_le _ _
  have hsum : ∀ d, ∑ i, ((s.sides d).levels i).orderCount.toNat ≤ ∑ i, (s.queue d i).length :=
    fun d => Finset.sum_le_sum fun i _ => hle d i
  have hfits : ∀ d, ∑ i, ((s.sides d).levels i).orderCount.toNat = ∑ i, (s.queue d i).length ↔
      ∀ i, (s.queue d i).length < 2 ^ 32 := by
    intro d
    rw [Finset.sum_eq_sum_iff_of_le fun i _ => hle d i]
    refine ⟨fun he i => ?_, fun hlt i _ => ?_⟩
    · have := he i (Finset.mem_univ i)
      rw [h.orderCount_toNat] at this
      exact (Nat.mod_eq_iff_lt (by decide)).mp this
    · rw [h.orderCount_toNat]
      exact Nat.mod_eq_of_lt (hlt i)
  have hall := h.sum_queue_lengths hi
  have hbid := hsum .bid
  have hask := hsum .ask
  constructor
  · intro he d
    cases d with
    | bid => exact (hfits .bid).mp (by omega)
    | ask => exact (hfits .ask).mp (by omega)
  · intro hlt
    rw [(hfits .bid).mpr (hlt .bid), (hfits .ask).mpr (hlt .ask)]
    exact hall

theorem Sim.queue_length_lt_iff (h : Sim s r) (hr : r.AllHeld) :
    (∀ d i, (s.queue d i).length < 2 ^ 32) ↔ ∀ d price, r.book.countAt d price < 2 ^ 32 := by
  have hlen : ∀ (d : Side) (i : Fin kLevels),
      r.book.countAt d (priceFromIdx d (s.sides d).ref (i : ℕ)) = (s.queue d i).length := by
    intro d i
    rw [NaiveBook.countAt, (h.resting_perm d i).length_eq, List.length_map]
  constructor
  · intro hlt d price
    by_contra hge
    have hpos : r.book.restingAt d price ≠ [] := by
      intro he
      rw [NaiveBook.countAt, he] at hge
      exact hge (by decide)
    obtain ⟨o, ho⟩ := List.exists_mem_of_ne_nil _ hpos
    have hmem := List.mem_filter.mp ho
    obtain ⟨hd, hp⟩ := of_decide_eq_true hmem.2
    obtain ⟨⟨ref, o'⟩, hentry, rfl⟩ := List.mem_map.mp hmem.1
    have hin : InArray (tick d (s.sides d).ref price) := by
      have hheld := (hr ref o' (AList.mem_lookup_iff.mpr hentry)).2
      unfold RefBook.Holds at hheld
      rw [hd, hp, ← h.ref] at hheld
      exact hheld
    have hslot := hlen d (slotOf _ hin)
    rw [slotOf_val, price_of_tick hin] at hslot
    exact hge (hslot ▸ hlt d _)
  · intro hlt d i
    rw [← hlen]
    exact hlt d _

/-- **The book of a well-formed feed has no ghosts** as long as the counts do not wrap. -/
theorem Sim.noGhosts_iff_countAt (h : Sim s r) (hr : r.AllHeld) :
    NoGhosts s ↔ ∀ d price, r.book.countAt d price < 2 ^ 32 := by
  have hiff := (h.rep.count_eq_iff (h.inArray_of_allHeld hr)).trans (h.queue_length_lt_iff hr)
  refine ⟨fun hs => hiff.mp hs.count, fun hlt => ⟨hiff.mpr hlt, fun d i p hp => ?_⟩⟩
  exact h.rep.lookup_orderRef (h.rep.linked.mem_of_queue hp)

end Counts

/-! ## Reuse -/

section Reuse

variable {b : Build} {lo : Side → ℕ} {s : OrderBook n} {r : RefBook} {e : Event}

/-- **An insertion under a live reference leaves a ghost**: the old order stays linked, and the map
forgets it. -/
theorem addNew_ghost (b : Build) (it : IterOrder n) (h : Sim s r) (hr : r.AllHeld) (hwin : r.WindowInv lo)
    {ref : UInt64} (hlive : r.book.orders.lookup ref ≠ none) (shares : UInt32) {price : UInt32}
    {side : UInt8} (hside : side = 'B'.toUInt8 ∨ side = 'S'.toUInt8) (hprice : PriceOk price)
    (hin : InWindow lo (sideOf side) price) (hfree : ∃ p, p ∉ s.liveSet) :
    ∃ s', s.addNew b it ref shares price side = .ok s' ∧ ¬ NoGhosts s' := by
  obtain ⟨p, hp⟩ := Option.ne_none_iff_exists'.mp fun hn => hlive (h.abs.lookup_none.mpr hn)
  have hplive : p ∈ s.liveSet := mem_liveSet.mpr ⟨ref, hp⟩
  have hlook := h.abs.lookup_some hp
  obtain ⟨s', q, hs', hspec⟩ := h.rep.place b it ref shares (side_byte_of_wf hside) hprice hfree
  obtain ⟨horef, -, hpprice, hpside⟩ := hspec.fields p hplive
  have hat : s'.sideAt p = s.sideAt p := congrArg sideOf hpside
  have htick : InArray (s'.tickOf p) := by
    unfold tickOf
    rw [hat, hspec.ref, hpprice]
    have hold := h.inArray_of_allHeld hr p hplive
    split_ifs with hd
    · by_cases hrc : Recentres (s.sideAt p) (s.sides (s.sideAt p)).ref price
      · rw [nextRef_of_recentres hrc]
        rw [h.ref] at hrc
        have hnew : InWindow lo (sideOf (s.order p).view.side) price := by
          have hd' : sideOf (s.order p).view.side = sideOf side := hd
          rw [hd']
          exact hin
        exact hwin.inArray_of_recentres hr hlook hnew hrc
      · rw [nextRef_of_not_recentres (h.rep.linked.ref_ne p hplive) hrc]
        exact hold
    · exact hold
  refine ⟨s', hs', fun hg => hspec.fresh ?_⟩
  have hmap := hg.linked _ _ p (hspec.linked.mem_queue_slotOf (.inr hplive) htick)
  rw [horef, h.rep.orderRef ref p hp, hspec.orderMap, AList.lookup_insert] at hmap
  cases hmap
  exact hplive

theorem Sim.of_remove (h : Sim s r) {ref : UInt64} {p : Fin n} (hp : s.orderMap.lookup ref = some p)
    {s' : OrderBook n} (hs : RemoveSpec s ref p s') : Sim s' (r.step (.delete ref)) where
  rep := hs.rep
  abs := hs.abs h.rep h.abs hp
  ref d := (hs.ref d).trans (h.ref d)
  best hn := hs.best hn (h.best hn)

/-- **The first reuse of a live reference.** -/
theorem Sim.ghost_of_reuse (it : IterOrder n) (hb : b = .debug → n < 2 ^ 32) (h : Sim s r)
    (hr : r.AllHeld) (hwin : r.WindowInv lo) (he : ReuseEvent lo r.book e)
    (hn : (r.book.size + if e.isInsertion then 1 else 0) ≤ n) (hf : ¬ FreshRef r.book e) :
    ∃ s', s.apply b it e = .ok s' ∧ ¬ NoGhosts s' := by
  unfold FreshRef at hf
  push Not at hf
  obtain ⟨ref, d, price, hins, ht, hlive⟩ := hf
  cases e with
  | add r₁ side shares price =>
    simp only [NaiveBook.inserts] at hins
    split_ifs at hins with hopen
    cases hins
    obtain ⟨hside, hprice, hin⟩ := he hopen
    obtain ⟨s', hs', hg⟩ := addNew_ghost b it h hr hwin hlive shares hside hprice hin
      (h.abs.exists_free hn)
    refine ⟨s', ?_, hg⟩
    rw [h.abs.isOpen] at hopen
    simp only [apply, addRef, hopen, Bool.not_true, Bool.false_eq_true, if_false, hs']
  | replace r₁ r₂ shares price =>
    simp only [NaiveBook.inserts, Option.map_eq_some_iff] at hins
    obtain ⟨o, ho, heq⟩ := hins
    cases heq
    have ho' := ho
    rw [h.abs.lookup, Option.map_eq_some_iff] at ho'
    obtain ⟨p, hp, rfl⟩ := ho'
    have hplive : p ∈ s.liveSet := mem_liveSet.mpr ⟨r₁, hp⟩
    obtain ⟨hprice, hin⟩ := he _ ho
    obtain ⟨s₁, hs₁, hrem⟩ := h.rep.remove hb hp (h.inArray_of_allHeld hr p hplive)
    have hne : ref ≠ r₁ := fun e => ht (congrArg some e.symm)
    have hside : (s.order p).side = 'B'.toUInt8 ∨ (s.order p).side = 'S'.toUInt8 := by
      rw [h.rep.linked.side_byte p hplive]
      cases s.sideAt p
      · exact .inl rfl
      · exact .inr rfl
    have hquiet : ∀ ref d price, r.book.inserts (.delete r₁) ≠ some (ref, d, price) := by
      intro ref d price hins
      cases hins
    have hr₁ : (r.step (.delete r₁)).AllHeld := hr.step (n := n) (e := .delete r₁) trivial
      fun ref d price hins => absurd hins (hquiet ref d price)
    have hwin₁ : (r.step (.delete r₁)).WindowInv lo :=
      hwin.step fun ref d price hins => absurd hins (hquiet ref d price)
    have hlive₁ : (r.step (.delete r₁)).book.orders.lookup ref ≠ none := by
      show (r.book.orders.erase r₁).lookup ref ≠ none
      rw [AList.lookup_erase_ne hne]
      exact hlive
    have hfree : ∃ q, q ∉ (s₁.eraseFree r₁ p).liveSet :=
      ⟨p, by rw [hrem.liveSet]; exact fun hm => hm.2 rfl⟩
    obtain ⟨s', hs', hg⟩ := addNew_ghost b it (h.of_remove hp hrem) hr₁ hwin₁ hlive₁ shares hside
      hprice hin hfree
    refine ⟨s', ?_, hg⟩
    simp only [apply, replaceRef, hp, hs₁, ok_bind, hs']
  | reduce r₁ qty => cases hins
  | system code => cases hins
  | delete r₁ => cases hins
  | ignore => cases hins

end Reuse

/-! ## Runs -/

section Runs

variable {lo : Side → ℕ} {feed : List (Input n)}

theorem replay_of_fresh {b : Build} (hb : b = .debug → n < 2 ^ 32) (h : ArbitraryRefs lo feed)
    (hf : FreshRefs feed) :
    ∃ s, (OrderBook.init n).replay b feed = .ok s ∧ Sim s (RefBook.init.replay feed) ∧
      (RefBook.init.replay feed).AllHeld := by
  obtain ⟨hw, hwin⟩ := h.wellFormed hf
  exact exists_replay_of_windowed hb hw hwin

theorem windowInv_replay {r : RefBook} (h : r.WindowInv lo) (hwin : WindowedFrom lo r.book feed) :
    (r.replay feed).WindowInv lo := by
  induction feed generalizing r with
  | nil => exact h
  | cons x feed ih => exact ih (h.step hwin.1) hwin.2

/-- Whatever a run with fresh references reaches has no ghosts as long as no count wraps. -/
theorem noGhosts_of_fresh (h : ArbitraryRefs lo feed) (hf : FreshRefs feed) (hc : CountsFit feed)
    {b : Build} {s : OrderBook n} (hs : (OrderBook.init n).replay b feed = .ok s) : NoGhosts s := by
  have hsim := sim_init.of_replay (h.wellFormed hf).1 hs
  obtain ⟨-, -, -, hheld⟩ := replay_of_fresh (b := .release) nofun h hf
  refine (hsim.noGhosts_iff_countAt hheld).mpr ?_
  rw [← NaiveBook.init_replay]
  exact hc feed List.prefix_rfl

/-- The first message that reuses a live reference leaves a ghost. -/
theorem ghost_of_first_reuse {pre : List (Input n)} {x : Input n} (h : ArbitraryRefs lo (pre ++ [x]))
    (hf : FreshRefs pre) (hx : ¬ FreshRef (NaiveBook.init.replay pre) x.1.event) :
    ∃ s, (OrderBook.init n).replay .release (pre ++ [x]) = .ok s ∧ ¬ NoGhosts s := by
  have hpre : ArbitraryRefs lo pre := h.of_isPrefix (List.prefix_append pre [x])
  obtain ⟨s, hs, hsim, hheld⟩ := replay_of_fresh (b := .release) nofun hpre hf
  have hwin := windowInv_replay (windowInv_init lo) (hpre.wellFormed hf).2
  have hev := (Guided.append.mp h.events).2.1
  have hbook : (RefBook.init.replay pre).book = NaiveBook.init.replay pre := RefBook.replay_book _ _
  have hsize : (RefBook.init.replay pre).book.size + (if x.1.event.isInsertion then 1 else 0) ≤ n := by
    have hcap := h.capacity
    rw [insertions_append, insertions_cons] at hcap
    have hle := NaiveBook.size_replay_le NaiveBook.init pre
    rw [hbook]
    exact (Nat.add_le_add_right (hle.trans (Nat.zero_add _).le) _).trans (le_trans (by omega) hcap)
  obtain ⟨s', hs', hghost⟩ := hsim.ghost_of_reuse (b := .release) x.2 nofun hheld hwin
    (hbook ▸ hev) hsize (hbook ▸ hx)
  rw [← dispatch_eq_apply] at hs'
  exact ⟨s', run_snoc_of_ok hs hs', hghost⟩

/-- **No ghosts after any message exactly if no live reference is reused**, and no price of one side ever
holds `2 ^ 32` orders. -/
theorem noGhosts_iff (feed : List (Input n)) (h : ArbitraryRefs lo feed) :
    (∀ pre, pre <+: feed → ∀ b : Build,
      ((b = .debug → n < 2 ^ 32) → ∃ s, (OrderBook.init n).replay b pre = .ok s) ∧
        ∀ s, (OrderBook.init n).replay b pre = .ok s → NoGhosts s) ↔
      FreshRefs feed ∧ CountsFit feed := by
  constructor
  · intro hall
    have hfresh : ∀ pre, pre <+: feed → FreshRefs pre := by
      intro pre
      induction pre using List.reverseRecOn with
      | nil => exact fun _ => trivial
      | append_singleton pre x ih =>
        intro hpre
        have hf : FreshRefs pre := ih ((List.prefix_append pre [x]).trans hpre)
        refine Guided.append.mpr ⟨hf, ?_, trivial⟩
        by_contra hx
        obtain ⟨s, hs, hghost⟩ := ghost_of_first_reuse (h.of_isPrefix hpre) hf hx
        exact hghost ((hall _ hpre .release).2 s hs)
    refine ⟨hfresh feed List.prefix_rfl, fun pre hpre => ?_⟩
    obtain ⟨s, hs, hsim, hheld⟩ := replay_of_fresh (b := .release) nofun (h.of_isPrefix hpre)
      (hfresh pre hpre)
    rw [NaiveBook.init_replay]
    exact (hsim.noGhosts_iff_countAt hheld).mp ((hall pre hpre .release).2 s hs)
  · rintro ⟨hf, hc⟩ pre hpre b
    have hrefs := h.of_isPrefix hpre
    have hf₁ : FreshRefs pre := Guided.of_isPrefix hf hpre
    have hc₁ : CountsFit pre := fun c hcp => hc c (hcp.trans hpre)
    refine ⟨fun hb => ?_, fun s hs => noGhosts_of_fresh hrefs hf₁ hc₁ hs⟩
    obtain ⟨s, hs, -⟩ := replay_of_fresh hb hrefs hf₁
    exact ⟨s, hs⟩

theorem countsFit_of_lt (hn : n < 2 ^ 32) (h : ArbitraryRefs lo feed) : CountsFit feed := by
  intro pre hpre d price
  have hsize := NaiveBook.size_replay_le NaiveBook.init pre
  have hcap := (h.of_isPrefix hpre).capacity
  have hcount : (NaiveBook.init.replay pre).countAt d price ≤ (NaiveBook.init.replay pre).size := by
    unfold NaiveBook.countAt NaiveBook.restingAt
    refine (List.length_filter_le _ _).trans ?_
    simp [NaiveBook.size, AList.keys, List.keys]
  have hinit : NaiveBook.init.size = 0 := rfl
  omega

end Runs

/-- Two bids under one reference. -/
def reusedRef : List (Input 2) :=
  [(sysMsg 'O'.toUInt8, .newest 2), (addMsg 1 'B'.toUInt8 10 100, .newest 2),
    (addMsg 1 'B'.toUInt8 10 99, .newest 2)]

theorem arbitraryRefs_reusedRef : ArbitraryRefs (fun _ => 1) reusedRef := by
  refine ⟨⟨trivial, fun _ => ⟨.inl rfl, ⟨?_, ?_⟩, ?_, ?_⟩, fun _ => ⟨.inl rfl, ⟨?_, ?_⟩, ?_, ?_⟩, trivial⟩,
    ?_⟩ <;> decide

/-- The first bid stays in its level, and the map knows the second one only. -/
theorem reused_ref_ghost : ArbitraryRefs (fun _ => 1) reusedRef ∧
    ∃ s, (OrderBook.init 2).replay .debug reusedRef = .ok s ∧ ¬ NoGhosts s := by
  refine ⟨arbitraryRefs_reusedRef, _, rfl, fun h => ?_⟩
  have hmap := h.linked .bid ⟨0, by decide⟩ 0 List.mem_cons_self
  cases hmap

theorem arbitraryRefs_sampleFeed : ArbitraryRefs (fun _ => 1) sampleFeed := by
  refine ⟨⟨trivial, fun _ => ⟨.inl rfl, ⟨?_, ?_⟩, ?_, ?_⟩, fun _ => ⟨.inl rfl, ⟨?_, ?_⟩, ?_, ?_⟩, trivial,
    trivial⟩, ?_⟩ <;> decide

theorem freshRefs_sampleFeed : FreshRefs sampleFeed := by
  refine ⟨nofun, fun ref d price h => ?_, fun ref d price h => ?_, nofun, trivial⟩
  · cases h
    exact .inr rfl
  · cases h
    exact .inr rfl

theorem noGhosts_iff_sampleFeed : ∃ s, (OrderBook.init 2).replay .debug sampleFeed = .ok s ∧
    NoGhosts s := by
  have hall := (noGhosts_iff sampleFeed arbitraryRefs_sampleFeed).mpr
    ⟨freshRefs_sampleFeed, countsFit_of_lt (by decide) arbitraryRefs_sampleFeed⟩
  obtain ⟨hrun, hghosts⟩ := hall sampleFeed List.prefix_rfl .debug
  obtain ⟨s, hs⟩ := hrun fun _ => by decide
  exact ⟨s, hs, hghosts s hs⟩

end OrderBook

end L2Book
