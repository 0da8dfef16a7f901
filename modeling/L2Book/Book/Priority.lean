import L2Book.Book.Window

/-!
# Time priority

* `Clock`, `clockAfter`: when the order of a reference arrived;
* **`TimePriority`**: every level lists its orders by arrival;
* `RecentresInOrder`: a re-centre visits orders of one price by arrival;
* `StepSpec.timePriority`, `StepSpec.inOrder`: the step lemma in both directions;
* **`timePriority_iff`**: whole runs; `newest_first_reverses`: a feed that turns a level around.
-/

namespace L2Book

/-! ## Arrival times -/

/-- The number of messages so far, and for each reference the number of the last message that inserted
an order under it. -/
structure Clock where
  now : ℕ
  stamp : UInt64 → ℕ

namespace Clock

def init : Clock := ⟨0, fun _ => 0⟩

def step (c : Clock) (a : NaiveBook) (e : Event) : Clock where
  now := c.now + 1
  stamp := match a.inserts e with
    | none => c.stamp
    | some (r, _, _) => Function.update c.stamp r c.now

/-- Every live order arrived in the past. -/
def Past (c : Clock) (a : NaiveBook) : Prop := ∀ r o, a.orders.lookup r = some o → c.stamp r < c.now

theorem Past.step {c : Clock} {a : NaiveBook} (h : c.Past a) (e : Event) :
    (c.step a e).Past (a.step e) := by
  intro r o ho
  show (c.step a e).stamp r < c.now + 1
  unfold Clock.step
  rcases NaiveBook.lookup_step ho with hins | ⟨o', ho', -⟩
  · simp only [hins, Function.update_self]
    omega
  · have hlt := h r o' ho'
    cases hins : a.inserts e with
    | none => exact hlt.trans (Nat.lt_succ_self _)
    | some i =>
      simp only
      by_cases hr : r = i.1
      · rw [hr, Function.update_self]
        omega
      · rw [Function.update_of_ne hr]
        omega

end Clock

/-- The clock after a feed. -/
def clockAfter {n : ℕ} (feed : List (Input n)) : Clock :=
  (feed.foldl (fun (p : NaiveBook × Clock) x => (p.1.step x.1.event, p.2.step p.1 x.1.event))
    (NaiveBook.init, Clock.init)).2

theorem foldl_clock_fst {n : ℕ} (feed : List (Input n)) (p : NaiveBook × Clock) :
    (feed.foldl (fun (p : NaiveBook × Clock) x => (p.1.step x.1.event, p.2.step p.1 x.1.event))
      p).1 = p.1.replay feed := by
  induction feed generalizing p with
  | nil => rfl
  | cons x feed ih => exact ih _

theorem clockAfter_snoc {n : ℕ} (pre : List (Input n)) (x : Input n) :
    clockAfter (pre ++ [x]) = (clockAfter pre).step (NaiveBook.init.replay pre) x.1.event := by
  unfold clockAfter
  rw [List.foldl_append, List.foldl_cons, List.foldl_nil, foldl_clock_fst]

theorem past_clockAfter {n : ℕ} (pre : List (Input n)) :
    (clockAfter pre).Past (NaiveBook.init.replay pre) := by
  induction pre using List.reverseRecOn with
  | nil => nofun
  | append_singleton pre x ih =>
    rw [clockAfter_snoc, NaiveBook.replay_snoc]
    exact ih.step _

theorem pairwise_update {stamp : UInt64 → ℕ} {now : ℕ} {l tail : List UInt64} {r : UInt64}
    (hl : l.Pairwise fun x y => stamp x < stamp y) (hr : r ∉ l) (hlt : ∀ x ∈ l, stamp x < now)
    (htail : tail = [r] ∨ tail = []) :
    (l ++ tail).Pairwise fun x y => Function.update stamp r now x < Function.update stamp r now y := by
  have hne : ∀ x ∈ l, Function.update stamp r now x = stamp x := by
    intro x hx
    have hxr : x ≠ r := fun e => hr (e ▸ hx)
    exact Function.update_of_ne hxr _ _
  have hl' : l.Pairwise fun x y => Function.update stamp r now x < Function.update stamp r now y := by
    refine hl.imp_of_mem fun hx hy h => ?_
    rw [hne _ hx, hne _ hy]
    exact h
  rcases htail with rfl | rfl
  · rw [List.pairwise_append]
    refine ⟨hl', List.pairwise_singleton _ _, fun x hx y hy => ?_⟩
    rw [List.mem_singleton.mp hy, hne x hx, Function.update_self]
    exact hlt x hx
  · rw [List.append_nil]
    exact hl'

namespace OrderBook

variable {n : ℕ}

/-- **Every level lists its orders by arrival**, the oldest at the head. -/
def TimePriority (s : OrderBook n) (stamp : UInt64 → ℕ) : Prop :=
  ∀ d j, (s.refsAt d j).Pairwise fun r r' => stamp r < stamp r'

/-- The references of the live orders of side `d` at a price, as one iteration visits them. -/
def visitedAt (it : IterOrder n) (m : OrderMap n) (a : NaiveBook) (d : Side) (price : UInt32) :
    List UInt64 :=
  ((it.order m).map (·.1)).filter fun r =>
    (a.orders.lookup r).any fun o => sideOf o.side = d ∧ o.price = price

/-- If the message re-centres a side, the iteration visits its orders of one price by arrival. -/
def RecentresInOrder (s : OrderBook n) (a : NaiveBook) (stamp : UInt64 → ℕ) (x : Input n) : Prop :=
  ∀ r d price, a.inserts x.1.event = some (r, d, price) → Recentres d (s.sides d).ref price →
    ∀ q, (visitedAt x.2 (s.mapBefore x.1.event) a d q).Pairwise fun r r' => stamp r < stamp r'

/-! ## One step -/

section Step

variable {s s' : OrderBook n} {r : RefBook} {x : Input n} {c : Clock}

theorem lookup_of_mapBefore {e : Event} {ref : UInt64} {p : Fin n}
    (h : (s.mapBefore e).lookup ref = some p) : s.orderMap.lookup ref = some p := by
  cases e with
  | replace old new shares price =>
    have hne : ref ≠ old := fun e => by
      rw [e, mapBefore, AList.lookup_erase] at h
      cases h
    rwa [mapBefore, AList.lookup_erase_ne hne] at h
  | _ => exact h

theorem target_ne_of_mapBefore {a : NaiveBook} {e : Event} {ref ref' : UInt64} {d : Side}
    {price : UInt32} {p : Fin n} (hins : a.inserts e = some (ref, d, price))
    (h : (s.mapBefore e).lookup ref' = some p) : e.target ≠ some ref' := by
  intro ht
  cases e with
  | replace old new shares p' =>
    cases ht
    rw [mapBefore, AList.lookup_erase] at h
    cases h
  | system code => cases ht
  | add r side shares p' => cases ht
  | reduce r qty => cases hins
  | delete r => cases hins
  | ignore => cases ht

theorem lookup_of_mem_order {it : IterOrder n} {m : OrderMap n} {ref : UInt64}
    (h : ref ∈ (it.order m).map (·.1)) : ∃ p, m.lookup ref = some p := by
  obtain ⟨y, hy, rfl⟩ := List.mem_map.mp h
  exact ⟨y.2, AList.mem_lookup_iff.mpr ((it.perm m).mem_iff.mp hy)⟩

/-- The new reference is not among those a re-centre visits. -/
theorem Abs.lookup_mapBefore {a : NaiveBook} {e : Event} (ha : Abs s a) (hw : WfEvent n a e)
    {ref : UInt64} {d : Side} {price : UInt32} (hins : a.inserts e = some (ref, d, price)) :
    (s.mapBefore e).lookup ref = none := by
  cases e with
  | add ref' side shares p =>
    simp only [NaiveBook.inserts] at hins
    split_ifs at hins with hopen
    cases hins
    exact ha.lookup_none.mp (hw hopen).1
  | replace old new shares p =>
    simp only [NaiveBook.inserts, Option.map_eq_some_iff] at hins
    obtain ⟨o, ho, heq⟩ := hins
    cases heq
    have hnew := (hw (by rw [ho]; rfl)).1
    show (s.orderMap.erase old).lookup ref = none
    by_cases e : ref = old
    · rw [e, AList.lookup_erase]
    · rw [AList.lookup_erase_ne e] at hnew ⊢
      exact ha.lookup_none.mp hnew
  | system code => cases hins
  | reduce ref' qty => cases hins
  | delete ref' => cases hins
  | ignore => cases hins

/-- Levels and prices single out the same visits. -/
theorem Sim.visitedRefs_eq (h : Sim s r) {it : IterOrder n} {e : Event} {d : Side} {price : UInt32}
    (hp : price.toNat < 2 ^ 31) (j : Fin kLevels) :
    visitedRefs it (s.mapBefore e) r.book d price j =
      visitedAt it (s.mapBefore e) r.book d (priceFromIdx d price (j : ℕ)) := by
  refine List.filter_congr fun ref href => ?_
  obtain ⟨p, hm⟩ := lookup_of_mem_order href
  have hlook := lookup_of_mapBefore hm
  have hlt := h.rep.linked.price_lt p (mem_liveSet.mpr ⟨ref, hlook⟩)
  rw [h.abs.lookup_some hlook, Option.any_some, Option.any_some, decide_eq_decide]
  exact and_congr_right fun _ => tick_eq_iff hp hlt j

/-- **One message keeps time priority** if its re-centre visits orders by arrival. -/
theorem StepSpec.timePriority (h : Sim s r) (hw : WfEvent n r.book x.1.event)
    (hs : StepSpec x.2 s r.book x.1.event s') (hc : c.Past r.book) (ht : TimePriority s c.stamp)
    (hx : RecentresInOrder s r.book c.stamp x) :
    TimePriority s' (c.step r.book x.1.event).stamp := by
  intro d j
  unfold Clock.step
  cases hins : r.book.inserts x.1.event with
  | none => exact (ht d j).sublist (hs.refs_quiet hins d j)
  | some i =>
    obtain ⟨ref, d₀, price⟩ := i
    simp only
    have hold : ((s.refsAt d j).filter (· ≠ ref)).Pairwise fun x y => c.stamp x < c.stamp y :=
      (ht d j).sublist List.filter_sublist
    have hnotin : ref ∉ (s.refsAt d j).filter (· ≠ ref) := fun hm => by
      simpa using (List.mem_filter.mp hm).2
    have hpast : ∀ y ∈ (s.refsAt d j).filter (· ≠ ref), c.stamp y < c.now := by
      intro y hy
      obtain ⟨p, hp, -⟩ := h.rep.lookup_of_mem_refsAt (List.mem_filter.mp hy).1
      exact hc y _ (h.abs.lookup_some hp)
    by_cases hrc : Recentres d₀ (s.sides d₀).ref price
    · obtain ⟨hother, hown⟩ := hs.refs_recentre ref d₀ price hins hrc
      by_cases hd : d = d₀
      · subst hd
        rw [hown j, h.visitedRefs_eq (priceOk_of_inserts hw hins).2]
        refine pairwise_update (hx ref d price hins hrc _) (fun hm => ?_) (fun y hy => ?_) ?_
        · obtain ⟨p, hp⟩ := lookup_of_mem_order (List.mem_filter.mp hm).1
          rw [h.abs.lookup_mapBefore hw hins] at hp
          cases hp
        · obtain ⟨p, hp⟩ := lookup_of_mem_order (List.mem_filter.mp hy).1
          exact hc y _ (h.abs.lookup_some (lookup_of_mapBefore hp))
        · by_cases hj : (j : ℕ) = 0
          · exact .inl (if_pos hj)
          · exact .inr (if_neg hj)
      · have := pairwise_update hold hnotin hpast (.inr rfl)
        rw [List.append_nil] at this
        exact this.sublist (hother d j hd)
    · refine List.Pairwise.sublist (hs.refs_append ref d₀ price hins hrc d j)
        (pairwise_update hold hnotin hpast ?_)
      by_cases hd : d = d₀
      · exact .inl (if_pos hd)
      · exact .inr (if_neg hd)

/-- **Conversely**, a re-centre that keeps every order in the array and time priority has visited the
orders by arrival. -/
theorem StepSpec.inOrder (h : Sim s r) (hw : WfEvent n r.book x.1.event)
    (hs : StepSpec x.2 s r.book x.1.event s') (hnd : r.NoDrop x.1.event)
    (ht : TimePriority s' (c.step r.book x.1.event).stamp) :
    RecentresInOrder s r.book c.stamp x := by
  intro ref d price hins hrc q
  have hnone := h.abs.lookup_mapBefore hw hins
  by_cases hq : visitedAt x.2 (s.mapBefore x.1.event) r.book d q = []
  · rw [hq]
    exact List.Pairwise.nil
  -- some order at this price is visited, so the price has a level after the re-centre
  obtain ⟨ref', hmem⟩ := List.exists_mem_of_ne_nil _ hq
  obtain ⟨hord, hany⟩ := List.mem_filter.mp hmem
  obtain ⟨p, hp⟩ := lookup_of_mem_order hord
  have hlook := lookup_of_mapBefore hp
  rw [h.abs.lookup_some hlook, Option.any_some, decide_eq_true_iff] at hany
  have htarget := target_ne_of_mapBefore hins hp
  have hin : InArray (tick d price q) := by
    rw [← hany.2]
    exact hnd ref d price hins (h.ref d ▸ hrc) ref' _ htarget (h.abs.lookup_some hlook) hany.1
  have hprice := price_of_tick hin
  rw [← slotOf_val hin] at hprice
  have hown := (hs.refs_recentre ref d price hins hrc).2 (slotOf _ hin)
  rw [h.visitedRefs_eq (priceOk_of_inserts hw hins).2, hprice] at hown
  have hpair := ht d (slotOf _ hin)
  rw [hown] at hpair
  refine (List.pairwise_append.mp hpair).1.imp_of_mem fun {y z} hy hz hyz => ?_
  have hne : ∀ y ∈ visitedAt x.2 (s.mapBefore x.1.event) r.book d q, y ≠ ref := by
    rintro y hy rfl
    obtain ⟨p', hp'⟩ := lookup_of_mem_order (List.mem_filter.mp hy).1
    rw [hnone] at hp'
    cases hp'
  simp only [Clock.step, hins, Function.update_of_ne (hne y hy), Function.update_of_ne (hne z hz)]
    at hyz
  exact hyz

end Step

/-! ## Whole runs -/

theorem timePriority_init (stamp : UInt64 → ℕ) : TimePriority (OrderBook.init n) stamp := by
  intro d j
  have hq : (OrderBook.init n).queue d j = [] := queue_eq (levelRep_nil _)
  unfold refsAt
  rw [hq]
  exact List.Pairwise.nil

theorem sim_of_snoc {b : Build} {lo : Side → ℕ} {pre : List (Input n)} {x : Input n}
    {s s' : OrderBook n} (hw : WellFormed (pre ++ [x])) (hwin : Windowed lo (pre ++ [x]))
    (hs : (OrderBook.init n).replay b pre = .ok s) (hs' : s.dispatch b x.2 x.1 = .ok s') :
    Sim s (RefBook.init.replay pre) ∧ WfEvent n (RefBook.init.replay pre).book x.1.event ∧
      StepSpec x.2 s (RefBook.init.replay pre).book x.1.event s' ∧
      (RefBook.init.replay pre).NoDrop x.1.event := by
  have hnd := noDrop_of_windowed hw hwin
  have hw' := Guided.append.mp ((RefBook.init.along_wellFormed _).mpr hw)
  have hsim := sim_init.of_replay ((RefBook.init.along_wellFormed _).mp hw'.1) hs
  exact ⟨hsim, hw'.2.1, (hsim.of_dispatch hw'.2.1 hs').2, (Guided.append.mp hnd).2.1⟩

/-- **Time priority.** A well-formed feed with the prices of each side in one window keeps time priority
in every state exactly when each of its re-centres visits the orders of one price by arrival. -/
theorem timePriority_iff (b : Build) (feed : List (Input n)) (hw : WellFormed feed) (lo : Side → ℕ)
    (hwin : Windowed lo feed) :
    ((∀ pre, pre <+: feed → ∀ s, (OrderBook.init n).replay b pre = .ok s →
        TimePriority s (clockAfter pre).stamp) ↔
      ∀ pre x, pre ++ [x] <+: feed → ∀ s s', (OrderBook.init n).replay b pre = .ok s →
        s.dispatch b x.2 x.1 = .ok s' →
        RecentresInOrder s (NaiveBook.init.replay pre) (clockAfter pre).stamp x) ∧
    ((b = .debug → n < 2 ^ 32) →
      ∀ pre, pre <+: feed → ∃ s, (OrderBook.init n).replay b pre = .ok s) := by
  refine ⟨⟨fun ht pre x hpre s s' hs hs' => ?_, fun hx pre => ?_⟩, fun hb pre hpre => ?_⟩
  · obtain ⟨hsim, hwx, hspec, hnd⟩ :=
      sim_of_snoc (Guided.of_isPrefix hw hpre) (Guided.of_isPrefix hwin hpre) hs hs'
    have hrun : (OrderBook.init n).replay b (pre ++ [x]) = .ok s' :=
      (run_append_of_ok hs [x]).trans (run_cons_of_ok hs' [])
    have htp := ht _ hpre s' hrun
    rw [clockAfter_snoc, NaiveBook.init_replay] at htp
    rw [NaiveBook.init_replay]
    exact hspec.inOrder hsim hwx hnd htp
  · -- by induction on the prefix, from its end
    induction pre using List.reverseRecOn with
    | nil =>
      intro _ s hs
      cases hs
      exact timePriority_init _
    | append_singleton pre x ih =>
      intro hpre s' hrun
      obtain ⟨s, hs, hs'⟩ := run_snoc_ok hrun
      obtain ⟨hsim, hwx, hspec, -⟩ :=
        sim_of_snoc (Guided.of_isPrefix hw hpre) (Guided.of_isPrefix hwin hpre) hs hs'
      have htp := ih ((List.prefix_append pre [x]).trans hpre) s hs
      have hord := hx pre x hpre s s' hs hs'
      have hpast := past_clockAfter pre
      rw [NaiveBook.init_replay] at hord hpast
      rw [clockAfter_snoc, NaiveBook.init_replay]
      exact hspec.timePriority hsim hwx hpast htp hord
  · have hw' : WellFormed pre := Guided.of_isPrefix hw hpre
    have hwin' : Windowed lo pre := Guided.of_isPrefix hwin hpre
    obtain ⟨s, hs, -⟩ := exists_replay_of_windowed hb hw' hwin'
    exact ⟨s, hs⟩

theorem timePriority_iff_sampleFeed :
    ((∀ pre, pre <+: sampleFeed → ∀ s, (OrderBook.init 2).replay .debug pre = .ok s →
        TimePriority s (clockAfter pre).stamp) ↔
      ∀ pre x, pre ++ [x] <+: sampleFeed → ∀ s s', (OrderBook.init 2).replay .debug pre = .ok s →
        s.dispatch .debug x.2 x.1 = .ok s' →
        RecentresInOrder s (NaiveBook.init.replay pre) (clockAfter pre).stamp x) ∧
    ∃ s, (OrderBook.init 2).replay .debug sampleFeed = .ok s := by
  obtain ⟨hiff, hok⟩ := timePriority_iff .debug sampleFeed wellFormed_sampleFeed (fun _ => 1)
    windowed_sampleFeed
  exact ⟨hiff, hok (fun _ => by decide) sampleFeed List.prefix_rfl⟩

/-- Two bids at one price, and a better bid that re-centres the array. -/
def twoThenBetter : List (Input 3) :=
  [(sysMsg 'O'.toUInt8, .newest 3), (addMsg 1 'B'.toUInt8 10 100, .newest 3),
    (addMsg 2 'B'.toUInt8 10 100, .newest 3), (addMsg 3 'B'.toUInt8 10 101, .newest 3)]

theorem wellFormed_twoThenBetter : WellFormed twoThenBetter := by
  refine ⟨trivial, fun _ => ⟨rfl, .inl rfl, ⟨?_, ?_⟩, ?_⟩, fun _ => ⟨rfl, .inl rfl, ⟨?_, ?_⟩, ?_⟩,
    fun _ => ⟨rfl, .inl rfl, ⟨?_, ?_⟩, ?_⟩, trivial⟩ <;> decide

theorem windowed_twoThenBetter : Windowed (fun _ => 1) twoThenBetter := by
  refine ⟨nofun, fun ref d price h => ?_, fun ref d price h => ?_, fun ref d price h => ?_,
    trivial⟩ <;>
    · cases h
      exact ⟨by decide, by decide⟩

/-- The younger order of the level comes first. -/
theorem newest_first_reverses : WellFormed twoThenBetter ∧ Windowed (fun _ => 1) twoThenBetter ∧
    ∃ s, (OrderBook.init 3).replay .debug twoThenBetter = .ok s ∧
      s.refsAt .bid ⟨1, by decide⟩ = [2, 1] ∧
      (clockAfter twoThenBetter).stamp 1 < (clockAfter twoThenBetter).stamp 2 ∧
      ¬ TimePriority s (clockAfter twoThenBetter).stamp := by
  obtain ⟨s, hs, hrefs⟩ : ∃ s, (OrderBook.init 3).replay .debug twoThenBetter = .ok s ∧
      s.refsAt .bid ⟨1, by decide⟩ = [2, 1] := ⟨_, rfl, rfl⟩
  refine ⟨wellFormed_twoThenBetter, windowed_twoThenBetter, s, hs, hrefs, by decide, fun ht => ?_⟩
  have hpair := ht .bid ⟨1, by decide⟩
  rw [hrefs] at hpair
  exact absurd (List.rel_of_pairwise_cons hpair List.mem_cons_self) (by decide)

end OrderBook

end L2Book
