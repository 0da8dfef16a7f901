import L2Book.Checkpoints
import L2Book.Book.Contents

/-!
# The verdict of a validation

What `validate` returns is a function of the messages of the file and of the snapshots alone.

* `NaiveBook.report`: the mismatches of a snapshot with a naive book; **`mismatches_eq_report`**: those that
  `compare_snapshot` reports for a book with the same orders;
* `upTo`: the messages that a snapshot waits for; `FirstAt.dispatched_eq`;
* **`validate_report`**: validation appends the reports of the snapshots and returns their number.
-/

namespace L2Book

/-! ## Reports -/

namespace NaiveBook

/-- What one side of a snapshot level gives. -/
def reportAt (a : NaiveBook) (snap : LobsterSnapshot) (lvl : Fin kDepth) (d : Side) : List Mismatch :=
  let qty := UInt32.ofNat (a.qtyAt d (snap.price d lvl))
  if qty ≠ snap.qty d lvl then
    [⟨snap.timestampNs, d.byte, lvl, snap.price d lvl, qty, snap.price d lvl, snap.qty d lvl⟩]
  else []

/-- **The mismatches of a snapshot**: each entry without the quantity that rests at its price, level by level,
the bid first. -/
def report (a : NaiveBook) (snap : LobsterSnapshot) : List Mismatch :=
  (List.finRange kDepth).flatMap fun lvl => a.reportAt snap lvl .bid ++ a.reportAt snap lvl .ask

theorem mem_prices_of_qtyAt_ne_zero {a : NaiveBook} {d : Side} {price : UInt32}
    (h : a.qtyAt d price ≠ 0) : price ∈ a.prices d := by
  have hne : a.restingAt d price ≠ [] := by
    intro he
    unfold qtyAt at h
    rw [he] at h
    exact h rfl
  obtain ⟨o, ho⟩ := List.exists_mem_of_ne_nil _ hne
  obtain ⟨⟨r, hr⟩, hd, hp⟩ := mem_restingAt.mp ho
  exact ⟨r, o, hr, hd, hp⟩

theorem qtyAt_eq_zero_of_not_mem {a : NaiveBook} {d : Side} {price : UInt32} (h : price ∉ a.prices d) :
    a.qtyAt d price = 0 := not_not.mp fun hne => h (mem_prices_of_qtyAt_ne_zero hne)

end NaiveBook

namespace OrderBook

variable {n : ℕ} {s : OrderBook n} {r : RefBook}

theorem Sim.qtyOf_levelPtr (h : Sim s r) {d : Side} {idx : ℤ} {price : UInt32} (hi : InArray idx)
    (hp : priceFromIdx d (s.sides d).ref idx = price) :
    qtyOf (s.levelPtr d idx) = UInt32.ofNat (r.book.qtyAt d price) := by
  have hq := h.totalQty_eq d (slotOf _ hi)
  rw [slotOf_val, hp] at hq
  rw [levelPtr_of_inArray s d hi, qtyOf, hq]
  exact UInt64.toUInt32_ofNat' _

theorem Sim.qtyOf_eq (h : Sim s r) (hheld : r.AllHeld) {d : Side} {v price : UInt32}
    (hp : priceFromIdx d (s.sides d).ref (castInt v) = price)
    (hv : price ∈ r.book.prices d → castInt v = tick d (s.sides d).ref price) :
    qtyOf (s.levelPtr d (castInt v)) = UInt32.ofNat (r.book.qtyAt d price) := by
  by_cases hi : InArray (castInt v)
  · exact h.qtyOf_levelPtr hi hp
  · have hfree : price ∉ r.book.prices d := by
      intro hocc
      rw [hv hocc] at hi
      exact hi (h.price_inArray hheld hocc).2.2
    rw [NaiveBook.qtyAt_eq_zero_of_not_mem hfree, levelPtr, levelAt_of_not_mem hi]
    rfl

/-- **The lookup of a price** finds what rests there. -/
theorem Sim.ourQty_eq (h : Sim s r) (hheld : r.AllHeld) (d : Side) (price : UInt32) :
    s.ourQty d price = UInt32.ofNat (r.book.qtyAt d price) := by
  have href := h.rep.linked.ref_lt d
  have hpos : price ∈ r.book.prices d → price > 0 := by
    intro hp
    have hne : price.toNat ≠ 0 := fun e => (h.price_inArray hheld hp).2.1 (UInt32.toNat_inj.mp e)
    exact UInt32.lt_iff_toNat_lt.mpr (Nat.pos_of_ne_zero hne)
  cases d with
  | bid =>
    rw [ourQty]
    split_ifs with hc
    · have hsub := UInt32.toNat_sub_of_le _ _ hc.2
      have hle := UInt32.le_iff_toNat_le.mp hc.2
      refine h.qtyOf_eq (d := .bid) hheld ?_ fun _ => ?_
      · simp only [priceFromIdx, priceFromBidIdx, ofInt_castInt]
        rw [UInt32.sub_eq_iff_eq_add, UInt32.add_comm, UInt32.sub_add_cancel]
      · rw [castInt_eq (by omega), hsub, Int.natCast_sub hle]
        rfl
    · have hfree : price ∉ r.book.prices .bid := by
        intro hp
        have hle := (h.price_inArray hheld hp).2.2.1
        simp only [tick] at hle
        exact hc ⟨hpos hp, UInt32.le_iff_toNat_le.mpr (by omega)⟩
      rw [NaiveBook.qtyAt_eq_zero_of_not_mem hfree]
      rfl
  | ask =>
    rw [ourQty]
    split_ifs with hc
    · have hsub := UInt32.toNat_sub_of_le _ _ hc.2
      have hle := UInt32.le_iff_toNat_le.mp hc.2
      refine h.qtyOf_eq (d := .ask) hheld ?_ fun hp => ?_
      · simp only [priceFromIdx, priceFromAskIdx, ofInt_castInt]
        rw [UInt32.add_comm, UInt32.sub_add_cancel]
      · have hlt := (h.price_inArray hheld hp).1
        rw [castInt_eq (by omega), hsub, Int.natCast_sub hle]
        rfl
    · have hfree : price ∉ r.book.prices .ask := by
        intro hp
        have hle := (h.price_inArray hheld hp).2.2.1
        simp only [tick] at hle
        exact hc ⟨hpos hp, UInt32.le_iff_toNat_le.mpr (by omega)⟩
      rw [NaiveBook.qtyAt_eq_zero_of_not_mem hfree]
      rfl

/-- **The comparison reports what the naive book gives.** -/
theorem Sim.mismatches_eq_report (h : Sim s r) (hheld : r.AllHeld) (snap : LobsterSnapshot) :
    s.mismatches snap = r.book.report snap := by
  have hat : ∀ lvl d, s.mismatchAt snap lvl d = r.book.reportAt snap lvl d := by
    intro lvl d
    rw [mismatchAt, NaiveBook.reportAt, h.ourQty_eq hheld]
  rw [mismatches_eq_flatMap, NaiveBook.report]
  simp only [hat]

end OrderBook

/-! ## Whole files -/

/-- The messages that a snapshot of time `ts` waits for: those before `ts` at the front of the file, and the
one after them. -/
def upTo (ts : UInt64) (msgs : List ParsedMessage) : List ParsedMessage :=
  msgs.takeWhile (fun msg => msgTs msg < ts) ++ (msgs.dropWhile fun msg => msgTs msg < ts).take 1

theorem upTo_isPrefix (ts : UInt64) (msgs : List ParsedMessage) : upTo ts msgs <+: msgs := by
  refine ⟨(msgs.dropWhile fun msg => msgTs msg < ts).drop 1, ?_⟩
  rw [upTo, List.append_assoc, List.take_append_drop, List.takeWhile_append_dropWhile]

theorem upTo_of_forall {ts : UInt64} {msgs : List ParsedMessage} (h : ∀ msg ∈ msgs, msgTs msg < ts) :
    upTo ts msgs = msgs := by
  have hall : ∀ msg ∈ msgs, decide (msgTs msg < ts) = true := fun msg hmsg => decide_eq_true (h msg hmsg)
  rw [upTo, List.takeWhile_eq_self_iff.mpr hall, List.dropWhile_eq_nil_iff.mpr hall]
  exact List.append_nil msgs

theorem upTo_append_cons {ts : UInt64} {pre post : List ParsedMessage} {msg : ParsedMessage}
    (hpre : ∀ m ∈ pre, msgTs m < ts) (hmsg : ts ≤ msgTs msg) :
    upTo ts (pre ++ msg :: post) = pre ++ [msg] := by
  have hall : ∀ m ∈ pre, decide (msgTs m < ts) = true := fun m hm => decide_eq_true (hpre m hm)
  have hstop : ¬ msgTs msg < ts := UInt64.not_lt.mpr hmsg
  rw [upTo, List.takeWhile_append_of_pos hall, List.dropWhile_append_of_pos hall,
    List.takeWhile_cons_of_neg (by simpa using hstop), List.dropWhile_cons_of_neg (by simpa using hstop),
    List.append_nil]
  rfl

namespace Validation

variable {n : ℕ} {b : Build} {its : ℕ → IterOrder n} {snapshots : List LobsterSnapshot}
  {content : List UInt8} {r : ITCHFileReader} {v : Validation n}

/-- **A snapshot waits for `upTo`** its timestamp. -/
theorem dispatched_eq_upTo {book₀ : OrderBook n} {out₀ : Option (List Mismatch)} (hs : Ascending snapshots)
    (hr : ITCHFileReader.load content = some r)
    (hv : validate b its snapshots book₀ content out₀ = some (.ok v)) {c : Check n} (hc : c ∈ v.checks) :
    c.dispatched.map Prod.fst = upTo c.snap.timestampNs r.messages := by
  have hfst := map_fst_inputs its 0 r.messages
  rcases validate_timed hs hr hv c hc with ⟨pre, x, post, hfeed, hdisp, hpre, hx⟩ | ⟨hdisp, hlt⟩
  · rw [← hfst, hfeed, hdisp, List.map_append, List.map_append]
    refine (upTo_append_cons (fun m hm => ?_) hx).symm
    obtain ⟨y, hy, rfl⟩ := List.mem_map.mp hm
    exact hpre y hy
  · rw [hdisp, hfst]
    refine (upTo_of_forall fun m hm => ?_).symm
    rw [← hfst] at hm
    obtain ⟨y, hy, rfl⟩ := List.mem_map.mp hm
    exact hlt y hy

/-- The reports of the snapshots, each with the book of the messages it waits for. -/
def expected (msgs : List ParsedMessage) (snapshots : List LobsterSnapshot) : List Mismatch :=
  snapshots.flatMap fun snap =>
    (NaiveBook.after ((upTo snap.timestampNs msgs).map (·.event))).report snap

/-- **The verdict.** On a file that the book can follow, and for snapshots in the order of their times,
validation from a fresh book returns the number of the expected mismatches and appends them to `*out`:
it depends on the messages and the snapshots alone. -/
theorem validate_report (hn : n < 2 ^ 32) (b : Build) (its : ℕ → IterOrder n)
    (hr : ITCHFileReader.load content = some r) {lo : Side → ℕ}
    (hok : FeedOk n lo (r.messages.map (·.event))) (hs : Ascending snapshots)
    (out : Option (List Mismatch)) :
    ∃ v, validate b its snapshots (.init n) content out = some (.ok v) ∧
      v.totalMismatches = (expected r.messages snapshots).length ∧
      v.out = out.map (· ++ expected r.messages snapshots) := by
  have hevents : events (inputs its 0 r.messages) = r.messages.map (·.event) := by
    rw [← map_fst_inputs its 0 r.messages, events, List.map_map, map_fst_inputs]
    rfl
  have hfeed : events (inputs its 0 r.messages) <+: r.messages.map (·.event) := hevents ▸ List.prefix_rfl
  obtain ⟨s, hreplay, -⟩ := hok.exists_replay hn b hfeed
  obtain ⟨v, hv⟩ : ∃ v, validate b its snapshots (.init n) content out = some (.ok v) :=
    exists_validate hr hreplay
  obtain ⟨hinv, hrest⟩ := validate_inv hv
  have hsnaps := hinv.snaps
  rw [hrest, List.append_nil] at hsnaps
  have hcheck : ∀ c ∈ v.checks, Check.mismatches c =
      (NaiveBook.after ((upTo c.snap.timestampNs r.messages).map (·.event))).report c.snap := by
    intro c hc
    have hdisp := dispatched_eq_upTo hs hr hv hc
    have hpre : events c.dispatched = (upTo c.snap.timestampNs r.messages).map (·.event) := by
      rw [← hdisp, List.map_map]
      rfl
    have hprefix : events c.dispatched <+: r.messages.map (·.event) := by
      rw [hpre]
      exact (upTo_isPrefix _ _).map _
    obtain ⟨_, hsim, hheld, hbook⟩ := (hok.of_isPrefix hprefix).sim (hinv.checks c hc)
    rw [Check.mismatches, hsim.mismatches_eq_report hheld, hbook, hpre]
  have hall : v.checks.flatMap Check.mismatches = expected r.messages snapshots := by
    rw [expected, ← hsnaps, List.flatMap_map]
    exact List.flatMap_congr hcheck
  have htally := hinv.tally
  rw [foldl_count_append tally_eq, Nat.zero_add, hall] at htally
  exact ⟨v, hv, congrArg Prod.fst htally, congrArg Prod.snd htally⟩

theorem validate_report_twoBids : ∃ v,
    validate .release (fun _ => .oldest 3) [firstBid 10, firstBid 30] (.init 3) twoBids (some []) =
      some (.ok v) ∧ v.totalMismatches = 1 := by
  have hok : FeedOk 3 (fun _ => 1) ((twoBidsReader 0).messages.map (·.event)) := by
    rw [messages_twoBids]
    refine ⟨⟨trivial, fun _ => ⟨rfl, .inl rfl, ⟨by decide, by decide⟩, by decide⟩,
      fun _ => ⟨rfl, .inl rfl, ⟨by decide, by decide⟩, by decide⟩, trivial⟩,
      ⟨fun _ _ _ h => (by cases h), fun _ _ _ h => ?_, fun _ _ _ h => ?_, trivial⟩⟩ <;>
      · cases h
        exact ⟨by decide, by decide⟩
  have hs : Ascending [firstBid 10, firstBid 30] := List.pairwise_pair.mpr (by decide)
  obtain ⟨v, hv, htotal, -⟩ :=
    validate_report (by decide) .release (fun _ => .oldest 3) load_twoBids hok hs (some [])
  refine ⟨v, hv, htotal.trans ?_⟩
  rw [messages_twoBids]
  rfl

end Validation

end L2Book
