import L2Book.Validation

/-!
# The checkpoints of a validation

`validate` calls `compare_snapshot` for every snapshot of the list.

* `OrderBook.mismatches`: the mismatches that `compare_snapshot` reports; `compareSnapshot_eq`: it counts
  them and appends them to `*out`;
* `Validation.Ordered`: every comparison has seen at least the messages of the one before;
* **`Validation.validate_checkpoints`**: validation appends the mismatches of every snapshot once, in order.
-/

namespace L2Book

/-! ## One snapshot -/

/-- A loop that counts what it appends to an optional list. -/
theorem foldl_count_append {α β : Type} {f : α → List β} {step : ℕ × Option (List β) → α →
    ℕ × Option (List β)} (hstep : ∀ acc x, step acc x = (acc.1 + (f x).length, acc.2.map (· ++ f x)))
    (xs : List α) (acc : ℕ × Option (List β)) :
    xs.foldl step acc = (acc.1 + (xs.flatMap f).length, acc.2.map (· ++ xs.flatMap f)) := by
  induction xs generalizing acc with
  | nil => simp
  | cons x xs ih =>
    rw [List.foldl_cons, ih, hstep, List.flatMap_cons, List.length_append, Option.map_map, Nat.add_assoc]
    simp only [Function.comp_def, List.append_assoc]

namespace OrderBook

variable {n : ℕ}

/-- The mismatches that `compare_snapshot(book, snap, out)` puts into an empty `*out`. -/
def mismatches (s : OrderBook n) (snap : LobsterSnapshot) : List Mismatch :=
  (s.compareSnapshot snap (some [])).2.getD []

/-- What one side of the loop body appends. -/
def mismatchAt (s : OrderBook n) (snap : LobsterSnapshot) (lvl : Fin kDepth) (d : Side) :
    List Mismatch :=
  if s.ourQty d (snap.price d lvl) ≠ snap.qty d lvl then
    [⟨snap.timestampNs, d.byte, lvl, snap.price d lvl, s.ourQty d (snap.price d lvl),
      snap.price d lvl, snap.qty d lvl⟩]
  else []

theorem compareSide_eq (s : OrderBook n) (snap : LobsterSnapshot) (lvl : Fin kDepth) (d : Side)
    (acc : ℕ × Option (List Mismatch)) : s.compareSide snap lvl d acc =
      (acc.1 + (s.mismatchAt snap lvl d).length, acc.2.map (· ++ s.mismatchAt snap lvl d)) := by
  unfold compareSide mismatchAt
  by_cases h : s.ourQty d (snap.price d lvl) = snap.qty d lvl
  · simp [h]
  · simp [h]

theorem compareSnapshot_eq_flatMap (s : OrderBook n) (snap : LobsterSnapshot)
    (out : Option (List Mismatch)) : s.compareSnapshot snap out =
      (((List.finRange kDepth).flatMap fun lvl =>
          s.mismatchAt snap lvl .bid ++ s.mismatchAt snap lvl .ask).length,
        out.map (· ++ (List.finRange kDepth).flatMap fun lvl =>
          s.mismatchAt snap lvl .bid ++ s.mismatchAt snap lvl .ask)) := by
  rw [compareSnapshot, foldl_count_append (fun acc lvl => ?_), Nat.zero_add]
  rw [compareSide_eq, compareSide_eq, Option.map_map, List.length_append, Nat.add_assoc]
  simp only [Function.comp_def, List.append_assoc]

theorem mismatches_eq_flatMap (s : OrderBook n) (snap : LobsterSnapshot) : s.mismatches snap =
    (List.finRange kDepth).flatMap fun lvl =>
      s.mismatchAt snap lvl .bid ++ s.mismatchAt snap lvl .ask := by
  rw [mismatches, compareSnapshot_eq_flatMap, Option.map_some, Option.getD_some, List.nil_append]

theorem compareSnapshot_eq (s : OrderBook n) (snap : LobsterSnapshot) (out : Option (List Mismatch)) :
    s.compareSnapshot snap out =
      ((s.mismatches snap).length, out.map (· ++ s.mismatches snap)) := by
  rw [compareSnapshot_eq_flatMap, mismatches_eq_flatMap]

end OrderBook

/-! ## The whole list -/

namespace Validation

variable {n : ℕ} {b : Build} {feed : List (Input n)} {v v' : Validation n} {x : Input n}

/-- The mismatches of a comparison. -/
def Check.mismatches (c : Check n) : List Mismatch := c.book.mismatches c.snap

theorem tally_eq (acc : ℕ × Option (List Mismatch)) (c : Check n) :
    tally acc c = (acc.1 + (Check.mismatches c).length, acc.2.map (· ++ Check.mismatches c)) := by
  rw [tally, OrderBook.compareSnapshot_eq]
  rfl

/-- **The comparisons follow the messages**: each has seen at least the messages of the one before it. -/
structure Ordered (v : Validation n) : Prop where
  seen : ∀ c ∈ v.checks, c.dispatched <+: v.dispatched
  chain : v.checks.Pairwise fun c c' => c.dispatched <+: c'.dispatched

theorem ordered_start {book₀ : OrderBook n} {snapshots : List LobsterSnapshot}
    {out₀ : Option (List Mismatch)} : Ordered (start book₀ snapshots out₀) :=
  ⟨fun _ => nofun, List.Pairwise.nil⟩

theorem Ordered.compareWhile (h : Ordered v) (due : LobsterSnapshot → Bool) :
    Ordered (v.compareWhile due) := by
  unfold Validation.compareWhile
  refine ⟨?_, ?_⟩
  · rw [compareFrom_checks, compareFrom_dispatched]
    intro c hc
    rcases List.mem_append.mp hc with hc | hc
    · exact h.seen c hc
    · obtain ⟨snap, -, rfl⟩ := List.mem_map.mp hc
      exact List.prefix_rfl
  · rw [compareFrom_checks]
    refine List.pairwise_append.mpr ⟨h.chain, ?_, fun c hc c' hc' => ?_⟩
    · exact List.pairwise_map.mpr (List.pairwise_of_forall fun _ _ => List.prefix_rfl)
    · obtain ⟨snap, -, rfl⟩ := List.mem_map.mp hc'
      exact h.seen c hc

theorem Ordered.handle (h : Ordered v) (hv : v.handle b x = .ok v') : Ordered v' := by
  obtain ⟨book, hbook, hv⟩ := of_bind_eq_ok hv
  cases hv
  have hdispatched : Ordered { v with book := book, dispatched := v.dispatched ++ [x] } :=
    ⟨fun c hc => (h.seen c hc).trans ⟨[x], rfl⟩, h.chain⟩
  exact hdispatched.compareWhile _

theorem validate_ordered {its : ℕ → IterOrder n} {book₀ : OrderBook n}
    {snapshots : List LobsterSnapshot} {out₀ : Option (List Mismatch)} {content : List UInt8}
    {r : ITCHFileReader} (hr : ITCHFileReader.load content = some r)
    (hv : validate b its snapshots book₀ content out₀ = some (.ok v)) :
    Ordered v ∧ v.dispatched <+: inputs its 0 r.messages := by
  rw [validate] at hv
  split_ifs at hv with he
  · cases hv
    exact ⟨ordered_start, List.nil_prefix⟩
  · rw [hr] at hv
    obtain ⟨v₁, hv₁, hv⟩ := of_bind_eq_ok (Option.some.inj hv)
    cases hv
    rw [replayLoop_eq] at hv₁
    obtain ⟨hordered, hprefix, -⟩ := replayMessages_rule (P := Ordered)
      (fun _ _ _ h _ hv => h.handle hv) ordered_start rfl hv₁
    refine ⟨hordered.compareWhile _, ?_⟩
    rw [Validation.compareWhile, compareFrom_dispatched]
    exact hprefix

theorem length_inputs (its : ℕ → IterOrder n) (r : ITCHFileReader) :
    (inputs its 0 r.messages).length = r.frames.length := by
  rw [← List.length_map (f := Prod.fst), map_fst_inputs, ITCHFileReader.messages, List.length_map]

/-- **Every snapshot is checked once.** On a non-empty file whose messages form a well-formed feed with the
prices of each side in one window, validation from a fresh book terminates. It appends, snapshot by
snapshot, the mismatches with the book after some of the first messages, never fewer of them than for the
snapshot before, and returns the number of the entries appended. -/
theorem validate_checkpoints (hb : b = .debug → n < 2 ^ 32) (its : ℕ → IterOrder n)
    {content : List UInt8} {r : ITCHFileReader} (hr : ITCHFileReader.load content = some r)
    (hw : WellFormed (inputs its 0 r.messages)) (lo : Side → ℕ)
    (hwin : Windowed lo (inputs its 0 r.messages)) (snapshots : List LobsterSnapshot)
    (out : List Mismatch) :
    ∃ v, validate b its snapshots (.init n) content (some out) = some (.ok v) ∧
      ∃ (j : Fin snapshots.length → ℕ) (books : Fin snapshots.length → OrderBook n),
        Monotone j ∧ (∀ k, j k ≤ r.frames.length) ∧
        (∀ k, (OrderBook.init n).replay b ((inputs its 0 r.messages).take (j k)) = .ok (books k)) ∧
        v.out = some (out ++ (List.ofFn fun k => (books k).mismatches (snapshots.get k)).flatten) ∧
        v.totalMismatches = (List.ofFn fun k => (books k).mismatches (snapshots.get k)).flatten.length := by
  obtain ⟨s, hs, -, -⟩ := OrderBook.exists_replay_of_windowed hb hw hwin
  obtain ⟨v, hv⟩ : ∃ v, validate b its snapshots (.init n) content (some out) = some (.ok v) :=
    exists_validate hr hs
  obtain ⟨hinv, hrest⟩ := validate_inv hv
  obtain ⟨hordered, hprefix⟩ := validate_ordered hr hv
  refine ⟨v, hv, ?_⟩
  have hsnaps := hinv.snaps
  rw [hrest, List.append_nil] at hsnaps
  subst hsnaps
  -- The comparison of the `k`-th snapshot.
  have hlen : (v.checks.map (·.snap)).length = v.checks.length := List.length_map _
  have hseen : ∀ c ∈ v.checks, c.dispatched <+: inputs its 0 r.messages := fun c hc =>
    (hordered.seen c hc).trans hprefix
  have hall : (List.ofFn fun k : Fin (v.checks.map (·.snap)).length =>
      (v.checks.get (k.cast hlen)).book.mismatches ((v.checks.map (·.snap)).get k)) =
        v.checks.map Check.mismatches := by
    refine List.ext_getElem (by simp) fun i hi hi' => ?_
    simp [Check.mismatches]
  have htally := hinv.tally
  rw [foldl_count_append tally_eq, Nat.zero_add, Option.map_some] at htally
  refine ⟨fun k => (v.checks.get (k.cast hlen)).dispatched.length,
    fun k => (v.checks.get (k.cast hlen)).book, fun k k' hk => ?_, fun k => ?_, fun k => ?_, ?_, ?_⟩
  · rcases hk.eq_or_lt with rfl | hlt
    · exact le_rfl
    · exact (List.pairwise_iff_get.mp hordered.chain _ _ hlt).length_le
  · rw [← length_inputs its r]
    exact (hseen _ (List.get_mem _ _)).length_le
  · rw [← List.prefix_iff_eq_take.mp (hseen _ (List.get_mem _ _))]
    exact hinv.checks _ (List.get_mem _ _)
  · rw [hall, ← List.flatMap_def]
    exact congrArg Prod.snd htally
  · rw [hall, ← List.flatMap_def]
    exact congrArg Prod.fst htally

theorem validate_checkpoints_twoBids : ∃ v,
    validate .debug (fun _ => .newest 2) [firstBid 15, firstBid 10] (.init 2) twoBids (some []) =
      some (.ok v) ∧ ∃ books : Fin 2 → OrderBook 2,
        v.totalMismatches = (List.ofFn fun k =>
          (books k).mismatches ([firstBid 15, firstBid 10].get k)).flatten.length := by
  have hw : WellFormed (inputs (fun _ => .newest 2) 0 (twoBidsReader 0).messages) := by
    rw [messages_twoBids]
    refine ⟨trivial, fun _ => ⟨rfl, .inl rfl, ⟨?_, ?_⟩, ?_⟩, fun _ => ⟨rfl, .inl rfl, ⟨?_, ?_⟩, ?_⟩,
      trivial⟩ <;> decide
  have hwin : Windowed (fun _ => 1) (inputs (fun _ => .newest 2) 0 (twoBidsReader 0).messages) := by
    rw [messages_twoBids]
    refine ⟨nofun, fun ref d price h => ?_, fun ref d price h => ?_, trivial⟩ <;>
      · cases h
        exact ⟨by decide, by decide⟩
  obtain ⟨v, hv, _, books, -, -, -, -, htotal⟩ := validate_checkpoints (b := .debug) (by decide)
    (fun _ => .newest 2) load_twoBids hw (fun _ => 1) hwin [firstBid 15, firstBid 10] []
  exact ⟨v, hv, books, htotal⟩

end Validation

end L2Book
