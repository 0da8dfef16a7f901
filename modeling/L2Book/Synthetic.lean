import L2Book.Csv
import L2Book.Replay
import L2Book.Verdict

/-!
# The synthetic validation test

`test_lobster_validate.cpp` writes a feed to a binary file and a snapshot to two CSV files, loads the one,
replays the other and expects no mismatch. Here the feed and the snapshots are arbitrary.

* `sentUpTo`: the messages of the feed that a snapshot waits for; `map_event_upTo`;
* `NaiveBook.Shows`: a snapshot with the quantities of its prices;
* **`validate_written`**: the whole way through the files, validation finds nothing if and only if every
  snapshot shows the book of the messages it waits for.
-/

namespace L2Book

/-! ## Times -/

/-- The timestamp of a message. -/
def WireMessage.ns (m : WireMessage) : UInt64 := m.header.timestamp.ns

theorem ParsedMessage.msgTs_of_wire {msg : ParsedMessage} {m : WireMessage} (h : msg.wire = some m) :
    msgTs msg = m.ns := by
  cases msg <;> cases h <;> rfl

/-- The messages of a feed that a snapshot of time `ts` waits for. -/
def sentUpTo (ts : UInt64) (ms : List WireMessage) : List WireMessage :=
  ms.takeWhile (fun m => m.ns < ts) ++ (ms.dropWhile fun m => m.ns < ts).take 1

theorem map_event_upTo (ts : UInt64) {msgs : List ParsedMessage} {ms : List WireMessage}
    (h : msgs.map ParsedMessage.wire = ms.map some) :
    (upTo ts msgs).map ParsedMessage.event = (sentUpTo ts ms).map WireMessage.event := by
  induction ms generalizing msgs with
  | nil =>
    rw [List.map_nil, List.map_eq_nil_iff] at h
    subst h
    rfl
  | cons m ms ih =>
    cases msgs with
    | nil => cases h
    | cons msg msgs =>
      rw [List.map_cons, List.map_cons, List.cons.injEq] at h
      have hevent := ParsedMessage.event_of_wire h.1
      have hrest := ih h.2
      simp only [upTo, sentUpTo] at hrest
      simp only [upTo, sentUpTo, List.takeWhile_cons, List.dropWhile_cons, ParsedMessage.msgTs_of_wire h.1]
      by_cases hlt : m.ns < ts
      · simp [hlt, hevent, hrest]
      · simp [hlt, hevent]

/-! ## Snapshots of a book -/

namespace NaiveBook

/-- **The snapshot shows the book**: each entry has the quantity of its price, in 32 bits. -/
def Shows (a : NaiveBook) (snap : LobsterSnapshot) : Prop :=
  ∀ lvl d, snap.qty d lvl = UInt32.ofNat (a.qtyAt d (snap.price d lvl))

theorem reportAt_eq_nil_iff {a : NaiveBook} {snap : LobsterSnapshot} {lvl : Fin kDepth} {d : Side} :
    a.reportAt snap lvl d = [] ↔ snap.qty d lvl = UInt32.ofNat (a.qtyAt d (snap.price d lvl)) := by
  simp only [reportAt, ne_eq, ite_not]
  split_ifs with h
  · simp [h]
  · simp [Ne.symm h]

theorem report_eq_nil_iff_shows {a : NaiveBook} {snap : LobsterSnapshot} :
    a.report snap = [] ↔ a.Shows snap := by
  simp only [report, Shows, List.flatMap_eq_nil_iff, List.append_eq_nil_iff, reportAt_eq_nil_iff]
  constructor
  · intro h lvl d
    obtain ⟨hbid, hask⟩ := h lvl (List.mem_finRange lvl)
    cases d with
    | bid => exact hbid
    | ask => exact hask
  · intro h lvl _
    exact ⟨h lvl .bid, h lvl .ask⟩

end NaiveBook

/-! ## The files -/

/-- **The test, for every feed and all snapshots.** Let the messages of a feed that the book can follow be
framed in a file, and let the snapshots, in the order of their times, be written to the two CSV files.
Loading the snapshots and validating the file with them finds no mismatch if and only if each snapshot shows
the naive book of the messages up to and including the first one that is not before it; then nothing is
appended to `*out`. -/
theorem validate_written {n : ℕ} (hn : n < 2 ^ 32) (b : Build) (its : ℕ → IterOrder n) (f : Sscanf)
    (hf : f.ReadsDecimals) (fused : Bool) (lo : Side → ℕ) (ms : List WireMessage) (rest : List UInt8)
    (hrest : Malformed rest) (hne : encodeFile ms rest ≠ []) (hok : FeedOk n lo (ms.map WireMessage.event))
    (snaps : List LobsterSnapshot) (hsnaps : snaps ≠ []) (hs : Validation.Ascending snaps)
    (hts : ∀ snap ∈ snaps, snap.timestampNs.toNat < 2 ^ 48) (out : Option (List Mismatch)) :
    ∃ val v, (⟨[], []⟩ : LobsterValidator).load (f.scanner fused) (some (orderbookFile snaps))
        (some (messageFile snaps)) = (true, val) ∧
      Validation.validate b its val.snapshots (.init n) (encodeFile ms rest) out = some (.ok v) ∧
      (v.totalMismatches = 0 ↔ ∀ snap ∈ snaps,
        (NaiveBook.after ((sentUpTo snap.timestampNs ms).map WireMessage.event)).Shows snap) ∧
      (v.totalMismatches = 0 → v.out = out) := by
  have hload := load_written f hf fused snaps hts
  rw [List.isEmpty_eq_false_iff.mpr hsnaps] at hload
  have hwire := ITCHFileReader.wire_messages ms hrest
  have hmsgs : FeedOk n lo ((ITCHFileReader.messages ⟨encodeFile ms rest, 0⟩).map (·.event)) := by
    rw [ITCHFileReader.events_messages ms hrest]
    exact hok
  obtain ⟨v, hv, htotal, hout⟩ := Validation.validate_report hn b its
    (ITCHFileReader.load_of_ne_nil hne) hmsgs hs out
  refine ⟨_, v, hload, hv, ?_, fun hzero => ?_⟩
  · rw [htotal, List.length_eq_zero_iff, Validation.expected, List.flatMap_eq_nil_iff]
    simp only [NaiveBook.report_eq_nil_iff_shows, map_event_upTo _ hwire]
  · rw [htotal, List.length_eq_zero_iff] at hzero
    rw [hout, hzero]
    cases out <;> simp

/-- A header with a timestamp alone. -/
def headerAt (ns : UInt64) (h : ns.toNat < 256 ^ 6) : Header := ⟨0, 0, ⟨ns, h⟩⟩

/-- The feed of the test: the open, a bid and an ask. -/
def syntheticFeed : List WireMessage :=
  [.systemEvent (headerAt 1000000 (by decide)) (byteOf 'O'),
    .addOrder (headerAt 99999990 (by decide)) 1 (byteOf 'B') 500 (.replicate 8 0) 1500000,
    .addOrder (headerAt 100000000 (by decide)) 2 (byteOf 'S') 300 (.replicate 8 0) 1500100]

theorem validate_written_perfectMatch :
    ∃ val v, (⟨[], []⟩ : LobsterValidator).load (decimals.scanner true) (some (orderbookFile [perfectMatch]))
        (some (messageFile [perfectMatch])) = (true, val) ∧
      Validation.validate .release (fun _ => .newest 2) val.snapshots (.init 2) (encodeFile syntheticFeed [])
        (some []) = some (.ok v) ∧ v.totalMismatches = 0 := by
  have hok : FeedOk 2 (fun _ => 1500000) (syntheticFeed.map WireMessage.event) := by
    refine ⟨⟨trivial, fun _ => ⟨rfl, .inl rfl, ⟨by decide, by decide⟩, by decide⟩,
      fun _ => ⟨rfl, .inr rfl, ⟨by decide, by decide⟩, by decide⟩, trivial⟩,
      ⟨fun _ _ _ h => (by cases h), fun _ _ _ h => ?_, fun _ _ _ h => ?_, trivial⟩⟩ <;>
      · cases h
        exact ⟨by decide, by decide⟩
  obtain ⟨val, v, hload, hv, hiff, -⟩ := validate_written (by decide) .release (fun _ => .newest 2) decimals
    readsDecimals_decimals true (fun _ => 1500000) syntheticFeed [] (.inl (by decide)) (by decide) hok
    [perfectMatch] (by decide) (List.pairwise_singleton _ _) (by decide) (some [])
  refine ⟨val, v, hload, hv, hiff.mpr fun snap hsnap lvl d => ?_⟩
  obtain rfl := List.mem_singleton.mp hsnap
  revert lvl
  cases d <;> decide

end L2Book
