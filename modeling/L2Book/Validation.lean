import Mathlib.Data.List.TakeWhile
import L2Book.Book.Validator
import L2Book.Transport.Reader

/-!
# The validation run

`LobsterValidator::validate` of `lobster_validator.cpp`: it replays a file through a book and compares the
book with the snapshots on the way.

* `Validation`: the variables of `validate`; `Check`: a call of `compare_snapshot`;
* `compareWhile`, `handle`, `replayLoop`, `validate`: its loops;
* `replayLoop_eq`: the loop handles the messages of the file; `replayMessages_rule`: what every message
  keeps holds at the end of the loop; `exists_validate`: termination;
* `Validation.Inv`: the book is that of the dispatched messages, and the snapshots are compared in order;
* `Validation.Timed`: the snapshots that are left lie after every dispatched message;
* **`aligned_iff`**: when each snapshot meets the book of its own time.
-/

namespace L2Book

/-- `msg_ts`: the timestamp of a message, `0` for `std::monostate`. -/
def msgTs : ParsedMessage → UInt64
  | .monostate => 0
  | .systemEvent m => readTs m.timestamp
  | .addOrder m => readTs m.timestamp
  | .addOrderMPID m => readTs m.timestamp
  | .executeOrder m => readTs m.timestamp
  | .executeOrderWithPrice m => readTs m.timestamp
  | .cancelOrder m => readTs m.timestamp
  | .deleteOrder m => readTs m.timestamp
  | .replaceOrder m => readTs m.timestamp
  | .trade m => readTs m.timestamp

/-- A call of `compare_snapshot`, with the messages that had been dispatched before it. -/
structure Check (n : ℕ) where
  snap : LobsterSnapshot
  dispatched : List (Input n)
  book : OrderBook n

/-- The variables of `validate`. `rest` are the snapshots from `snap_idx` on; `dispatched` and `checks`
record the messages handled by the book, each with the iteration order of `order_map_`, and the
comparisons. -/
structure Validation (n : ℕ) where
  book : OrderBook n
  rest : List LobsterSnapshot
  totalMismatches : ℕ
  out : Option (List Mismatch)
  dispatched : List (Input n)
  checks : List (Check n)

namespace Validation

variable {n : ℕ}

/-! ## The loops -/

def start (book : OrderBook n) (snapshots : List LobsterSnapshot) (out : Option (List Mismatch)) :
    Validation n where
  book := book
  rest := snapshots
  totalMismatches := 0
  out := out
  dispatched := []
  checks := []

/-- `total_mismatches += compare_snapshot(book, snap, out)`. -/
def compare (v : Validation n) (snap : LobsterSnapshot) : Validation n :=
  { v with
    totalMismatches := v.totalMismatches + (v.book.compareSnapshot snap v.out).1
    out := (v.book.compareSnapshot snap v.out).2
    checks := v.checks ++ [⟨snap, v.dispatched, v.book⟩] }

/-- The loop over the snapshots from `snap_idx` on, up to the first one that is not due. -/
def compareFrom (due : LobsterSnapshot → Bool) : List LobsterSnapshot → Validation n → Validation n
  | [], v => { v with rest := [] }
  | snap :: rest, v =>
    if due snap then compareFrom due rest (v.compare snap) else { v with rest := snap :: rest }

def compareWhile (due : LobsterSnapshot → Bool) (v : Validation n) : Validation n :=
  compareFrom due v.rest v

/-- The loop body: dispatch the message, then compare the snapshots whose time has come. -/
def handle (b : Build) (v : Validation n) (x : Input n) : Except Fault (Validation n) := do
  let book ← v.book.dispatch b x.2 x.1
  let v := { v with book := book, dispatched := v.dispatched ++ [x] }
  .ok (v.compareWhile fun snap => msgTs x.1 ≥ snap.timestampNs)

/-- The loop over the messages. `its` gives the iteration order of `order_map_` at each message. -/
def replayLoop (b : Build) (its : ℕ → IterOrder n) (r : ITCHFileReader) (v : Validation n) :
    Except Fault (Validation n) :=
  match h : r.nextMessage with
  | (none, _) => .ok v
  | (some f, r') =>
    if v.rest.isEmpty then .ok v
    else do
      have := ITCHFileReader.nextMessage_lt h
      let v ← v.handle b (r.message f, its v.dispatched.length)
      replayLoop b its r' v
termination_by r.buf.length - r.pos

/-- `validate(book, itch_file, out)` on a file with the given content; the constructor of the reader
aborts on an empty one. -/
def validate (b : Build) (its : ℕ → IterOrder n) (snapshots : List LobsterSnapshot)
    (book : OrderBook n) (content : List UInt8) (out : Option (List Mismatch)) :
    Option (Except Fault (Validation n)) :=
  if snapshots.isEmpty then some (.ok (start book snapshots out))
  else
    (ITCHFileReader.load content).map fun r => do
      let v ← replayLoop b its r (start book snapshots out)
      .ok (v.compareWhile fun _ => true)

/-! ## What a comparison does -/

section Compare

variable {due : LobsterSnapshot → Bool} {v : Validation n}

theorem compareFrom_rest (l : List LobsterSnapshot) (v : Validation n) :
    (compareFrom due l v).rest = l.dropWhile due := by
  induction l generalizing v with
  | nil => rfl
  | cons snap l ih =>
    rw [compareFrom, List.dropWhile_cons]
    split_ifs
    · exact ih _
    · rfl

theorem compareFrom_book (l : List LobsterSnapshot) (v : Validation n) :
    (compareFrom due l v).book = v.book := by
  induction l generalizing v with
  | nil => rfl
  | cons snap l ih =>
    rw [compareFrom]
    split_ifs
    · exact ih _
    · rfl

theorem compareFrom_dispatched (l : List LobsterSnapshot) (v : Validation n) :
    (compareFrom due l v).dispatched = v.dispatched := by
  induction l generalizing v with
  | nil => rfl
  | cons snap l ih =>
    rw [compareFrom]
    split_ifs
    · exact ih _
    · rfl

theorem compareFrom_checks (l : List LobsterSnapshot) (v : Validation n) :
    (compareFrom due l v).checks =
      v.checks ++ (l.takeWhile due).map fun snap => ⟨snap, v.dispatched, v.book⟩ := by
  induction l generalizing v with
  | nil => exact (List.append_nil _).symm
  | cons snap l ih =>
    rw [compareFrom, List.takeWhile_cons]
    split_ifs
    · rw [ih, List.map_cons]
      exact List.append_assoc v.checks [_] _
    · exact (List.append_nil _).symm

/-- The counter and `*out` after one more comparison. -/
def tally (acc : ℕ × Option (List Mismatch)) (c : Check n) : ℕ × Option (List Mismatch) :=
  (acc.1 + (c.book.compareSnapshot c.snap acc.2).1, (c.book.compareSnapshot c.snap acc.2).2)

theorem compareFrom_tally (l : List LobsterSnapshot) (v : Validation n) :
    ((compareFrom due l v).totalMismatches, (compareFrom due l v).out) =
      ((l.takeWhile due).map fun snap => (⟨snap, v.dispatched, v.book⟩ : Check n)).foldl tally
        (v.totalMismatches, v.out) := by
  induction l generalizing v with
  | nil => rfl
  | cons snap l ih =>
    rw [compareFrom, List.takeWhile_cons]
    split_ifs
    · exact ih _
    · rfl

end Compare

/-! ## The loop over the messages -/

/-- The messages with the iteration orders from the `k`-th on. -/
def inputs (its : ℕ → IterOrder n) : ℕ → List ParsedMessage → List (Input n)
  | _, [] => []
  | k, msg :: msgs => (msg, its k) :: inputs its (k + 1) msgs

theorem map_fst_inputs (its : ℕ → IterOrder n) (k : ℕ) (msgs : List ParsedMessage) :
    (inputs its k msgs).map Prod.fst = msgs := by
  induction msgs generalizing k with
  | nil => rfl
  | cons msg msgs ih => rw [inputs, List.map_cons, ih]

section Loop

variable {b : Build} {its : ℕ → IterOrder n} {r r' : ITCHFileReader} {v v' : Validation n}

/-- The loop over a list of messages. -/
def replayMessages (b : Build) (its : ℕ → IterOrder n) :
    List ParsedMessage → Validation n → Except Fault (Validation n)
  | [], v => .ok v
  | msg :: msgs, v =>
    if v.rest.isEmpty then .ok v
    else do
      let v ← v.handle b (msg, its v.dispatched.length)
      replayMessages b its msgs v

/-- **The loop handles the messages of the file** one by one. -/
theorem replayLoop_eq (r : ITCHFileReader) (v : Validation n) :
    replayLoop b its r v = replayMessages b its r.messages v := by
  induction hk : r.buf.length - r.pos using Nat.strong_induction_on generalizing r v with
  | _ k ih =>
  rw [replayLoop]
  split
  case h_1 r' hn => rw [ITCHFileReader.messages_of_none hn, replayMessages]
  case h_2 f r' hn =>
    rw [ITCHFileReader.messages_of_some hn, replayMessages]
    have hlt := ITCHFileReader.nextMessage_lt hn
    exact if_congr Iff.rfl rfl (congrArg _ (funext fun v' => ih _ (hk ▸ hlt) r' v' rfl))

theorem handle_dispatched {x : Input n} (h : v.handle b x = .ok v') :
    v'.dispatched = v.dispatched ++ [x] := by
  obtain ⟨book, -, hv⟩ := of_bind_eq_ok h
  cases hv
  exact compareFrom_dispatched _ _

/-- **What every message keeps holds at the end of the loop.** The loop ends with the messages or with the
snapshots. -/
theorem replayMessages_rule {P : Validation n → Prop} {feed : List (Input n)}
    (hstep : ∀ v v' x, P v → v.dispatched ++ [x] <+: feed → v.handle b x = .ok v' → P v')
    {msgs : List ParsedMessage} (hP : P v)
    (hfeed : v.dispatched ++ inputs its v.dispatched.length msgs = feed)
    (h : replayMessages b its msgs v = .ok v') :
    P v' ∧ v'.dispatched <+: feed ∧ (v'.rest = [] ∨ v'.dispatched = feed) := by
  induction msgs generalizing v with
  | nil =>
    cases h
    rw [inputs, List.append_nil] at hfeed
    exact ⟨hP, ⟨[], by rw [List.append_nil, hfeed]⟩, .inr hfeed⟩
  | cons msg msgs ih =>
    rw [replayMessages] at h
    split_ifs at h with hrest
    · cases h
      exact ⟨hP, ⟨_, hfeed⟩, .inl (List.isEmpty_iff.mp hrest)⟩
    · obtain ⟨v₁, hv₁, h⟩ := of_bind_eq_ok h
      have hsnoc := handle_dispatched hv₁
      have hsplit : v.dispatched ++ [(msg, its v.dispatched.length)] ++
          inputs its (v.dispatched.length + 1) msgs = feed :=
        (List.append_assoc _ _ _).trans hfeed
      refine ih (hstep _ _ _ hP ⟨_, hsplit⟩ hv₁) ?_ h
      rw [hsnoc, List.length_append]
      exact hsplit

theorem exists_replayMessages {msgs : List ParsedMessage} {s : OrderBook n}
    (hs : v.book.replay b (inputs its v.dispatched.length msgs) = .ok s) :
    ∃ v', replayMessages b its msgs v = .ok v' := by
  induction msgs generalizing v with
  | nil => exact ⟨v, rfl⟩
  | cons msg msgs ih =>
    rw [replayMessages]
    split_ifs
    · exact ⟨v, rfl⟩
    · rw [OrderBook.replay, inputs, run_cons] at hs
      obtain ⟨book, hbook, hs⟩ := of_bind_eq_ok hs
      have hhandle : v.handle b (msg, its v.dispatched.length) =
          .ok (compareWhile (fun snap => msgTs msg ≥ snap.timestampNs)
            { v with
              book := book
              dispatched := v.dispatched ++ [(msg, its v.dispatched.length)] }) := by
        rw [handle, hbook, ok_bind]
      rw [hhandle, ok_bind]
      refine ih ?_
      rw [Validation.compareWhile, compareFrom_book, compareFrom_dispatched, List.length_append]
      exact hs

end Loop

/-! ## Invariants -/

/-- **What holds between any two messages**: the book is that of the messages dispatched so far, every
comparison was made with the book of its messages, the snapshots are compared in order, and the counter
and `*out` are those of the comparisons. -/
structure Inv (b : Build) (book₀ : OrderBook n) (snapshots : List LobsterSnapshot)
    (out₀ : Option (List Mismatch)) (v : Validation n) : Prop where
  book : book₀.replay b v.dispatched = .ok v.book
  checks : ∀ c ∈ v.checks, book₀.replay b c.dispatched = .ok c.book
  snaps : v.checks.map (·.snap) ++ v.rest = snapshots
  tally : (v.totalMismatches, v.out) = v.checks.foldl tally (0, out₀)

/-- The comparison was made after the first message of `feed` that is not before the snapshot. -/
def FirstAt (feed : List (Input n)) (c : Check n) : Prop :=
  ∃ pre x post, feed = pre ++ x :: post ∧ c.dispatched = pre ++ [x] ∧
    (∀ y ∈ pre, msgTs y.1 < c.snap.timestampNs) ∧ c.snap.timestampNs ≤ msgTs x.1

/-- **The snapshots that are left** lie after every dispatched message, the others were compared in time. -/
structure Timed (v : Validation n) : Prop where
  sorted : v.rest.Pairwise fun snap snap' => snap.timestampNs.toNat ≤ snap'.timestampNs.toNat
  rest : ∀ snap ∈ v.rest, ∀ x ∈ v.dispatched, msgTs x.1 < snap.timestampNs
  checks : ∀ c ∈ v.checks, FirstAt v.dispatched c

theorem FirstAt.of_isPrefix {pre feed : List (Input n)} {c : Check n} (h : FirstAt pre c)
    (hp : pre <+: feed) : FirstAt feed c := by
  obtain ⟨l, x, post, rfl, hc, hlt, hle⟩ := h
  obtain ⟨post', rfl⟩ := hp
  exact ⟨l, x, post ++ post', by rw [List.append_assoc, List.cons_append], hc, hlt, hle⟩

section Inv

variable {b : Build} {book₀ : OrderBook n} {snapshots : List LobsterSnapshot}
  {out₀ : Option (List Mismatch)} {v v' : Validation n} {x : Input n}

theorem inv_start : Inv b book₀ snapshots out₀ (start book₀ snapshots out₀) := ⟨rfl, nofun, rfl, rfl⟩

theorem Inv.compareWhile (h : Inv b book₀ snapshots out₀ v) (due : LobsterSnapshot → Bool) :
    Inv b book₀ snapshots out₀ (v.compareWhile due) := by
  unfold Validation.compareWhile
  refine ⟨?_, fun c hc => ?_, ?_, ?_⟩
  · rw [compareFrom_dispatched, compareFrom_book]
    exact h.book
  · rw [compareFrom_checks] at hc
    rcases List.mem_append.mp hc with hc | hc
    · exact h.checks c hc
    · obtain ⟨snap, -, rfl⟩ := List.mem_map.mp hc
      exact h.book
  · rw [compareFrom_checks, compareFrom_rest, List.map_append, List.map_map, List.append_assoc]
    refine Eq.trans (congrArg (v.checks.map (·.snap) ++ ·) ?_) h.snaps
    exact (congrArg (· ++ v.rest.dropWhile due) (List.map_id _)).trans List.takeWhile_append_dropWhile
  · rw [compareFrom_tally, compareFrom_checks, List.foldl_append, h.tally]

theorem Inv.handle (h : Inv b book₀ snapshots out₀ v) (hv : v.handle b x = .ok v') :
    Inv b book₀ snapshots out₀ v' := by
  obtain ⟨book, hbook, hv⟩ := of_bind_eq_ok hv
  cases hv
  have hdispatched : Inv b book₀ snapshots out₀
      { v with book := book, dispatched := v.dispatched ++ [x] } :=
    ⟨run_snoc_of_ok h.book hbook, h.checks, h.snaps, h.tally⟩
  exact hdispatched.compareWhile _

theorem timed_start (hs : snapshots.Pairwise fun snap snap' =>
    snap.timestampNs.toNat ≤ snap'.timestampNs.toNat) : Timed (start book₀ snapshots out₀) :=
  ⟨hs, fun _ _ => nofun, nofun⟩

/-- A snapshot that stays lies after the message as well. -/
theorem Timed.handle (h : Timed v) (hv : v.handle b x = .ok v') : Timed v' := by
  obtain ⟨book, -, hv⟩ := of_bind_eq_ok hv
  cases hv
  have hdue : (fun snap : LobsterSnapshot => decide (msgTs x.1 ≥ snap.timestampNs)) =
      fun snap => decide (snap.timestampNs.toNat ≤ (msgTs x.1).toNat) := by
    funext snap
    simp only [ge_iff_le, UInt64.le_iff_toNat_le]
  unfold Validation.compareWhile
  refine ⟨?_, ?_, ?_⟩
  · rw [compareFrom_rest]
    exact h.sorted.sublist (List.dropWhile_sublist _)
  · rw [compareFrom_rest, compareFrom_dispatched]
    intro snap hsnap y hy
    rcases List.mem_append.mp hy with hy | hy
    · exact h.rest snap ((List.dropWhile_sublist _).mem hsnap) y hy
    · rw [List.mem_singleton.mp hy, UInt64.lt_iff_toNat_lt]
      rw [hdue] at hsnap
      exact lt_of_mem_dropWhile h.sorted hsnap
  · rw [compareFrom_checks, compareFrom_dispatched]
    intro c hc
    rcases List.mem_append.mp hc with hc | hc
    · exact (h.checks c hc).of_isPrefix ⟨[x], rfl⟩
    · obtain ⟨snap, hsnap, rfl⟩ := List.mem_map.mp hc
      refine ⟨v.dispatched, x, [], rfl, rfl, ?_, ?_⟩
      · exact h.rest snap ((List.takeWhile_sublist _).mem hsnap)
      · have hdue := List.mem_takeWhile_imp hsnap
        exact of_decide_eq_true hdue

end Inv

/-! ## Whole runs -/

section Runs

variable {b : Build} {its : ℕ → IterOrder n} {book₀ : OrderBook n} {snapshots : List LobsterSnapshot}
  {out₀ : Option (List Mismatch)} {content : List UInt8} {r : ITCHFileReader} {v : Validation n}

/-- Snapshots of non-decreasing timestamps. -/
def Ascending (snapshots : List LobsterSnapshot) : Prop :=
  (snapshots.map (·.timestampNs)).Pairwise (· ≤ ·)

theorem Ascending.pairwise_toNat (h : Ascending snapshots) : snapshots.Pairwise fun snap snap' =>
    snap.timestampNs.toNat ≤ snap'.timestampNs.toNat :=
  (List.pairwise_map.mp h).imp UInt64.le_iff_toNat_le.mp

/-- **Every snapshot is compared once, in order**, with the book of some of the first messages. -/
theorem validate_inv (hv : validate b its snapshots book₀ content out₀ = some (.ok v)) :
    Inv b book₀ snapshots out₀ v ∧ v.rest = [] := by
  rw [validate] at hv
  split_ifs at hv with he
  · cases hv
    exact ⟨inv_start, List.isEmpty_iff.mp he⟩
  · obtain ⟨r, -, hv⟩ := Option.map_eq_some_iff.mp hv
    obtain ⟨v₁, hv₁, hv⟩ := of_bind_eq_ok hv
    cases hv
    rw [replayLoop_eq] at hv₁
    obtain ⟨hinv, -, -⟩ := replayMessages_rule (P := Inv b book₀ snapshots out₀)
      (fun _ _ _ h _ hv => h.handle hv) inv_start rfl hv₁
    refine ⟨hinv.compareWhile _, ?_⟩
    rw [Validation.compareWhile, compareFrom_rest, List.dropWhile_eq_nil_iff]
    exact fun _ _ => rfl

/-- **When a snapshot is compared**: after the first message that is not before it, or at the end of the
file if there is none. -/
theorem validate_timed (hs : Ascending snapshots) (hr : ITCHFileReader.load content = some r)
    (hv : validate b its snapshots book₀ content out₀ = some (.ok v)) :
    ∀ c ∈ v.checks, FirstAt (inputs its 0 r.messages) c ∨
      (c.dispatched = inputs its 0 r.messages ∧
        ∀ x ∈ inputs its 0 r.messages, msgTs x.1 < c.snap.timestampNs) := by
  rw [validate] at hv
  split_ifs at hv with he
  · cases hv
    exact nofun
  · rw [hr] at hv
    obtain ⟨v₁, hv₁, hv⟩ := of_bind_eq_ok (Option.some.inj hv)
    cases hv
    rw [replayLoop_eq] at hv₁
    obtain ⟨htimed, hprefix, hend⟩ := replayMessages_rule (P := Timed)
      (fun _ _ _ h _ hv => h.handle hv) (timed_start hs.pairwise_toNat) rfl hv₁
    intro c hc
    rw [Validation.compareWhile, compareFrom_checks] at hc
    rcases List.mem_append.mp hc with hc | hc
    · exact .inl ((htimed.checks c hc).of_isPrefix hprefix)
    · obtain ⟨snap, hsnap, rfl⟩ := List.mem_map.mp hc
      have hsnap := (List.takeWhile_sublist _).mem hsnap
      have hall : v₁.dispatched = inputs its 0 r.messages :=
        hend.resolve_left (List.ne_nil_of_mem hsnap)
      refine .inr ⟨hall, ?_⟩
      rw [← hall]
      exact htimed.rest snap hsnap

/-- **Validation terminates** if the book handles all messages of the file. -/
theorem exists_validate (hr : ITCHFileReader.load content = some r) {s : OrderBook n}
    (hs : book₀.replay b (inputs its 0 r.messages) = .ok s) :
    ∃ v, validate b its snapshots book₀ content out₀ = some (.ok v) := by
  rw [validate]
  split_ifs
  · exact ⟨_, rfl⟩
  · obtain ⟨v₁, hv₁⟩ := exists_replayMessages (v := start book₀ snapshots out₀) hs
    rw [hr, Option.map_some, replayLoop_eq, hv₁, ok_bind]
    exact ⟨_, rfl⟩

end Runs

/-! ## Alignment -/

/-- **Each snapshot meets the book of its own time**: it is compared after exactly the messages with
timestamps up to its own. -/
structure Aligned (b : Build) (book₀ : OrderBook n) (feed : List (Input n))
    (snapshots : List LobsterSnapshot) (v : Validation n) : Prop where
  snaps : v.checks.map (·.snap) = snapshots
  dispatched : ∀ c ∈ v.checks,
    c.dispatched = feed.filter fun x => msgTs x.1 ≤ c.snap.timestampNs
  book : ∀ c ∈ v.checks,
    book₀.replay b (feed.filter fun x => msgTs x.1 ≤ c.snap.timestampNs) = .ok c.book

/-- All messages are before the snapshot, or exactly one has its timestamp. -/
def OnTime (msgs : List ParsedMessage) (snap : LobsterSnapshot) : Prop :=
  (∀ msg ∈ msgs, msgTs msg < snap.timestampNs) ∨
    msgs.countP (fun msg => msgTs msg = snap.timestampNs) = 1

/-- A comparison has seen the right messages exactly if its snapshot is on time. -/
theorem FirstAt.dispatched_iff {feed : List (Input n)} {c : Check n} (h : FirstAt feed c)
    (hs : (feed.map fun x => msgTs x.1).Pairwise (· ≤ ·)) :
    (c.dispatched = feed.filter fun x => msgTs x.1 ≤ c.snap.timestampNs) ↔
      OnTime (feed.map Prod.fst) c.snap := by
  obtain ⟨pre, x, post, rfl, hc, hpre, hx⟩ := h
  have hsorted : (pre ++ x :: post).Pairwise fun y z : Input n =>
      (msgTs y.1).toNat ≤ (msgTs z.1).toNat :=
    (List.pairwise_map.mp hs).imp UInt64.le_iff_toNat_le.mp
  have hcut := filter_eq_snoc_iff (t := c.snap.timestampNs.toNat) hsorted
    (fun y hy => UInt64.lt_iff_toNat_lt.mp (hpre y hy)) (UInt64.le_iff_toNat_le.mp hx)
  simp only [← UInt64.le_iff_toNat_le, UInt64.toNat_inj] at hcut
  have hlate : ¬ ∀ msg ∈ (pre ++ x :: post).map Prod.fst, msgTs msg < c.snap.timestampNs := by
    intro hall
    have hlt := hall x.1 (List.mem_map_of_mem (List.mem_append_right _ List.mem_cons_self))
    exact UInt64.not_le.mpr hlt hx
  rw [hc, eq_comm, hcut, OnTime, List.countP_map, or_iff_right hlate]
  rfl

/-- **When validation is aligned in time.** For a file whose messages and a list of snapshots whose
timestamps never decrease, each snapshot meets the book of exactly the messages up to its timestamp if
and only if exactly one message has that timestamp or all messages are before it. -/
theorem aligned_iff (b : Build) (its : ℕ → IterOrder n) {content : List UInt8} {r : ITCHFileReader}
    (hr : ITCHFileReader.load content = some r) (hmsgs : (r.messages.map msgTs).Pairwise (· ≤ ·))
    {snapshots : List LobsterSnapshot} (hsnaps : Ascending snapshots) (book₀ : OrderBook n)
    (out₀ : Option (List Mismatch)) {v : Validation n}
    (hv : validate b its snapshots book₀ content out₀ = some (.ok v)) :
    Aligned b book₀ (inputs its 0 r.messages) snapshots v ↔
      ∀ snap ∈ snapshots, OnTime r.messages snap := by
  obtain ⟨hinv, hrest⟩ := validate_inv hv
  have htimed := validate_timed hsnaps hr hv
  have hall : v.checks.map (·.snap) = snapshots := by
    rw [← hinv.snaps, hrest, List.append_nil]
  have hfst := map_fst_inputs its 0 r.messages
  have hsorted : ((inputs its 0 r.messages).map fun x => msgTs x.1).Pairwise (· ≤ ·) := by
    rw [← hfst, List.map_map] at hmsgs
    exact hmsgs
  have hcheck : ∀ c ∈ v.checks,
      (c.dispatched = (inputs its 0 r.messages).filter fun x => msgTs x.1 ≤ c.snap.timestampNs) ↔
        OnTime r.messages c.snap := by
    intro c hc
    rcases htimed c hc with hfirst | ⟨hend, hbefore⟩
    · rw [hfirst.dispatched_iff hsorted, hfst]
    · refine iff_of_true ?_ (.inl fun msg hmsg => ?_)
      · rw [hend, List.filter_eq_self.mpr fun x hx => decide_eq_true ?_]
        exact UInt64.le_of_lt (hbefore x hx)
      · rw [← hfst] at hmsg
        obtain ⟨x, hx, rfl⟩ := List.mem_map.mp hmsg
        exact hbefore x hx
  constructor
  · intro h snap hsnap
    rw [← hall] at hsnap
    obtain ⟨c, hc, rfl⟩ := List.mem_map.mp hsnap
    exact (hcheck c hc).mp (h.dispatched c hc)
  · intro h
    have hdisp : ∀ c ∈ v.checks,
        c.dispatched = (inputs its 0 r.messages).filter fun x => msgTs x.1 ≤ c.snap.timestampNs :=
      fun c hc => (hcheck c hc).mpr (h c.snap (hall ▸ List.mem_map_of_mem hc))
    exact ⟨hall, hdisp, fun c hc => hdisp c hc ▸ hinv.checks c hc⟩

/-- An add of a bid at price 100. -/
def bidBytes (ts ref shares : UInt8) : List UInt8 :=
  [0, 36, 'A'.toUInt8, 0, 0, 0, 0, 0, 0, 0, 0, 0, ts, 0, 0, 0, 0, 0, 0, 0, ref, 'B'.toUInt8,
    0, 0, 0, shares, 0, 0, 0, 0, 0, 0, 0, 0, 0, 0, 0, 100]

/-- A file that opens the session and adds two bids, at times 10 and 20. -/
def twoBids : List UInt8 :=
  [0, 12, 'S'.toUInt8, 0, 0, 0, 0, 0, 0, 0, 0, 0, 0, 'O'.toUInt8] ++ bidBytes 10 1 10 ++
    bidBytes 20 2 5

def twoBidsReader (pos : ℕ) : ITCHFileReader := ⟨twoBids, pos⟩

/-- A snapshot of the first bid alone. -/
def firstBid (ts : UInt64) : LobsterSnapshot where
  timestampNs := ts
  askPrice _ := 0
  askQty _ := 0
  bidPrice lvl := if (lvl : ℕ) = 0 then 100 else 0
  bidQty lvl := if (lvl : ℕ) = 0 then 10 else 0

def twoBidsMessages : List ParsedMessage :=
  [(twoBidsReader 0).message (2, 12), (twoBidsReader 0).message (16, 36),
    (twoBidsReader 0).message (54, 36)]

theorem messages_twoBids : (twoBidsReader 0).messages = twoBidsMessages := by
  have h₁ : (twoBidsReader 0).nextMessage = (some (2, 12), twoBidsReader 14) := rfl
  have h₂ : (twoBidsReader 14).nextMessage = (some (16, 36), twoBidsReader 52) := rfl
  have h₃ : (twoBidsReader 52).nextMessage = (some (54, 36), twoBidsReader 90) := rfl
  have h₄ : (twoBidsReader 90).nextMessage = (none, twoBidsReader 90) := rfl
  rw [ITCHFileReader.messages_of_some h₁, ITCHFileReader.messages_of_some h₂,
    ITCHFileReader.messages_of_some h₃, ITCHFileReader.messages_of_none h₄]
  rfl

theorem ascending_twoBids : ((twoBidsReader 0).messages.map msgTs).Pairwise (· ≤ ·) := by
  rw [messages_twoBids]
  decide

theorem ascending_firstBid (ts : UInt64) : Ascending [firstBid ts] := List.pairwise_singleton _ _

theorem load_twoBids : ITCHFileReader.load twoBids = some (twoBidsReader 0) :=
  ITCHFileReader.load_of_ne_nil (by decide)

/-- The snapshot of time 15 meets the book with the second bid, of time 20, and counts a mismatch; the
book of the messages up to time 15 has none. -/
theorem late_bid_compared : ((twoBidsReader 0).messages.map msgTs).Pairwise (· ≤ ·) ∧
    ITCHFileReader.load twoBids = some (twoBidsReader 0) ∧ Ascending [firstBid 15] ∧
    (∀ msg ∈ (twoBidsReader 0).messages, msg ≠ .monostate) ∧
    ∃ v s, validate .debug (fun _ => .newest 2) [firstBid 15] (.init 2) twoBids none = some (.ok v) ∧
      ¬ Aligned .debug (.init 2) (inputs (fun _ => .newest 2) 0 (twoBidsReader 0).messages)
        [firstBid 15] v ∧
      v.totalMismatches = 1 ∧
      (OrderBook.init 2).replay .debug ((inputs (fun _ => .newest 2) 0
        (twoBidsReader 0).messages).filter fun x => msgTs x.1 ≤ 15) = .ok s ∧
      (s.compareSnapshot (firstBid 15) none).1 = 0 := by
  obtain ⟨v, hv, htotal, c, hc, hlen⟩ : ∃ v, replayMessages .debug (fun _ => .newest 2)
      twoBidsMessages (start (.init 2) [firstBid 15] none) = .ok v ∧
      (v.compareWhile fun _ => true).totalMismatches = 1 ∧
      ∃ c, (v.compareWhile fun _ => true).checks = [c] ∧ c.dispatched.length = 3 :=
    ⟨_, rfl, rfl, _, rfl, rfl⟩
  obtain ⟨s, hs, hzero⟩ : ∃ s, (OrderBook.init 2).replay .debug
      ((inputs (fun _ => .newest 2) 0 twoBidsMessages).filter fun x => msgTs x.1 ≤ 15) = .ok s ∧
      (s.compareSnapshot (firstBid 15) none).1 = 0 := ⟨_, rfl, rfl⟩
  refine ⟨ascending_twoBids, load_twoBids, ascending_firstBid 15, ?_, v.compareWhile fun _ => true, s,
    ?_, fun h => ?_, htotal, ?_, hzero⟩
  · rw [messages_twoBids]
    decide
  · rw [validate, if_neg (by decide), load_twoBids, Option.map_some, replayLoop_eq, messages_twoBids,
      hv, ok_bind]
  · have hmem : c ∈ (v.compareWhile fun _ => true).checks := hc ▸ List.mem_singleton_self c
    have hsnap : [c.snap] = [firstBid 15] := by
      rw [← h.snaps, hc, List.map_singleton]
    have hdisp := congrArg List.length (h.dispatched c hmem)
    rw [hlen, List.singleton_inj.mp hsnap, messages_twoBids] at hdisp
    exact absurd hdisp (by decide)
  · rw [messages_twoBids]
    exact hs

theorem aligned_iff_twoBids : ∃ v,
    validate .debug (fun _ => .newest 2) [firstBid 10] (.init 2) twoBids none = some (.ok v) ∧
      Aligned .debug (.init 2) (inputs (fun _ => .newest 2) 0 (twoBidsReader 0).messages)
        [firstBid 10] v := by
  obtain ⟨s, hs⟩ : ∃ s, (OrderBook.init 2).replay .debug
      (inputs (fun _ => .newest 2) 0 twoBidsMessages) = .ok s := ⟨_, rfl⟩
  rw [← messages_twoBids] at hs
  obtain ⟨v, hv⟩ : ∃ v, validate .debug (fun _ => .newest 2) [firstBid 10] (.init 2) twoBids none =
      some (.ok v) := exists_validate load_twoBids hs
  refine ⟨v, hv, (aligned_iff .debug _ load_twoBids ascending_twoBids (ascending_firstBid 10) _ _
    hv).mpr fun snap hsnap => .inr ?_⟩
  rw [List.mem_singleton.mp hsnap, messages_twoBids]
  decide

end Validation

end L2Book
