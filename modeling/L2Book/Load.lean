import Mathlib.Tactic.IntervalCases
import L2Book.Book.Validator
import L2Book.Lib.Lines

/-!
# Loading the snapshots

`LobsterValidator::load` of `lobster_validator.cpp`: it reads the timestamps of one CSV file and the
snapshots of another, row by row.

* `Scanner`: `sscanf` and the conversions of a `double`;
* `Scanner.snapshot`: one row of the orderbook file; `rowLoop`: all rows;
* `LobsterValidator.load`: the two loops; `appended`: the snapshots it pushes, each with its row;
* `Paired`: each snapshot has the timestamp of its own row; `InStep`: as many timestamps were there before as
  message lines above the row were skipped;
* **`paired_iff`**: when the timestamps are the right ones.
-/

namespace L2Book

/-! ## The text of a row -/

/-- `sscanf` with the two formats, where it converts all fields, and the casts of a `double`. -/
structure Scanner (Double : Type) where
  /-- `"%lf,"` -/
  scanTime : List UInt8 → Option Double
  /-- `"%lf,%lf,%lf,%lf%n"`: `ask_px`, `ask_sz`, `bid_px`, `bid_sz` and `n` -/
  scanLevel : List UInt8 → Option (Double × Double × Double × Double × ℕ)
  /-- `static_cast<uint64_t>(time_s * 1e9 + 0.5)` -/
  nanos : Double → UInt64
  /-- `static_cast<uint32_t>(px * 10000.0 + 0.5)` -/
  price : Double → UInt32
  /-- `static_cast<uint32_t>(sz + 0.5)` -/
  qty : Double → UInt32

def newline : UInt8 := 10

def comma : UInt8 := 44

namespace Scanner

variable {Double : Type}

/-- The timestamp of a message line. -/
def stamp (c : Scanner Double) (line : List UInt8) : Option UInt64 := (c.scanTime line).map c.nanos

/-- `if (*p == ',') ++p`. -/
def skipComma (p : List UInt8) : List UInt8 := if p.head? = some comma then p.tail else p

/-- The loop over the levels; `p` is the rest of the line. -/
def levelLoop (c : Scanner Double) : List (Fin kDepth) → List UInt8 → LobsterSnapshot →
    Option LobsterSnapshot
  | [], _, snap => some snap
  | lvl :: lvls, p, snap =>
    match c.scanLevel p with
    | none => none
    | some (askPx, askSz, bidPx, bidSz, n) =>
      c.levelLoop lvls (skipComma (p.drop n))
        { snap with
          askPrice := Function.update snap.askPrice lvl (c.price askPx)
          askQty := Function.update snap.askQty lvl (c.qty askSz)
          bidPrice := Function.update snap.bidPrice lvl (c.price bidPx)
          bidQty := Function.update snap.bidQty lvl (c.qty bidSz) }

/-- The snapshot of a row, if all its levels scan. -/
def snapshot (c : Scanner Double) (timestampNs : UInt64) (line : List UInt8) : Option LobsterSnapshot :=
  c.levelLoop (List.finRange kDepth) line ⟨timestampNs, fun _ => 0, fun _ => 0, fun _ => 0, fun _ => 0⟩

/-- The loop over the rows from `row` on: the snapshots it pushes, each with its row. -/
def rowLoop (c : Scanner Double) (snapTs : List UInt64) : ℕ → List (List UInt8) →
    List (ℕ × LobsterSnapshot)
  | _, [] => []
  | row, line :: lines =>
    match snapTs[row]? with
    | none => []
    | some timestampNs =>
      match c.snapshot timestampNs line with
      | some snap => (row, snap) :: c.rowLoop snapTs (row + 1) lines
      | none => c.rowLoop snapTs (row + 1) lines

end Scanner

/-! ## The validator -/

/-- `snapshots_` and `snap_ts_`. -/
structure LobsterValidator where
  snapshots : List LobsterSnapshot
  snapTs : List UInt64

namespace LobsterValidator

variable {Double : Type}

/-- `load_messages(path)`, on the contents of the file; `none` if it cannot be opened. -/
def loadMessages (c : Scanner Double) (v : LobsterValidator) (file : Option (List UInt8)) :
    Bool × LobsterValidator :=
  match file with
  | none => (false, v)
  | some text =>
    let snapTs := (readLines newline (512 - 2) text).foldl (fun ts line =>
      match c.scanTime line with
      | some timeS => ts ++ [c.nanos timeS]
      | none => ts) v.snapTs
    (!snapTs.isEmpty, { v with snapTs := snapTs })

/-- `load_orderbook(path)`. -/
def loadOrderbook (c : Scanner Double) (v : LobsterValidator) (file : Option (List UInt8)) :
    Bool × LobsterValidator :=
  match file with
  | none => (false, v)
  | some text =>
    let snapshots := v.snapshots ++ (c.rowLoop v.snapTs 0 (readLines newline (4096 - 2) text)).map Prod.snd
    (!snapshots.isEmpty, { v with snapshots := snapshots })

/-- `load(orderbook_csv, message_csv)`. -/
def load (c : Scanner Double) (v : LobsterValidator) (orderbookCsv messageCsv : Option (List UInt8)) :
    Bool × LobsterValidator :=
  match v.loadMessages c messageCsv with
  | (true, v) => v.loadOrderbook c orderbookCsv
  | (false, v) => (false, v)

/-- The lines of a file. -/
def rows (file : Option (List UInt8)) : List (List UInt8) := (file.map (lines newline)).getD []

/-- The lines fit into a buffer of this size. -/
def Fits (size : ℕ) (file : Option (List UInt8)) : Prop := ∀ line ∈ rows file, line.length < size

instance (size : ℕ) (file : Option (List UInt8)) : Decidable (Fits size file) :=
  inferInstanceAs (Decidable (∀ line ∈ rows file, line.length < size))

/-- The snapshots that `load` appends, each with its row of the orderbook file. -/
def appended (c : Scanner Double) (v : LobsterValidator) (orderbookCsv messageCsv : Option (List UInt8)) :
    List (ℕ × LobsterSnapshot) :=
  match v.loadMessages c messageCsv, orderbookCsv with
  | (true, v), some text => c.rowLoop v.snapTs 0 (readLines newline (4096 - 2) text)
  | _, _ => []

/-- **Each snapshot has the timestamp of its own row** of the message file, if `load` succeeds. -/
def Paired (c : Scanner Double) (v : LobsterValidator) (orderbookCsv messageCsv : Option (List UInt8)) :
    Prop :=
  (v.load c orderbookCsv messageCsv).1 = true → ∀ x ∈ v.appended c orderbookCsv messageCsv,
    (rows messageCsv)[x.1]?.bind c.stamp = some x.2.timestampNs

/-- The timestamps stored before, and those of the message lines that scan. -/
def stamps (c : Scanner Double) (v : LobsterValidator) (messageCsv : Option (List UInt8)) : List UInt64 :=
  v.snapTs ++ (rows messageCsv).filterMap c.stamp

/-- Row `r` of the orderbook file scans, and there are timestamps for that many rows. -/
def Usable (c : Scanner Double) (v : LobsterValidator) (orderbookCsv messageCsv : Option (List UInt8))
    (r : ℕ) : Prop :=
  messageCsv ≠ none ∧ r < (v.stamps c messageCsv).length ∧
    ∃ line, (rows orderbookCsv)[r]? = some line ∧ (c.snapshot 0 line).isSome

/-- Line `r` of the message file scans, and as many timestamps were stored before as lines above it do
not. -/
def InStep (c : Scanner Double) (v : LobsterValidator) (messageCsv : Option (List UInt8)) (r : ℕ) : Prop :=
  (∃ t, (rows messageCsv)[r]?.bind c.stamp = some t) ∧
    v.snapTs.length = ((rows messageCsv).take r).countP fun line => (c.stamp line).isNone

end LobsterValidator

/-! ## The loops -/

namespace Scanner

variable {Double : Type} (c : Scanner Double)

theorem levelLoop_timestamp (lvls : List (Fin kDepth)) (p : List UInt8) {snap snap' : LobsterSnapshot}
    (h : c.levelLoop lvls p snap = some snap') : snap'.timestampNs = snap.timestampNs := by
  induction lvls generalizing p snap with
  | nil =>
    cases h
    rfl
  | cons lvl lvls ih =>
    rw [levelLoop] at h
    split at h
    · cases h
    · have hrest := ih _ h
      exact hrest

/-- Whether a row scans does not depend on its timestamp. -/
theorem levelLoop_isSome (lvls : List (Fin kDepth)) (p : List UInt8) (snap snap' : LobsterSnapshot) :
    (c.levelLoop lvls p snap).isSome = (c.levelLoop lvls p snap').isSome := by
  induction lvls generalizing p snap snap' with
  | nil => rfl
  | cons lvl lvls ih =>
    rw [levelLoop, levelLoop]
    split
    · rfl
    · exact ih _ _ _

/-- `x` is the row of one of the lines, with its timestamp. -/
def Pushes (snapTs : List UInt64) (row : ℕ) (ls : List (List UInt8)) (x : ℕ × LobsterSnapshot) : Prop :=
  ∃ i line t, x.1 = row + i ∧ ls[i]? = some line ∧ snapTs[row + i]? = some t ∧
    c.snapshot t line = some x.2

theorem pushes_cons {snapTs : List UInt64} {row : ℕ} {line : List UInt8} {ls : List (List UInt8)}
    {x : ℕ × LobsterSnapshot} : c.Pushes snapTs row (line :: ls) x ↔
      (∃ t, x.1 = row ∧ snapTs[row]? = some t ∧ c.snapshot t line = some x.2) ∨
        c.Pushes snapTs (row + 1) ls x := by
  constructor
  · rintro ⟨i, line', t, hx, hline, ht, hsnap⟩
    cases i with
    | zero =>
      cases hline
      exact .inl ⟨t, hx, ht, hsnap⟩
    | succ i =>
      rw [← Nat.add_assoc, Nat.add_right_comm] at hx ht
      exact .inr ⟨i, line', t, hx, hline, ht, hsnap⟩
  · rintro (⟨t, hx, ht, hsnap⟩ | ⟨i, line', t, hx, hline, ht, hsnap⟩)
    · exact ⟨0, line, t, hx, rfl, ht, hsnap⟩
    · rw [Nat.add_right_comm, Nat.add_assoc] at hx ht
      exact ⟨i + 1, line', t, hx, hline, ht, hsnap⟩

/-- **What the rows push.** -/
theorem mem_rowLoop (snapTs : List UInt64) (row : ℕ) (ls : List (List UInt8)) (x : ℕ × LobsterSnapshot) :
    x ∈ c.rowLoop snapTs row ls ↔ c.Pushes snapTs row ls x := by
  induction ls generalizing row with
  | nil =>
    refine iff_of_false List.not_mem_nil ?_
    rintro ⟨i, line, t, -, h, -⟩
    cases h
  | cons line ls ih =>
    rw [rowLoop, pushes_cons]
    split
    case h_1 hnone =>
      -- No timestamps are left.
      have hlen := List.getElem?_eq_none_iff.mp hnone
      refine iff_of_false List.not_mem_nil ?_
      rintro (⟨t, -, ht, -⟩ | ⟨i, line', t, -, -, ht, -⟩)
      · rw [hnone] at ht
        cases ht
      · rw [List.getElem?_eq_none (by omega)] at ht
        cases ht
    case h_2 t₀ ht₀ =>
      have hfirst : (∃ t, x.1 = row ∧ snapTs[row]? = some t ∧ c.snapshot t line = some x.2) ↔
          x.1 = row ∧ c.snapshot t₀ line = some x.2 := by
        rw [ht₀]
        constructor
        · rintro ⟨t, hx, ht, hsnap⟩
          cases ht
          exact ⟨hx, hsnap⟩
        · exact fun ⟨hx, hsnap⟩ => ⟨t₀, hx, rfl, hsnap⟩
      rw [hfirst]
      split
      case h_1 snap hsnap =>
        rw [List.mem_cons, ih, hsnap, Option.some_inj, Prod.ext_iff, eq_comm (a := snap)]
      case h_2 hnone =>
        rw [ih, hnone]
        exact (or_iff_right fun h => nomatch h.2).symm

end Scanner

namespace LobsterValidator

variable {Double : Type} {c : Scanner Double} {v : LobsterValidator}
  {orderbookCsv messageCsv : Option (List UInt8)} {r : ℕ}

theorem foldl_stamp (c : Scanner Double) (ls : List (List UInt8)) (ts : List UInt64) :
    ls.foldl (fun ts line =>
      match c.scanTime line with
      | some timeS => ts ++ [c.nanos timeS]
      | none => ts) ts = ts ++ ls.filterMap c.stamp := by
  induction ls generalizing ts with
  | nil => exact (List.append_nil ts).symm
  | cons line ls ih =>
    rw [List.foldl_cons, ih]
    cases hscan : c.scanTime line with
    | none => rw [List.filterMap_cons_none (by rw [Scanner.stamp, hscan, Option.map_none])]
    | some timeS =>
      rw [List.filterMap_cons_some (by rw [Scanner.stamp, hscan, Option.map_some]), List.append_assoc]
      rfl

theorem readLines_rows {size : ℕ} {text : List UInt8} (h : Fits (size + 2) (some text)) :
    readLines newline size text = rows (some text) :=
  readLines_eq fun l hl => Nat.le_of_lt_succ (h l hl)

theorem loadMessages_some {text : List UInt8} (h : Fits 512 (some text)) :
    v.loadMessages c (some text) =
      (!(v.stamps c (some text)).isEmpty, { v with snapTs := v.stamps c (some text) }) := by
  rw [loadMessages, foldl_stamp, readLines_rows h]
  rfl

theorem load_snapshots (c : Scanner Double) (v : LobsterValidator)
    (orderbookCsv messageCsv : Option (List UInt8)) :
    (v.load c orderbookCsv messageCsv).2.snapshots =
      v.snapshots ++ (v.appended c orderbookCsv messageCsv).map Prod.snd := by
  have hkeep : (v.loadMessages c messageCsv).2.snapshots = v.snapshots := by
    cases messageCsv <;> rfl
  unfold load appended
  cases hload : v.loadMessages c messageCsv with
  | mk ok v' =>
    rw [hload] at hkeep
    cases ok with
    | false => exact hkeep.trans (List.append_nil _).symm
    | true =>
      cases orderbookCsv with
      | none => exact hkeep.trans (List.append_nil _).symm
      | some text => exact congrArg (· ++ _) hkeep

theorem load_of_mem_appended {x : ℕ × LobsterSnapshot} (h : x ∈ v.appended c orderbookCsv messageCsv) :
    (v.load c orderbookCsv messageCsv).1 = true := by
  unfold appended at h
  unfold load
  cases hload : v.loadMessages c messageCsv with
  | mk ok v' =>
    rw [hload] at h
    cases ok with
    | false => cases h
    | true =>
      cases orderbookCsv with
      | none => cases h
      | some text =>
        have hne : v'.snapshots ++
            (c.rowLoop v'.snapTs 0 (readLines newline (4096 - 2) text)).map Prod.snd ≠ [] :=
          List.append_ne_nil_of_right_ne_nil _ (List.ne_nil_of_mem (List.mem_map_of_mem h))
        exact Bool.not_eq_true' _ ▸ List.isEmpty_eq_false_iff.mpr hne

/-- **The snapshots that are appended** are the rows that scan, while there are timestamps. -/
theorem mem_appended (hob : Fits 4096 orderbookCsv) (hmsg : Fits 512 messageCsv)
    {x : ℕ × LobsterSnapshot} : x ∈ v.appended c orderbookCsv messageCsv ↔
      messageCsv ≠ none ∧ ∃ line t, (rows orderbookCsv)[x.1]? = some line ∧
        (v.stamps c messageCsv)[x.1]? = some t ∧ c.snapshot t line = some x.2 := by
  unfold appended
  cases messageCsv with
  | none => exact iff_of_false List.not_mem_nil fun h => h.1 rfl
  | some msgText =>
    rw [loadMessages_some hmsg]
    cases orderbookCsv with
    | none =>
      refine iff_of_false ?_ ?_
      · cases (v.stamps c (some msgText)).isEmpty <;> exact List.not_mem_nil
      · rintro ⟨-, line, t, hline, -⟩
        cases hline
    | some text =>
      cases hempty : (v.stamps c (some msgText)).isEmpty with
      | true =>
        refine iff_of_false List.not_mem_nil ?_
        rintro ⟨-, line, t, -, ht, -⟩
        rw [List.isEmpty_iff.mp hempty] at ht
        cases ht
      | false =>
        simp only [Bool.not_false]
        rw [c.mem_rowLoop, readLines_rows hob]
        constructor
        · rintro ⟨i, line, t, hx, hline, ht, hsnap⟩
          rw [Nat.zero_add] at hx ht
          rw [← hx] at hline ht
          exact ⟨Option.some_ne_none _, line, t, hline, ht, hsnap⟩
        · rintro ⟨-, line, t, hline, ht, hsnap⟩
          refine ⟨x.1, line, t, (Nat.zero_add _).symm, hline, ?_, hsnap⟩
          rwa [Nat.zero_add]

/-! ## The timestamps -/

theorem paired_iff_place (hob : Fits 4096 orderbookCsv) (hmsg : Fits 512 messageCsv) :
    v.Paired c orderbookCsv messageCsv ↔ ∀ r, v.Usable c orderbookCsv messageCsv r →
      ∃ t, (rows messageCsv)[r]?.bind c.stamp = some t ∧ (v.stamps c messageCsv)[r]? = some t := by
  constructor
  · rintro h r ⟨hopen, hr, line, hline, hscan⟩
    have ht := List.getElem?_eq_getElem hr
    obtain ⟨snap, hsnap⟩ : ∃ snap, c.snapshot (v.stamps c messageCsv)[r] line = some snap := by
      rw [← Option.isSome_iff_exists, Scanner.snapshot, c.levelLoop_isSome _ _ _ ⟨0, _, _, _, _⟩]
      exact hscan
    have hmem : (r, snap) ∈ v.appended c orderbookCsv messageCsv :=
      (mem_appended hob hmsg).mpr ⟨hopen, line, _, hline, ht, hsnap⟩
    refine ⟨_, h (load_of_mem_appended hmem) _ hmem, ?_⟩
    rw [ht, c.levelLoop_timestamp _ _ hsnap]
  · rintro h - x hx
    obtain ⟨hopen, line, t, hline, ht, hsnap⟩ := (mem_appended hob hmsg).mp hx
    have husable : v.Usable c orderbookCsv messageCsv x.1 := by
      refine ⟨hopen, (List.getElem?_eq_some_iff.mp ht).1, line, hline, ?_⟩
      rw [Scanner.snapshot, c.levelLoop_isSome _ _ _ ⟨t, _, _, _, _⟩]
      exact Option.isSome_of_eq_some hsnap
    obtain ⟨t', hstamp, ht'⟩ := h x.1 husable
    rw [ht] at ht'
    cases ht'
    rw [hstamp, c.levelLoop_timestamp _ _ hsnap]

/-- Where the timestamp of line `r` stands. -/
theorem stamps_of_bind {t : UInt64} (h : (rows messageCsv)[r]?.bind c.stamp = some t) :
    (v.stamps c messageCsv)[v.snapTs.length +
      ((rows messageCsv).take r).countP fun line => (c.stamp line).isSome]? = some t := by
  obtain ⟨line, hline, hstamp⟩ := Option.bind_eq_some_iff.mp h
  rw [stamps, List.getElem?_append_right (Nat.le_add_right _ _), Nat.add_sub_cancel_left]
  exact getElem?_filterMap hline hstamp

theorem inStep_iff {t : UInt64} (h : (rows messageCsv)[r]?.bind c.stamp = some t) :
    v.InStep c messageCsv r ↔ v.snapTs.length +
      ((rows messageCsv).take r).countP (fun line => (c.stamp line).isSome) = r := by
  obtain ⟨line, hline, -⟩ := Option.bind_eq_some_iff.mp h
  have hlen : ((rows messageCsv).take r).length = r :=
    List.length_take_of_le (List.getElem?_eq_some_iff.mp hline).1.le
  have hnone : (fun line => decide ¬ (c.stamp line).isSome = true) = fun line => (c.stamp line).isNone := by
    funext line
    cases c.stamp line <;> rfl
  have hsplit : ((rows messageCsv).take r).length = _ :=
    List.length_eq_countP_add_countP fun line => (c.stamp line).isSome
  rw [hnone] at hsplit
  unfold InStep
  rw [and_iff_right ⟨t, h⟩]
  omega

theorem InStep.exists_place (h : v.InStep c messageCsv r) :
    ∃ t, (rows messageCsv)[r]?.bind c.stamp = some t ∧ (v.stamps c messageCsv)[r]? = some t := by
  obtain ⟨t, ht⟩ := h.1
  have hplace := stamps_of_bind (v := v) ht
  rw [(inStep_iff ht).mp h] at hplace
  exact ⟨t, ht, hplace⟩

/-- With distinct timestamps no other one stands in for that of line `r`. -/
theorem inStep_of_place (hdistinct : (v.stamps c messageCsv).Nodup) {t : UInt64}
    (ht : (rows messageCsv)[r]?.bind c.stamp = some t) (hr : (v.stamps c messageCsv)[r]? = some t) :
    v.InStep c messageCsv r := by
  rw [inStep_iff ht]
  obtain ⟨hlt, hget⟩ := List.getElem?_eq_some_iff.mp (stamps_of_bind (v := v) ht)
  obtain ⟨hlt', hget'⟩ := List.getElem?_eq_some_iff.mp hr
  exact (hdistinct.getElem_inj_iff).mp (hget.trans hget'.symm)

/-- **When snapshots and timestamps are paired.** For every validator and all files whose lines fit the
buffers: each snapshot that `load` appends carries the timestamp of its own row if, for every orderbook row
that scans and has a timestamp in its place, the message line of that row scans and as many timestamps were
stored before as lines above it do not scan. With distinct timestamps it does so only then. -/
theorem paired_iff (c : Scanner Double) (v : LobsterValidator)
    (orderbookCsv messageCsv : Option (List UInt8)) (hob : Fits 4096 orderbookCsv)
    (hmsg : Fits 512 messageCsv) :
    (v.load c orderbookCsv messageCsv).2.snapshots =
      v.snapshots ++ (v.appended c orderbookCsv messageCsv).map Prod.snd ∧
    ((∀ r, v.Usable c orderbookCsv messageCsv r → v.InStep c messageCsv r) →
      v.Paired c orderbookCsv messageCsv) ∧
    ((v.stamps c messageCsv).Nodup → (v.Paired c orderbookCsv messageCsv ↔
      ∀ r, v.Usable c orderbookCsv messageCsv r → v.InStep c messageCsv r)) := by
  have henough : (∀ r, v.Usable c orderbookCsv messageCsv r → v.InStep c messageCsv r) →
      v.Paired c orderbookCsv messageCsv := fun h =>
    (paired_iff_place hob hmsg).mpr fun r hr => (h r hr).exists_place
  refine ⟨load_snapshots c v orderbookCsv messageCsv, henough, fun hdistinct => ⟨fun h r hr => ?_, henough⟩⟩
  obtain ⟨t, ht, hplace⟩ := (paired_iff_place hob hmsg).mp h r hr
  exact inStep_of_place hdistinct ht hplace

/-! ## Whole numbers -/

def isDigit (ch : UInt8) : Bool := 48 ≤ ch && ch ≤ 57

/-- The digits at the start of a text, as a number and their count. -/
def scanNat (p : List UInt8) : Option (ℕ × ℕ) :=
  match p.takeWhile isDigit with
  | [] => none
  | ds => some (ds.foldl (fun acc ch => 10 * acc + (ch.toNat - 48)) 0, ds.length)

/-- A number, the comma behind it and the rest of the text. -/
def scanField (p : List UInt8) : Option (ℕ × ℕ × List UInt8) :=
  match scanNat p with
  | some (x, n) => if (p.drop n).head? = some comma then some (x, n + 1, p.drop (n + 1)) else none
  | none => none

/-- The scanner of files with whole numbers only. -/
def wholeNumbers : Scanner ℕ where
  scanTime line := (scanNat line).map Prod.fst
  scanLevel p := do
    let (askPx, n₁, p) ← scanField p
    let (askSz, n₂, p) ← scanField p
    let (bidPx, n₃, p) ← scanField p
    let (bidSz, n₄) ← scanNat p
    some (askPx, askSz, bidPx, bidSz, n₁ + n₂ + n₃ + n₄)
  nanos timeS := UInt64.ofNat (timeS * 10 ^ 9)
  price px := UInt32.ofNat (px * 10000)
  qty sz := UInt32.ofNat sz

/-- A row of forty zeros. -/
def zeroRow : List UInt8 := (List.replicate 39 [48, comma]).flatten ++ [48, newline]

/-- The times 1 and 2. -/
def twoTimes : List UInt8 := [49, comma, newline, 50, comma, newline]

/-- A line that does not scan. -/
def header : List UInt8 := ['x'.toUInt8, newline]

theorem paired_iff_twoTimes : ((⟨[], []⟩ : LobsterValidator).stamps wholeNumbers (some twoTimes)).Nodup ∧
    (⟨[], []⟩ : LobsterValidator).Paired wholeNumbers (some (zeroRow ++ zeroRow)) (some twoTimes) := by
  have hdistinct : ((⟨[], []⟩ : LobsterValidator).stamps wholeNumbers (some twoTimes)).Nodup := by decide
  obtain ⟨-, -, hiff⟩ := paired_iff wholeNumbers ⟨[], []⟩ (some (zeroRow ++ zeroRow)) (some twoTimes)
    (by decide) (by decide)
  refine ⟨hdistinct, (hiff hdistinct).mpr fun r hr => ?_⟩
  have hlt : r < 2 := hr.2.1
  interval_cases r
  · exact ⟨⟨1000000000, by decide⟩, by decide⟩
  · exact ⟨⟨2000000000, by decide⟩, by decide⟩

/-- Under a header line in both files row 1 gets the timestamp of line 2. -/
theorem header_shifts : Fits 4096 (some (header ++ zeroRow)) ∧ Fits 512 (some (header ++ twoTimes)) ∧
    ((⟨[], []⟩ : LobsterValidator).load wholeNumbers (some (header ++ zeroRow))
      (some (header ++ twoTimes))).1 = true ∧
    (∃ snap, (1, snap) ∈ (⟨[], []⟩ : LobsterValidator).appended wholeNumbers (some (header ++ zeroRow))
      (some (header ++ twoTimes)) ∧ snap.timestampNs = 2000000000) ∧
    (rows (some (header ++ twoTimes)))[1]?.bind wholeNumbers.stamp = some 1000000000 ∧
    ¬ (⟨[], []⟩ : LobsterValidator).Paired wholeNumbers (some (header ++ zeroRow))
      (some (header ++ twoTimes)) := by
  have hob : Fits 4096 (some (header ++ zeroRow)) := by decide
  have hmsg : Fits 512 (some (header ++ twoTimes)) := by decide
  have hstamp : (rows (some (header ++ twoTimes)))[1]?.bind wholeNumbers.stamp = some 1000000000 := by
    decide
  obtain ⟨snap, hsnap⟩ : ∃ snap, wholeNumbers.snapshot 2000000000 zeroRow = some snap := ⟨_, rfl⟩
  have hrow : (rows (some (header ++ zeroRow)))[1]? = some zeroRow := by decide
  have hmem : (1, snap) ∈ (⟨[], []⟩ : LobsterValidator).appended wholeNumbers
      (some (header ++ zeroRow)) (some (header ++ twoTimes)) :=
    (mem_appended hob hmsg).mpr ⟨Option.some_ne_none _, zeroRow, 2000000000, hrow, rfl, hsnap⟩
  have htime : snap.timestampNs = 2000000000 := wholeNumbers.levelLoop_timestamp _ _ hsnap
  have hload := load_of_mem_appended hmem
  refine ⟨hob, hmsg, hload, ⟨snap, hmem, htime⟩, hstamp, fun h => ?_⟩
  have hpaired := h hload _ hmem
  rw [hstamp, htime] at hpaired
  exact absurd hpaired (by decide)

end LobsterValidator

end L2Book
