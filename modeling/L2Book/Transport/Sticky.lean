import L2Book.Transport.Framing

/-!
# Calls behind the first `nullptr`

`next_message` takes the two bytes of a length before it sees that the length is zero or too large, so the
next call starts behind them.

* `ITCHFileReader.Call`, `after`: sequences of calls;
* `EndSticky`: a call after a `nullptr` returns `nullptr` until `reset`, and only frames are delivered;
* `Sealed`: no frame starts at an even distance; `sealed_iff`: all further calls return `nullptr`;
* **`endSticky_iff`**: the end is sticky exactly when no frame starts at an even offset of the rest.
-/

namespace L2Book

namespace ITCHFileReader

/-! ## Sequences of calls -/

/-- The calls that move the reader. -/
inductive Call where
  | nextMessage
  | reset

def call (r : ITCHFileReader) : Call → ITCHFileReader
  | .nextMessage => r.nextMessage.2
  | .reset => r.reset

/-- The reader after `calls`. -/
def after (r : ITCHFileReader) (calls : List Call) : ITCHFileReader := calls.foldl call r

/-- From the start of `buf`, a call after one that returned `nullptr` returns `nullptr` as long as there is
no `reset`, and every message that is delivered is one of the frames of `buf`. -/
structure EndSticky (buf : List UInt8) : Prop where
  sticky : ∀ (calls : List Call) (k : ℕ), (after ⟨buf, 0⟩ calls).nextMessage.1 = none →
    (after ⟨buf, 0⟩ (calls ++ List.replicate k .nextMessage)).nextMessage.1 = none
  delivered : ∀ (calls : List Call) (f : ℕ × UInt16), (after ⟨buf, 0⟩ calls).nextMessage.1 = some f →
    ∀ ms rest, Splits buf ms rest → f ∈ spans 0 ms

theorem after_append (r : ITCHFileReader) (calls calls' : List Call) :
    r.after (calls ++ calls') = (r.after calls).after calls' :=
  List.foldl_append

theorem after_replicate_succ (r : ITCHFileReader) (k : ℕ) :
    r.after (List.replicate (k + 1) .nextMessage) =
      r.nextMessage.2.after (List.replicate k .nextMessage) :=
  rfl

theorem call_buf (r : ITCHFileReader) (c : Call) : (r.call c).buf = r.buf := by
  cases c with
  | nextMessage => exact nextMessage_buf (Prod.mk.eta (p := r.nextMessage)).symm
  | reset => rfl

theorem after_rule {P : ITCHFileReader → Prop} (hstep : ∀ r c, P r → P (r.call c)) {r : ITCHFileReader}
    (h : P r) (calls : List Call) : P (r.after calls) := by
  induction calls generalizing r with
  | nil => exact h
  | cons c calls ih => exact ih (hstep r c h)

/-! ## One call -/

theorem nextMessage_none_iff {r : ITCHFileReader} :
    r.nextMessage.1 = none ↔ Malformed (r.buf.drop r.pos) := by
  constructor
  · intro h
    have hslice : slice (r.buf.drop r.pos) 0 2 = slice r.buf r.pos 2 := rfl
    rw [Malformed, List.length_drop, hslice]
    unfold nextMessage at h
    split_ifs at h with hshort hzero hlong
    · exact .inl (by omega)
    · refine .inr (.inl ?_)
      rw [← toNat_frameLen (by omega), hzero]
      rfl
    · refine .inr (.inr ?_)
      rw [← toNat_frameLen (by omega)]
      omega
  · intro h
    obtain ⟨r', hnext⟩ := nextMessage_malformed h
    rw [hnext]

/-- A `nullptr` takes two bytes, or nothing where fewer are left. -/
theorem nextMessage_none_pos {r : ITCHFileReader} (h : r.nextMessage.1 = none) :
    r.nextMessage.2 = if r.pos + 2 > r.buf.length then r else { r with pos := r.pos + 2 } := by
  unfold nextMessage at h ⊢
  split_ifs at h ⊢ <;> rfl

/-! ## No frame at an even distance -/

/-- No frame starts at an even distance from the position. -/
def Sealed (r : ITCHFileReader) : Prop := ∀ k, Malformed (r.buf.drop (r.pos + 2 * k))

theorem Sealed.none {r : ITCHFileReader} (h : r.Sealed) : r.nextMessage.1 = none :=
  nextMessage_none_iff.mpr (h 0)

theorem Sealed.frames {r : ITCHFileReader} (h : r.Sealed) : r.frames = [] :=
  (returns_iff.mp (.stop (Prod.ext h.none rfl))).symm

theorem Sealed.next {r : ITCHFileReader} (h : r.Sealed) : r.nextMessage.2.Sealed := by
  rw [nextMessage_none_pos h.none]
  split_ifs
  · exact h
  · intro k
    have hk := h (k + 1)
    rwa [show r.pos + 2 * (k + 1) = r.pos + 2 + 2 * k by ring] at hk

/-- The even distances are what the further calls look at. -/
theorem sealed_iff {r : ITCHFileReader} :
    r.Sealed ↔ ∀ k, (r.after (List.replicate k .nextMessage)).nextMessage.1 = none := by
  constructor
  · intro h k
    induction k generalizing r with
    | zero => exact h.none
    | succ k ih => exact ih h.next
  · intro h k
    have hnone : r.nextMessage.1 = none := h 0
    induction k generalizing r with
    | zero => exact nextMessage_none_iff.mp hnone
    | succ k ih =>
      by_cases hshort : r.pos + 2 > r.buf.length
      · exact .inl (by rw [List.length_drop]; omega)
      · have hnext : r.nextMessage.2 = { r with pos := r.pos + 2 } := by
          rw [nextMessage_none_pos hnone, if_neg hshort]
        have hk := ih (r := r.nextMessage.2) (fun j => h (j + 1)) (h 1)
        rw [hnext] at hk
        rwa [show r.pos + 2 * (k + 1) = r.pos + 2 + 2 * k by ring]

/-! ## The whole buffer -/

theorem nextMessage_cons {r : ITCHFileReader} {m rest : List UInt8} {ms : List (List UInt8)}
    (h : ∀ m' ∈ m :: ms, 1 ≤ m'.length ∧ m'.length ≤ 65535)
    (hdrop : r.buf.drop r.pos = (m :: ms).flatMap frame ++ rest) :
    r.nextMessage = (some (r.pos + 2, UInt16.ofNat m.length), ⟨r.buf, r.pos + 2 + m.length⟩) ∧
      r.buf.drop (r.pos + 2 + m.length) = ms.flatMap frame ++ rest := by
  rw [List.flatMap_cons, List.append_assoc] at hdrop
  have hbehind := congrArg (List.drop (2 + m.length)) hdrop
  rw [List.drop_drop, List.drop_left' (length_frame m), ← Nat.add_assoc] at hbehind
  exact ⟨nextMessage_frame (h m List.mem_cons_self) hdrop, hbehind⟩

theorem after_frames {ms : List (List UInt8)} (h : ∀ m ∈ ms, 1 ≤ m.length ∧ m.length ≤ 65535)
    {r : ITCHFileReader} {rest : List UInt8} (hdrop : r.buf.drop r.pos = ms.flatMap frame ++ rest) :
    (r.after (List.replicate ms.length .nextMessage)).buf.drop
      (r.after (List.replicate ms.length .nextMessage)).pos = rest := by
  induction ms generalizing r with
  | nil => exact hdrop
  | cons m ms ih =>
    obtain ⟨hnext, hbehind⟩ := nextMessage_cons h hdrop
    rw [List.length_cons, after_replicate_succ, hnext]
    exact ih (fun m' hm' => h m' (List.mem_cons_of_mem _ hm')) hbehind

/-- The reader stands before a frame of the stream or in a sealed rest. -/
def Placed (rest : List UInt8) (r : ITCHFileReader) : Prop :=
  r.Sealed ∨ ∃ m ms', (∀ m' ∈ m :: ms', 1 ≤ m'.length ∧ m'.length ≤ 65535) ∧
    r.buf.drop r.pos = (m :: ms').flatMap frame ++ rest

theorem sealed_of_drop {r : ITCHFileReader} {rest : List UInt8} (h : r.buf.drop r.pos = rest) :
    r.Sealed ↔ ∀ k, Malformed (rest.drop (2 * k)) := by
  simp only [Sealed, ← h, List.drop_drop]

theorem placed_of_drop {ms : List (List UInt8)} {rest : List UInt8} {r : ITCHFileReader}
    (hrest : ∀ k, Malformed (rest.drop (2 * k))) (h : ∀ m ∈ ms, 1 ≤ m.length ∧ m.length ≤ 65535)
    (hdrop : r.buf.drop r.pos = ms.flatMap frame ++ rest) : Placed rest r := by
  cases ms with
  | nil => exact .inl ((sealed_of_drop hdrop).mpr hrest)
  | cons m ms => exact .inr ⟨m, ms, h, hdrop⟩

theorem Placed.start {buf rest : List UInt8} {ms : List (List UInt8)} (h : Splits buf ms rest)
    (hrest : ∀ k, Malformed (rest.drop (2 * k))) : Placed rest ⟨buf, 0⟩ :=
  placed_of_drop hrest h.length h.eq

theorem Placed.next {rest : List UInt8} {r : ITCHFileReader}
    (hrest : ∀ k, Malformed (rest.drop (2 * k))) (hplaced : Placed rest r) :
    Placed rest r.nextMessage.2 := by
  rcases hplaced with hsealed | ⟨m, ms, h, hdrop⟩
  · exact .inl hsealed.next
  · obtain ⟨hnext, hbehind⟩ := nextMessage_cons h hdrop
    rw [hnext]
    exact placed_of_drop hrest (fun m' hm' => h m' (List.mem_cons_of_mem _ hm')) hbehind

theorem Placed.sealed_of_none {rest : List UInt8} {r : ITCHFileReader} (hplaced : Placed rest r)
    (hnone : r.nextMessage.1 = none) : r.Sealed := by
  rcases hplaced with hsealed | ⟨m, ms, h, hdrop⟩
  · exact hsealed
  · rw [(nextMessage_cons h hdrop).1] at hnone
    cases hnone

theorem Placed.frames_next {rest : List UInt8} {r : ITCHFileReader}
    (hplaced : Placed rest r) : r.nextMessage.2.frames ⊆ r.frames := by
  cases hres : r.nextMessage.1 with
  | none =>
    rw [(hplaced.sealed_of_none hres).next.frames]
    exact List.nil_subset _
  | some f =>
    have hframes := returns_iff.mp (.next (Prod.ext hres rfl) r.nextMessage.2.returns_frames)
    rw [← hframes]
    exact List.subset_cons_self f _

theorem Placed.after {buf rest : List UInt8} {ms : List (List UInt8)} (h : Splits buf ms rest)
    (hrest : ∀ k, Malformed (rest.drop (2 * k))) (calls : List Call) :
    Placed rest (after ⟨buf, 0⟩ calls) ∧ (after ⟨buf, 0⟩ calls).frames ⊆ frames ⟨buf, 0⟩ := by
  have hrun := after_rule (r := ⟨buf, 0⟩)
    (P := fun r => r.buf = buf ∧ Placed rest r ∧ r.frames ⊆ frames ⟨buf, 0⟩) (fun r c hr => ?_)
    ⟨rfl, Placed.start h hrest, List.Subset.refl _⟩ calls
  · exact hrun.2
  · obtain ⟨hbuf, hplaced, hframes⟩ := hr
    refine ⟨(call_buf r c).trans hbuf, ?_⟩
    cases c with
    | nextMessage => exact ⟨hplaced.next hrest, List.Subset.trans hplaced.frames_next hframes⟩
    | reset =>
      have hstart : r.reset = ⟨buf, 0⟩ := by rw [ITCHFileReader.reset, hbuf]
      rw [ITCHFileReader.call, hstart]
      exact ⟨Placed.start h hrest, List.Subset.refl _⟩

/-- **When the end of the stream is sticky.** For every buffer, cut into its frames and the rest behind them,
calls after a `nullptr` return `nullptr` until `reset` and only frames are delivered if and only if no
frame starts at an even offset of the rest. -/
theorem endSticky_iff (buf : List UInt8) :
    (∃ ms rest, Splits buf ms rest) ∧ ∀ ms rest, Splits buf ms rest →
      (EndSticky buf ↔ ∀ k, Malformed (rest.drop (2 * k))) := by
  refine ⟨exists_splits buf, fun ms rest h => ⟨fun hsticky => ?_, fun hrest => ?_⟩⟩
  · have hbehind := after_frames h.length (r := ⟨buf, 0⟩) h.eq
    rw [← sealed_of_drop hbehind, sealed_iff]
    intro k
    rw [← after_append]
    refine hsticky.sticky _ k (nextMessage_none_iff.mpr ?_)
    rw [hbehind]
    exact h.stop
  · refine ⟨fun calls k hnone => ?_, fun calls f hf ms' rest' h' => ?_⟩
    · rw [after_append]
      exact sealed_iff.mp ((Placed.after h hrest calls).1.sealed_of_none hnone) k
    · have hmem : f ∈ (after ⟨buf, 0⟩ calls).frames := by
        rw [← returns_iff.mp (.next (Prod.ext hf rfl) (returns_frames _))]
        exact List.mem_cons_self
      rw [returns_iff.mp (Returns.of_splits h').1]
      exact (Placed.after h hrest calls).2 hmem

/-- One message and two zero bytes. -/
theorem endSticky_iff_padded : EndSticky [0, 1, 0x53, 0, 0] := by
  have hsplits : Splits [0, 1, 0x53, 0, 0] [[0x53]] [0, 0] := ⟨rfl, by decide, .inr (.inl rfl)⟩
  refine ((endSticky_iff _).2 _ _ hsplits).mpr fun k => ?_
  cases k with
  | zero => exact .inr (.inl rfl)
  | succ k => exact .inl (by simp only [List.length_drop, List.length_cons, List.length_nil]; omega)

/-- The call after a truncated frame delivers a byte from inside it. -/
theorem truncated_delivers : (⟨[0, 5, 0, 1, 0x41], 0⟩ : ITCHFileReader).nextMessage.1 = none ∧
    (after ⟨[0, 5, 0, 1, 0x41], 0⟩ [.nextMessage]).nextMessage.1 = some (4, 1) ∧
    frames ⟨[0, 5, 0, 1, 0x41], 0⟩ = [] ∧ ¬ EndSticky [0, 5, 0, 1, 0x41] := by
  have hnone : (⟨[0, 5, 0, 1, 0x41], 0⟩ : ITCHFileReader).nextMessage.1 = none := by decide
  refine ⟨hnone, by decide, (returns_iff.mp (.stop (Prod.ext hnone rfl))).symm, fun h => ?_⟩
  exact absurd (h.sticky [] 1 hnone) (by decide)

end ITCHFileReader

end L2Book
