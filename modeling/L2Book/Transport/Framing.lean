import L2Book.Itch.Wire
import L2Book.Transport.Reader

/-!
# The framing grammar

A file is a sequence of frames, each a message behind its length in two big-endian bytes, and a rest at
which no frame starts.

* `frame`, `Malformed`, `Splits`: the grammar;
* `ITCHFileReader.Returns`: the results of calling `next_message` up to its first `nullptr`;
* **`returns_splits`**: the reader returns exactly the messages of the grammar.
-/

namespace L2Book

/-! ## The grammar -/

/-- A message behind its length. -/
def frame (m : List UInt8) : List UInt8 := toBE 2 m.length ++ m

/-- No frame starts here: no length, a zero length, or a length beyond the end. -/
def Malformed (rest : List UInt8) : Prop :=
  rest.length < 2 ∨ ofBE (slice rest 0 2) = 0 ∨ rest.length - 2 < ofBE (slice rest 0 2)

/-- `buf` is the frames of `ms` and a rest at which no frame starts. -/
structure Splits (buf : List UInt8) (ms : List (List UInt8)) (rest : List UInt8) : Prop where
  eq : buf = ms.flatMap frame ++ rest
  length : ∀ m ∈ ms, 1 ≤ m.length ∧ m.length ≤ 65535
  stop : Malformed rest

/-- Offset and length of the messages of `ms`, when their frames start at `i`. -/
def spans : ℕ → List (List UInt8) → List (ℕ × UInt16)
  | _, [] => []
  | i, m :: ms => (i + 2, UInt16.ofNat m.length) :: spans (i + 2 + m.length) ms

theorem length_frame (m : List UInt8) : (frame m).length = 2 + m.length := by
  rw [frame, List.length_append, length_toBE]

theorem toNat_ofNat_length {m : List UInt8} (h : m.length ≤ 65535) :
    (UInt16.ofNat m.length).toNat = m.length := by
  rw [UInt16.toNat_ofNat']
  exact Nat.mod_eq_of_lt (by omega)

theorem exists_splits (buf : List UInt8) : ∃ ms rest, Splits buf ms rest := by
  induction hn : buf.length using Nat.strong_induction_on generalizing buf with
  | _ n ih =>
    by_cases hstop : Malformed buf
    · exact ⟨[], buf, rfl, fun m hm => absurd hm List.not_mem_nil, hstop⟩
    · unfold Malformed at hstop
      push Not at hstop
      obtain ⟨htwo, hpos, hle⟩ := hstop
      have hhead : (slice buf 0 2).length = 2 := length_slice (by omega)
      have hlt := ofBE_lt (slice buf 0 2)
      rw [hhead] at hlt
      -- The first frame, and the split of what is behind it.
      have hmsg : (slice buf 2 (ofBE (slice buf 0 2))).length = ofBE (slice buf 0 2) :=
        length_slice (by omega)
      obtain ⟨ms, rest, heq, hlen, hrest⟩ := ih (buf.drop (2 + ofBE (slice buf 0 2))).length
        (by rw [List.length_drop]; omega) _ rfl
      have hframe : frame (slice buf 2 (ofBE (slice buf 0 2))) =
          buf.take (2 + ofBE (slice buf 0 2)) := by
        have hround := toBE_ofBE (slice buf 0 2)
        rw [hhead] at hround
        rw [frame, hmsg, hround]
        exact slice_append buf 0 2 _
      refine ⟨slice buf 2 (ofBE (slice buf 0 2)) :: ms, rest, ?_, ?_, hrest⟩
      · rw [List.flatMap_cons, List.append_assoc, ← heq, hframe, List.take_append_drop]
      · intro m hm
        rcases List.mem_cons.mp hm with rfl | hm
        · omega
        · exact hlen m hm

/-- The spans cut the messages out of the buffer. -/
theorem spans_map_slice {ms : List (List UInt8)} (h : ∀ m ∈ ms, 1 ≤ m.length ∧ m.length ≤ 65535)
    (pre rest : List UInt8) :
    (spans pre.length ms).map (fun f => slice (pre ++ (ms.flatMap frame ++ rest)) f.1 f.2.toNat) = ms := by
  induction ms generalizing pre with
  | nil => rfl
  | cons m ms ih =>
    obtain ⟨-, hm⟩ := h m List.mem_cons_self
    have hbuf : pre ++ ((m :: ms).flatMap frame ++ rest) =
        pre ++ toBE 2 m.length ++ (m ++ (ms.flatMap frame ++ rest)) := by
      simp [frame]
    have hbuf' : pre ++ ((m :: ms).flatMap frame ++ rest) =
        pre ++ frame m ++ (ms.flatMap frame ++ rest) := by
      simp
    have hpre : (pre ++ toBE 2 m.length).length = pre.length + 2 := by simp
    have hpre' : (pre ++ frame m).length = pre.length + 2 + m.length := by
      rw [List.length_append, length_frame, Nat.add_assoc]
    have hfirst : slice (pre ++ ((m :: ms).flatMap frame ++ rest)) (pre.length + 2) m.length = m := by
      rw [hbuf, slice, ← hpre, List.drop_left, List.take_left]
    have hrest := ih (fun m' hm' => h m' (List.mem_cons_of_mem _ hm')) (pre ++ frame m)
    rw [hpre', ← hbuf'] at hrest
    rw [spans, List.map_cons, toNat_ofNat_length hm, hfirst, hrest]

theorem spans_bounds {ms : List (List UInt8)} (h : ∀ m ∈ ms, 1 ≤ m.length ∧ m.length ≤ 65535) (i : ℕ) :
    (∀ f ∈ spans i ms, i + 2 ≤ f.1 ∧ f.1 + f.2.toNat ≤ i + (ms.flatMap frame).length) ∧
      (spans i ms).Pairwise fun f g => f.1 + f.2.toNat ≤ g.1 := by
  induction ms generalizing i with
  | nil => exact ⟨fun f hf => absurd hf List.not_mem_nil, List.Pairwise.nil⟩
  | cons m ms ih =>
    obtain ⟨-, hm⟩ := h m List.mem_cons_self
    obtain ⟨hbounds, hpair⟩ := ih (fun m' hm' => h m' (List.mem_cons_of_mem _ hm')) (i + 2 + m.length)
    have hlen : ((m :: ms).flatMap frame).length = 2 + m.length + (ms.flatMap frame).length := by
      rw [List.flatMap_cons, List.length_append, length_frame]
    refine ⟨fun f hf => ?_, List.pairwise_cons.mpr ⟨fun g hg => ?_, hpair⟩⟩
    · rcases List.mem_cons.mp hf with rfl | hf
      · rw [toNat_ofNat_length hm, hlen]
        omega
      · have := hbounds f hf
        rw [hlen]
        omega
    · have := hbounds g hg
      rw [toNat_ofNat_length hm]
      omega

/-! ## The reader -/

namespace ITCHFileReader

/-- The results of calling `next_message` up to its first `nullptr`. -/
inductive Returns : ITCHFileReader → List (ℕ × UInt16) → Prop
  | stop {r r' : ITCHFileReader} : r.nextMessage = (none, r') → Returns r []
  | next {r r' : ITCHFileReader} {f : ℕ × UInt16} {fs : List (ℕ × UInt16)} :
      r.nextMessage = (some f, r') → Returns r' fs → Returns r (f :: fs)

theorem Returns.unique {r : ITCHFileReader} {fs fs' : List (ℕ × UInt16)} (h : r.Returns fs)
    (h' : r.Returns fs') : fs' = fs := by
  induction h generalizing fs' with
  | stop hnext =>
    cases h' with
    | stop _ => rfl
    | next hnext' _ =>
      rw [hnext] at hnext'
      cases hnext'
  | next hnext _ ih =>
    cases h' with
    | stop hnext' =>
      rw [hnext] at hnext'
      cases hnext'
    | next hnext' hreturns' =>
      rw [hnext] at hnext'
      cases hnext'
      rw [ih hreturns']

theorem returns_frames (r : ITCHFileReader) : r.Returns r.frames := by
  fun_induction frames r with
  | case1 r r' h => exact .stop h
  | case2 r f r' h hlt ih => exact .next h ih

theorem returns_iff {r : ITCHFileReader} {fs : List (ℕ × UInt16)} : r.Returns fs ↔ fs = r.frames :=
  ⟨fun h => r.returns_frames.unique h, fun h => h ▸ r.returns_frames⟩

theorem toNat_frameLen {r : ITCHFileReader} (h : r.pos + 2 ≤ r.buf.length) :
    r.frameLen.toNat = ofBE (slice r.buf r.pos 2) := by
  have htwo : slice r.buf r.pos 2 = [load8 r.buf r.pos, load8 r.buf (r.pos + 1)] := by
    rw [← toList_loadBytes h]
    rfl
  have hhigh := (load8 r.buf r.pos).toNat_lt
  have hshift : ∀ v : UInt16, (v <<< 8).toNat = v.toNat <<< 8 % 2 ^ 16 := fun v =>
    UInt16.toNat_shiftLeft v 8
  have hfit : (load8 r.buf r.pos).toNat <<< 8 < 2 ^ 16 := by
    rw [Nat.shiftLeft_eq]
    omega
  rw [htwo, frameLen, UInt16.toNat_or, hshift, UInt8.toNat_toUInt16, UInt8.toNat_toUInt16,
    Nat.mod_eq_of_lt hfit, ← Nat.shiftLeft_add_eq_or_of_lt (load8 r.buf (r.pos + 1)).toNat_lt,
    Nat.shiftLeft_eq]
  simp [ofBE]

theorem nextMessage_malformed {r : ITCHFileReader} (h : Malformed (r.buf.drop r.pos)) :
    ∃ r', r.nextMessage = (none, r') := by
  unfold nextMessage
  by_cases htwo : r.pos + 2 > r.buf.length
  · exact ⟨r, if_pos htwo⟩
  · have hlen := toNat_frameLen (r := r) (by omega)
    have hslice : slice (r.buf.drop r.pos) 0 2 = slice r.buf r.pos 2 := rfl
    rw [Malformed, List.length_drop, hslice, ← hlen] at h
    rw [if_neg htwo]
    by_cases hzero : r.frameLen = 0
    · exact ⟨_, if_pos hzero⟩
    · have hpos : r.frameLen.toNat ≠ 0 := fun hz => hzero (UInt16.toNat_inj.mp hz)
      have hlong : r.pos + 2 + r.frameLen.toNat > r.buf.length := by omega
      rw [if_neg hzero]
      exact ⟨_, if_pos hlong⟩

theorem nextMessage_frame {r : ITCHFileReader} {m rest : List UInt8}
    (hm : 1 ≤ m.length ∧ m.length ≤ 65535) (h : r.buf.drop r.pos = frame m ++ rest) :
    r.nextMessage = (some (r.pos + 2, UInt16.ofNat m.length), ⟨r.buf, r.pos + 2 + m.length⟩) := by
  have htotal : r.buf.length - r.pos = 2 + m.length + rest.length := by
    rw [← List.length_drop, h, List.length_append, length_frame]
  have hslice : slice r.buf r.pos 2 = toBE 2 m.length := by
    rw [slice, h, frame, List.append_assoc, List.take_left' (length_toBE _ _)]
  have hlen : r.frameLen = UInt16.ofNat m.length := by
    rw [← UInt16.toNat_inj, toNat_frameLen (by omega), hslice, toNat_ofNat_length hm.2,
      ofBE_toBE_of_lt (by omega)]
  have hval := toNat_ofNat_length hm.2
  have hzero : r.frameLen ≠ 0 := by
    intro h0
    rw [← hlen, h0] at hval
    exact absurd hval (by simp; omega)
  rw [← hlen] at hval
  unfold nextMessage
  rw [if_neg (by omega), if_neg hzero, if_neg (by omega), hval, hlen]

/-- Reading a split buffer returns the spans of its messages. -/
theorem returns_spans {ms : List (List UInt8)} (h : ∀ m ∈ ms, 1 ≤ m.length ∧ m.length ≤ 65535)
    {rest : List UInt8} (hrest : Malformed rest) (pre : List UInt8) :
    Returns ⟨pre ++ (ms.flatMap frame ++ rest), pre.length⟩ (spans pre.length ms) := by
  induction ms generalizing pre with
  | nil =>
    obtain ⟨r', hnext⟩ := nextMessage_malformed (r := ⟨pre ++ rest, pre.length⟩)
      (by rwa [List.drop_left])
    exact .stop hnext
  | cons m ms ih =>
    have hbuf : pre ++ ((m :: ms).flatMap frame ++ rest) =
        pre ++ (frame m ++ (ms.flatMap frame ++ rest)) := by
      rw [List.flatMap_cons, List.append_assoc]
    have hnext := nextMessage_frame (r := ⟨pre ++ (frame m ++ (ms.flatMap frame ++ rest)), pre.length⟩)
      (h m List.mem_cons_self) List.drop_left
    have hreturns := ih (fun m' hm' => h m' (List.mem_cons_of_mem _ hm')) (pre ++ frame m)
    rw [List.length_append, length_frame, ← Nat.add_assoc, List.append_assoc] at hreturns
    rw [hbuf]
    exact .next hnext hreturns

/-- The bytes of a returned message. -/
def payload (buf : List UInt8) (f : ℕ × UInt16) : List UInt8 := slice buf f.1 f.2.toNat

theorem Returns.of_splits {buf rest : List UInt8} {ms : List (List UInt8)} (h : Splits buf ms rest) :
    Returns ⟨buf, 0⟩ (spans 0 ms) ∧ (spans 0 ms).map (payload buf) = ms := by
  have hreturns := returns_spans h.length h.stop []
  have hmap := spans_map_slice h.length [] rest
  rw [List.nil_append, ← h.eq] at hreturns hmap
  exact ⟨hreturns, hmap⟩

/-- **The reader accepts exactly its grammar.** Calling `next_message` from the start of any buffer reaches
a `nullptr`, and until then returns the messages of the only way to split the buffer into frames and a
rest at which no frame starts; their spans have the lengths of `out_len`, lie inside the buffer, one
behind the other. Reading the frames of any messages returns these messages. -/
theorem returns_splits :
    (∀ buf : List UInt8, ∃ fs, Returns ⟨buf, 0⟩ fs ∧ (∀ fs', Returns ⟨buf, 0⟩ fs' → fs' = fs) ∧
      (∃ rest, Splits buf (fs.map (payload buf)) rest) ∧
      (∀ ms rest, Splits buf ms rest → ms = fs.map (payload buf)) ∧
      (∀ f ∈ fs, (payload buf f).length = f.2.toNat ∧ f.1 + f.2.toNat ≤ buf.length) ∧
      fs.Pairwise fun f g => f.1 + f.2.toNat ≤ g.1) ∧
    ∀ ms : List (List UInt8), (∀ m ∈ ms, 1 ≤ m.length ∧ m.length ≤ 65535) →
      ∃ fs, Returns ⟨ms.flatMap frame, 0⟩ fs ∧ fs.map (payload (ms.flatMap frame)) = ms := by
  refine ⟨fun buf => ?_, fun ms h => ?_⟩
  · obtain ⟨ms, rest, hsplit⟩ := exists_splits buf
    obtain ⟨hreturns, hmap⟩ := Returns.of_splits hsplit
    obtain ⟨hbounds, hpair⟩ := spans_bounds hsplit.length 0
    have hinside : ∀ f ∈ spans 0 ms, f.1 + f.2.toNat ≤ buf.length := by
      intro f hf
      have hle := (hbounds f hf).2
      rw [hsplit.eq, List.length_append]
      omega
    refine ⟨spans 0 ms, hreturns, fun fs' h' => hreturns.unique h', ⟨rest, hmap.symm ▸ hsplit⟩, ?_, ?_,
      hpair⟩
    · intro ms' rest' hsplit'
      obtain ⟨hreturns', hmap'⟩ := Returns.of_splits hsplit'
      rw [← hmap', hreturns.unique hreturns']
    · intro f hf
      exact ⟨length_slice (hinside f hf), hinside f hf⟩
  · have hsplit : Splits (ms.flatMap frame) ms [] :=
      ⟨(List.append_nil _).symm, h, .inl (by decide)⟩
    exact ⟨spans 0 ms, Returns.of_splits hsplit⟩

end ITCHFileReader

end L2Book
