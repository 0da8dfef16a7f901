import L2Book.Load
import L2Book.Lib.Decimal
import L2Book.Lib.Double

/-!
# Snapshot files

The two CSV files of `test_lobster_validate.cpp`, and what `load` makes of them. The conversions of a double
are those of the source, rounded as the hardware rounds them.

* `messageLine`, `orderbookLine`: what `write_lobster_files` prints;
* `Sscanf.scanner`: the conversions of `load`, with and without a fused multiply-add;
  `Sscanf.ReadsDecimals`: what `sscanf` promises;
* **`floor_mulAdd`**: the conversions undo the division of the writer;
* **`load_written`**: the files of a list of snapshots load as this list.
-/

namespace L2Book

/-! ## Writing -/

/-- `"%.kf"` of a double that is not negative. -/
def printFixed (k : ℕ) (x : ℚ) : List UInt8 := fixedPoint k (roundEven (x * 10 ^ k)).toNat

/-- `",1,1,100,1500000,1"` -/
def messageTail : List UInt8 :=
  [',', '1', ',', '1', ',', '1', '0', '0', ',', '1', '5', '0', '0', '0', '0', '0', ',', '1'].map Char.toUInt8

/-- The line of the message file. -/
def messageLine (tsS : ℚ) : List UInt8 := printFixed 9 tsS ++ messageTail ++ [newline]

/-- Four numbers with commas between them. -/
def fields (a b c d : List UInt8) : List UInt8 := a ++ comma :: (b ++ comma :: (c ++ comma :: d))

/-- `"%.4f,%.0f,%.4f,%.0f"` of one level. -/
def levelText (askPx askSz bidPx bidSz : UInt32) : List UInt8 :=
  fields (printFixed 4 (roundDouble (askPx.toNat / 10000))) (printFixed 0 askSz.toNat)
    (printFixed 4 (roundDouble (bidPx.toNat / 10000))) (printFixed 0 bidSz.toNat)

/-- The loop over the levels: a comma behind each but the last. -/
def levelsText (snap : LobsterSnapshot) (lvls : List (Fin kDepth)) : List UInt8 :=
  lvls.flatMap fun i =>
    levelText (snap.askPrice i) (snap.askQty i) (snap.bidPrice i) (snap.bidQty i) ++
      if i.val + 1 < kDepth then [comma] else []

/-- The line of the orderbook file. -/
def orderbookLine (snap : LobsterSnapshot) : List UInt8 :=
  levelsText snap (List.finRange kDepth) ++ [newline]

/-- `snap_ns / 1e9` -/
def snapS (snap : LobsterSnapshot) : ℚ := roundDouble (snap.timestampNs.toNat / 10 ^ 9)

/-- The two files, one line for each snapshot. -/
def messageFile (snaps : List LobsterSnapshot) : List UInt8 := snaps.flatMap fun s => messageLine (snapS s)

def orderbookFile (snaps : List LobsterSnapshot) : List UInt8 := snaps.flatMap orderbookLine

/-! ## Reading -/

/-- `sscanf` with the formats `"%lf,"` and `"%lf,%lf,%lf,%lf%n"`, where it converts all fields. -/
structure Sscanf where
  time : List UInt8 → Option ℚ
  level : List UInt8 → Option (ℚ × ℚ × ℚ × ℚ × ℕ)

/-- The conversions of `load_messages` and `load_orderbook`. A cast cuts the fraction off. -/
def Sscanf.scanner (f : Sscanf) (fused : Bool) : Scanner ℚ where
  scanTime := f.time
  scanLevel := f.level
  nanos timeS := UInt64.ofNat ⌊mulAdd fused timeS (10 ^ 9) (1 / 2)⌋.toNat
  price px := UInt32.ofNat ⌊mulAdd fused px 10000 (1 / 2)⌋.toNat
  qty sz := UInt32.ofNat ⌊roundDouble (sz + 1 / 2)⌋.toNat

/-- A comma or the end of the line. -/
def Ends (rest : List UInt8) : Prop := rest.head? = some comma ∨ rest.head? = some newline

/-- The double that `"%lf"` reads from `m / 10 ^ k`. -/
def nearest (k m : ℕ) : ℚ := roundDouble (m / 10 ^ k)

/-- The numbers `m / 10 ^ k` that the files contain. -/
def Printed (k m : ℕ) : Prop := k ≤ 9 ∧ m < 2 ^ 48

/-- **What `sscanf` promises** of such numbers in fixed point: each is read as the nearest double, and `n`
counts the characters read. -/
structure Sscanf.ReadsDecimals (f : Sscanf) : Prop where
  time : ∀ k m rest, Printed k m → Ends rest → f.time (fixedPoint k m ++ rest) = some (nearest k m)
  level : ∀ k₁ m₁ k₂ m₂ k₃ m₃ k₄ m₄ rest, Printed k₁ m₁ → Printed k₂ m₂ → Printed k₃ m₃ → Printed k₄ m₄ →
    Ends rest →
    f.level (fields (fixedPoint k₁ m₁) (fixedPoint k₂ m₂) (fixedPoint k₃ m₃) (fixedPoint k₄ m₄) ++ rest) =
      some (nearest k₁ m₁, nearest k₂ m₂, nearest k₃ m₃, nearest k₄ m₄,
        (fields (fixedPoint k₁ m₁) (fixedPoint k₂ m₂) (fixedPoint k₃ m₃) (fixedPoint k₄ m₄)).length)

/-! ## Rounding -/

theorem roundEven_of_near {x : ℚ} {m : ℤ} (h : |x - m| < 1 / 2) : roundEven x = m := by
  have herr := abs_roundEven_sub_le x
  rw [abs_lt] at h
  rw [abs_le] at herr
  have h₁ : (roundEven x : ℚ) < m + 1 := by linarith
  have h₂ : (m : ℚ) < roundEven x + 1 := by linarith
  have h₁' : roundEven x < m + 1 := by exact_mod_cast h₁
  have h₂' : m < roundEven x + 1 := by exact_mod_cast h₂
  omega

section Scaled

variable {m s : ℕ}

/-- Division and multiplication in doubles nearly cancel. -/
theorem abs_scaled_sub_le (hs : 0 < s) (hm : m < 2 ^ 48) : |roundDouble (m / s) * s - m| ≤ 1 / 2 ^ 5 := by
  have hs' : (0 : ℚ) < s := by exact_mod_cast hs
  have hm' : (m : ℚ) ≤ 2 ^ 48 := by exact_mod_cast hm.le
  have hm₀ : (0 : ℚ) ≤ m := m.cast_nonneg
  have herr := abs_roundDouble_sub_le ((m : ℚ) / s)
  rw [abs_of_nonneg (div_nonneg hm₀ hs'.le)] at herr
  have hfactor : roundDouble ((m : ℚ) / s) * s - m = (roundDouble ((m : ℚ) / s) - m / s) * s := by
    rw [sub_mul, div_mul_cancel₀ _ hs'.ne']
  calc |roundDouble ((m : ℚ) / s) * s - m| = |roundDouble ((m : ℚ) / s) - m / s| * s := by
        rw [hfactor, abs_mul, abs_of_pos hs']
    _ ≤ m / s / 2 ^ 53 * s := mul_le_mul_of_nonneg_right herr hs'.le
    _ = m / 2 ^ 53 := by
        rw [div_mul_eq_mul_div, div_mul_cancel₀ _ hs'.ne']
    _ ≤ 1 / 2 ^ 5 := by
        rw [div_le_div_iff₀ (by norm_num) (by norm_num)]
        linarith

theorem roundEven_scaled (hs : 0 < s) (hm : m < 2 ^ 48) : roundEven (roundDouble (m / s) * s) = m := by
  have h := abs_scaled_sub_le hs hm
  refine roundEven_of_near ?_
  rw [Int.cast_natCast]
  refine h.trans_lt ?_
  norm_num

theorem roundDouble_quarters {i : ℕ} (hi : i ≤ 2 ^ 53) : roundDouble (i / 4) = i / 4 := by
  have h := roundDouble_exact (m := i) (by rw [Nat.abs_cast]; omega) (-2)
  have h4 : ((2 : ℚ) ^ (-2 : ℤ)) = 1 / 4 := by norm_num
  rw [h4, mul_one_div, Int.cast_natCast] at h
  exact h

/-- The last rounding of the conversion, well inside the unit interval. -/
theorem exists_mulAdd (fused : Bool) (hs : 0 < s) (hm : m < 2 ^ 48) :
    ∃ z, mulAdd fused (roundDouble (m / s)) s (1 / 2) = roundDouble z ∧
      (m : ℚ) + 1 / 4 ≤ z ∧ z ≤ m + 3 / 4 := by
  have hm₀ : (0 : ℚ) ≤ m := m.cast_nonneg
  have hm' : (m : ℚ) ≤ 2 ^ 48 := by exact_mod_cast hm.le
  have hy := abs_le.mp (abs_scaled_sub_le hs hm)
  unfold mulAdd
  generalize roundDouble ((m : ℚ) / s) * s = y at hy ⊢
  cases fused with
  | true => exact ⟨y + 1 / 2, rfl, by linarith, by linarith⟩
  | false =>
    have herr := abs_roundDouble_sub_le y
    have habs : |y| ≤ 2 ^ 49 := by
      rw [abs_le]
      constructor <;> linarith
    have hsmall : |roundDouble y - y| ≤ 1 / 2 ^ 4 := by
      refine herr.trans ?_
      rw [div_le_div_iff₀ (by norm_num) (by norm_num)]
      linarith
    rw [abs_le] at hsmall
    exact ⟨roundDouble y + 1 / 2, rfl, by linarith, by linarith⟩

/-- **The conversion undoes the division**, in whichever way the sum is rounded. -/
theorem floor_mulAdd (fused : Bool) (hs : 0 < s) (hm : m < 2 ^ 48) :
    ⌊mulAdd fused (roundDouble (m / s)) s (1 / 2)⌋ = m := by
  have hm₀ : (0 : ℚ) ≤ m := m.cast_nonneg
  have hm' : (m : ℚ) ≤ 2 ^ 48 := by exact_mod_cast hm.le
  obtain ⟨z, hz, hlow, hhigh⟩ := exists_mulAdd fused hs hm
  have h₁ : roundDouble ((m : ℚ) + 1 / 4) = m + 1 / 4 := by
    have h := roundDouble_quarters (i := 4 * m + 1) (by omega)
    push_cast at h
    rwa [show ((4 : ℚ) * m + 1) / 4 = m + 1 / 4 by ring] at h
  have h₂ : roundDouble ((m : ℚ) + 3 / 4) = m + 3 / 4 := by
    have h := roundDouble_quarters (i := 4 * m + 3) (by omega)
    push_cast at h
    rwa [show ((4 : ℚ) * m + 3) / 4 = m + 3 / 4 by ring] at h
  have hlow' := roundDouble_mono hlow
  have hhigh' := roundDouble_mono hhigh
  rw [h₁] at hlow'
  rw [h₂] at hhigh'
  rw [hz, Int.floor_eq_iff, Int.cast_natCast]
  constructor <;> linarith

end Scaled

/-! ## Numbers -/

theorem printFixed_scaled {k s m : ℕ} (hs : s = 10 ^ k) (hm : m < 2 ^ 48) :
    printFixed k (roundDouble (m / s)) = fixedPoint k m := by
  have h := roundEven_scaled (s := s) (by rw [hs]; positivity) hm
  rw [hs, Nat.cast_pow, Nat.cast_ofNat] at h
  rw [printFixed, hs, Nat.cast_pow, Nat.cast_ofNat, h, Int.toNat_natCast]

theorem printFixed_price (p : UInt32) :
    printFixed 4 (roundDouble (p.toNat / 10000)) = fixedPoint 4 p.toNat :=
  printFixed_scaled (by norm_num) (p.toNat_lt.trans (by norm_num))

theorem printFixed_qty (q : UInt32) : printFixed 0 q.toNat = fixedPoint 0 q.toNat := by
  have h : roundEven ((q.toNat : ℚ) * 10 ^ 0) = q.toNat := by
    rw [pow_zero, mul_one]
    exact_mod_cast roundEven_intCast q.toNat
  rw [printFixed, h, Int.toNat_natCast]

theorem printFixed_snapS {snap : LobsterSnapshot} (h : snap.timestampNs.toNat < 2 ^ 48) :
    printFixed 9 (snapS snap) = fixedPoint 9 snap.timestampNs.toNat := by
  have hs := printFixed_scaled (k := 9) rfl h
  rwa [Nat.cast_pow, Nat.cast_ofNat] at hs

variable {f : Sscanf} {fused : Bool}

namespace Sscanf

theorem price_nearest (p : UInt32) : (f.scanner fused).price (nearest 4 p.toNat) = p := by
  have h := floor_mulAdd fused (s := 10 ^ 4) (by norm_num) (p.toNat_lt.trans (by norm_num))
  have hscale : ((10 ^ 4 : ℕ) : ℚ) = 10000 := by norm_num
  rw [hscale] at h
  show UInt32.ofNat ⌊mulAdd fused (roundDouble (p.toNat / 10 ^ 4)) 10000 (1 / 2)⌋.toNat = p
  have hdiv : (10 : ℚ) ^ 4 = 10000 := by norm_num
  rw [hdiv, h, Int.toNat_natCast, UInt32.ofNat_toNat]

theorem nanos_nearest {t : UInt64} (ht : t.toNat < 2 ^ 48) :
    (f.scanner fused).nanos (nearest 9 t.toNat) = t := by
  have h := floor_mulAdd fused (s := 10 ^ 9) (by norm_num) ht
  rw [Nat.cast_pow, Nat.cast_ofNat] at h
  show UInt64.ofNat ⌊mulAdd fused (roundDouble (t.toNat / 10 ^ 9)) (10 ^ 9) (1 / 2)⌋.toNat = t
  rw [h, Int.toNat_natCast, UInt64.ofNat_toNat]

theorem qty_nearest (q : UInt32) : (f.scanner fused).qty (nearest 0 q.toNat) = q := by
  have hq := q.toNat_lt
  have hread : nearest 0 q.toNat = q.toNat := by
    have h := roundDouble_quarters (i := 4 * q.toNat) (by omega)
    rw [Nat.cast_mul, Nat.cast_ofNat, mul_div_cancel_left₀ _ four_ne_zero] at h
    rwa [nearest, pow_zero, div_one]
  have hhalf : roundDouble ((q.toNat : ℚ) + 1 / 2) = q.toNat + 1 / 2 := by
    have h := roundDouble_quarters (i := 4 * q.toNat + 2) (by omega)
    push_cast at h
    rwa [show ((4 : ℚ) * q.toNat + 2) / 4 = q.toNat + 1 / 2 by ring] at h
  have hfloor : ⌊(q.toNat : ℚ) + 1 / 2⌋ = q.toNat := by
    rw [Int.floor_eq_iff]
    norm_num
  show UInt32.ofNat ⌊roundDouble (nearest 0 q.toNat + 1 / 2)⌋.toNat = q
  rw [hread, hhalf, hfloor, Int.toNat_natCast, UInt32.ofNat_toNat]

end Sscanf

/-! ## Rows -/

theorem levelText_eq (askPx askSz bidPx bidSz : UInt32) :
    levelText askPx askSz bidPx bidSz = fields (fixedPoint 4 askPx.toNat) (fixedPoint 0 askSz.toNat)
      (fixedPoint 4 bidPx.toNat) (fixedPoint 0 bidSz.toNat) := by
  unfold levelText
  rw [printFixed_price, printFixed_price, printFixed_qty, printFixed_qty]

/-- The levels of the list from `snap`, the others from `snap₀`. -/
def overlay (lvls : List (Fin kDepth)) (snap snap₀ : LobsterSnapshot) : LobsterSnapshot where
  timestampNs := snap₀.timestampNs
  askPrice i := if i ∈ lvls then snap.askPrice i else snap₀.askPrice i
  askQty i := if i ∈ lvls then snap.askQty i else snap₀.askQty i
  bidPrice i := if i ∈ lvls then snap.bidPrice i else snap₀.bidPrice i
  bidQty i := if i ∈ lvls then snap.bidQty i else snap₀.bidQty i

theorem overlay_nil (snap snap₀ : LobsterSnapshot) : overlay [] snap snap₀ = snap₀ := by
  simp [overlay]

theorem update_overlay {lvl : Fin kDepth} (lvls : List (Fin kDepth)) (g g₀ : Fin kDepth → UInt32) :
    (fun i => if i ∈ lvls then g i else Function.update g₀ lvl (g lvl) i) =
      fun i => if i ∈ lvl :: lvls then g i else g₀ i := by
  funext i
  by_cases hi : i = lvl
  · subst hi
    simp
  · simp [hi]

theorem overlay_finRange (snap : LobsterSnapshot) (snap₀ : LobsterSnapshot)
    (h : snap₀.timestampNs = snap.timestampNs) : overlay (List.finRange kDepth) snap snap₀ = snap := by
  simp [overlay, h]

/-- What the loop writes behind a level. -/
def behind (snap : LobsterSnapshot) (lvl : Fin kDepth) (lvls : List (Fin kDepth)) : List UInt8 :=
  (if lvl.val + 1 < kDepth then [comma] else []) ++ (levelsText snap lvls ++ [newline])

theorem levelsText_cons (snap : LobsterSnapshot) (lvl : Fin kDepth) (lvls : List (Fin kDepth)) :
    levelsText snap (lvl :: lvls) ++ [newline] =
      levelText (snap.askPrice lvl) (snap.askQty lvl) (snap.bidPrice lvl) (snap.bidQty lvl) ++
        behind snap lvl lvls := by
  simp [levelsText, behind]

theorem behind_eq (snap : LobsterSnapshot) {lvl : Fin kDepth} {lvls : List (Fin kDepth)}
    (hlt : (lvl :: lvls).Pairwise (· < ·)) :
    behind snap lvl lvls = comma :: (levelsText snap lvls ++ [newline]) ∨
      behind snap lvl lvls = [newline] ∧ lvls = [] := by
  unfold behind
  split_ifs with h
  · exact .inl rfl
  · cases lvls with
    | nil => exact .inr ⟨rfl, rfl⟩
    | cons lvl' lvls =>
      have hlt' : lvl < lvl' := (List.pairwise_cons.mp hlt).1 lvl' List.mem_cons_self
      have := lvl'.isLt
      omega

theorem ends_behind (snap : LobsterSnapshot) {lvl : Fin kDepth} {lvls : List (Fin kDepth)}
    (hlt : (lvl :: lvls).Pairwise (· < ·)) : Ends (behind snap lvl lvls) := by
  rcases behind_eq snap hlt with h | ⟨h, -⟩
  · exact .inl (by rw [h]; rfl)
  · exact .inr (by rw [h]; rfl)

theorem skipComma_behind (snap : LobsterSnapshot) {lvl : Fin kDepth} {lvls : List (Fin kDepth)}
    (hlt : (lvl :: lvls).Pairwise (· < ·)) :
    Scanner.skipComma (behind snap lvl lvls) = levelsText snap lvls ++ [newline] := by
  rcases behind_eq snap hlt with h | ⟨h, hnil⟩
  · rw [h]
    rfl
  · rw [h, hnil]
    rfl

namespace Sscanf.ReadsDecimals

theorem scanLevel_levelText (hf : f.ReadsDecimals) (askPx askSz bidPx bidSz : UInt32) {rest : List UInt8}
    (h : Ends rest) :
    (f.scanner fused).scanLevel (levelText askPx askSz bidPx bidSz ++ rest) =
      some (nearest 4 askPx.toNat, nearest 0 askSz.toNat, nearest 4 bidPx.toNat, nearest 0 bidSz.toNat,
        (levelText askPx askSz bidPx bidSz).length) := by
  have hprice : ∀ p : UInt32, Printed 4 p.toNat := fun p => ⟨by omega, p.toNat_lt.trans (by norm_num)⟩
  have hqty : ∀ q : UInt32, Printed 0 q.toNat := fun q => ⟨by omega, q.toNat_lt.trans (by norm_num)⟩
  rw [levelText_eq]
  exact hf.level _ _ _ _ _ _ _ _ rest (hprice askPx) (hqty askSz) (hprice bidPx) (hqty bidSz) h

/-- **The loop over the levels** reads what the loop over the levels wrote. -/
theorem levelLoop_written (hf : f.ReadsDecimals) (snap : LobsterSnapshot) {lvls : List (Fin kDepth)}
    (hlt : lvls.Pairwise (· < ·)) (snap₀ : LobsterSnapshot) :
    (f.scanner fused).levelLoop lvls (levelsText snap lvls ++ [newline]) snap₀ =
      some (overlay lvls snap snap₀) := by
  induction lvls generalizing snap₀ with
  | nil => rw [Scanner.levelLoop, overlay_nil]
  | cons lvl lvls ih =>
    rw [levelsText_cons, Scanner.levelLoop, hf.scanLevel_levelText _ _ _ _ (ends_behind snap hlt)]
    simp only [Sscanf.price_nearest, Sscanf.qty_nearest, List.drop_left]
    rw [skipComma_behind snap hlt, ih (List.pairwise_cons.mp hlt).2]
    simp only [overlay, update_overlay]

theorem snapshot_written (hf : f.ReadsDecimals) (snap : LobsterSnapshot) :
    (f.scanner fused).snapshot snap.timestampNs (orderbookLine snap) = some snap := by
  rw [Scanner.snapshot, orderbookLine, hf.levelLoop_written snap (List.pairwise_lt_finRange kDepth),
    overlay_finRange]
  rfl

theorem stamp_written (hf : f.ReadsDecimals) {snap : LobsterSnapshot} (h : snap.timestampNs.toNat < 2 ^ 48) :
    (f.scanner fused).stamp (messageLine (snapS snap)) = some snap.timestampNs := by
  have hscan : (f.scanner fused).scanTime (messageLine (snapS snap)) =
      some (nearest 9 snap.timestampNs.toNat) := by
    rw [messageLine, printFixed_snapS h, List.append_assoc]
    exact hf.time _ _ _ ⟨le_rfl, h⟩ (.inl rfl)
  rw [Scanner.stamp, hscan, Option.map_some, Sscanf.nanos_nearest h]

theorem rowLoop_written (hf : f.ReadsDecimals) (pre : List UInt64) (snaps : List LobsterSnapshot) :
    ((f.scanner fused).rowLoop (pre ++ snaps.map (·.timestampNs)) pre.length
      (snaps.map orderbookLine)).map Prod.snd = snaps := by
  induction snaps generalizing pre with
  | nil => rfl
  | cons snap snaps ih =>
    have hts : (pre ++ (snap :: snaps).map (·.timestampNs))[pre.length]? = some snap.timestampNs := by simp
    have hrest := ih (pre ++ [snap.timestampNs])
    rw [List.append_assoc, List.length_append, List.length_singleton] at hrest
    show ((f.scanner fused).rowLoop (pre ++ (snap :: snaps).map (·.timestampNs)) pre.length
      (orderbookLine snap :: snaps.map orderbookLine)).map Prod.snd = snap :: snaps
    rw [Scanner.rowLoop, hts]
    simp only [hf.snapshot_written, List.map_cons]
    exact congrArg (snap :: ·) hrest

end Sscanf.ReadsDecimals

/-! ## Files -/

theorem newline_not_mem_fixedPoint (k m : ℕ) : newline ∉ fixedPoint k m := by
  intro h
  rcases of_mem_fixedPoint h with h | h <;> cases h

theorem newline_not_mem_levelsText (snap : LobsterSnapshot) (lvls : List (Fin kDepth)) :
    newline ∉ levelsText snap lvls := by
  intro h
  obtain ⟨i, -, h⟩ := List.mem_flatMap.mp h
  rw [levelText_eq] at h
  have hcomma : newline ≠ comma := by decide
  split_ifs at h <;> simp [fields, newline_not_mem_fixedPoint, hcomma] at h

theorem newline_not_mem_messageTail : newline ∉ messageTail := by decide

theorem lines_orderbookFile (snaps : List LobsterSnapshot) :
    lines newline (orderbookFile snaps) = snaps.map orderbookLine :=
  lines_flatMap (fun snap => ⟨_, rfl, newline_not_mem_levelsText snap _⟩) snaps

theorem lines_messageFile (snaps : List LobsterSnapshot) :
    lines newline (messageFile snaps) = snaps.map fun snap => messageLine (snapS snap) := by
  refine lines_flatMap (fun snap => ⟨_, rfl, ?_⟩) snaps
  simp [printFixed, newline_not_mem_fixedPoint, newline_not_mem_messageTail]

theorem length_levelsText_le (snap : LobsterSnapshot) (lvls : List (Fin kDepth)) :
    (levelsText snap lvls).length ≤ 48 * lvls.length := by
  have hprice : ∀ p : UInt32, (fixedPoint 4 p.toNat).length ≤ 11 := fun p =>
    length_fixedPoint_le (j := 6) (by omega) (p.toNat_lt.trans (by norm_num))
  have hqty : ∀ q : UInt32, (fixedPoint 0 q.toNat).length ≤ 11 := fun q =>
    length_fixedPoint_le (j := 10) (by omega) (q.toNat_lt.trans (by norm_num))
  induction lvls with
  | nil => simp [levelsText]
  | cons lvl lvls ih =>
    have h₁ := hprice (snap.askPrice lvl)
    have h₂ := hqty (snap.askQty lvl)
    have h₃ := hprice (snap.bidPrice lvl)
    have h₄ := hqty (snap.bidQty lvl)
    have hcomma : (if lvl.val + 1 < kDepth then [comma] else []).length ≤ 1 := by
      split_ifs <;> simp
    rw [levelsText, List.flatMap_cons, ← levelsText, levelText_eq]
    simp only [fields, List.length_append, List.length_cons] at *
    omega

theorem fits_orderbookFile (snaps : List LobsterSnapshot) :
    LobsterValidator.Fits 4096 (some (orderbookFile snaps)) := by
  intro line hline
  rw [LobsterValidator.rows, Option.map_some, Option.getD_some, lines_orderbookFile] at hline
  obtain ⟨snap, -, rfl⟩ := List.mem_map.mp hline
  have h := length_levelsText_le snap (List.finRange kDepth)
  have hdepth : kDepth = 10 := rfl
  rw [List.length_finRange] at h
  rw [orderbookLine, List.length_append, List.length_singleton]
  omega

theorem fits_messageFile {snaps : List LobsterSnapshot}
    (hts : ∀ snap ∈ snaps, snap.timestampNs.toNat < 2 ^ 48) :
    LobsterValidator.Fits 512 (some (messageFile snaps)) := by
  intro line hline
  rw [LobsterValidator.rows, Option.map_some, Option.getD_some, lines_messageFile] at hline
  obtain ⟨snap, hsnap, rfl⟩ := List.mem_map.mp hline
  have h := length_fixedPoint_le (j := 6) (k := 9) (by omega) ((hts snap hsnap).trans (by norm_num))
  have htail : messageTail.length = 18 := rfl
  rw [messageLine, printFixed_snapS (hts snap hsnap), List.length_append, List.length_append,
    List.length_singleton, htail]
  omega

/-- **Snapshot files load as they were written.** Let `sscanf` read numbers in fixed point as the nearest
doubles. For every list of snapshots with 48-bit timestamps and arbitrary prices and sizes, `load` returns the
same snapshots in the same order from the files that `write_lobster_files` would write for them, whether or
not the compiler fuses the multiplications with the additions. -/
theorem load_written (f : Sscanf) (hf : f.ReadsDecimals) (fused : Bool) (snaps : List LobsterSnapshot)
    (hts : ∀ snap ∈ snaps, snap.timestampNs.toNat < 2 ^ 48) :
    (⟨[], []⟩ : LobsterValidator).load (f.scanner fused) (some (orderbookFile snaps))
      (some (messageFile snaps)) = (!snaps.isEmpty, ⟨snaps, snaps.map (·.timestampNs)⟩) := by
  have hstamps : (⟨[], []⟩ : LobsterValidator).stamps (f.scanner fused) (some (messageFile snaps)) =
      snaps.map (·.timestampNs) := by
    rw [LobsterValidator.stamps, LobsterValidator.rows, Option.map_some, Option.getD_some,
      lines_messageFile, List.nil_append, List.filterMap_map, ← List.filterMap_eq_map]
    exact List.filterMap_congr fun snap hsnap => hf.stamp_written (hts snap hsnap)
  have hrows := @Sscanf.ReadsDecimals.rowLoop_written f fused hf [] snaps
  rw [List.nil_append, List.length_nil] at hrows
  rw [LobsterValidator.load, LobsterValidator.loadMessages_some (fits_messageFile hts), hstamps]
  cases snaps with
  | nil => rfl
  | cons snap snaps =>
    simp only [List.map_cons, List.isEmpty_cons, Bool.not_false]
    rw [LobsterValidator.loadOrderbook, LobsterValidator.readLines_rows (fits_orderbookFile _),
      LobsterValidator.rows, Option.map_some, Option.getD_some, lines_orderbookFile]
    simp only [← List.map_cons (f := fun s : LobsterSnapshot => s.timestampNs)]
    rw [hrows]
    rfl

/-! ## Reading digits -/

/-- A comma at position `n` and the number behind it, with the position after it. -/
def readNext (text : List UInt8) (n : ℕ) : Option (ℚ × ℕ) :=
  if (text.drop n).head? = some comma then
    (readFixed (text.drop (n + 1))).map fun x => (roundDouble x.1, n + 1 + x.2)
  else none

/-- `sscanf` on texts without blanks, signs and exponents. -/
def decimals : Sscanf where
  time text := (readFixed text).map fun x => roundDouble x.1
  level text := do
    let (a, n) ← readFixed text
    let (b, n) ← readNext text n
    let (c, n) ← readNext text n
    let (d, n) ← readNext text n
    some (roundDouble a, b, c, d, n)

theorem Ends.stops {rest : List UInt8} (h : Ends rest) : Stops rest := by
  intro ch hch
  have hch' : rest.head? = some ch := hch
  rcases h with h | h <;>
  · rw [h] at hch'
    cases hch'
    exact ⟨rfl, by decide⟩

theorem ends_comma (rest : List UInt8) : Ends (comma :: rest) := .inl rfl

theorem readNext_fixedPoint (pre : List UInt8) (k m : ℕ) {rest : List UInt8} (h : Ends rest) :
    readNext (pre ++ comma :: (fixedPoint k m ++ rest)) pre.length =
      some (nearest k m, (pre ++ comma :: fixedPoint k m).length) := by
  have hdrop : (pre ++ comma :: (fixedPoint k m ++ rest)).drop (pre.length + 1) = fixedPoint k m ++ rest := by
    simp [List.drop_append]
  rw [readNext, List.drop_left, List.head?_cons, if_pos rfl, hdrop, readFixed_fixedPoint k m h.stops]
  simp [nearest]
  omega

theorem readsDecimals_decimals : decimals.ReadsDecimals where
  time k m rest _ h := by
    show (readFixed (fixedPoint k m ++ rest)).map (fun x => roundDouble x.1) = _
    rw [readFixed_fixedPoint k m h.stops]
    rfl
  level k₁ m₁ k₂ m₂ k₃ m₃ k₄ m₄ rest _ _ _ _ h := by
    have h₁ := readFixed_fixedPoint k₁ m₁ (ends_comma (fixedPoint k₂ m₂ ++ comma :: (fixedPoint k₃ m₃ ++
      comma :: (fixedPoint k₄ m₄ ++ rest)))).stops
    have h₂ := readNext_fixedPoint (fixedPoint k₁ m₁) k₂ m₂ (ends_comma (fixedPoint k₃ m₃ ++
      comma :: (fixedPoint k₄ m₄ ++ rest)))
    have h₃ := readNext_fixedPoint (fixedPoint k₁ m₁ ++ comma :: fixedPoint k₂ m₂) k₃ m₃
      (ends_comma (fixedPoint k₄ m₄ ++ rest))
    have h₄ := readNext_fixedPoint
      (fixedPoint k₁ m₁ ++ comma :: fixedPoint k₂ m₂ ++ comma :: fixedPoint k₃ m₃) k₄ m₄ h
    simp only [List.append_assoc, List.cons_append] at h₁ h₂ h₃ h₄
    simp only [decimals, fields, List.append_assoc, List.cons_append, h₁, h₂, h₃, h₄, Option.bind_eq_bind,
      Option.bind_some]
    rfl

/-- A bid of 500 shares at $150.00 and an ask of 300 at $150.01, after 100 ms. -/
def perfectMatch : LobsterSnapshot where
  timestampNs := 100000000
  askPrice := Fin.cons 1500100 fun _ => 0
  askQty := Fin.cons 300 fun _ => 0
  bidPrice := Fin.cons 1500000 fun _ => 0
  bidQty := Fin.cons 500 fun _ => 0

theorem load_written_perfectMatch :
    (⟨[], []⟩ : LobsterValidator).load (decimals.scanner true) (some (orderbookFile [perfectMatch]))
      (some (messageFile [perfectMatch])) = (true, ⟨[perfectMatch], [100000000]⟩) :=
  load_written decimals readsDecimals_decimals true [perfectMatch] (by decide)

end L2Book
