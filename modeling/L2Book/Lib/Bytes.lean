import Mathlib.Data.List.Basic
import Mathlib.Data.Nat.Bitwise
import Mathlib.Data.UInt
import Mathlib.Tactic.Ring

/-!
# Big-endian byte strings

* `ofBE`, `toBE w`: the number of a byte string and the `w` bytes of a number, most significant first;
  `ofBE_toBE`, `toBE_ofBE`;
* `testBit_ofBE`: its bits; `toNat_foldl_shift`: assembled in a 64-bit word;
* `slice`: a part of a buffer;
* `packBE`, `readBE`: fields of given widths one behind the other; **`readBE_packBE`**, **`packBE_readBE`**:
  reading undoes packing and back.
-/

namespace L2Book

/-! ## Numbers -/

/-- The number of a byte string, most significant byte first. -/
def ofBE (l : List UInt8) : ℕ := l.foldl (fun v b => v * 256 + b.toNat) 0

/-- The `w` low bytes of `v`, most significant first. -/
def toBE : ℕ → ℕ → List UInt8
  | 0, _ => []
  | w + 1, v => toBE w (v / 256) ++ [UInt8.ofNat v]

@[simp] theorem ofBE_nil : ofBE [] = 0 := rfl

theorem ofBE_snoc (l : List UInt8) (b : UInt8) : ofBE (l ++ [b]) = ofBE l * 256 + b.toNat := by
  unfold ofBE
  rw [List.foldl_append, List.foldl_cons, List.foldl_nil]

@[simp] theorem length_toBE (w v : ℕ) : (toBE w v).length = w := by
  induction w generalizing v with
  | zero => rfl
  | succ w ih => rw [toBE, List.length_append, ih, List.length_singleton]

theorem ofBE_lt (l : List UInt8) : ofBE l < 256 ^ l.length := by
  induction l using List.reverseRecOn with
  | nil => exact Nat.one_pos
  | append_singleton l b ih =>
    have hb := b.toNat_lt
    rw [ofBE_snoc, List.length_append, List.length_singleton, pow_succ]
    omega

theorem ofBE_toBE (w v : ℕ) : ofBE (toBE w v) = v % 256 ^ w := by
  induction w generalizing v with
  | zero => rw [toBE, ofBE_nil, pow_zero, Nat.mod_one]
  | succ w ih =>
    have hb : (UInt8.ofNat v).toNat = v % 256 := UInt8.toNat_ofNat'
    rw [toBE, ofBE_snoc, ih, hb, pow_succ', Nat.mod_mul]
    ring

theorem ofBE_toBE_of_lt {w v : ℕ} (h : v < 256 ^ w) : ofBE (toBE w v) = v := by
  rw [ofBE_toBE, Nat.mod_eq_of_lt h]

theorem toBE_ofBE (l : List UInt8) : toBE l.length (ofBE l) = l := by
  induction l using List.reverseRecOn with
  | nil => rfl
  | append_singleton l b ih =>
    have hb := b.toNat_lt
    have hdiv : (ofBE l * 256 + b.toNat) / 256 = ofBE l := by omega
    have hlow : UInt8.ofNat (ofBE l * 256 + b.toNat) = b := by
      rw [← UInt8.toNat_inj, UInt8.toNat_ofNat']
      omega
    rw [List.length_append, List.length_singleton, toBE, ofBE_snoc, hdiv, ih, hlow]

/-- The bits of the number are those of the bytes, counted from the end. -/
theorem testBit_ofBE (l : List UInt8) (j : ℕ) :
    (ofBE l).testBit j = (l.reverse.getD (j / 8) 0).toNat.testBit (j % 8) := by
  induction l using List.reverseRecOn generalizing j with
  | nil => simp
  | append_singleton l b ih =>
    have hb : b.toNat < 2 ^ 8 := b.toNat_lt
    have hval : ofBE (l ++ [b]) = 2 ^ 8 * ofBE l + b.toNat := by
      rw [ofBE_snoc]
      ring
    rw [hval, Nat.testBit_two_pow_mul_add _ hb, List.reverse_append, List.reverse_singleton,
      List.singleton_append]
    split_ifs with hj
    · have hdiv : j / 8 = 0 := by omega
      have hmod : j % 8 = j := by omega
      rw [hdiv, hmod, List.getD_cons_zero]
    · have hdiv : j / 8 = (j - 8) / 8 + 1 := by omega
      have hmod : j % 8 = (j - 8) % 8 := by omega
      rw [ih, hdiv, hmod, List.getD_cons_succ]

/-- Shifting the bytes into a 64-bit word, one after the other, assembles the same number. -/
theorem toNat_foldl_shift {l : List UInt8} (h : l.length ≤ 8) :
    (l.foldl (fun (v : UInt64) b => (v <<< 8) ||| b.toUInt64) 0).toNat = ofBE l := by
  induction l using List.reverseRecOn with
  | nil => rfl
  | append_singleton l b ih =>
    rw [List.length_append, List.length_singleton] at h
    have hl : ofBE l < 256 ^ 7 :=
      lt_of_lt_of_le (ofBE_lt l) (Nat.pow_le_pow_right (by decide) (by omega))
    have hshift : ∀ v : UInt64, (v <<< 8).toNat = v.toNat <<< 8 % 2 ^ 64 := fun v =>
      UInt64.toNat_shiftLeft v 8
    have hfit : ofBE l <<< 8 < 2 ^ 64 := by
      rw [Nat.shiftLeft_eq]
      omega
    rw [List.foldl_append, List.foldl_cons, List.foldl_nil, ofBE_snoc, UInt64.toNat_or, hshift,
      ih (by omega), UInt8.toNat_toUInt64, Nat.mod_eq_of_lt hfit,
      ← Nat.shiftLeft_add_eq_or_of_lt b.toNat_lt, Nat.shiftLeft_eq]

/-! ## Slices -/

/-- The `w` bytes from offset `i`. -/
def slice (data : List UInt8) (i w : ℕ) : List UInt8 := (data.drop i).take w

theorem length_slice {data : List UInt8} {i w : ℕ} (h : i + w ≤ data.length) :
    (slice data i w).length = w := by
  rw [slice, List.length_take, List.length_drop]
  omega

theorem slice_append (data : List UInt8) (i w w' : ℕ) :
    slice data i w ++ slice data (i + w) w' = slice data i (w + w') := by
  unfold slice
  rw [List.take_add, List.drop_drop]

theorem getD_slice {data : List UInt8} {i w k : ℕ} (h : k < w) :
    (slice data i w).getD k 0 = data.getD (i + k) 0 := by
  simp [slice, List.getD_eq_getElem?_getD, h]

theorem testBit_ofBE_slice {data : List UInt8} {i w : ℕ} (h : i + w ≤ data.length) (j : ℕ) :
    (ofBE (slice data i w)).testBit j =
      (decide (j / 8 < w) && (data.getD (i + (w - 1 - j / 8)) 0).toNat.testBit (j % 8)) := by
  have hlen := length_slice h
  rw [testBit_ofBE]
  by_cases hj : j / 8 < w
  · have hrev : (slice data i w).reverse.getD (j / 8) 0 = (slice data i w).getD (w - 1 - j / 8) 0 := by
      rw [List.getD_eq_getElem?_getD, List.getD_eq_getElem?_getD,
        List.getElem?_reverse (by omega), hlen]
    rw [hrev, getD_slice (by omega), decide_eq_true hj, Bool.true_and]
  · have hnone : (slice data i w).reverse.getD (j / 8) 0 = 0 := by
      rw [List.getD_eq_getElem?_getD, List.getElem?_eq_none (by rw [List.length_reverse]; omega)]
      rfl
    rw [hnone, decide_eq_false hj, Bool.false_and]
    exact Nat.zero_testBit _

/-! ## Packed fields -/

/-- Fields of given widths and values, one behind the other. -/
def packBE (fs : List (ℕ × ℕ)) : List UInt8 := fs.flatMap fun f => toBE f.1 f.2

/-- The fields of given widths from offset `i` on. -/
def readBE (data : List UInt8) : ℕ → List ℕ → List (ℕ × ℕ)
  | _, [] => []
  | i, w :: ws => (w, ofBE (slice data i w)) :: readBE data (i + w) ws

theorem length_packBE (fs : List (ℕ × ℕ)) : (packBE fs).length = (fs.map Prod.fst).sum := by
  induction fs with
  | nil => rfl
  | cons f fs ih =>
    rw [packBE, List.flatMap_cons, List.length_append, length_toBE, List.map_cons, List.sum_cons, ← ih]
    rfl

/-- **Reading undoes packing.** -/
theorem readBE_packBE {fs : List (ℕ × ℕ)} (h : ∀ f ∈ fs, f.2 < 256 ^ f.1) (pre rest : List UInt8) :
    readBE (pre ++ (packBE fs ++ rest)) pre.length (fs.map Prod.fst) = fs := by
  induction fs generalizing pre with
  | nil => rfl
  | cons f fs ih =>
    have hpack : packBE (f :: fs) ++ rest = toBE f.1 f.2 ++ (packBE fs ++ rest) := by
      rw [packBE, List.flatMap_cons, List.append_assoc]
      rfl
    have hfirst : slice (pre ++ (toBE f.1 f.2 ++ (packBE fs ++ rest))) pre.length f.1 =
        toBE f.1 f.2 := by
      rw [slice, List.drop_left, List.take_left' (length_toBE _ _)]
    have hrest := ih (fun g hg => h g (List.mem_cons_of_mem _ hg)) (pre ++ toBE f.1 f.2)
    rw [List.length_append, length_toBE, List.append_assoc] at hrest
    rw [hpack, List.map_cons, readBE, hfirst, hrest, ofBE_toBE_of_lt (h f List.mem_cons_self)]

theorem packBE_inj {fs gs : List (ℕ × ℕ)} (hf : ∀ f ∈ fs, f.2 < 256 ^ f.1)
    (hg : ∀ g ∈ gs, g.2 < 256 ^ g.1) (hw : fs.map Prod.fst = gs.map Prod.fst)
    (h : packBE fs = packBE gs) : fs = gs := by
  have hfs := readBE_packBE hf [] []
  have hgs := readBE_packBE hg [] []
  rw [hw, h] at hfs
  exact hfs.symm.trans hgs

/-- **Packing undoes reading.** -/
theorem packBE_readBE {data : List UInt8} {i : ℕ} {ws : List ℕ} (h : i + ws.sum ≤ data.length) :
    packBE (readBE data i ws) = slice data i ws.sum := by
  induction ws generalizing i with
  | nil => simp [readBE, packBE, slice]
  | cons w ws ih =>
    rw [List.sum_cons] at h
    have hfirst : toBE w (ofBE (slice data i w)) = slice data i w := by
      have hround := toBE_ofBE (slice data i w)
      rwa [length_slice (by omega)] at hround
    rw [readBE, packBE, List.flatMap_cons, hfirst, List.sum_cons, ← slice_append]
    exact congrArg _ (ih (by omega))

end L2Book
