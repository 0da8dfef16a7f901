import Mathlib.Data.List.Basic

/-!
# Lines of a text

* `lines`: a text cut behind every separator;
* `fgets`: one read of at most `room` characters, up to the first separator; `readLines`: reads up to the
  end of the text;
* **`readLines_eq`**: the reads are the lines, if these fit; `lines_flatMap`: those of a text written line by
  line;
* `getElem?_filterMap`: where a kept element stands.
-/

namespace L2Book

variable {α β : Type}

/-! ## Reading lines -/

section Lines

variable [DecidableEq α] {sep : α}

/-- The lines of a text, each with its separator. -/
def lines (sep : α) : List α → List (List α)
  | [] => []
  | ch :: text =>
    if ch = sep then [ch] :: lines sep text
    else match lines sep text with
      | [] => [[ch]]
      | l :: ls => (ch :: l) :: ls

/-- At most `room` characters, up to the first separator, and the rest of the text. -/
def fgets (sep : α) : ℕ → List α → List α × List α
  | 0, text => ([], text)
  | _ + 1, [] => ([], [])
  | room + 1, ch :: text =>
    if ch = sep then ([ch], text) else (ch :: (fgets sep room text).1, (fgets sep room text).2)

theorem fgets_length_le (room : ℕ) (text : List α) : (fgets sep room text).2.length ≤ text.length := by
  induction text generalizing room with
  | nil => cases room <;> exact Nat.le_refl _
  | cons ch text ih =>
    cases room with
    | zero => exact Nat.le_refl _
    | succ room =>
      rw [fgets]
      split_ifs
      · exact Nat.le_succ _
      · exact Nat.le_trans (ih room) (Nat.le_succ _)

theorem fgets_length_lt (sep : α) (room : ℕ) (ch : α) (text : List α) :
    (fgets sep (room + 1) (ch :: text)).2.length < (ch :: text).length := by
  rw [fgets]
  split_ifs
  · exact Nat.lt_succ_self _
  · exact Nat.lt_succ_of_le (fgets_length_le room text)

/-- All reads into a buffer of `room + 2` characters, the last of them for the terminator. -/
def readLines (sep : α) (room : ℕ) : List α → List (List α)
  | [] => []
  | ch :: text =>
    (fgets sep (room + 1) (ch :: text)).1 :: readLines sep room (fgets sep (room + 1) (ch :: text)).2
termination_by text => text.length
decreasing_by exact fgets_length_lt sep room ch text

theorem lines_ne_nil (sep ch : α) (text : List α) : lines sep (ch :: text) ≠ [] := by
  rw [lines]
  split_ifs
  · exact List.cons_ne_nil _ _
  · split <;> exact List.cons_ne_nil _ _

/-- A read returns a line that fits, and leaves the others. -/
theorem fgets_eq {room : ℕ} {text l : List α} {ls : List (List α)} (h : lines sep text = l :: ls)
    (hfit : l.length ≤ room) : (fgets sep room text).1 = l ∧ lines sep (fgets sep room text).2 = ls := by
  induction text generalizing room l with
  | nil => cases h
  | cons ch text ih =>
    rw [lines] at h
    split_ifs at h with hsep
    · cases h
      cases room with
      | zero => exact absurd hfit (by simp)
      | succ room =>
        rw [fgets, if_pos hsep]
        exact ⟨rfl, rfl⟩
    · cases hlines : lines sep text with
      | nil =>
        rw [hlines] at h
        cases h
        have hnil : text = [] := by
          cases text with
          | nil => rfl
          | cons ch' text => exact absurd hlines (lines_ne_nil sep ch' text)
        cases room with
        | zero => exact absurd hfit (by simp)
        | succ room =>
          rw [fgets, if_neg hsep, hnil]
          cases room <;> exact ⟨rfl, rfl⟩
      | cons l' ls' =>
        rw [hlines] at h
        cases h
        cases room with
        | zero => exact absurd hfit (by simp)
        | succ room =>
          obtain ⟨hfst, hsnd⟩ := ih hlines (Nat.le_of_succ_le_succ hfit)
          rw [fgets, if_neg hsep, hfst]
          exact ⟨rfl, hsnd⟩

/-- **The reads are the lines**, if these fit. -/
theorem readLines_eq {room : ℕ} {text : List α} (hfit : ∀ l ∈ lines sep text, l.length ≤ room + 1) :
    readLines sep room text = lines sep text := by
  fun_induction readLines sep room text with
  | case1 => rfl
  | case2 ch text ih =>
    obtain ⟨l, ls, hlines⟩ := List.exists_cons_of_ne_nil (lines_ne_nil sep ch text)
    rw [hlines] at hfit ⊢
    obtain ⟨hfst, hsnd⟩ := fgets_eq hlines (hfit l List.mem_cons_self)
    rw [hfst, ih, hsnd]
    rw [hsnd]
    exact fun l' hl' => hfit l' (List.mem_cons_of_mem _ hl')

theorem lines_append {l : List α} (h : sep ∉ l) (text : List α) :
    lines sep (l ++ sep :: text) = (l ++ [sep]) :: lines sep text := by
  induction l with
  | nil => simp [lines]
  | cons ch l ih =>
    have hne : ch ≠ sep := fun he => h (he ▸ List.mem_cons_self)
    simp [lines, hne, ih fun hm => h (List.mem_cons_of_mem _ hm)]

theorem lines_flatMap {f : β → List α} (hf : ∀ b, ∃ l, f b = l ++ [sep] ∧ sep ∉ l) (bs : List β) :
    lines sep (bs.flatMap f) = bs.map f := by
  induction bs with
  | nil => rfl
  | cons b bs ih =>
    obtain ⟨l, hl, hsep⟩ := hf b
    rw [List.flatMap_cons, List.map_cons, hl, List.append_assoc, List.singleton_append,
      lines_append hsep, ih]

end Lines

/-! ## Kept elements -/

/-- An element that `f` keeps stands behind the kept ones before it. -/
theorem getElem?_filterMap {f : α → Option β} {l : List α} {i : ℕ} {a : α} {b : β} (ha : l[i]? = some a)
    (hb : f a = some b) : (l.filterMap f)[(l.take i).countP fun a => (f a).isSome]? = some b := by
  induction l generalizing i with
  | nil => cases ha
  | cons a' l ih =>
    cases i with
    | zero =>
      cases ha
      rw [List.filterMap_cons_some hb]
      rfl
    | succ i =>
      have hrest := ih ha
      rw [List.take_succ_cons, List.countP_cons]
      cases hkeep : f a' with
      | none =>
        rw [List.filterMap_cons_none hkeep]
        exact hrest
      | some b' =>
        rw [List.filterMap_cons_some hkeep]
        exact hrest

end L2Book
