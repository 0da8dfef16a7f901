import Mathlib.Data.Fintype.Card
import Mathlib.Algebra.BigOperators.Group.List.Basic
import L2Book.Book.Model

/-!
# Price levels as linked lists

* `links h`: the links of the order heap; `SameData h h'`: an operation rewrites links and cached
  indices only;
* `LevelRep h lvl l`: the level's cells are `l`, from head to tail, its count and total are those of
  `l` in 32-bit and 64-bit arithmetic;
* `LevelRep.addOrder`, `LevelRep.removeOrder`, `LevelRep.reduceShares`: one specification per
  `PriceLevel` operation;
* `LevelRep.count_toNat`, `LevelRep.qty_toNat`: with fewer than `2 ^ 32` orders both counters are
  exact.
-/

namespace L2Book

variable {n : ℕ}

/-- The links of the order heap. -/
def links (h : Fin n → Order n) : Links (Fin n) := ⟨fun p => (h p).next, fun p => (h p).prev⟩

/-- The fields that come from messages agree. -/
structure SameData (h h' : Fin n → Order n) : Prop where
  orderRef : ∀ p, (h' p).orderRef = (h p).orderRef
  shares : ∀ p, (h' p).shares = (h p).shares
  price : ∀ p, (h' p).price = (h p).price
  side : ∀ p, (h' p).side = (h p).side

theorem SameData.refl (h : Fin n → Order n) : SameData h h :=
  ⟨fun _ => rfl, fun _ => rfl, fun _ => rfl, fun _ => rfl⟩

theorem SameData.trans {h h' h'' : Fin n → Order n} (h₁ : SameData h h') (h₂ : SameData h' h'') :
    SameData h h'' :=
  ⟨fun p => (h₂.orderRef p).trans (h₁.orderRef p), fun p => (h₂.shares p).trans (h₁.shares p),
    fun p => (h₂.price p).trans (h₁.price p), fun p => (h₂.side p).trans (h₁.side p)⟩

@[simp] theorem modify_self (h : Fin n → Order n) (o : Fin n) (f : Order n → Order n) :
    modify h o f o = f (h o) := Function.update_self ..

theorem modify_of_ne (h : Fin n → Order n) {o p : Fin n} (hp : p ≠ o) (f : Order n → Order n) :
    modify h o f p = h p := Function.update_of_ne hp _ _

theorem modify_apply (h : Fin n → Order n) (o : Fin n) (f : Order n → Order n) (p : Fin n) :
    modify h o f p = if p = o then f (h p) else h p := by
  by_cases hp : p = o
  · subst hp; simp
  · simp [modify_of_ne h hp, hp]

theorem sameData_modify (h : Fin n → Order n) (o : Fin n) {f : Order n → Order n}
    (hf : (f (h o)).orderRef = (h o).orderRef ∧ (f (h o)).shares = (h o).shares ∧
      (f (h o)).price = (h o).price ∧ (f (h o)).side = (h o).side) :
    SameData h (modify h o f) := by
  obtain ⟨h₁, h₂, h₃, h₄⟩ := hf
  constructor <;> intro p <;> rw [modify_apply] <;> split_ifs with hp
  all_goals first | rfl | (subst hp; assumption)

/-! ## Representation of a level -/

/-- The sum of the shares of the orders `l`. -/
def sharesSum (h : Fin n → Order n) (l : List (Fin n)) : ℕ := (l.map fun p => (h p).shares.toNat).sum

theorem sharesSum_append (h : Fin n → Order n) (l l' : List (Fin n)) :
    sharesSum h (l ++ l') = sharesSum h l + sharesSum h l' := by simp [sharesSum]

theorem sharesSum_erase (h : Fin n → Order n) {l : List (Fin n)} {o : Fin n} (ho : o ∈ l) :
    sharesSum h (l.erase o) = sharesSum h l - (h o).shares.toNat := by
  have := ((List.perm_cons_erase ho).map fun p => (h p).shares.toNat).sum_eq
  simp only [List.map_cons, List.sum_cons] at this
  unfold sharesSum
  omega

theorem shares_le_sharesSum (h : Fin n → Order n) {l : List (Fin n)} {o : Fin n} (ho : o ∈ l) :
    (h o).shares.toNat ≤ sharesSum h l := by
  have := ((List.perm_cons_erase ho).map fun p => (h p).shares.toNat).sum_eq
  simp only [List.map_cons, List.sum_cons] at this
  unfold sharesSum
  omega

theorem sharesSum_congr {h h' : Fin n → Order n} {l : List (Fin n)}
    (hs : ∀ p ∈ l, (h' p).shares = (h p).shares) : sharesSum h' l = sharesSum h l := by
  unfold sharesSum
  rw [List.map_congr_left fun p hp => by rw [hs p hp]]

theorem sharesSum_le (h : Fin n → Order n) (l : List (Fin n)) :
    sharesSum h l ≤ l.length * (2 ^ 32 - 1) := by
  induction l with
  | nil => simp [sharesSum]
  | cons p l ih =>
    have hp := (h p).shares.toNat_lt
    simp only [sharesSum, List.map_cons, List.sum_cons, List.length_cons] at ih ⊢
    rw [Nat.add_mul]
    omega

/-- **The level holds the orders `l`**, head first. -/
structure LevelRep (h : Fin n → Order n) (lvl : PriceLevel n) (l : List (Fin n)) : Prop where
  list : (links h).IsList lvl.head lvl.tail l
  count : lvl.orderCount = UInt32.ofNat l.length
  qty : lvl.totalQty = UInt64.ofNat (sharesSum h l)

theorem levelRep_nil (h : Fin n → Order n) : LevelRep h {} [] :=
  ⟨Links.isList_nil _, rfl, rfl⟩

theorem LevelRep.congr {h h' : Fin n → Order n} {lvl : PriceLevel n} {l : List (Fin n)}
    (hn : ∀ p ∈ l, (h' p).next = (h p).next) (hp : ∀ p ∈ l, (h' p).prev = (h p).prev)
    (hs : ∀ p ∈ l, (h' p).shares = (h p).shares) (hr : LevelRep h lvl l) : LevelRep h' lvl l :=
  ⟨Links.IsList.congr (L := links h) hn hp hr.list, hr.count, by rw [hr.qty, sharesSum_congr hs]⟩

theorem LevelRep.length_le {h : Fin n → Order n} {lvl : PriceLevel n} {l : List (Fin n)}
    (hr : LevelRep h lvl l) : l.length ≤ n := by
  simpa using hr.list.nodup.length_le_card

section Exact

variable {h : Fin n → Order n} {lvl : PriceLevel n} {l : List (Fin n)}

theorem LevelRep.count_toNat (hr : LevelRep h lvl l) (hl : l.length < 2 ^ 32) :
    lvl.orderCount.toNat = l.length := by
  rw [hr.count, UInt32.toNat_ofNat_of_lt' (by simpa [UInt32.size] using hl)]

theorem sharesSum_lt (hl : l.length < 2 ^ 32) : sharesSum h l < 2 ^ 64 := by
  have h₁ := sharesSum_le h l
  have h₂ : l.length * (2 ^ 32 - 1) ≤ 2 ^ 32 * (2 ^ 32 - 1) := Nat.mul_le_mul_right _ (by omega)
  omega

theorem LevelRep.qty_toNat (hr : LevelRep h lvl l) (hl : l.length < 2 ^ 32) :
    lvl.totalQty.toNat = sharesSum h l := by
  have := sharesSum_lt (h := h) hl
  rw [hr.qty, UInt64.toNat_ofNat_of_lt' (by simpa [UInt64.size] using this)]

theorem LevelRep.empty_iff (hr : LevelRep h lvl l) (hl : l.length < 2 ^ 32) :
    lvl.empty = true ↔ l = [] := by
  rw [PriceLevel.empty, beq_iff_eq, ← UInt32.toNat_inj, hr.count_toNat hl]
  simp

end Exact

/-! ## The heap operations -/

/-- The heap with its links replaced. -/
def withLinks (h : Fin n → Order n) (L : Links (Fin n)) : Fin n → Order n :=
  fun p => { h p with next := L.next p, prev := L.prev p }

@[simp] theorem links_withLinks (h : Fin n → Order n) (L : Links (Fin n)) :
    links (withLinks h L) = L := rfl

theorem sameData_withLinks (h : Fin n → Order n) (L : Links (Fin n)) :
    SameData h (withLinks h L) := ⟨fun _ => rfl, fun _ => rfl, fun _ => rfl, fun _ => rfl⟩

@[simp] theorem levelIdx_withLinks (h : Fin n → Order n) (L : Links (Fin n)) (p : Fin n) :
    (withLinks h L p).levelIdx = (h p).levelIdx := rfl

theorem withLinks_of_eq {h : Fin n → Order n} {L : Links (Fin n)} {p : Fin n}
    (hp : L.next p = (h p).next ∧ L.prev p = (h p).prev) : withLinks h L p = h p := by
  unfold withLinks
  rw [hp.1, hp.2]

theorem links_modify_data (h : Fin n → Order n) (o : Fin n) {f : Order n → Order n}
    (hn : (f (h o)).next = (h o).next) (hp : (f (h o)).prev = (h o).prev) :
    links (modify h o f) = links h := by
  unfold links
  congr 1 <;> funext p <;> rw [modify_apply] <;> split_ifs with e
  all_goals first | rfl | (subst e; assumption)

/-! ## Appending -/

theorem addOrder_heap (lvl : PriceLevel n) (h : Fin n → Order n) (o : Fin n) :
    (lvl.addOrder h o).2 = withLinks h ((links h).append lvl.tail o) := by
  funext p
  unfold PriceLevel.addOrder withLinks links Links.append
  cases hl : lvl.tail with
  | none =>
    simp only [modify_apply, reduceCtorEq, if_false]
    split_ifs <;> rfl
  | some t =>
    simp only [modify_apply, Option.some.injEq, eq_comm (a := t)]
    split_ifs <;> rfl

theorem addOrder_level (lvl : PriceLevel n) (h : Fin n → Order n) (o : Fin n) :
    (lvl.addOrder h o).1 =
      { totalQty := lvl.totalQty + (h o).shares.toUInt64, orderCount := lvl.orderCount + 1,
        head := if lvl.tail = none then some o else lvl.head, tail := some o } := by
  unfold PriceLevel.addOrder
  cases hl : lvl.tail with
  | none => simp
  | some t =>
    simp only [modify_apply, reduceCtorEq, if_false]
    split_ifs <;> rfl

/-- **Appending an order to a level.** -/
theorem LevelRep.addOrder {h : Fin n → Order n} {lvl : PriceLevel n} {l : List (Fin n)} {o : Fin n}
    (hr : LevelRep h lvl l) (ho : o ∉ l) :
    LevelRep (lvl.addOrder h o).2 (lvl.addOrder h o).1 (l ++ [o]) := by
  rw [addOrder_heap, addOrder_level]
  have hhead : (if lvl.tail = none then some o else lvl.head) = lvl.head.or (some o) := by
    rw [hr.list.head, hr.list.tail]
    cases l <;> simp
  refine ⟨?_, ?_, ?_⟩
  · simp only [links_withLinks, hhead]
    exact hr.list.append ho
  · simp only [hr.count, List.length_append, UInt32.ofNat_add]
    rfl
  · rw [sharesSum_congr fun p _ => (sameData_withLinks h _).shares p, sharesSum_append,
      UInt64.ofNat_add, ← hr.qty]
    simp [sharesSum]

/-! ## Unlinking -/

theorem check_ok {b : Build} {c : Prop} [Decidable c] (h : b = .debug → c) : b.check c = .ok () := by
  unfold Build.check
  rw [if_neg]
  rintro ⟨hb, hc⟩
  exact hc (h hb)

/-- `removeOrder` joins the neighbours of the order, when no link of it points to itself. -/
theorem removeOrder_eq {b : Build} {lvl : PriceLevel n} {h : Fin n → Order n} {o : Fin n}
    (h₁ : b = .debug → lvl.orderCount > 0) (h₂ : b = .debug → lvl.totalQty ≥ (h o).shares.toUInt64)
    (hp : (h o).prev ≠ some o) (hn : (h o).next ≠ some o) :
    lvl.removeOrder b h o = .ok
      ({ totalQty := lvl.totalQty - (h o).shares.toUInt64, orderCount := lvl.orderCount - 1,
         head := if (h o).prev = none then (h o).next else lvl.head,
         tail := if (h o).next = none then (h o).prev else lvl.tail },
       withLinks h ((links h).unlink o)) := by
  have heap : ∀ p, withLinks h ((links h).unlink o) p =
      if p = o then { h o with next := none, prev := none }
      else { h p with next := if (h o).prev = some p then (h o).next else (h p).next,
                      prev := if (h o).next = some p then (h o).prev else (h p).prev } := by
    intro p
    by_cases hpo : p = o
    · subst hpo; simp [withLinks, links, Links.unlink]
    · simp only [withLinks, links, Links.unlink, hpo, if_false]
      congr
  unfold PriceLevel.removeOrder
  simp only [check_ok h₁, check_ok h₂, bind, Except.bind]
  cases hprev : (h o).prev with
  | none =>
    cases hnext : (h o).next with
    | none =>
      simp only [hprev, if_true]
      refine congrArg Except.ok (Prod.ext rfl (funext fun p => ?_))
      simp only [heap, modify_apply, hprev, hnext]
      split_ifs <;> simp_all
    | some q =>
      have hoq : o ≠ q := fun e => hn (by rw [hnext, e])
      simp only [hprev, modify_of_ne _ hoq, if_true, reduceCtorEq, if_false]
      refine congrArg Except.ok (Prod.ext rfl (funext fun p => ?_))
      simp only [heap, modify_apply, hprev, hnext]
      split_ifs <;> simp_all
  | some q =>
    have hop : o ≠ q := fun e => hp (by rw [hprev, e])
    cases hnext : (h o).next with
    | none =>
      simp only [hprev, hnext, modify_of_ne _ hop, if_true, reduceCtorEq, if_false]
      refine congrArg Except.ok (Prod.ext rfl (funext fun p => ?_))
      simp only [heap, modify_apply, hprev, hnext]
      split_ifs <;> simp_all
    | some q' =>
      have hoq : o ≠ q' := fun e => hn (by rw [hnext, e])
      simp only [hprev, hnext, modify_of_ne _ hop, modify_of_ne _ hoq, reduceCtorEq, if_false]
      refine congrArg Except.ok (Prod.ext rfl (funext fun p => ?_))
      simp only [heap, modify_apply, hprev, hnext]
      split_ifs <;> simp_all

/-- **Unlinking an order from a level.** The assertions hold when the counters cannot wrap. -/
theorem LevelRep.removeOrder {b : Build} {h : Fin n → Order n} {lvl : PriceLevel n}
    {l : List (Fin n)} {o : Fin n} (hb : b = .debug → l.length < 2 ^ 32) (hr : LevelRep h lvl l)
    (ho : o ∈ l) :
    ∃ lvl', lvl.removeOrder b h o = .ok (lvl', withLinks h ((links h).unlink o)) ∧
      LevelRep (withLinks h ((links h).unlink o)) lvl' (l.erase o) := by
  have hne : (h o).prev ≠ some o ∧ (h o).next ≠ some o := by
    obtain ⟨l₁, l₂, rfl⟩ := List.append_of_mem ho
    obtain ⟨h₁, h₂⟩ := hr.list.links_mid
    have hnd := hr.list.nodup
    rw [List.nodup_append, List.nodup_cons] at hnd
    refine ⟨fun e => ?_, fun e => ?_⟩
    · exact hnd.2.2 o (List.mem_of_getLast? (h₁ ▸ e)) o List.mem_cons_self rfl
    · exact hnd.2.1.1 (List.mem_of_head? (h₂ ▸ e))
  refine ⟨_, removeOrder_eq (fun hd => ?_) (fun hd => ?_) hne.1 hne.2, ?_, ?_, ?_⟩
  · have := List.length_pos_of_mem ho
    rw [gt_iff_lt, UInt32.lt_iff_toNat_lt, hr.count_toNat (hb hd)]
    exact this
  · rw [ge_iff_le, UInt64.le_iff_toNat_le, hr.qty_toNat (hb hd), UInt32.toNat_toUInt64]
    exact shares_le_sharesSum h ho
  · exact hr.list.unlink ho
  · have := List.length_pos_of_mem ho
    simp only [hr.count, List.length_erase_of_mem ho]
    rw [UInt32.ofNat_sub (by omega)]
    rfl
  · rw [sharesSum_congr fun p _ => (sameData_withLinks h _).shares p, sharesSum_erase h ho,
      UInt64.ofNat_sub (shares_le_sharesSum h ho), ← hr.qty, UInt64.ofNat_uInt32ToNat]

/-! ## Reducing shares -/

theorem sharesSum_reduce {h : Fin n → Order n} {l : List (Fin n)} {o : Fin n} (hl : l.Nodup)
    (ho : o ∈ l) {qty : UInt32} (hq : qty ≤ (h o).shares) :
    sharesSum (modify h o fun x => { x with shares := x.shares - qty }) l + qty.toNat =
      sharesSum h l := by
  set h' := modify h o fun x => { x with shares := x.shares - qty }
  have hrest : ∀ p ∈ l.erase o, (h' p).shares = (h p).shares := by
    intro p hp
    have hpo : p ≠ o := fun e => hl.not_mem_erase (e ▸ hp)
    simp only [h', modify_of_ne h hpo]
  have h₁ := sharesSum_erase h ho
  have h₂ := sharesSum_erase h' ho
  rw [sharesSum_congr hrest] at h₂
  have h₃ := shares_le_sharesSum h ho
  have h₄ := shares_le_sharesSum h' ho
  have h₅ : (h' o).shares.toNat = (h o).shares.toNat - qty.toNat := by
    simp only [h', modify_self, UInt32.toNat_sub_of_le _ _ hq]
  have h₆ := UInt32.le_iff_toNat_le.mp hq
  omega

/-- **Reducing the shares of an order in a level.** -/
theorem LevelRep.reduceShares {b : Build} {h : Fin n → Order n} {lvl : PriceLevel n}
    {l : List (Fin n)} {o : Fin n} {qty : UInt32}
    (hb : b = .debug → l.length < 2 ^ 32) (hr : LevelRep h lvl l) (ho : o ∈ l) (hq : qty ≤ (h o).shares) :
    ∃ lvl', lvl.reduceShares b h o qty =
        .ok (lvl', modify h o fun x => { x with shares := x.shares - qty }) ∧
      LevelRep (modify h o fun x => { x with shares := x.shares - qty }) lvl' l ∧
      lvl'.orderCount = lvl.orderCount := by
  have hsum := sharesSum_reduce hr.list.nodup ho hq
  have hcheck : b = .debug → qty ≤ (h o).shares ∧ qty.toUInt64 ≤ lvl.totalQty := by
    refine fun hd => ⟨hq, ?_⟩
    rw [UInt64.le_iff_toNat_le, hr.qty_toNat (hb hd), UInt32.toNat_toUInt64]
    omega
  refine ⟨{ lvl with totalQty := lvl.totalQty - qty.toUInt64 }, ?_, ⟨?_, hr.count, ?_⟩, rfl⟩
  · simp only [PriceLevel.reduceShares, check_ok hcheck, bind, Except.bind]
  · rw [links_modify_data h o rfl rfl]
    exact hr.list
  · rw [hr.qty, ← hsum, UInt64.ofNat_add, UInt64.ofNat_uInt32ToNat, add_sub_cancel_right]

end L2Book
