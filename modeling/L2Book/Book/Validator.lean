import Mathlib.Algebra.Order.BigOperators.Group.List
import Mathlib.Algebra.Order.Group.Nat
import L2Book.Book.Window
import L2Book.Lib.Ladder

/-!
# The LOBSTER validator

* `LobsterSnapshot`, `Mismatch`, `compareSnapshot`: the comparison of `lobster_validator.cpp`;
* `ladder`, `topLevels`: the occupied levels of the book, best first;
* **`compareSnapshot_eq_zero_iff`**: the comparison counts nothing exactly when every entry of the
  snapshot has the quantity that rests at its price;
* `Skips`: the snapshot leaves out a level of the book that belongs into it;
* **`compareSnapshot_iff`**: when the comparison decides equality with the top levels of the book;
  `empty_snapshot_matches`: a book that agrees with an empty snapshot.
-/

namespace L2Book

/-! ## The comparison -/

def kDepth : ℕ := 10

/-- One snapshot row. -/
structure LobsterSnapshot where
  timestampNs : UInt64
  askPrice : Fin kDepth → UInt32
  askQty : Fin kDepth → UInt32
  bidPrice : Fin kDepth → UInt32
  bidQty : Fin kDepth → UInt32

/-- Mismatch at a single snapshot checkpoint. -/
structure Mismatch where
  timestampNs : UInt64
  side : UInt8
  level : ℕ
  ourPrice : UInt32
  ourQty : UInt32
  refPrice : UInt32
  refQty : UInt32

namespace LobsterSnapshot

def price (snap : LobsterSnapshot) : Side → Fin kDepth → UInt32
  | .bid => snap.bidPrice
  | .ask => snap.askPrice

def qty (snap : LobsterSnapshot) : Side → Fin kDepth → UInt32
  | .bid => snap.bidQty
  | .ask => snap.askQty

/-- The pairs of price and quantity of one side. -/
def column (snap : LobsterSnapshot) (d : Side) : List (UInt32 × ℕ) :=
  (List.finRange kDepth).map fun lvl => (snap.price d lvl, (snap.qty d lvl).toNat)

end LobsterSnapshot

namespace OrderBook

variable {n : ℕ}

/-- The quantity behind a level pointer, `0` for `nullptr`. -/
def qtyOf (pl : Option (PriceLevel n)) : UInt32 :=
  match pl with
  | some pl => pl.totalQty.toUInt32
  | none => 0

/-- `our_bid_qty` and `our_ask_qty` of `compare_snapshot`. -/
def ourQty (s : OrderBook n) (d : Side) (refPrice : UInt32) : UInt32 :=
  match d with
  | .bid =>
    if refPrice > 0 ∧ (s.sides .bid).ref ≥ refPrice then
      qtyOf (s.bidLevel (castInt ((s.sides .bid).ref - refPrice)))
    else 0
  | .ask =>
    if refPrice > 0 ∧ refPrice ≥ (s.sides .ask).ref then
      qtyOf (s.askLevel (castInt (refPrice - (s.sides .ask).ref)))
    else 0

/-- One side of the loop body: the counter and the optional list of mismatches. -/
def compareSide (s : OrderBook n) (snap : LobsterSnapshot) (lvl : Fin kDepth) (d : Side)
    (acc : ℕ × Option (List Mismatch)) : ℕ × Option (List Mismatch) :=
  let refPrice := snap.price d lvl
  let refQty := snap.qty d lvl
  let ourQty := s.ourQty d refPrice
  if ourQty ≠ refQty then
    (acc.1 + 1, acc.2.map fun out =>
      out ++ [⟨snap.timestampNs, d.byte, lvl, refPrice, ourQty, refPrice, refQty⟩])
  else acc

/-- `compare_snapshot(book, snap, out)`: the number of mismatches and `*out`. -/
def compareSnapshot (s : OrderBook n) (snap : LobsterSnapshot) (out : Option (List Mismatch)) :
    ℕ × Option (List Mismatch) :=
  (List.finRange kDepth).foldl
    (fun acc lvl => s.compareSide snap lvl .ask (s.compareSide snap lvl .bid acc)) (0, out)

/-! ## The top levels of the book -/

/-- The occupied levels of side `d`, best first. -/
def ladder (s : OrderBook n) (d : Side) : List (UInt32 × ℕ) :=
  ((List.finRange kLevels).filter fun i => !((s.sides d).levels i).empty).map fun i : Fin kLevels =>
    (priceFromIdx d (s.sides d).ref (i : ℕ), ((s.sides d).levels i).totalQty.toNat)

/-- The best `kDepth` of them, filled up with zeros. -/
def topLevels (s : OrderBook n) (d : Side) : List (UInt32 × ℕ) :=
  pad kDepth (0, 0) ((s.ladder d).take kDepth)

end OrderBook

/-- `p` is a better price than `q` on side `d`. -/
def Better : Side → UInt32 → UInt32 → Prop
  | .bid, p, q => q < p
  | .ask, p, q => p < q

/-- A column of levels with positive quantities, strictly ordered best-first and filled up with zeros. -/
def WfColumn (d : Side) (col : List (UInt32 × ℕ)) : Prop :=
  ∃ l, col = pad kDepth (0, 0) l ∧ l.length ≤ kDepth ∧ (∀ x ∈ l, 0 < x.2) ∧
    l.Pairwise fun x y => Better d x.1 y.1

/-- An occupied level of the book is missing in the column, although the column is not full or lists a
worse level. -/
def Skips (a : NaiveBook) (d : Side) (col : List (UInt32 × ℕ)) : Prop :=
  ∃ p ∈ a.prices d, (∀ x ∈ col, x.1 ≠ p) ∧ ∃ x ∈ col, x.2 = 0 ∨ Better d p x.1

/-- Every entry of the snapshot has the quantity that rests at its price. -/
def Listed (a : NaiveBook) (snap : LobsterSnapshot) : Prop :=
  ∀ d, ∀ x ∈ snap.column d, x.2 = a.qtyAt d x.1

theorem better_iff_tick {d : Side} (ref : UInt32) {p q : UInt32} :
    Better d p q ↔ tick d ref p < tick d ref q := by
  cases d <;> simp only [Better, tick, UInt32.lt_iff_toNat_lt] <;> omega

theorem Better.asymm {d : Side} {p q : UInt32} (h : Better d p q) : ¬ Better d q p := by
  rw [better_iff_tick 0] at h ⊢
  omega

theorem better_of_not {d : Side} {p q : UInt32} (h : ¬ Better d p q) (hne : p ≠ q) :
    Better d q p := by
  have hne' : p.toNat ≠ q.toNat := fun e => hne (UInt32.toNat_inj.mp e)
  cases d <;> simp only [Better, UInt32.lt_iff_toNat_lt] at h ⊢ <;> omega

theorem NaiveBook.qtyAt_pos_iff {a : NaiveBook}
    (hpos : ∀ r o, a.orders.lookup r = some o → 0 < o.shares.toNat) {d : Side} {price : UInt32} :
    0 < a.qtyAt d price ↔ price ∈ a.prices d := by
  unfold qtyAt
  constructor
  · intro h
    have hne : a.restingAt d price ≠ [] := by
      intro e
      rw [e] at h
      exact absurd h (by simp)
    obtain ⟨o, ho⟩ := List.exists_mem_of_ne_nil _ hne
    obtain ⟨⟨r, hr⟩, hd, hp⟩ := mem_restingAt.mp ho
    exact ⟨r, o, hr, hd, hp⟩
  · rintro ⟨r, o, hr, hd, hp⟩
    have hmem : o.shares.toNat ∈ (a.restingAt d price).map fun o => o.shares.toNat :=
      List.mem_map_of_mem (mem_restingAt.mpr ⟨⟨r, hr⟩, hd, hp⟩)
    exact (hpos r o hr).trans_le (List.single_le_sum (fun _ _ => Nat.zero_le _) _ hmem)

theorem ofInt_castInt (v : UInt32) : UInt32.ofInt (castInt v) = v := by
  rw [← UInt32.toNat_inj, UInt32.ofInt, UInt32.toNat_ofNat_of_lt' (by simp only [UInt32.size]; omega)]
  have hv := v.toNat_lt
  unfold castInt
  rw [Int32.toInt, UInt32.toBitVec_toInt32, BitVec.toInt_eq_toNat_cond]
  simp only [UInt32.toNat_toBitVec]
  split_ifs <;> omega

namespace OrderBook

variable {n : ℕ}

/-! ## Lookups -/

/-- The books the comparison is for: every live order lies in the array and has shares, and every level
total fits in 32 bits. -/
structure Comparable (s : OrderBook n) (r : RefBook) : Prop where
  sim : Sim s r
  held : r.AllHeld
  total : ∀ d price, r.book.qtyAt d price < 2 ^ 32
  shares : ∀ ref o, r.book.orders.lookup ref = some o → 0 < o.shares.toNat

section Lookups

variable {s : OrderBook n} {r : RefBook}

theorem Comparable.level_qty (h : Comparable s r) (d : Side) (i : Fin kLevels) :
    ((s.sides d).levels i).totalQty.toNat =
      r.book.qtyAt d (priceFromIdx d (s.sides d).ref (i : ℕ)) := by
  have hlt := h.total d (priceFromIdx d (s.sides d).ref (i : ℕ))
  rw [h.sim.totalQty_eq, UInt64.toNat_ofNat_of_lt' (by simp only [UInt64.size]; omega)]

/-- Levels hold fewer than `2 ^ 32` orders because each order has shares. -/
theorem Comparable.queue_length_lt (h : Comparable s r) (d : Side) (i : Fin kLevels) :
    (s.queue d i).length < 2 ^ 32 := by
  have hle : ∀ l : List (Fin n), (∀ p ∈ l, 0 < (s.pool.slots p).shares.toNat) →
      l.length ≤ sharesSum s.pool.slots l := by
    intro l hl
    induction l with
    | nil => exact Nat.zero_le _
    | cons p l ih =>
      have := ih fun q hq => hl q (List.mem_cons_of_mem _ hq)
      have := hl p List.mem_cons_self
      simp only [sharesSum, List.map_cons, List.sum_cons, List.length_cons] at *
      omega
  refine (hle _ fun p hp => ?_).trans_lt (h.sim.sharesSum_eq d i ▸ h.total _ _)
  obtain ⟨ref, href⟩ := mem_liveSet.mp (h.sim.rep.linked.mem_of_queue hp)
  exact h.shares ref _ (h.sim.abs.lookup_some href)

theorem Comparable.occupied_iff (h : Comparable s r) (d : Side) (i : Fin kLevels) :
    ((s.sides d).levels i).empty = false ↔
      priceFromIdx d (s.sides d).ref (i : ℕ) ∈ r.book.prices d := by
  have hempty := (h.sim.rep.linked.level d i).empty_iff (h.queue_length_lt d i)
  rw [← NaiveBook.qtyAt_pos_iff h.shares, ← Bool.not_eq_true, hempty, ← h.sim.sharesSum_eq]
  constructor
  · intro hne
    obtain ⟨p, hp⟩ := List.exists_mem_of_ne_nil _ hne
    obtain ⟨ref, href⟩ := mem_liveSet.mp (h.sim.rep.linked.mem_of_queue hp)
    have hpos : 0 < (s.order p).shares.toNat := h.shares ref _ (h.sim.abs.lookup_some href)
    exact hpos.trans_le (shares_le_sharesSum s.pool.slots hp)
  · intro hpos e
    rw [e] at hpos
    exact absurd hpos (by simp [sharesSum])

theorem Comparable.exists_level (h : Comparable s r) {d : Side} {price : UInt32}
    (hp : price ∈ r.book.prices d) :
    price.toNat < 2 ^ 31 ∧ price ≠ 0 ∧ InArray (tick d (s.sides d).ref price) :=
  h.sim.price_inArray h.held hp

theorem Comparable.qtyOf_levelPtr (h : Comparable s r) {d : Side} {idx : ℤ} {price : UInt32}
    (hi : InArray idx) (hp : priceFromIdx d (s.sides d).ref idx = price) :
    (qtyOf (s.levelPtr d idx)).toNat = r.book.qtyAt d price := by
  have hq := h.level_qty d (slotOf _ hi)
  rw [slotOf_val, hp] at hq
  rw [levelPtr_of_inArray s d hi, qtyOf, UInt64.toNat_toUInt32, hq, Nat.mod_eq_of_lt (h.total d price)]

theorem Comparable.qtyOf_eq (h : Comparable s r) {d : Side} {v price : UInt32}
    (hp : priceFromIdx d (s.sides d).ref (castInt v) = price)
    (hv : price ∈ r.book.prices d → castInt v = tick d (s.sides d).ref price) :
    (qtyOf (s.levelPtr d (castInt v))).toNat = r.book.qtyAt d price := by
  by_cases hi : InArray (castInt v)
  · exact h.qtyOf_levelPtr hi hp
  · have hz : r.book.qtyAt d price = 0 := by
      by_contra hne
      have hocc := (NaiveBook.qtyAt_pos_iff h.shares).mp (Nat.pos_of_ne_zero hne)
      rw [hv hocc] at hi
      exact hi (h.exists_level hocc).2.2
    rw [hz, levelPtr, levelAt_of_not_mem hi]
    rfl

/-- **The comparison looks up the exact quantity** at any price. -/
theorem Comparable.ourQty_eq (h : Comparable s r) (d : Side) (price : UInt32) :
    (s.ourQty d price).toNat = r.book.qtyAt d price := by
  have href := h.sim.rep.linked.ref_lt d
  have hzero : ¬ (price ∈ r.book.prices d) → r.book.qtyAt d price = 0 := fun hp => by
    by_contra hne
    exact hp ((NaiveBook.qtyAt_pos_iff h.shares).mp (Nat.pos_of_ne_zero hne))
  have hpos : price ∈ r.book.prices d → price > 0 := fun hp => by
    rw [gt_iff_lt, UInt32.lt_iff_toNat_lt]
    refine Nat.pos_of_ne_zero fun e => (h.exists_level hp).2.1 (UInt32.toNat_inj.mp e)
  cases d with
  | bid =>
    rw [ourQty]
    split_ifs with hc
    · have hsub := UInt32.toNat_sub_of_le _ _ hc.2
      have hle := UInt32.le_iff_toNat_le.mp hc.2
      refine h.qtyOf_eq ?_ fun _ => ?_
      · simp only [priceFromIdx, priceFromBidIdx, ofInt_castInt]
        rw [UInt32.sub_eq_iff_eq_add, UInt32.add_comm, UInt32.sub_add_cancel]
      · rw [castInt_eq (by omega), hsub, Int.natCast_sub hle]
        rfl
    · rw [hzero fun hp => hc ⟨hpos hp, ?_⟩]
      · rfl
      · have := (h.exists_level hp).2.2.1
        simp only [tick] at this
        exact UInt32.le_iff_toNat_le.mpr (by omega)
  | ask =>
    rw [ourQty]
    split_ifs with hc
    · have hsub := UInt32.toNat_sub_of_le _ _ hc.2
      have hle := UInt32.le_iff_toNat_le.mp hc.2
      refine h.qtyOf_eq ?_ fun hp => ?_
      · simp only [priceFromIdx, priceFromAskIdx, ofInt_castInt]
        rw [UInt32.add_comm, UInt32.sub_add_cancel]
      · have hlt := (h.exists_level hp).1
        rw [castInt_eq (by omega), hsub, Int.natCast_sub hle]
        rfl
    · rw [hzero fun hp => hc ⟨hpos hp, ?_⟩]
      · rfl
      · have := (h.exists_level hp).2.2.1
        simp only [tick] at this
        exact UInt32.le_iff_toNat_le.mpr (by omega)

end Lookups

/-! ## The count -/

theorem compareSide_fst (s : OrderBook n) (snap : LobsterSnapshot) (lvl : Fin kDepth) (d : Side)
    (acc : ℕ × Option (List Mismatch)) : (s.compareSide snap lvl d acc).1 =
      acc.1 + if s.ourQty d (snap.price d lvl) = snap.qty d lvl then 0 else 1 := by
  unfold compareSide
  by_cases h : s.ourQty d (snap.price d lvl) = snap.qty d lvl
  · simp [h]
  · simp [h]

theorem compareSnapshot_loop (s : OrderBook n) (snap : LobsterSnapshot) (lvls : List (Fin kDepth))
    (acc : ℕ × Option (List Mismatch)) :
    (lvls.foldl (fun acc lvl => s.compareSide snap lvl .ask (s.compareSide snap lvl .bid acc))
      acc).1 = 0 ↔
      acc.1 = 0 ∧ ∀ lvl ∈ lvls, ∀ d, s.ourQty d (snap.price d lvl) = snap.qty d lvl := by
  induction lvls generalizing acc with
  | nil => simp
  | cons lvl lvls ih =>
    rw [List.foldl_cons, ih, compareSide_fst, compareSide_fst, List.forall_mem_cons]
    have hboth : (∀ d, s.ourQty d (snap.price d lvl) = snap.qty d lvl) ↔
        s.ourQty .bid (snap.price .bid lvl) = snap.qty .bid lvl ∧
          s.ourQty .ask (snap.price .ask lvl) = snap.qty .ask lvl :=
      ⟨fun h => ⟨h .bid, h .ask⟩, fun h d => by
        cases d with
        | bid => exact h.1
        | ask => exact h.2⟩
    rw [hboth, ← and_assoc]
    refine and_congr_left fun _ => ?_
    split_ifs with h₁ h₂ h₂ <;> simp [h₁, h₂]

/-- **The comparison counts nothing** exactly when every entry has the quantity that rests at its
price. -/
theorem Comparable.compareSnapshot_eq_zero_iff {s : OrderBook n} {r : RefBook} (h : Comparable s r)
    (snap : LobsterSnapshot) (out : Option (List Mismatch)) :
    (s.compareSnapshot snap out).1 = 0 ↔ Listed r.book snap := by
  rw [compareSnapshot, compareSnapshot_loop]
  unfold Listed LobsterSnapshot.column
  constructor
  · rintro ⟨-, hall⟩ d x hx
    obtain ⟨lvl, hlvl, rfl⟩ := List.mem_map.mp hx
    rw [← h.ourQty_eq, hall lvl hlvl d]
  · intro hl
    refine ⟨rfl, fun lvl hlvl d => UInt32.toNat_inj.mp ?_⟩
    rw [h.ourQty_eq]
    exact (hl d _ (List.mem_map_of_mem hlvl)).symm

/-! ## The ladder -/

section Ladder

variable {s : OrderBook n} {r : RefBook}

theorem Comparable.mem_ladder (h : Comparable s r) {d : Side} {x : UInt32 × ℕ} :
    x ∈ s.ladder d ↔ x.1 ∈ r.book.prices d ∧ x.2 = r.book.qtyAt d x.1 := by
  unfold ladder
  rw [List.mem_map]
  constructor
  · rintro ⟨i, hi, rfl⟩
    have hocc := (List.mem_filter.mp hi).2
    rw [Bool.not_eq_true'] at hocc
    exact ⟨(h.occupied_iff d i).mp hocc, h.level_qty d i⟩
  · rintro ⟨hp, hq⟩
    have hin := (h.exists_level hp).2.2
    have hprice := price_of_tick hin
    rw [← slotOf_val hin] at hprice
    refine ⟨slotOf _ hin, List.mem_filter.mpr ⟨List.mem_finRange _, ?_⟩, ?_⟩
    · rw [Bool.not_eq_true', h.occupied_iff, hprice]
      exact hp
    · rw [h.level_qty, hprice, ← hq]

theorem Comparable.ladder_sorted (h : Comparable s r) (d : Side) :
    (s.ladder d).Pairwise fun x y => Better d x.1 y.1 := by
  unfold ladder
  rw [List.pairwise_map]
  refine ((List.pairwise_lt_finRange kLevels).filter _).imp_of_mem fun {i j} hi hj hij => ?_
  have htick : ∀ k ∈ (List.finRange kLevels).filter fun i => !((s.sides d).levels i).empty,
      tick d (s.sides d).ref (priceFromIdx d (s.sides d).ref ((k : ℕ) : ℤ)) = (k : ℕ) := by
    intro k hk
    have hocc := (List.mem_filter.mp hk).2
    rw [Bool.not_eq_true', h.occupied_iff] at hocc
    exact (tick_eq_iff (h.sim.rep.linked.ref_lt d) (h.exists_level hocc).1 k).mpr rfl
  rw [better_iff_tick (s.sides d).ref, htick i hi, htick j hj]
  exact_mod_cast hij

/-- **A column of correct entries is the top of the book** exactly when it skips no level. -/
theorem Comparable.column_eq_iff (h : Comparable s r) {d : Side} {col : List (UInt32 × ℕ)}
    (hcol : WfColumn d col) (hlist : ∀ x ∈ col, x.2 = r.book.qtyAt d x.1) :
    col = s.topLevels d ↔ ¬ Skips r.book d col := by
  obtain ⟨l, rfl, hlen, hpos, hsorted⟩ := hcol
  have hmem : ∀ x ∈ l, x ∈ s.ladder d := fun x hx => by
    have hq := hlist x (mem_pad.mpr (.inl hx))
    exact h.mem_ladder.mpr ⟨(NaiveBook.qtyAt_pos_iff h.shares).mp (hq ▸ hpos x hx), hq⟩
  have htake : pad kDepth (0, 0) l = s.topLevels d ↔ l = (s.ladder d).take kDepth := by
    constructor
    · intro heq
      have hf := congrArg (List.filter fun x => decide (x.2 ≠ 0)) heq
      rw [filter_pad (fun x hx => by simpa using (hpos x hx).ne') (by simp), topLevels,
        filter_pad (fun x hx => ?_) (by simp)] at hf
      · exact hf
      · obtain ⟨hp, hq⟩ := h.mem_ladder.mp (List.mem_of_mem_take hx)
        have := (NaiveBook.qtyAt_pos_iff h.shares).mpr hp
        simp only [ne_eq, decide_eq_true_eq]
        omega
    · intro heq
      rw [topLevels, ← heq]
  -- a price of the ladder outside `l` is named by no entry of the column
  have hunlisted : ∀ x ∈ s.ladder d, x ∉ l → ∀ y ∈ pad kDepth (0, 0) l, y.1 ≠ x.1 := by
    intro x hx hxl y hy hyx
    obtain ⟨hp, hq⟩ := h.mem_ladder.mp hx
    rcases mem_pad.mp hy with hyl | ⟨-, rfl⟩
    · have : y = x := Prod.ext hyx (by rw [hlist y hy, hq, hyx])
      exact hxl (this ▸ hyl)
    · exact (h.exists_level hp).2.1 hyx.symm
  rw [htake, eq_take_iff (fun x y => Better.asymm) hsorted (h.ladder_sorted d) hmem hlen]
  constructor
  · rintro hrest ⟨p, hp, hno, y, hy, hskip⟩
    have hx : (p, r.book.qtyAt d p) ∈ s.ladder d := h.mem_ladder.mpr ⟨hp, rfl⟩
    have hxl : (p, r.book.qtyAt d p) ∉ l := fun hm => hno _ (mem_pad.mpr (.inl hm)) rfl
    obtain ⟨hfull, hlater⟩ := hrest _ hx hxl
    have hyl : y ∈ l := (mem_pad.mp hy).resolve_right fun hz => by omega
    rcases hskip with hz | hbetter
    · have := hpos y hyl
      omega
    · exact Better.asymm (hlater y hyl) hbetter
  · intro hno x hx hxl
    have hp := (h.mem_ladder.mp hx).1
    have hall : ∀ y ∈ pad kDepth (0, 0) l, ¬ (y.2 = 0 ∨ Better d x.1 y.1) := fun y hy hskip =>
      hno ⟨x.1, hp, hunlisted x hx hxl, y, hy, hskip⟩
    refine ⟨?_, fun y hy => ?_⟩
    · by_contra hne
      exact hall (0, 0) (mem_pad.mpr (.inr ⟨by omega, rfl⟩)) (.inl rfl)
    · have hy' : y ∈ pad kDepth (0, 0) l := mem_pad.mpr (.inl hy)
      exact better_of_not (fun hb => hall y hy' (.inr hb)) (hunlisted x hx hxl y hy').symm

theorem Comparable.snd_of_mem_topLevels (h : Comparable s r) {d : Side} {x : UInt32 × ℕ}
    (hx : x ∈ s.topLevels d) : x.2 = r.book.qtyAt d x.1 := by
  rcases mem_pad.mp hx with hx | ⟨-, rfl⟩
  · exact (h.mem_ladder.mp (List.mem_of_mem_take hx)).2
  · -- nothing rests at price `0`
    by_contra hne
    have hp := (NaiveBook.qtyAt_pos_iff h.shares).mp (Nat.pos_of_ne_zero (Ne.symm hne))
    exact (h.exists_level hp).2.1 rfl

end Ladder

/-! ## The verdict -/

theorem comparable_of_replay {b : Build} {feed : List (Input n)} (hw : WellFormed feed)
    {lo : Side → ℕ} (hwin : Windowed lo feed) {s : OrderBook n}
    (hs : (OrderBook.init n).replay b feed = .ok s)
    (htot : ∀ d price, (NaiveBook.init.replay feed).qtyAt d price < 2 ^ 32)
    (hpos : ∀ r o, (NaiveBook.init.replay feed).orders.lookup r = some o → 0 < o.shares.toNat) :
    Comparable s (RefBook.init.replay feed) where
  sim := sim_init.of_replay hw hs
  held := allHeld_of_windowed hw hwin
  total d price := by rw [← NaiveBook.init_replay]; exact htot d price
  shares r o ho := by rw [← NaiveBook.init_replay] at ho; exact hpos r o ho

/-- **What the comparison decides.** For a book reached by a windowed feed, with level totals below
`2 ^ 32` and positive shares, and a well-formed snapshot: a count of zero means that the snapshot is the
top of the book, unless all its entries are correct and it skips a level. -/
theorem compareSnapshot_iff (b : Build) (feed : List (Input n)) (hw : WellFormed feed)
    (lo : Side → ℕ) (hwin : Windowed lo feed) {s : OrderBook n}
    (hs : (OrderBook.init n).replay b feed = .ok s)
    (htot : ∀ d price, (NaiveBook.init.replay feed).qtyAt d price < 2 ^ 32)
    (hpos : ∀ r o, (NaiveBook.init.replay feed).orders.lookup r = some o → 0 < o.shares.toNat)
    (snap : LobsterSnapshot) (hsnap : ∀ d, WfColumn d (snap.column d))
    (out : Option (List Mismatch)) :
    ((s.compareSnapshot snap out).1 = 0 ↔ ∀ d, snap.column d = s.topLevels d) ↔
      ¬ Listed (NaiveBook.init.replay feed) snap ∨
        ∀ d, ¬ Skips (NaiveBook.init.replay feed) d (snap.column d) := by
  have h := comparable_of_replay hw hwin hs htot hpos
  rw [NaiveBook.init_replay, h.compareSnapshot_eq_zero_iff]
  by_cases hl : Listed (RefBook.init.replay feed).book snap
  · have htop : (∀ d, snap.column d = s.topLevels d) ↔
        ∀ d, ¬ Skips (RefBook.init.replay feed).book d (snap.column d) :=
      forall_congr' fun d => h.column_eq_iff (hsnap d) (hl d)
    rw [htop]
    simp [hl]
  · have htop : ¬ ∀ d, snap.column d = s.topLevels d := fun heq => hl fun d x hx => by
      rw [heq d] at hx
      exact h.snd_of_mem_topLevels hx
    simp [hl, htop]

/-- One bid. -/
def oneBid : List (Input 1) :=
  [(sysMsg 'O'.toUInt8, .newest 1), (addMsg 1 'B'.toUInt8 10 100, .newest 1)]

theorem wellFormed_oneBid : WellFormed oneBid := by
  refine ⟨trivial, fun _ => ⟨rfl, .inl rfl, ⟨?_, ?_⟩, ?_⟩, trivial⟩ <;> decide

theorem windowed_oneBid : Windowed (fun _ => 1) oneBid := by
  refine ⟨nofun, fun ref d price h => ?_, trivial⟩
  cases h
  exact ⟨by decide, by decide⟩

theorem entries_oneBid : (NaiveBook.init.replay oneBid).orders.entries =
    [⟨1, ⟨'B'.toUInt8, 100, 10⟩⟩] := rfl

theorem lookup_oneBid {r : UInt64} {o : NaiveOrder}
    (h : (NaiveBook.init.replay oneBid).orders.lookup r = some o) : o = ⟨'B'.toUInt8, 100, 10⟩ := by
  have he := AList.mem_lookup_iff.mp h
  rw [entries_oneBid, List.mem_singleton] at he
  cases he
  rfl

theorem qtyAt_oneBid (d : Side) (price : UInt32) :
    (NaiveBook.init.replay oneBid).qtyAt d price < 2 ^ 32 := by
  unfold NaiveBook.qtyAt NaiveBook.restingAt
  rw [entries_oneBid, List.map_singleton, List.filter_singleton, Bool.cond_eq_ite]
  split_ifs <;> decide

/-- The snapshot of that bid, and an empty one. -/
def bidSnapshot (price qty : UInt32) : LobsterSnapshot where
  timestampNs := 0
  askPrice _ := 0
  askQty _ := 0
  bidPrice lvl := if (lvl : ℕ) = 0 then price else 0
  bidQty lvl := if (lvl : ℕ) = 0 then qty else 0

theorem compareSnapshot_iff_oneBid : ∃ s, (OrderBook.init 1).replay .debug oneBid = .ok s ∧
    ((s.compareSnapshot (bidSnapshot 100 10) none).1 = 0 ↔
      ∀ d, (bidSnapshot 100 10).column d = s.topLevels d) := by
  obtain ⟨s, hs⟩ : ∃ s, (OrderBook.init 1).replay .debug oneBid = .ok s := ⟨_, rfl⟩
  have hcol : ∀ d, WfColumn d ((bidSnapshot 100 10).column d) := by
    intro d
    cases d with
    | bid => exact ⟨[(100, 10)], rfl, by decide, by simp, List.pairwise_singleton _ _⟩
    | ask => exact ⟨[], rfl, by decide, nofun, List.Pairwise.nil⟩
  refine ⟨s, hs, (compareSnapshot_iff .debug oneBid wellFormed_oneBid (fun _ => 1) windowed_oneBid hs
    qtyAt_oneBid (fun r o ho => by rw [lookup_oneBid ho]; decide) (bidSnapshot 100 10) hcol
    none).mpr (.inr ?_)⟩
  rintro d ⟨p, ⟨r, o, ho, hd, hp⟩, hno, -⟩
  rw [lookup_oneBid ho] at hd hp
  subst hd hp
  exact hno (100, 10) List.mem_cons_self rfl

/-- An empty snapshot agrees with a book that has a bid. -/
theorem empty_snapshot_matches : WellFormed oneBid ∧ Windowed (fun _ => 1) oneBid ∧
    (∀ d, WfColumn d ((bidSnapshot 0 0).column d)) ∧
    ∃ s, (OrderBook.init 1).replay .debug oneBid = .ok s ∧
      (s.compareSnapshot (bidSnapshot 0 0) none).1 = 0 ∧
      (bidSnapshot 0 0).column .bid ≠ s.topLevels .bid := by
  obtain ⟨s, hs, hzero⟩ : ∃ s, (OrderBook.init 1).replay .debug oneBid = .ok s ∧
      (s.compareSnapshot (bidSnapshot 0 0) none).1 = 0 := ⟨_, rfl, rfl⟩
  have hcol : ∀ d, WfColumn d ((bidSnapshot 0 0).column d) := by
    intro d
    cases d <;> exact ⟨[], rfl, by decide, nofun, List.Pairwise.nil⟩
  have h := comparable_of_replay wellFormed_oneBid windowed_oneBid hs qtyAt_oneBid
    fun r o ho => by rw [lookup_oneBid ho]; decide
  have hlist := (h.compareSnapshot_eq_zero_iff _ none).mp hzero
  refine ⟨wellFormed_oneBid, windowed_oneBid, hcol, s, hs, hzero, fun heq => ?_⟩
  refine (h.column_eq_iff (hcol .bid) (hlist .bid)).mp heq ⟨100, ?_, ?_, (0, 0), ?_, .inl rfl⟩
  · exact ⟨1, ⟨'B'.toUInt8, 100, 10⟩, rfl, rfl, rfl⟩
  · decide
  · exact List.mem_cons_self

end OrderBook

end L2Book
