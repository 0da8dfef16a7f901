import L2Book.Book.Effects
import L2Book.Book.Step

/-!
# Session gating

A closed book should take no new orders: `on_add` checks `is_open_`, `on_replace` does not. Nothing is
assumed of the messages here.

* `refs`: the references in the book; `inserts`: the one that a message puts there;
* **`apply_ok`**: what a message that returned does to the references and the session state;
* **`closed_refs_iff`**: no new reference enters a closed book exactly if no replacement of a live order
  brings one; `closed_replace`: one that does.
-/

namespace L2Book

namespace OrderBook

variable {n : ℕ}

/-- The references for which `has_order` is true. -/
def refs (s : OrderBook n) : Set UInt64 := {r | s.hasOrder r = true}

/-- The reference that a message puts into the book: that of an accepted add, or the new one when a live
order is replaced. -/
def inserts (s : OrderBook n) : Event → Option UInt64
  | .add ref _ _ _ => if s.isOpen then some ref else none
  | .replace oldRef newRef _ _ => if s.hasOrder oldRef then some newRef else none
  | _ => none

/-! ## One message -/

section Step

variable {b : Build} {it : IterOrder n} {s s' : OrderBook n} {e : Event}

theorem refs_of_insert {r : UInt64} {o : Fin n} (h : s'.orderMap = s.orderMap.insert r o) :
    s'.refs = insert r s.refs := by
  ext r'
  show (s'.orderMap.lookup r').isSome = true ↔ r' = r ∨ (s.orderMap.lookup r').isSome = true
  rw [h]
  by_cases hr : r' = r
  · rw [hr, AList.lookup_insert]
    simp
  · rw [AList.lookup_insert_ne hr]
    simp [hr]

theorem refs_of_erase {r : UInt64} (h : s'.orderMap = s.orderMap.erase r) : s'.refs ⊆ s.refs := by
  intro r' hr'
  change (s'.orderMap.lookup r').isSome = true at hr'
  rw [h] at hr'
  by_cases hr : r' = r
  · rw [hr, AList.lookup_erase] at hr'
    cases hr'
  · rw [AList.lookup_erase_ne hr] at hr'
    exact hr'

theorem SameMap.refs_eq (h : SameMap s s') : s'.refs = s.refs := by
  unfold refs hasOrder
  rw [h.orderMap]

theorem removeOrder_eraseFree_ok {r : UInt64} {o : Fin n} {s₁ : OrderBook n}
    (h : s.removeOrder b o = .ok s₁) :
    (s₁.eraseFree r o).refs ⊆ s.refs ∧ (s₁.eraseFree r o).isOpen = s.isOpen := by
  obtain ⟨hmap, -⟩ := removeOrder_ok h
  refine ⟨refs_of_erase (r := r) ?_, hmap.isOpen⟩
  show s₁.orderMap.erase r = _
  rw [hmap.orderMap]

theorem reduceBy_ok {r : UInt64} {qty : UInt32} (h : s.reduceBy b r qty = .ok s') :
    s'.refs ⊆ s.refs ∧ s'.isOpen = s.isOpen := by
  unfold reduceBy at h
  cases hp : s.orderMap.lookup r with
  | none =>
    simp only [hp] at h
    cases h
    exact ⟨subset_rfl, rfl⟩
  | some o =>
    simp only [hp] at h
    obtain ⟨s₁, hs₁, h⟩ := of_bind_eq_ok h
    obtain ⟨hmap, -⟩ := reduceShares_ok hs₁
    rw [← hmap.refs_eq, ← hmap.isOpen]
    split_ifs at h
    · obtain ⟨s₂, hs₂, h⟩ := of_bind_eq_ok h
      cases h
      exact removeOrder_eraseFree_ok hs₂
    · cases h
      exact ⟨subset_rfl, rfl⟩

theorem deleteRef_ok {r : UInt64} (h : s.deleteRef b r = .ok s') :
    s'.refs ⊆ s.refs ∧ s'.isOpen = s.isOpen := by
  unfold deleteRef at h
  cases hp : s.orderMap.lookup r with
  | none =>
    simp only [hp] at h
    cases h
    exact ⟨subset_rfl, rfl⟩
  | some o =>
    simp only [hp] at h
    obtain ⟨s₁, hs₁, h⟩ := of_bind_eq_ok h
    cases h
    exact removeOrder_eraseFree_ok hs₁

theorem replaceRef_ok {oldRef newRef : UInt64} {shares price : UInt32} (hold : s.hasOrder oldRef = true)
    (h : s.replaceRef b it oldRef newRef shares price = .ok s') :
    s'.refs ⊆ insert newRef s.refs ∧ newRef ∈ s'.refs ∧ s'.isOpen = s.isOpen := by
  obtain ⟨o, hp⟩ := Option.isSome_iff_exists.mp hold
  obtain ⟨s₁, hs₁, h⟩ := deleteRef_of_replaceRef hp h
  obtain ⟨hsub, hopen⟩ := deleteRef_ok hs₁
  obtain ⟨⟨o', hmap, hopen'⟩, -⟩ := addNew_ok h
  rw [refs_of_insert hmap]
  exact ⟨Set.insert_subset_insert hsub, Set.mem_insert _ _, hopen'.trans hopen⟩

/-- **A message that returned** puts one reference into the book at most, and only the event 'O' opens a
session. -/
theorem apply_ok (h : s.apply b it e = .ok s') :
    (∀ r ∈ s'.refs, r ∈ s.refs ∨ s.inserts e = some r) ∧
      (∀ r, s.inserts e = some r → r ∈ s'.refs) ∧
      (e ≠ .system 'O'.toUInt8 → s.isOpen = false → s'.isOpen = false) := by
  cases e with
  | system code =>
    simp only [apply] at h
    cases h
    refine ⟨fun r hr => .inl ?_, fun r hr => (by cases hr), fun hne hclosed => ?_⟩
    · split_ifs at hr
      · exact hr
      · exact hr
      · rw [halt_eq] at hr
        cases hr
      · exact hr
    · have hO : code ≠ 'O'.toUInt8 := fun hc => hne (hc ▸ rfl)
      rw [if_neg hO]
      split_ifs
      · rfl
      · rw [halt_eq]
        rfl
      · exact hclosed
  | add ref side shares price =>
    simp only [apply, addRef] at h
    cases hopen : s.isOpen with
    | false =>
      simp only [hopen, Bool.not_false, if_true] at h
      cases h
      refine ⟨fun r hr => .inl hr, fun r hr => ?_, fun _ _ => hopen⟩
      simp only [inserts, hopen, Bool.false_eq_true, if_false] at hr
      cases hr
    | true =>
      simp only [hopen, Bool.not_true, Bool.false_eq_true, if_false] at h
      obtain ⟨⟨o, hmap, -⟩, -⟩ := addNew_ok h
      have hins : s.inserts (.add ref side shares price) = some ref := by simp only [inserts, hopen, if_true]
      rw [refs_of_insert hmap, hins]
      refine ⟨fun r hr => ?_, fun r hr => ?_, fun _ hclosed => by cases hclosed⟩
      · rcases hr with rfl | hr
        · exact .inr rfl
        · exact .inl hr
      · cases hr
        exact Set.mem_insert _ _
  | reduce ref qty =>
    obtain ⟨hsub, hopen⟩ := reduceBy_ok h
    exact ⟨fun r hr => .inl (hsub hr), fun r hr => (by cases hr), fun _ hclosed => hopen.trans hclosed⟩
  | delete ref =>
    obtain ⟨hsub, hopen⟩ := deleteRef_ok h
    exact ⟨fun r hr => .inl (hsub hr), fun r hr => (by cases hr), fun _ hclosed => hopen.trans hclosed⟩
  | replace oldRef newRef shares price =>
    by_cases hold : s.hasOrder oldRef = true
    · obtain ⟨hsub, hmem, hopen⟩ := replaceRef_ok hold h
      have hins : s.inserts (.replace oldRef newRef shares price) = some newRef := if_pos hold
      rw [hins]
      refine ⟨fun r hr => ?_, fun r hr => ?_, fun _ hclosed => hopen.trans hclosed⟩
      · rcases hsub hr with rfl | hr
        · exact .inr rfl
        · exact .inl hr
      · cases hr
        exact hmem
    · have hp : s.orderMap.lookup oldRef = none := Option.not_isSome_iff_eq_none.mp hold
      have hins : s.inserts (.replace oldRef newRef shares price) = none := if_neg hold
      simp only [apply, replaceRef, hp] at h
      cases h
      rw [hins]
      exact ⟨fun r hr => .inl hr, fun r hr => (by cases hr), fun _ hclosed => hclosed⟩
  | ignore =>
    cases h
    exact ⟨fun r hr => .inl hr, fun r hr => (by cases hr), fun _ hclosed => hclosed⟩

theorem dispatch_ok {x : Input n} (h : s.dispatch b x.2 x.1 = .ok s') :
    (∀ r ∈ s'.refs, r ∈ s.refs ∨ s.inserts x.1.event = some r) ∧
      (∀ r, s.inserts x.1.event = some r → r ∈ s'.refs) ∧
      (x.1.event ≠ .system 'O'.toUInt8 → s.isOpen = false → s'.isOpen = false) := by
  rw [dispatch_eq_apply] at h
  exact apply_ok h

end Step

/-! ## Closed sessions -/

/-- If the message replaces a live order, the new reference is one of `known`. -/
def ReplacesWithin (known : Set UInt64) (s : OrderBook n) (e : Event) : Prop :=
  ∀ oldRef newRef shares price, e = .replace oldRef newRef shares price → s.hasOrder oldRef = true →
    newRef ∈ known

/-- A closed book inserts through replacements only. -/
theorem replacesWithin_iff {known : Set UInt64} {s : OrderBook n} (hclosed : s.isOpen = false) (e : Event) :
    ReplacesWithin known s e ↔ ∀ r, s.inserts e = some r → r ∈ known := by
  constructor
  · intro h r hr
    cases e with
    | add ref side shares price =>
      simp only [inserts, hclosed, Bool.false_eq_true, if_false] at hr
      cases hr
    | replace oldRef newRef shares price =>
      simp only [inserts] at hr
      split_ifs at hr with hold
      cases hr
      exact h oldRef r shares price rfl hold
    | system code => cases hr
    | reduce ref qty => cases hr
    | delete ref => cases hr
    | ignore => cases hr
  · rintro h oldRef newRef shares price rfl hold
    exact h newRef (if_pos hold)

theorem replay_closed {b : Build} {s s' : OrderBook n} {c : List (Input n)} (hclosed : s.isOpen = false)
    (hno : ∀ x ∈ c, x.1.event ≠ .system 'O'.toUInt8) (h : s.replay b c = .ok s') : s'.isOpen = false := by
  induction c generalizing s with
  | nil =>
    cases h
    exact hclosed
  | cons x c ih =>
    unfold replay at h
    rw [run_cons] at h
    obtain ⟨s₁, hs₁, h⟩ := of_bind_eq_ok h
    obtain ⟨-, -, hopen⟩ := dispatch_ok hs₁
    exact ih (hopen (hno x List.mem_cons_self) hclosed) (fun y hy => hno y (List.mem_cons_of_mem _ hy)) h

/-- **When a closed session takes no order.** From a closed book, through any messages without the event
'O': no new reference is in the book at any point exactly if every replacement of a live order carries a
reference that was in the book at the start. -/
theorem closed_refs_iff (b : Build) {s : OrderBook n} (hclosed : s.isOpen = false) (feed : List (Input n))
    (hno : ∀ x ∈ feed, x.1.event ≠ .system 'O'.toUInt8) :
    (∀ c s₁, c <+: feed → s.replay b c = .ok s₁ → s₁.refs ⊆ s.refs) ↔
      ∀ c x s₁ s₂, c ++ [x] <+: feed → s.replay b c = .ok s₁ → s₁.dispatch b x.2 x.1 = .ok s₂ →
        ReplacesWithin s.refs s₁ x.1.event := by
  have hclosed₁ : ∀ c s₁, c <+: feed → s.replay b c = .ok s₁ → s₁.isOpen = false := fun c s₁ hc hs₁ =>
    replay_closed hclosed (fun x hx => hno x (hc.subset hx)) hs₁
  constructor
  · intro h c x s₁ s₂ hc hs₁ hs₂
    rw [replacesWithin_iff (hclosed₁ c s₁ ((List.prefix_append c [x]).trans hc) hs₁)]
    intro r hr
    have hrun : s.replay b (c ++ [x]) = .ok s₂ := run_snoc_of_ok hs₁ hs₂
    exact h (c ++ [x]) s₂ hc hrun ((dispatch_ok hs₂).2.1 r hr)
  · intro h c
    induction c using List.reverseRecOn with
    | nil =>
      intro s₁ _ hs₁
      cases hs₁
      exact subset_rfl
    | append_singleton c x ih =>
      intro s₂ hc hs₂ r hr
      obtain ⟨s₁, hs₁, hstep⟩ := run_snoc_ok hs₂
      have hc₁ : c <+: feed := (List.prefix_append c [x]).trans hc
      have hwithin := h c x s₁ s₂ hc hs₁ hstep
      rw [replacesWithin_iff (hclosed₁ c s₁ hc₁ hs₁)] at hwithin
      rcases (dispatch_ok hstep).1 r hr with hold | hnew
      · exact ih s₁ hc₁ hs₁ hold
      · exact hwithin r hnew

/-- A session that opens, takes two bids and closes. -/
def openAndClose : List (Input 2) :=
  [(sysMsg 'O'.toUInt8, .newest 2), (addMsg 1 'B'.toUInt8 10 100, .newest 2),
    (addMsg 2 'B'.toUInt8 10 99, .newest 2), (sysMsg 'C'.toUInt8, .newest 2)]

/-- A replacement of the second bid. -/
def replaceAfterClose : Input 2 :=
  (.replaceOrder ⟨'U'.toUInt8, 0, 0, .replicate 6 0, be64 2, be64 3, be32 10, be32 99⟩, .newest 2)

/-- The replacement puts a new reference into the closed book. -/
theorem closed_replace : replaceAfterClose.1.event ≠ .system 'O'.toUInt8 ∧
    ∃ s s', (OrderBook.init 2).replay .debug openAndClose = .ok s ∧ s.isOpen = false ∧
      s.replay .debug [replaceAfterClose] = .ok s' ∧ s.hasOrder 3 = false ∧ s'.hasOrder 3 = true :=
  ⟨nofun, _, _, rfl, rfl, rfl, rfl, rfl⟩

theorem closed_refs_iff_delete : ∃ s, (OrderBook.init 2).replay .debug openAndClose = .ok s ∧
    ∀ c s₁, c <+: [(delMsg 1, IterOrder.newest 2)] → s.replay .debug c = .ok s₁ → s₁.refs ⊆ s.refs := by
  obtain ⟨s, hs, hclosed⟩ : ∃ s, (OrderBook.init 2).replay .debug openAndClose = .ok s ∧
      s.isOpen = false := ⟨_, rfl, rfl⟩
  refine ⟨s, hs, (closed_refs_iff .debug hclosed [(delMsg 1, IterOrder.newest 2)] ?_).mpr ?_⟩
  · intro x hx
    rw [List.mem_singleton.mp hx]
    nofun
  · intro c x s₁ s₂ hc _ _ oldRef newRef shares price he
    have hx : x ∈ [(delMsg 1, IterOrder.newest 2)] := hc.subset (by simp)
    rw [List.mem_singleton.mp hx] at he
    cases he

end OrderBook

end L2Book
