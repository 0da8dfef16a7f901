import Mathlib.Tactic.IntervalCases
import L2Book.Lib.Bytes
import L2Book.Itch.Parser

/-!
# The wire format

* `WireMessage`: a message of each type by its field values; `WireMessage.encode`: its packed big-endian
  encoding;
* `ParsedMessage.wire`: the values that `be16`, `be32`, `be64` and `readTs` read from a parsed message;
* `be16_load16`, `be32_load32`, `be64_load64`, `readTs_loadBytes`: on a little-endian host these are the
  big-endian numbers of the bytes;
* **`parseMessage_wire`**: parsing undoes encoding, and encoding undoes parsing.
-/

namespace L2Book

/-! ## Messages by value -/

/-- Nanoseconds since midnight, 48 bits. -/
structure Timestamp where
  ns : UInt64
  lt : ns.toNat < 256 ^ 6
  deriving DecidableEq

/-- The fields all messages start with, the type letter apart. -/
structure Header where
  stockLocate : UInt16
  trackingNumber : UInt16
  timestamp : Timestamp
  deriving DecidableEq

/-- One constructor for each message type, with the field values in the order of the wire. -/
inductive WireMessage
  | systemEvent (h : Header) (eventCode : UInt8)
  | addOrder (h : Header) (orderRefNum : UInt64) (buySell : UInt8) (shares : UInt32)
      (stock : Vector UInt8 8) (price : UInt32)
  | addOrderMPID (h : Header) (orderRefNum : UInt64) (buySell : UInt8) (shares : UInt32)
      (stock : Vector UInt8 8) (price : UInt32) (attribution : Vector UInt8 4)
  | executeOrder (h : Header) (orderRefNum : UInt64) (executedShares : UInt32) (matchNumber : UInt64)
  | executeOrderWithPrice (h : Header) (orderRefNum : UInt64) (executedShares : UInt32)
      (matchNumber : UInt64) (printable : UInt8) (executionPrice : UInt32)
  | cancelOrder (h : Header) (orderRefNum : UInt64) (cancelledShares : UInt32)
  | deleteOrder (h : Header) (orderRefNum : UInt64)
  | replaceOrder (h : Header) (originalOrderRefNum newOrderRefNum : UInt64) (shares price : UInt32)
  | trade (h : Header) (orderRefNum : UInt64) (buySell : UInt8) (shares : UInt32)
      (stock : Vector UInt8 8) (price : UInt32) (matchNumber : UInt64)
  deriving DecidableEq

/-- The byte of an ASCII letter. -/
def byteOf (c : Char) : UInt8 := UInt8.ofNat c.toNat

namespace WireMessage

/-- The type letter. -/
def letter : WireMessage → UInt8
  | systemEvent .. => byteOf 'S'
  | addOrder .. => byteOf 'A'
  | addOrderMPID .. => byteOf 'F'
  | executeOrder .. => byteOf 'E'
  | executeOrderWithPrice .. => byteOf 'C'
  | cancelOrder .. => byteOf 'X'
  | deleteOrder .. => byteOf 'D'
  | replaceOrder .. => byteOf 'U'
  | trade .. => byteOf 'P'

def header : WireMessage → Header
  | systemEvent h .. | addOrder h .. | addOrderMPID h .. | executeOrder h .. | executeOrderWithPrice h ..
  | cancelOrder h .. | deleteOrder h .. | replaceOrder h .. | trade h .. => h

end WireMessage

/-! ## The encoding -/

def field8 (v : UInt8) : ℕ × ℕ := (1, v.toNat)

def field16 (v : UInt16) : ℕ × ℕ := (2, v.toNat)

def field32 (v : UInt32) : ℕ × ℕ := (4, v.toNat)

def field64 (v : UInt64) : ℕ × ℕ := (8, v.toNat)

def fieldTs (t : Timestamp) : ℕ × ℕ := (6, t.ns.toNat)

/-- A byte string, as the number that its bytes are the big-endian digits of. -/
def fieldBytes {w : ℕ} (v : Vector UInt8 w) : ℕ × ℕ := (w, ofBE v.toList)

namespace WireMessage

/-- The fields of a type behind the header: width and value. -/
def body : WireMessage → List (ℕ × ℕ)
  | systemEvent _ eventCode => [field8 eventCode]
  | addOrder _ orderRefNum buySell shares stock price =>
    [field64 orderRefNum, field8 buySell, field32 shares, fieldBytes stock, field32 price]
  | addOrderMPID _ orderRefNum buySell shares stock price attribution =>
    [field64 orderRefNum, field8 buySell, field32 shares, fieldBytes stock, field32 price,
      fieldBytes attribution]
  | executeOrder _ orderRefNum executedShares matchNumber =>
    [field64 orderRefNum, field32 executedShares, field64 matchNumber]
  | executeOrderWithPrice _ orderRefNum executedShares matchNumber printable executionPrice =>
    [field64 orderRefNum, field32 executedShares, field64 matchNumber, field8 printable,
      field32 executionPrice]
  | cancelOrder _ orderRefNum cancelledShares => [field64 orderRefNum, field32 cancelledShares]
  | deleteOrder _ orderRefNum => [field64 orderRefNum]
  | replaceOrder _ originalOrderRefNum newOrderRefNum shares price =>
    [field64 originalOrderRefNum, field64 newOrderRefNum, field32 shares, field32 price]
  | trade _ orderRefNum buySell shares stock price matchNumber =>
    [field64 orderRefNum, field8 buySell, field32 shares, fieldBytes stock, field32 price,
      field64 matchNumber]

/-- All fields, in the order of the wire. -/
def fields (m : WireMessage) : List (ℕ × ℕ) :=
  [field8 m.letter, field16 m.header.stockLocate, field16 m.header.trackingNumber,
    fieldTs m.header.timestamp] ++ m.body

/-- The packed big-endian encoding. -/
def encode (m : WireMessage) : List UInt8 := packBE m.fields

end WireMessage

/-! ## Reading a parsed message -/

theorem readTs_lt (ts : Vector UInt8 6) : (readTs ts).toNat < 256 ^ 6 := by
  have hlen : ts.toList.length = 6 := Vector.length_toList
  have hval : (readTs ts).toNat = ofBE ts.toList := by
    rw [readTs, ← Vector.foldl_toList]
    exact toNat_foldl_shift (by omega)
  rw [hval]
  exact lt_of_lt_of_eq (ofBE_lt _) (by rw [hlen])

/-- The header fields, through the byte swaps. -/
def wireHeader (stockLocate trackingNumber : UInt16) (timestamp : Vector UInt8 6) : Header where
  stockLocate := be16 stockLocate
  trackingNumber := be16 trackingNumber
  timestamp := ⟨readTs timestamp, readTs_lt timestamp⟩

/-- The values a handler reads. -/
def ParsedMessage.wire : ParsedMessage → Option WireMessage
  | .monostate => none
  | .systemEvent m =>
    some (.systemEvent (wireHeader m.stockLocate m.trackingNumber m.timestamp) m.eventCode)
  | .addOrder m =>
    some (.addOrder (wireHeader m.stockLocate m.trackingNumber m.timestamp) (be64 m.orderRefNum)
      m.buySell (be32 m.shares) m.stock (be32 m.price))
  | .addOrderMPID m =>
    some (.addOrderMPID (wireHeader m.stockLocate m.trackingNumber m.timestamp) (be64 m.orderRefNum)
      m.buySell (be32 m.shares) m.stock (be32 m.price) m.attribution)
  | .executeOrder m =>
    some (.executeOrder (wireHeader m.stockLocate m.trackingNumber m.timestamp) (be64 m.orderRefNum)
      (be32 m.executedShares) (be64 m.matchNumber))
  | .executeOrderWithPrice m =>
    some (.executeOrderWithPrice (wireHeader m.stockLocate m.trackingNumber m.timestamp)
      (be64 m.orderRefNum) (be32 m.executedShares) (be64 m.matchNumber) m.printable
      (be32 m.executionPrice))
  | .cancelOrder m =>
    some (.cancelOrder (wireHeader m.stockLocate m.trackingNumber m.timestamp) (be64 m.orderRefNum)
      (be32 m.cancelledShares))
  | .deleteOrder m =>
    some (.deleteOrder (wireHeader m.stockLocate m.trackingNumber m.timestamp) (be64 m.orderRefNum))
  | .replaceOrder m =>
    some (.replaceOrder (wireHeader m.stockLocate m.trackingNumber m.timestamp)
      (be64 m.originalOrderRefNum) (be64 m.newOrderRefNum) (be32 m.shares) (be32 m.price))
  | .trade m =>
    some (.trade (wireHeader m.stockLocate m.trackingNumber m.timestamp) (be64 m.orderRefNum)
      m.buySell (be32 m.shares) m.stock (be32 m.price) (be64 m.matchNumber))

/-- The `msg_type` field. -/
def ParsedMessage.msgType : ParsedMessage → Option UInt8
  | .monostate => none
  | .systemEvent m => some m.msgType
  | .addOrder m => some m.msgType
  | .addOrderMPID m => some m.msgType
  | .executeOrder m => some m.msgType
  | .executeOrderWithPrice m => some m.msgType
  | .cancelOrder m => some m.msgType
  | .deleteOrder m => some m.msgType
  | .replaceOrder m => some m.msgType
  | .trade m => some m.msgType

/-- `sizeof` of the type that a letter names. -/
def packedSize (b : UInt8) : Option ℕ :=
  match Char.ofUInt8 b with
  | 'S' => some SystemEventMsg.sizeof
  | 'A' => some AddOrderMsg.sizeof
  | 'F' => some AddOrderMPIDMsg.sizeof
  | 'E' => some ExecuteOrderMsg.sizeof
  | 'C' => some ExecuteOrderWithPriceMsg.sizeof
  | 'X' => some CancelOrderMsg.sizeof
  | 'D' => some DeleteOrderMsg.sizeof
  | 'U' => some ReplaceOrderMsg.sizeof
  | 'P' => some TradeMsg.sizeof
  | _ => none

/-! ## Byte swaps and loads -/

theorem testBit_be16 (v : UInt16) {j : ℕ} (hj : j < 16) :
    (be16 v).toNat.testBit j = v.toNat.testBit (8 * (1 - j / 8) + j % 8) := by
  have h : (be16 v).toBitVec.getLsbD j = v.toBitVec.getLsbD (8 * (1 - j / 8) + j % 8) := by
    unfold be16
    interval_cases j <;> simp
  exact h

theorem testBit_be32 (v : UInt32) {j : ℕ} (hj : j < 32) :
    (be32 v).toNat.testBit j = v.toNat.testBit (8 * (3 - j / 8) + j % 8) := by
  have h : (be32 v).toBitVec.getLsbD j = v.toBitVec.getLsbD (8 * (3 - j / 8) + j % 8) := by
    unfold be32
    interval_cases j <;> simp
  exact h

theorem testBit_be64 (v : UInt64) {j : ℕ} (hj : j < 64) :
    (be64 v).toNat.testBit j = v.toNat.testBit (8 * (7 - j / 8) + j % 8) := by
  have h : (be64 v).toBitVec.getLsbD j = v.toBitVec.getLsbD (8 * (7 - j / 8) + j % 8) := by
    unfold be64
    interval_cases j <;> simp
  exact h

theorem testBit_loadLE (data : List UInt8) (i w : ℕ) {j : ℕ} (hj : j < 64) :
    (loadLE data i w).toNat.testBit j =
      (decide (j / 8 < w) && (data.getD (i + j / 8) 0).toNat.testBit (j % 8)) := by
  induction w generalizing i j with
  | zero => simp [loadLE]
  | succ w ih =>
    have hshift : ∀ v : UInt64, (v <<< 8).toNat = v.toNat <<< 8 % 2 ^ 64 := fun v =>
      UInt64.toNat_shiftLeft v 8
    rw [loadLE, UInt64.toNat_or, Nat.testBit_or, UInt8.toNat_toUInt64, hshift,
      Nat.testBit_mod_two_pow, Nat.testBit_shiftLeft, decide_eq_true hj, Bool.true_and]
    by_cases h8 : j < 8
    -- The lowest byte.
    · have hdiv : j / 8 = 0 := by omega
      have hmod : j % 8 = j := by omega
      rw [hdiv, hmod]
      simp [h8]
    · have hhigh : (data.getD i 0).toNat.testBit j = false := by
        refine Nat.testBit_lt_two_pow (lt_of_lt_of_le (data.getD i 0).toNat_lt ?_)
        exact Nat.pow_le_pow_right (by decide) (by omega)
      have hdiv : j / 8 = (j - 8) / 8 + 1 := by omega
      have hmod : j % 8 = (j - 8) % 8 := by omega
      have hoff : i + ((j - 8) / 8 + 1) = i + 1 + (j - 8) / 8 := by omega
      rw [hhigh, ih (i + 1) (by omega), hdiv, hmod, hoff]
      simp
      omega

section Loads

variable {data : List UInt8} {i : ℕ}

/-- Swapping the `w` bytes that a little-endian load puts together gives their big-endian number. -/
theorem toNat_swap {w u v : ℕ} (hw : w ≤ 8) (h : i + w ≤ data.length)
    (hv : v = (loadLE data i w).toNat % 2 ^ (8 * w)) (hu : u < 2 ^ (8 * w))
    (hbit : ∀ j < 8 * w, u.testBit j = v.testBit (8 * (w - 1 - j / 8) + j % 8)) :
    u = ofBE (slice data i w) := by
  refine Nat.eq_of_testBit_eq fun j => ?_
  rw [testBit_ofBE_slice h]
  by_cases hj : j < 8 * w
  · have hdiv : (8 * (w - 1 - j / 8) + j % 8) / 8 = w - 1 - j / 8 := by omega
    have hmod : (8 * (w - 1 - j / 8) + j % 8) % 8 = j % 8 := by omega
    have hlt : 8 * (w - 1 - j / 8) + j % 8 < 8 * w := by omega
    rw [hbit j hj, hv, Nat.testBit_mod_two_pow, decide_eq_true hlt, Bool.true_and,
      testBit_loadLE _ _ _ (by omega), hdiv, hmod, decide_eq_true (by omega : w - 1 - j / 8 < w),
      decide_eq_true (by omega : j / 8 < w)]
  · have hhigh : u.testBit j = false :=
      Nat.testBit_lt_two_pow (lt_of_lt_of_le hu (Nat.pow_le_pow_right (by decide) (by omega)))
    rw [hhigh, decide_eq_false (by omega), Bool.false_and]

theorem be16_load16 (h : i + 2 ≤ data.length) :
    (be16 (load16 data i)).toNat = ofBE (slice data i 2) :=
  toNat_swap (by decide) h (UInt64.toNat_toUInt16 _) (UInt16.toNat_lt _) fun _ hj => testBit_be16 _ hj

theorem be32_load32 (h : i + 4 ≤ data.length) :
    (be32 (load32 data i)).toNat = ofBE (slice data i 4) :=
  toNat_swap (by decide) h (UInt64.toNat_toUInt32 _) (UInt32.toNat_lt _) fun _ hj => testBit_be32 _ hj

theorem be64_load64 (h : i + 8 ≤ data.length) :
    (be64 (load64 data i)).toNat = ofBE (slice data i 8) :=
  toNat_swap (by decide) h (Nat.mod_eq_of_lt (UInt64.toNat_lt _)).symm (UInt64.toNat_lt _)
    fun _ hj => testBit_be64 _ hj

theorem toList_loadBytes {w : ℕ} (h : i + w ≤ data.length) :
    (loadBytes w data i).toList = slice data i w := by
  have hlen := length_slice h
  refine List.ext_getElem (by rw [Vector.length_toList, hlen]) fun k hk hk' => ?_
  have hkw : k < w := by rwa [hlen] at hk'
  have hget : (slice data i w).getD k 0 = (slice data i w)[k] := by
    rw [List.getD_eq_getElem?_getD, List.getElem?_eq_getElem hk', Option.getD_some]
  rw [← hget, getD_slice hkw, Vector.getElem_toList]
  simp [loadBytes, load8]

theorem readTs_loadBytes (h : i + 6 ≤ data.length) :
    (readTs (loadBytes 6 data i)).toNat = ofBE (slice data i 6) := by
  rw [← toList_loadBytes h, readTs, ← Vector.foldl_toList]
  exact toNat_foldl_shift (by rw [Vector.length_toList]; decide)

theorem toNat_load8 (h : i + 1 ≤ data.length) : (load8 data i).toNat = ofBE (slice data i 1) := by
  have hone : slice data i 1 = [load8 data i] := by
    rw [← toList_loadBytes h]
    rfl
  rw [hone]
  simp [ofBE]

theorem field8_load8 (h : i + 1 ≤ data.length) :
    field8 (load8 data i) = (1, ofBE (slice data i 1)) := by
  rw [field8, toNat_load8 h]

theorem field16_load16 (h : i + 2 ≤ data.length) :
    field16 (be16 (load16 data i)) = (2, ofBE (slice data i 2)) := by
  rw [field16, be16_load16 h]

theorem field32_load32 (h : i + 4 ≤ data.length) :
    field32 (be32 (load32 data i)) = (4, ofBE (slice data i 4)) := by
  rw [field32, be32_load32 h]

theorem field64_load64 (h : i + 8 ≤ data.length) :
    field64 (be64 (load64 data i)) = (8, ofBE (slice data i 8)) := by
  rw [field64, be64_load64 h]

theorem fieldBytes_loadBytes {w : ℕ} (h : i + w ≤ data.length) :
    fieldBytes (loadBytes w data i) = (w, ofBE (slice data i w)) := by
  rw [fieldBytes, toList_loadBytes h]

end Loads

/-! ## Fields determine the message -/

namespace WireMessage

theorem fields_lt (m : WireMessage) : ∀ f ∈ m.fields, f.2 < 256 ^ f.1 := by
  have h8 : ∀ v, (field8 v).2 < 256 ^ (field8 v).1 := fun v => v.toNat_lt
  have h16 : ∀ v, (field16 v).2 < 256 ^ (field16 v).1 := fun v => v.toNat_lt
  have h32 : ∀ v, (field32 v).2 < 256 ^ (field32 v).1 := fun v => v.toNat_lt
  have h64 : ∀ v, (field64 v).2 < 256 ^ (field64 v).1 := fun v => v.toNat_lt
  have hts : ∀ t, (fieldTs t).2 < 256 ^ (fieldTs t).1 := fun t => t.lt
  have hbytes : ∀ {w : ℕ} (v : Vector UInt8 w), (fieldBytes v).2 < 256 ^ (fieldBytes v).1 := fun v =>
    lt_of_lt_of_eq (ofBE_lt _) (by rw [Vector.length_toList]; rfl)
  cases m <;> simp [fields, body, h8, h16, h32, h64, hts, hbytes]

theorem fieldBytes_inj {w : ℕ} {v v' : Vector UInt8 w} : fieldBytes v = fieldBytes v' ↔ v = v' := by
  refine ⟨fun h => ?_, fun h => h ▸ rfl⟩
  have hval : ofBE v.toList = ofBE v'.toList := (Prod.mk.inj h).2
  have hl := toBE_ofBE v.toList
  have hl' := toBE_ofBE v'.toList
  rw [Vector.length_toList, hval] at hl
  rw [Vector.length_toList] at hl'
  exact Vector.toList_inj.mp (hl.symm.trans hl')

theorem fieldTs_inj {t t' : Timestamp} : fieldTs t = fieldTs t' ↔ t = t' := by
  obtain ⟨ns, _⟩ := t
  obtain ⟨ns', _⟩ := t'
  simp [fieldTs, UInt64.toNat_inj]

theorem field8_inj {v v' : UInt8} : field8 v = field8 v' ↔ v = v' := by
  simp [field8, UInt8.toNat_inj]

theorem field16_inj {v v' : UInt16} : field16 v = field16 v' ↔ v = v' := by
  simp [field16, UInt16.toNat_inj]

theorem field32_inj {v v' : UInt32} : field32 v = field32 v' ↔ v = v' := by
  simp [field32, UInt32.toNat_inj]

theorem field64_inj {v v' : UInt64} : field64 v = field64 v' ↔ v = v' := by
  simp [field64, UInt64.toNat_inj]

theorem header_ext {h h' : Header} : h = h' ↔ h.stockLocate = h'.stockLocate ∧
    h.trackingNumber = h'.trackingNumber ∧ h.timestamp = h'.timestamp := by
  cases h
  cases h'
  simp

theorem fields_inj {m m' : WireMessage} (h : m.fields = m'.fields) : m = m' := by
  have hletter : m.letter = m'.letter := field8_inj.mp (List.cons.inj h).1
  -- Different types have different letters; within one type, field by field.
  cases m <;> cases m' <;> simp only [letter, byteOf] at hletter <;> first
    | exact absurd hletter (by decide)
    | simpa [fields, body, header, field8_inj, field16_inj, field32_inj, field64_inj, fieldTs_inj,
        fieldBytes_inj, header_ext, and_assoc, letter] using h

theorem encode_inj {m m' : WireMessage} (hw : m.fields.map Prod.fst = m'.fields.map Prod.fst)
    (h : m.encode = m'.encode) : m = m' :=
  fields_inj (packBE_inj m.fields_lt m'.fields_lt hw h)

end WireMessage

/-! ## The bytes below `len` -/

section Prefix

variable {data : List UInt8} {n i : ℕ}

theorem load8_take (h : i < n) : load8 (data.take n) i = load8 data i := by
  simp [load8, List.getD_eq_getElem?_getD, h]

theorem loadLE_take {w : ℕ} (h : i + w ≤ n) : loadLE (data.take n) i w = loadLE data i w := by
  induction w generalizing i with
  | zero => rfl
  | succ w ih =>
    have hbyte : (data.take n).getD i 0 = data.getD i 0 := load8_take (by omega)
    rw [loadLE, loadLE, hbyte, ih (by omega)]

theorem load16_take (h : i + 2 ≤ n) : load16 (data.take n) i = load16 data i := by
  rw [load16, load16, loadLE_take h]

theorem load32_take (h : i + 4 ≤ n) : load32 (data.take n) i = load32 data i := by
  rw [load32, load32, loadLE_take h]

theorem load64_take (h : i + 8 ≤ n) : load64 (data.take n) i = load64 data i :=
  loadLE_take h

theorem loadBytes_take {w : ℕ} (h : i + w ≤ n) : loadBytes w (data.take n) i = loadBytes w data i := by
  unfold loadBytes
  congr 1
  funext j
  exact load8_take (by omega)

end Prefix

theorem parseCase_congr {T : Type} {size : ℕ} {wrap : T → ParsedMessage} {copy : List UInt8 → T}
    {d d' : List UInt8} {len : UInt16} (h : size ≤ len.toNat → copy d = copy d') :
    parseCase size wrap copy d len = parseCase size wrap copy d' len := by
  unfold parseCase
  split_ifs with hs
  · rw [h hs]
  · rfl

/-- Only the first `len` bytes matter. -/
theorem parseMessage_take (d : List UInt8) (len : UInt16) :
    parseMessage (some (d.take len.toNat)) len = parseMessage (some d) len := by
  unfold parseMessage
  by_cases h0 : len = 0
  · simp only [if_pos h0]
  · have hpos : 0 < len.toNat := by
      rcases Nat.eq_zero_or_pos len.toNat with hz | hp
      · exact absurd (UInt16.toNat_inj.mp hz) h0
      · exact hp
    simp only [if_neg h0, load8_take hpos]
    split
    case h_10 => rfl
    -- In each case of the `switch` all offsets that `copy_msg` reads lie below `sizeof`.
    all_goals
      refine parseCase_congr fun hs => ?_
      simp only [SystemEventMsg.sizeof, AddOrderMsg.sizeof, AddOrderMPIDMsg.sizeof,
        ExecuteOrderMsg.sizeof, ExecuteOrderWithPriceMsg.sizeof, CancelOrderMsg.sizeof,
        DeleteOrderMsg.sizeof, ReplaceOrderMsg.sizeof, TradeMsg.sizeof] at hs
      simp (disch := omega) only [SystemEventMsg.copyMsg, AddOrderMsg.copyMsg,
        AddOrderMPIDMsg.copyMsg, ExecuteOrderMsg.copyMsg, ExecuteOrderWithPriceMsg.copyMsg,
        CancelOrderMsg.copyMsg, DeleteOrderMsg.copyMsg, ReplaceOrderMsg.copyMsg, TradeMsg.copyMsg,
        load8_take, load16_take, load32_take, load64_take, loadBytes_take]

/-! ## Parsing -/

theorem eq_byteOf {b : UInt8} {c : Char} (h : Char.ofUInt8 b = c) : b = byteOf c := by
  subst h
  rw [← UInt8.toNat_inj, byteOf, UInt8.toNat_ofNat']
  exact (Nat.mod_eq_of_lt b.toNat_lt).symm

theorem wireHeader_fields {d : List UInt8} (h : 11 ≤ d.length) :
    field16 (wireHeader (load16 d 1) (load16 d 3) (loadBytes 6 d 5)).stockLocate =
        (2, ofBE (slice d 1 2)) ∧
      field16 (wireHeader (load16 d 1) (load16 d 3) (loadBytes 6 d 5)).trackingNumber =
        (2, ofBE (slice d 3 2)) ∧
      fieldTs (wireHeader (load16 d 1) (load16 d 3) (loadBytes 6 d 5)).timestamp =
        (6, ofBE (slice d 5 6)) := by
  refine ⟨field16_load16 (by omega), field16_load16 (by omega), ?_⟩
  rw [fieldTs, wireHeader, readTs_loadBytes (by omega)]

theorem packedSize_head (buf : List UInt8) :
    buf.head?.bind packedSize = packedSize (load8 buf 0) := by
  cases buf with
  | nil => rfl
  | cons b buf => rfl

/-- A message that is long enough for its letter is parsed into the fields at their packed offsets. -/
theorem parseMessage_of_size {d : List UInt8} {len : UInt16} {size : ℕ}
    (hs : packedSize (load8 d 0) = some size) (hlen : size ≤ len.toNat) (hd : size ≤ d.length) :
    ∃ m, (parseMessage (some d) len).wire = some m ∧
      (parseMessage (some d) len).msgType = some m.letter ∧ m.letter = load8 d 0 ∧
      m.fields = readBE d 0 (m.fields.map Prod.fst) ∧ (m.fields.map Prod.fst).sum = size := by
  unfold packedSize at hs
  split at hs
  case h_10 => cases hs
  all_goals
    rename_i hc
    cases hs
    have hne : len ≠ 0 := by
      rintro rfl
      exact absurd hlen (by decide)
    have hletter := (eq_byteOf hc).symm
    simp only [parseMessage, hc, if_neg hne, parseCase, if_pos hlen, ParsedMessage.wire,
      ParsedMessage.msgType]
    refine ⟨_, rfl, congrArg some hletter.symm, hletter, ?_, rfl⟩
    simp only [SystemEventMsg.sizeof, AddOrderMsg.sizeof, AddOrderMPIDMsg.sizeof,
      ExecuteOrderMsg.sizeof, ExecuteOrderWithPriceMsg.sizeof, CancelOrderMsg.sizeof,
      DeleteOrderMsg.sizeof, ReplaceOrderMsg.sizeof, TradeMsg.sizeof] at hd
    obtain ⟨hlocate, htracking, hts⟩ := wireHeader_fields (d := d) (by omega)
    simp only [WireMessage.fields, WireMessage.header, WireMessage.letter, WireMessage.body, hletter,
      SystemEventMsg.copyMsg, AddOrderMsg.copyMsg,
      AddOrderMPIDMsg.copyMsg, ExecuteOrderMsg.copyMsg, ExecuteOrderWithPriceMsg.copyMsg,
      CancelOrderMsg.copyMsg, DeleteOrderMsg.copyMsg, ReplaceOrderMsg.copyMsg, TradeMsg.copyMsg,
      hlocate, htracking, hts]
    simp (disch := omega) only [field8_load8, field32_load32, field64_load64, fieldBytes_loadBytes]
    simp only [List.map_cons, List.cons_append, List.nil_append, readBE, List.map_nil]

theorem parseMessage_eq_monostate {d : List UInt8} {len : UInt16}
    (h : ∀ size, packedSize (load8 d 0) = some size → ¬ size ≤ len.toNat) :
    parseMessage (some d) len = .monostate := by
  simp only [packedSize] at h
  unfold parseMessage
  by_cases h0 : len = 0
  · simp only [if_pos h0]
  · simp only [if_neg h0]
    split
    case h_10 => rfl
    all_goals
      rename_i hc
      rw [hc] at h
      exact if_neg (h _ rfl)

namespace WireMessage

theorem encode_eq_cons (m : WireMessage) : m.encode = m.letter :: packBE m.fields.tail := by
  simp [encode, fields, packBE, field8, toBE]

theorem packedSize_letter (m : WireMessage) : packedSize m.letter = some m.encode.length := by
  rw [encode, length_packBE]
  cases m <;> rfl

theorem widths_of_letter {m m' : WireMessage} (h : m.letter = m'.letter) :
    m.fields.map Prod.fst = m'.fields.map Prod.fst := by
  cases m <;> cases m' <;> simp only [letter, byteOf] at h <;> first
    | rfl
    | exact absurd h (by decide)

end WireMessage

theorem encode_of_parse {d : List UInt8} {len : UInt16} {size : ℕ}
    (hs : packedSize (load8 d 0) = some size) (hlen : size ≤ len.toNat) (hd : size ≤ d.length) :
    ∃ m, (parseMessage (some d) len).wire = some m ∧
      (parseMessage (some d) len).msgType = some m.letter ∧ m.letter = load8 d 0 ∧
      m.encode = d.take size := by
  obtain ⟨m, hwire, htype, hletter, hfields, hsum⟩ := parseMessage_of_size hs hlen hd
  refine ⟨m, hwire, htype, hletter, ?_⟩
  rw [WireMessage.encode, hfields, packBE_readBE (by omega), hsum]
  rfl

theorem parseMessage_encode (m : WireMessage) (trailing : List UInt8)
    (h : (m.encode ++ trailing).length ≤ 65535) :
    let p := parseMessage (some (m.encode ++ trailing)) (UInt16.ofNat (m.encode ++ trailing).length)
    p.wire = some m ∧ p.msgType = some m.letter := by
  have hhead : load8 (m.encode ++ trailing) 0 = m.letter := by
    rw [WireMessage.encode_eq_cons]
    rfl
  have hsize : packedSize (load8 (m.encode ++ trailing) 0) = some m.encode.length := by
    rw [hhead, m.packedSize_letter]
  have hlen : (UInt16.ofNat (m.encode ++ trailing).length).toNat = (m.encode ++ trailing).length := by
    rw [UInt16.toNat_ofNat']
    exact Nat.mod_eq_of_lt (by omega)
  have hle : m.encode.length ≤ (m.encode ++ trailing).length := by simp
  obtain ⟨m', hwire, htype, hletter, hencode⟩ := encode_of_parse hsize (hlen ▸ hle) hle
  rw [List.take_left] at hencode
  have hm : m' = m := WireMessage.encode_inj (WireMessage.widths_of_letter (hletter.trans hhead)) hencode
  subst hm
  exact ⟨hwire, htype⟩

/-- **Wire format round trip.** Parsing an encoded message with any bytes behind it gives its type and
its field values. Conversely a buffer parses to a message exactly if `len` covers the packed size of the
type that its first byte names, encoding that message gives its bytes back, and no byte from `len` on
matters. -/
theorem parseMessage_wire :
    (∀ (m : WireMessage) (trailing : List UInt8), (m.encode ++ trailing).length ≤ 65535 →
      let p := parseMessage (some (m.encode ++ trailing)) (UInt16.ofNat (m.encode ++ trailing).length)
      p.wire = some m ∧ p.msgType = some m.letter) ∧
    ∀ (buf : List UInt8) (len : UInt16), len.toNat ≤ buf.length →
      let p := parseMessage (some buf) len
      (p ≠ .monostate ↔ ∃ size, buf.head?.bind packedSize = some size ∧ size ≤ len.toNat) ∧
      (p ≠ .monostate → ∃ m size, p.wire = some m ∧ p.msgType = some m.letter ∧
        buf.head?.bind packedSize = some size ∧ m.encode = buf.take size) ∧
      ∀ buf' : List UInt8, len.toNat ≤ buf'.length → buf'.take len.toNat = buf.take len.toNat →
        parseMessage (some buf') len = p := by
  refine ⟨parseMessage_encode, fun buf len hlen => ?_⟩
  rw [packedSize_head]
  have hparsed : ∀ size, packedSize (load8 buf 0) = some size → size ≤ len.toNat →
      ∃ m, (parseMessage (some buf) len).wire = some m ∧
        (parseMessage (some buf) len).msgType = some m.letter ∧ m.letter = load8 buf 0 ∧
        m.encode = buf.take size := fun size hs hle =>
    encode_of_parse hs hle (hle.trans hlen)
  have hsize : parseMessage (some buf) len ≠ .monostate →
      ∃ size, packedSize (load8 buf 0) = some size ∧ size ≤ len.toNat := by
    intro hp
    by_contra hno
    push Not at hno
    exact hp (parseMessage_eq_monostate fun size hs => by have := hno size hs; omega)
  refine ⟨⟨hsize, ?_⟩, ?_, ?_⟩
  · rintro ⟨size, hs, hle⟩ hmono
    obtain ⟨m, hwire, -⟩ := hparsed size hs hle
    rw [hmono] at hwire
    cases hwire
  · intro hp
    obtain ⟨size, hs, hle⟩ := hsize hp
    obtain ⟨m, hwire, htype, -, hencode⟩ := hparsed size hs hle
    exact ⟨m, size, hwire, htype, hs, hencode⟩
  · intro buf' _ htake
    rw [← parseMessage_take, htake, parseMessage_take]

/-- A delete message, with two bytes behind it. -/
def sampleDelete : WireMessage := .deleteOrder ⟨1, 2, ⟨3, by decide⟩⟩ 0x0102030405060708

theorem parseMessage_wire_sampleDelete :
    (parseMessage (some (sampleDelete.encode ++ [0xAA, 0xBB])) 21).wire = some sampleDelete :=
  (parseMessage_wire.1 sampleDelete [0xAA, 0xBB] (by decide)).1

end L2Book
