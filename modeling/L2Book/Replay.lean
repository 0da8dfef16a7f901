import L2Book.Book.Contents
import L2Book.Progress
import L2Book.Transport.Framing

/-!
# From the bytes of a file to the quotes

A feed is what an exchange sends: messages by their field values. It is encoded, framed and written to a
file; the parser thread reads the file and parses its frames, the book thread applies them.

* `WireMessage.event`: the content of a message; `encodeFile`: the file of a feed;
* `messages_of_splits`, **`wire_messages`**: the reader and the parser restore the feed;
* **`replay_encoded`**: so the two threads end with the naive book of the feed, however they interleave.
-/

namespace L2Book

/-- What a message says, by its field values. -/
def WireMessage.event : WireMessage → Event
  | .systemEvent _ eventCode => .system eventCode
  | .addOrder _ orderRefNum buySell shares _ price => .add orderRefNum buySell shares price
  | .addOrderMPID _ orderRefNum buySell shares _ price _ => .add orderRefNum buySell shares price
  | .executeOrder _ orderRefNum executedShares _ => .reduce orderRefNum executedShares
  | .executeOrderWithPrice _ orderRefNum executedShares _ _ _ => .reduce orderRefNum executedShares
  | .cancelOrder _ orderRefNum cancelledShares => .reduce orderRefNum cancelledShares
  | .deleteOrder _ orderRefNum => .delete orderRefNum
  | .replaceOrder _ originalOrderRefNum newOrderRefNum shares price =>
    .replace originalOrderRefNum newOrderRefNum shares price
  | .trade .. => .ignore

theorem ParsedMessage.event_of_wire {msg : ParsedMessage} {m : WireMessage} (h : msg.wire = some m) :
    msg.event = m.event := by
  cases msg <;> cases h <;> rfl

/-! ## Files -/

/-- The file of a feed, with bytes behind its last frame. -/
def encodeFile (ms : List WireMessage) (rest : List UInt8) : List UInt8 :=
  (ms.map WireMessage.encode).flatMap frame ++ rest

theorem WireMessage.length_encode (m : WireMessage) : 1 ≤ m.encode.length ∧ m.encode.length ≤ 65535 := by
  rw [encode, length_packBE]
  cases m <;> simp [fields, body, field8, field16, field32, field64, fieldTs, fieldBytes]

theorem splits_encodeFile (ms : List WireMessage) {rest : List UInt8} (h : Malformed rest) :
    Splits (encodeFile ms rest) (ms.map WireMessage.encode) rest := by
  refine ⟨rfl, fun bytes hb => ?_, h⟩
  obtain ⟨m, -, rfl⟩ := List.mem_map.mp hb
  exact m.length_encode

namespace ITCHFileReader

theorem message_eq_payload (r : ITCHFileReader) (f : ℕ × UInt16) :
    r.message f = parseMessage (some (payload r.buf f)) f.2 := (parseMessage_take _ _).symm

theorem messages_of_splits {buf rest : List UInt8} {ms : List (List UInt8)} (h : Splits buf ms rest) :
    messages ⟨buf, 0⟩ = ms.map fun m => parseMessage (some m) (UInt16.ofNat m.length) := by
  obtain ⟨hreturns, hmap⟩ := Returns.of_splits h
  rw [messages, ← returns_iff.mp hreturns]
  conv_rhs => rw [← hmap, List.map_map]
  refine List.map_congr_left fun f hf => ?_
  have hin := ((spans_bounds h.length 0).1 f hf).2
  have hlen : (payload buf f).length = f.2.toNat := length_slice (by
    rw [h.eq, List.length_append]
    omega)
  rw [message_eq_payload, Function.comp_apply, hlen, UInt16.ofNat_toNat]

/-- **The reader and the parser restore the feed.** -/
theorem wire_messages (ms : List WireMessage) {rest : List UInt8} (h : Malformed rest) :
    (messages ⟨encodeFile ms rest, 0⟩).map ParsedMessage.wire = ms.map some := by
  rw [messages_of_splits (splits_encodeFile ms h), List.map_map, List.map_map]
  refine List.map_congr_left fun m _ => ?_
  have hround := parseMessage_encode m [] (by
    rw [List.append_nil]
    exact m.length_encode.2)
  rw [List.append_nil] at hround
  exact hround.1

theorem events_messages (ms : List WireMessage) {rest : List UInt8} (h : Malformed rest) :
    (messages ⟨encodeFile ms rest, 0⟩).map ParsedMessage.event = ms.map WireMessage.event := by
  have hwire := wire_messages ms h
  generalize messages ⟨encodeFile ms rest, 0⟩ = msgs at hwire
  induction msgs generalizing ms with
  | nil =>
    rw [List.map_nil, eq_comm, List.map_eq_nil_iff] at hwire
    rw [hwire]
    rfl
  | cons msg msgs ih =>
    cases ms with
    | nil => cases hwire
    | cons m ms =>
      rw [List.map_cons, List.map_cons, List.cons.injEq] at hwire
      rw [List.map_cons, List.map_cons, ih ms hwire.2, ParsedMessage.event_of_wire hwire.1]

end ITCHFileReader

/-! ## The two threads on the file of a feed -/

namespace Pipeline

section Encoded

variable {n : ℕ} {b : Build} {lo : Side → ℕ} {ms : List WireMessage} {rest : List UInt8}
  {feed : List (Input n)}

theorem events_of_isPrefix (hrest : Malformed rest)
    (h : feed.map Prod.fst <+: ITCHFileReader.messages ⟨encodeFile ms rest, 0⟩) :
    events feed = (ms.take feed.length).map WireMessage.event := by
  have hevents := congrArg (List.take feed.length) (ITCHFileReader.events_messages ms hrest)
  have htake := List.prefix_iff_eq_take.mp h
  rw [List.length_map] at htake
  rw [← List.map_take, ← List.map_take, ← htake, List.map_map] at hevents
  exact hevents

theorem agrees_of_isPrefix (hn : n < 2 ^ 32) (hrest : Malformed rest)
    (hok : FeedOk n lo (ms.map WireMessage.event))
    (h : feed.map Prod.fst <+: ITCHFileReader.messages ⟨encodeFile ms rest, 0⟩) :
    ∃ s, (OrderBook.init n).replay b feed = .ok s ∧
      OrderBook.Agrees s (.after ((ms.take feed.length).map WireMessage.event)) := by
  have hevents := events_of_isPrefix hrest h
  rw [← hevents]
  refine hok.exists_replay hn b ?_
  rw [hevents]
  exact (List.take_prefix _ _).map _

end Encoded

/-- **The replay of an encoded feed.** Let the messages of a feed that the book can follow be encoded and
framed in a file, with bytes behind them in which no frame starts. However the two threads interleave, the
book always agrees with the naive book of the messages dispatched so far. After enough rounds both threads
have returned, both counters are at the number of messages, and the book agrees with the naive book of the
whole feed. -/
theorem replay_encoded {n : ℕ} (hn : n < 2 ^ 32) (b : Build) (slots : UInt64 → ParsedMessage)
    (lo : Side → ℕ) (ms : List WireMessage) (rest : List UInt8) (hrest : Malformed rest)
    (hne : encodeFile ms rest ≠ []) (hok : FeedOk n lo (ms.map WireMessage.event)) :
    ∃ r, ITCHFileReader.load (encodeFile ms rest) = some r ∧
      ∀ p : Pipeline n, Relation.ReflTransGen (Step b) (init slots r) p →
        OrderBook.Agrees p.book (.after ((ms.take p.dispatched.length).map WireMessage.event)) ∧
        ∀ ts, Rounds thread (36 * (ms.length + 1)) ts →
          ∃ p', run (turn b) p ts = .ok p' ∧ p'.parserPc = .returned ∧ p'.bookPc = .returned ∧
            p'.msgsParsed = UInt64.ofNat ms.length ∧ p'.msgsBooked = UInt64.ofNat ms.length ∧
            OrderBook.Agrees p'.book (.after (ms.map WireMessage.event)) := by
  refine ⟨_, ITCHFileReader.load_of_ne_nil hne, fun p hreach => ?_⟩
  set r : ITCHFileReader := ⟨encodeFile ms rest, 0⟩
  have hagrees : ∀ (q : Pipeline n) pushed, Inv b r.messages pushed q →
      OrderBook.Agrees q.book (.after ((ms.take q.dispatched.length).map WireMessage.event)) := by
    intro q pushed hq
    obtain ⟨s, hs, ha⟩ := agrees_of_isPrefix (b := b) hn hrest hok
      (List.IsPrefix.trans ⟨_, rfl⟩ hq.popped_isPrefix)
    have hbook := hq.book.book
    rw [hs] at hbook
    cases hbook
    exact ha
  have hI := alert_of_reachable hreach
  obtain ⟨pushed, hinv⟩ := hI.1
  refine ⟨hagrees p pushed hinv, fun ts hts => ?_⟩
  have hlen : r.messages.length = ms.length := by
    have := congrArg List.length (ITCHFileReader.events_messages ms hrest)
    rwa [List.length_map, List.length_map] at this
  rw [← hlen] at hts
  rcases finished_or_fault hI hts with ⟨p', hrun, hfin⟩ | ⟨e, -, feed, hpre, he⟩
  · obtain ⟨pushed', hinv'⟩ := ((progress b r.messages).inv_run hI hrun).1
    have hall : p'.dispatched.length = ms.length := by
      rw [← hlen, ← hfin.dispatched, List.length_map]
    have hbook := hagrees p' pushed' hinv'
    rw [hall, List.take_length] at hbook
    refine ⟨p', hrun, hfin.parser, hfin.book, ?_, ?_, hbook⟩
    · rw [hfin.parsed, hlen]
    · rw [hfin.booked, hfin.parsed, hlen]
  · obtain ⟨s, hs, -⟩ := agrees_of_isPrefix (b := b) hn hrest hok hpre
    rw [hs] at he
    cases he

/-- Half past nine. -/
def openHeader : Header := ⟨1, 0, ⟨34200000000000, by decide⟩⟩

/-- The session opens, and an order is added. -/
def openAndAdd : List WireMessage :=
  [.systemEvent openHeader (byteOf 'O'), .addOrder openHeader 7 (byteOf 'B') 100 (.replicate 8 0) 5000]

theorem replay_encoded_openAndAdd :
    ∃ (r : ITCHFileReader) (p : Pipeline 1), ITCHFileReader.load (encodeFile openAndAdd []) = some r ∧
      run (turn .debug) (init (fun _ => .monostate) r) (alternateTurns 108) = .ok p ∧
      p.msgsBooked = 2 ∧ OrderBook.Agrees p.book (.after (openAndAdd.map WireMessage.event)) := by
  have hok : FeedOk 1 (fun _ => 1) (openAndAdd.map WireMessage.event) := by
    refine ⟨⟨trivial, fun _ => ⟨rfl, .inl rfl, ⟨by decide, by decide⟩, by decide⟩, trivial⟩,
      ⟨nofun, fun ref d price h => ?_, trivial⟩⟩
    cases h
    exact ⟨by decide, by decide⟩
  obtain ⟨r, hr, hall⟩ := replay_encoded (n := 1) (by decide) .debug (fun _ => .monostate) (fun _ => 1)
    openAndAdd [] (.inl (by decide)) (by decide) hok
  obtain ⟨p, hrun, -, -, -, hbooked, hagrees⟩ := (hall _ .refl).2 (alternateTurns 108)
    (rounds_alternateTurns 108)
  exact ⟨r, p, hr, hrun, hbooked, hagrees⟩

end Pipeline

end L2Book
