import Mathlib.Data.List.Basic
import L2Book.Itch.Parser

/-!
# The file reader

`ITCHFileReader` of `pcap_replay.cpp`: a file of messages, each after its length in two big-endian bytes.

* `ITCHFileReader.load`: the constructor; `nextMessage`, with the pointer it returns as an offset into
  `buf_`; `reset`;
* **`frames`**: what `next_message` returns up to its first `nullptr`; `messages`: what `parse_message`
  makes of them;
* `nextMessage_buf`, `nextMessage_pos`: a call leaves the buffer alone and moves forward.
-/

namespace L2Book

/-- The file contents and the position of the next frame. -/
structure ITCHFileReader where
  buf : List UInt8
  pos : ℕ

namespace ITCHFileReader

/-- The constructor, after the file was read to its end; it aborts on an empty file. -/
def load (content : List UInt8) : Option ITCHFileReader :=
  if content = [] then none else some ⟨content, 0⟩

/-- The length of the frame at `pos_`. -/
def frameLen (r : ITCHFileReader) : UInt16 :=
  ((load8 r.buf r.pos).toUInt16 <<< 8) ||| (load8 r.buf (r.pos + 1)).toUInt16

/-- `next_message(out_len)`: the offset of the message and `out_len`, or `none` for `nullptr`. -/
def nextMessage (r : ITCHFileReader) : Option (ℕ × UInt16) × ITCHFileReader :=
  if r.pos + 2 > r.buf.length then (none, r)
  else if r.frameLen = 0 then (none, { r with pos := r.pos + 2 })
  else if r.pos + 2 + r.frameLen.toNat > r.buf.length then (none, { r with pos := r.pos + 2 })
  else (some (r.pos + 2, r.frameLen), { r with pos := r.pos + 2 + r.frameLen.toNat })

/-- `reset()`. -/
def reset (r : ITCHFileReader) : ITCHFileReader := { r with pos := 0 }

theorem load_of_ne_nil {content : List UInt8} (h : content ≠ []) : load content = some ⟨content, 0⟩ :=
  if_neg h

theorem nextMessage_buf {r r' : ITCHFileReader} {res : Option (ℕ × UInt16)}
    (h : r.nextMessage = (res, r')) : r'.buf = r.buf := by
  unfold nextMessage at h
  split_ifs at h <;> cases h <;> rfl

theorem nextMessage_pos {r r' : ITCHFileReader} {raw : ℕ} {len : UInt16}
    (h : r.nextMessage = (some (raw, len), r')) :
    raw = r.pos + 2 ∧ r'.pos = raw + len.toNat ∧ r'.pos ≤ r.buf.length := by
  unfold nextMessage at h
  split_ifs at h with h₁ h₂ h₃
  · cases h
  · cases h
  · cases h
  · cases h
    exact ⟨rfl, rfl, not_lt.mp h₃⟩

theorem nextMessage_lt {r r' : ITCHFileReader} {f : ℕ × UInt16} (h : r.nextMessage = (some f, r')) :
    r'.buf.length - r'.pos < r.buf.length - r.pos := by
  obtain ⟨h₁, h₂, h₃⟩ := nextMessage_pos h
  rw [nextMessage_buf h]
  omega

/-- **The frames** that `next_message` returns up to its first `nullptr`. -/
def frames (r : ITCHFileReader) : List (ℕ × UInt16) :=
  match h : r.nextMessage with
  | (none, _) => []
  | (some f, r') =>
    have := nextMessage_lt h
    f :: r'.frames
termination_by r.buf.length - r.pos

/-- `parse_message` on a frame. -/
def message (r : ITCHFileReader) (f : ℕ × UInt16) : ParsedMessage :=
  parseMessage (some (r.buf.drop f.1)) f.2

/-- The parsed messages of the frames that are still to come. -/
def messages (r : ITCHFileReader) : List ParsedMessage := r.frames.map r.message

/-- Frames are parsed out of the buffer, which no call changes. -/
theorem message_congr {r r' : ITCHFileReader} {res : Option (ℕ × UInt16)}
    (h : r.nextMessage = (res, r')) : r'.message = r.message := by
  funext f
  rw [message, message, nextMessage_buf h]

theorem messages_of_none {r r' : ITCHFileReader} (h : r.nextMessage = (none, r')) : r.messages = [] := by
  rw [messages, frames]
  split
  case h_1 => rfl
  case h_2 f r₁ h' =>
    rw [h] at h'
    cases h'

theorem messages_of_some {r r' : ITCHFileReader} {f : ℕ × UInt16} (h : r.nextMessage = (some f, r')) :
    r.messages = r.message f :: r'.messages := by
  rw [messages, frames]
  split
  case h_1 r₁ h' =>
    rw [h] at h'
    cases h'
  case h_2 f₁ r₁ h' =>
    rw [h] at h'
    cases h'
    rw [messages, message_congr h, List.map_cons]

end ITCHFileReader

end L2Book
