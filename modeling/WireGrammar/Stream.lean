/-!
# Byte streams

A stream in memory: bytes are appended at one end and read at the other.

* `Stream.read` — one call for bytes; it may hand out fewer than asked for.
* `Stream.readExact` — calls for bytes until there are as many as asked for.
* `Stream.write` — append bytes, as far as the capacity goes.
-/

set_option autoImplicit false
namespace WireGrammar

/-- Why a stream failed. -/
inductive StreamError where
  /-- The stream ended before as many bytes were read as asked for. -/
  | ended
  /-- The stream took only a part of the bytes. -/
  | full
deriving DecidableEq, Repr

/-- The wording of a `StreamError`. -/
def StreamError.message : StreamError → String
  | .ended => "failed to fill whole buffer"
  | .full => "failed to write whole buffer"

/-- A stream: all bytes ever appended, how many of them have been read, and its limits. -/
structure Stream where
  bytes : ByteArray := .empty
  position : Nat := 0
  /-- How many calls for bytes there have been. -/
  calls : Nat := 0
  /-- The most bytes that the given call hands out; at least one byte is handed out anyway. -/
  chunk : Nat → Option Nat := fun _ => none
  /-- The most bytes that may be appended in all. -/
  capacity : Option Nat := none

namespace Stream

/-- The bytes that have not been read. -/
def pending (s : Stream) : ByteArray :=
  s.bytes.extract s.position s.bytes.size

/-- How many bytes have not been read. -/
def available (s : Stream) : Nat := s.bytes.size - s.position

/-- Append bytes regardless of the capacity. -/
def feed (s : Stream) (b : ByteArray) : Stream :=
  { s with bytes := s.bytes ++ b }

/-- How many bytes the next call hands out when `want` are asked for. -/
def grant (s : Stream) (want : Nat) : Nat :=
  let most := min want s.available
  match s.chunk s.calls with
  | none => most
  | some limit => min (max 1 limit) most

/-- A call brings at least one byte unless the stream is at its end. -/
theorem grant_pos (s : Stream) (want : Nat) (hw : 0 < want) (ha : 0 < s.available) :
    0 < s.grant want := by
  have hmin : 0 < min want s.available := Nat.lt_min.2 ⟨hw, ha⟩
  unfold grant
  split
  · exact hmin
  · exact Nat.lt_min.2 ⟨Nat.lt_of_lt_of_le Nat.one_pos (Nat.le_max_left _ _), hmin⟩

theorem grant_le (s : Stream) (want : Nat) : s.grant want ≤ min want s.available := by
  unfold grant
  split
  · exact Nat.le_refl _
  · exact Nat.min_le_right _ _

/-- Call for up to `want` bytes.  None are handed out only at the end of the stream. -/
def read (s : Stream) (want : Nat) : ByteArray × Stream :=
  let n := s.grant want
  (s.bytes.extract s.position (s.position + n),
    { s with position := s.position + n, calls := s.calls + 1 })

/-- Call for bytes until `want` more have been appended to `acc`.  Every call brings at least one
byte or finds the end, so `want` calls are enough. -/
def readOnto (acc : ByteArray) : Nat → Nat → Stream → Except StreamError ByteArray × Stream
  | _, 0, s => (.ok acc, s)
  | 0, _ + 1, s => (.error .ended, s)
  | fuel + 1, want + 1, s =>
    match s.read (want + 1) with
    | (b, s) =>
      if b.size = 0 then (.error .ended, s)
      else readOnto (acc ++ b) fuel (want + 1 - b.size) s

/-- Read exactly `n` bytes.  If there are fewer, all of them are taken off the stream. -/
def readExact (s : Stream) (n : Nat) : Except StreamError ByteArray × Stream :=
  readOnto .empty n n s

/-- Append bytes, as many as the capacity allows. -/
def write (s : Stream) (b : ByteArray) : Except StreamError Unit × Stream :=
  match s.capacity with
  | none => (.ok (), s.feed b)
  | some capacity =>
    let room := capacity - s.bytes.size
    (if b.size ≤ room then .ok () else .error .full, s.feed (b.extract 0 room))

end Stream
end WireGrammar
