import WireGrammar.Bytes.BigEndian
import WireGrammar.Text.Hex

/-!
# Reading from the wire

A `Reader` walks over a buffer.  Its error is sticky: once set, every read returns the zero value
and stays where it is, until the error is cleared.

* `Reader.take` — consume the next bytes; all reads go through it.
* `Reader.readInt`, `readText`, `readBytes` — the typed reads.
* `Reader.skipTo`, `window`, `grow` — moving, looking back, and extending the buffer.
-/

set_option autoImplicit false
namespace WireGrammar

/-- Why decoding failed. -/
inductive DecodeError where
  | unexpectedEnd
  | sizeMismatch (declared : Int) (consumed : Nat)
  | crcMismatch (declared computed : UInt32)
  | invalidUtf8
  /-- The type `owner` contains an alternation, which no routine can decode. -/
  | unsupported (owner : String)
  /-- The routine itself could not run. -/
  | codec (reason : String)
  | trailingBytes (remaining : Nat)
deriving DecidableEq, Repr

/-- The wording of a `DecodeError`. -/
def DecodeError.message : DecodeError → String
  | .unexpectedEnd => "unexpected end of input"
  | .sizeMismatch declared consumed => s!"size mismatch: declared {declared}, consumed {consumed}"
  | .crcMismatch declared computed =>
    "crc mismatch: declared 0x" ++ Text.hex 8 declared.toNat ++
      ", computed 0x" ++ Text.hex 8 computed.toNat
  | .invalidUtf8 => "string is not valid UTF-8"
  | .unsupported owner => s!"no codec for alternation in {owner}"
  | .codec reason => s!"codec: {reason}"
  | .trailingBytes remaining => s!"{remaining} trailing bytes after the message"

/-- Can a size array recover from this error by dropping the element?  Only an error of the input
can be recovered from, not one of the routine. -/
def DecodeError.isRecoverable : DecodeError → Bool
  | .unsupported _ | .codec _ => false
  | _ => true

/-- A position in a buffer, and the error that stopped reading. -/
structure Reader where
  buffer : ByteArray := .empty
  offset : Nat := 0
  error : Option DecodeError := none

namespace Reader

/-- How many bytes are left. -/
def remaining (r : Reader) : Nat := r.buffer.size - r.offset

/-- Record an error unless there is one already. -/
def fail (r : Reader) (e : DecodeError) : Reader :=
  match r.error with
  | some _ => r
  | none => { r with error := some e }

/-- Set or clear the error. -/
def setError (r : Reader) (e : Option DecodeError) : Reader :=
  { r with error := e }

/-- Go back to the start and clear the error. -/
def reset (r : Reader) : Reader :=
  { r with offset := 0, error := none }

/-- Move to `offset`, or to the end if that is nearer. -/
def skipTo (r : Reader) (offset : Nat) : Reader :=
  { r with offset := min offset r.buffer.size }

/-- The bytes of the buffer from `start` up to `stop`, as far as they exist. -/
def window (r : Reader) (start stop : Nat) : ByteArray :=
  r.buffer.extract start stop

/-- Extend the buffer by `n` bytes: as many of `fill` as fit, then zeros. -/
def grow (r : Reader) (n : Nat) (fill : ByteArray) : Reader :=
  { r with buffer := r.buffer ++ fill.extract 0 n ++ ⟨Array.replicate (n - fill.size) 0⟩ }

/-- The sticky error as a result. -/
def result (r : Reader) : Except DecodeError Unit :=
  match r.error with
  | some e => .error e
  | none => .ok ()

/-! ## Reads -/

/-- Consume the next `n` bytes.  Nothing is consumed when an error is set, or when fewer are left,
which sets one. -/
def take (r : Reader) (n : Nat) : Option ByteArray × Reader :=
  match r.error with
  | some _ => (none, r)
  | none =>
    if n ≤ r.remaining then
      (some (r.buffer.extract r.offset (r.offset + n)), { r with offset := r.offset + n })
    else
      (none, { r with error := some .unexpectedEnd })

/-- Read an integer; zero on failure. -/
def readInt (r : Reader) (k : IntKind) : BitVec k.bits × Reader :=
  match r.take k.bytes with
  | (some b, r) => (BigEndian.decode k b, r)
  | (none, r) => (0#k.bits, r)

/-- Read text behind its 16-bit byte length; empty on failure.  Bytes that are not UTF-8 are
consumed all the same. -/
def readText (r : Reader) : String × Reader :=
  let (n, r) := r.readInt .uint16
  match r.take n.toNat with
  | (none, r) => ("", r)
  | (some b, r) =>
    match String.fromUTF8? b with
    | some s => (s, r)
    | none => ("", r.setError (some .invalidUtf8))

/-- Read a byte sequence behind its 32-bit length; empty on failure.  A negative length counts as
zero. -/
def readBytes (r : Reader) : ByteArray × Reader :=
  let (n, r) := r.readInt .int32
  match r.take n.toInt.toNat with
  | (none, r) => (.empty, r)
  | (some b, r) => (b, r)

/-- **Consuming bytes that are there** gives them back and moves past them, whatever stands around
them. -/
theorem take_append (before b after : ByteArray) :
    ({ buffer := before ++ b ++ after, offset := before.size } : Reader).take b.size =
      (some b, { buffer := before ++ b ++ after, offset := before.size + b.size }) := by
  have hle : b.size ≤
      ({ buffer := before ++ b ++ after, offset := before.size } : Reader).remaining := by
    simp only [remaining, ByteArray.size_append]
    omega
  have hget : (before ++ b ++ after).extract before.size (before.size + b.size) = b := by
    have h := ByteArray.extract_append_size_left (a := before ++ b) (b := after) (i := before.size)
    rw [ByteArray.size_append] at h
    rw [h]
    exact ByteArray.extract_append_eq_right rfl rfl
  simp only [take, if_pos hle, hget]

theorem take_of_error {r : Reader} (h : r.error.isSome) (n : Nat) : r.take n = (none, r) := by
  obtain ⟨e, he⟩ := Option.isSome_iff_exists.1 h
  simp [take, he]

/-- **Reading under an error** gives zero and changes nothing. -/
theorem readInt_of_error {r : Reader} (h : r.error.isSome) (k : IntKind) :
    r.readInt k = (0#k.bits, r) := by
  simp [readInt, take_of_error h]

theorem readText_of_error {r : Reader} (h : r.error.isSome) : r.readText = ("", r) := by
  simp [readText, readInt_of_error h, take_of_error h]

theorem readBytes_of_error {r : Reader} (h : r.error.isSome) : r.readBytes = (.empty, r) := by
  simp [readBytes, readInt_of_error h, take_of_error h]

end Reader
end WireGrammar
