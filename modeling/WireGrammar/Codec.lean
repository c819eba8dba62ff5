import WireGrammar.Routine.Decode
import WireGrammar.Routine.Encode
import WireGrammar.Routine.Zero

/-!
# Codecs

A program that has been checked for missing routines, ready to encode and decode values.

* `Codec.link` — check that every called type has a routine.
* `Codec.encode`, `Codec.decode` — between values and whole byte sequences.
* `Codec.encodeInto`, `Codec.decodeFrom` — the same on a writer and on a reader.
* `Codec.zero` — the zero value of a type.

How deep routines can call each other is bounded: between two arrays no type recurs, every nested
list is one level deeper in the value, and every nested array has taken bytes for its header.
-/

set_option autoImplicit false
namespace WireGrammar

/-- A program whose calls all have routines, and what to do with text that is too long. -/
structure Codec where
  program : Program
  overflow : Overflow := .reject

namespace Codec

/-- A codec for a program; the error names the first called type without a routine. -/
def link (p : Program) (overflow : Overflow) : Except CodecError Codec :=
  match p.unresolved with
  | [] => .ok { program := p, overflow := overflow }
  | name :: _ => .error (p.missing name)

/-- More calls than one after the other without an array in between. -/
def callBound (c : Codec) : Nat := c.program.routines.length + 1

/-- Encode a value as the type `typeName` onto a writer.  The writer keeps what was written before
an error. -/
def encodeInto (c : Codec) (typeName : String) (v : Value) (w : Writer) :
    Except CodecError Unit × Writer :=
  (c.program.encode (c.callBound * (v.depth + 1)) typeName (some v)).exec w

/-- The bytes of a value as the type `typeName`. -/
def encode (c : Codec) (typeName : String) (v : Value) : Except CodecError ByteArray :=
  match c.encodeInto typeName v { overflow := c.overflow } with
  | (.error e, _) => .error e
  | (.ok (), w) => w.finish.mapError .encode

/-- Decode a value of the type `typeName` from a reader.  Errors of the input stay on the reader. -/
def decodeFrom (c : Codec) (typeName : String) (r : Reader) : Except CodecError (Value × Reader) :=
  match c.program.routine? typeName with
  | none => .error (c.program.missing typeName)
  | some _ =>
    match (c.program.decode (c.callBound * (r.remaining + 1)) typeName).run r with
    | none => .error (.unbounded typeName)
    | some result => .ok result

/-- What is wrong with a reader after a whole message: its error, or bytes that are left. -/
def complete (r : Reader) : Except DecodeError Unit :=
  match r.result with
  | .error e => .error e
  | .ok () => if 0 < r.remaining then .error (.trailingBytes r.remaining) else .ok ()

theorem complete_of_error {r : Reader} {e : DecodeError} (h : r.error = some e) :
    complete r = .error e := by
  rw [complete, Reader.result, h]

theorem complete_of_none {r : Reader} (h : r.error = none) :
    complete r = if 0 < r.remaining then .error (.trailingBytes r.remaining) else .ok () := by
  rw [complete, Reader.result, h]

/-- The value of the type `typeName` that all of `bytes` stand for. -/
def decode (c : Codec) (typeName : String) (bytes : ByteArray) : Except CodecError Value :=
  match c.decodeFrom typeName { buffer := bytes } with
  | .error e => .error e
  | .ok (v, r) =>
    match complete r with
    | .error e => .error (.decode e)
    | .ok () => .ok v

/-- The zero value of the type `typeName`. -/
def zero (c : Codec) (typeName : String) : Except CodecError Value :=
  match c.program.routine? typeName with
  | none => .error (c.program.missing typeName)
  | some _ =>
    match c.program.zero c.callBound typeName with
    | none => .error (.unbounded typeName)
    | some v => .ok v

end Codec
end WireGrammar
