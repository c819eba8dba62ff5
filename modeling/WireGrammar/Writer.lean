import WireGrammar.Bytes.BigEndian
import WireGrammar.Text.Clip

/-!
# Writing to the wire

A `Writer` appends to a growing byte sequence.  A write never fails on the spot: text or bytes that
do not fit their length field leave an error on the writer, the first one stays, and later writes
go on.

* `Writer.putInt`, `putText`, `putBytes` — the typed writes.
* `Overflow` — what happens to text longer than its 16-bit length field can say.
* `Writer.patch` — overwrite four bytes written earlier.
* `Writer.finish` — the bytes, or the first error.
-/

set_option autoImplicit false
namespace WireGrammar

/-- Why a write was refused. -/
inductive EncodeError where
  | stringTooLong (length : Nat)
  | bytesTooLong (length : Nat)
deriving DecidableEq, Repr

/-- The wording of an `EncodeError`. -/
def EncodeError.message : EncodeError → String
  | .stringTooLong n => s!"string of {n} bytes exceeds the 16-bit length prefix"
  | .bytesTooLong n => s!"byte sequence of {n} bytes exceeds the 32-bit length prefix"

/-- What to do with text that is longer than its length field can say. -/
inductive Overflow where
  /-- Record an error and write nothing. -/
  | reject
  /-- Write as many whole characters as fit. -/
  | truncate
deriving DecidableEq, Repr

/-- Bytes written so far, and the first error. -/
structure Writer where
  bytes : ByteArray := .empty
  overflow : Overflow := .reject
  error : Option EncodeError := none

namespace Writer

/-- The largest byte length of a text: what 16 bits can say. -/
def maxTextLength : Nat := 65535

/-- The largest byte length of a byte sequence, and the largest number of array elements: what
31 bits can say. -/
def maxCount : Nat := 2147483647

/-- How many bytes have been written. -/
def size (w : Writer) : Nat := w.bytes.size

/-- Append raw bytes. -/
def append (w : Writer) (b : ByteArray) : Writer :=
  { w with bytes := w.bytes ++ b }

/-- Record an error unless there is one already. -/
def fail (w : Writer) (e : EncodeError) : Writer :=
  match w.error with
  | some _ => w
  | none => { w with error := some e }

/-- Write an integer. -/
def putInt (w : Writer) (k : IntKind) (x : BitVec k.bits) : Writer :=
  w.append (BigEndian.encode k x)

/-- Write a number as a word of the given kind, reduced modulo its width. -/
def putNat (w : Writer) (k : IntKind) (n : Nat) : Writer :=
  w.putInt k (BitVec.ofNat k.bits n)

/-- Write bytes behind their length. -/
def putCounted (w : Writer) (k : IntKind) (b : ByteArray) : Writer :=
  (w.putNat k b.size).append b

/-- Write text behind its 16-bit byte length. -/
def putText (w : Writer) (s : String) : Writer :=
  if s.utf8ByteSize ≤ maxTextLength then
    w.putCounted .uint16 s.toUTF8
  else
    match w.overflow with
    | .reject => w.fail (.stringTooLong s.utf8ByteSize)
    | .truncate => w.putCounted .uint16 (Text.clip maxTextLength s).toUTF8

/-- Write a byte sequence behind its 32-bit length. -/
def putBytes (w : Writer) (b : ByteArray) : Writer :=
  if b.size ≤ maxCount then w.putCounted .int32 b else w.fail (.bytesTooLong b.size)

/-- Overwrite the four bytes at `offset`; nothing happens unless all four have been written. -/
def patch (w : Writer) (offset : Nat) (x : BitVec 32) : Writer :=
  if offset + 4 ≤ w.bytes.size then
    { w with bytes := (BigEndian.encode .uint32 x).copySlice 0 w.bytes offset 4 }
  else w

/-- The bytes written, or the first error. -/
def finish (w : Writer) : Except EncodeError ByteArray :=
  match w.error with
  | some e => .error e
  | none => .ok w.bytes

@[simp] theorem bytes_append (w : Writer) (b : ByteArray) : (w.append b).bytes = w.bytes ++ b := rfl

@[simp] theorem size_patch (w : Writer) (offset : Nat) (x : BitVec 32) :
    (w.patch offset x).size = w.size := by
  unfold patch size
  split
  · have h4 : (BigEndian.encode .uint32 x).size = 4 := BigEndian.size_encode _ _
    simp only [ByteArray.copySlice_eq_append, ByteArray.size_append, ByteArray.size_extract,
      ByteArray.size_data, h4]
    omega
  · rfl

@[simp] theorem error_patch (w : Writer) (offset : Nat) (x : BitVec 32) :
    (w.patch offset x).error = w.error := by
  unfold patch
  split <;> rfl

end Writer
end WireGrammar
