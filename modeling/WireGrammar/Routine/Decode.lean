import WireGrammar.Checksum
import WireGrammar.Reader
import WireGrammar.Routine.Basic
import WireGrammar.Value

/-!
# Running decode routines

Decoding never stops half-way: an error stays on the reader, and what comes after it decodes as
zero values.

* `DecodeM` — steps that read; the result `none` says only that fuel ran out.
* `collect`, `collectWithin` — the elements of an array with a number of elements and of one with a
  number of bytes.
* `Reader.verify` — compare the slot of a framed struct with the body that has been read.
* `DecodeOp.run` — run an operation.
* `Program.decode` — run the routine of a type; `fuel` bounds how deep routines call each other.
-/

set_option autoImplicit false
namespace WireGrammar

/-- A step of decoding; `none` when fuel runs out. -/
abbrev DecodeM := StateT Reader Option

/-- Read a primitive. -/
def Reader.readPrimitive (r : Reader) : Primitive → Value × Reader
  | .int k =>
    let (x, r) := r.readInt k
    (.int k x, r)
  | .string =>
    let (s, r) := r.readText
    (.text s, r)
  | .bytes =>
    let (b, r) := r.readBytes
    (.bytes b, r)

/-- Compare the slot of a framed struct with the body, which starts at `start` and ends here.
Nothing is compared under an error. -/
def Reader.verify (r : Reader) (framing : Framing) (signed : Bool)
    (slot : BitVec (IntKind.word signed).bits) (start : Nat) : Reader :=
  match r.error, framing with
  | some _, _ => r
  | none, .size =>
    let declared := (IntKind.word signed).toInt slot
    let consumed := r.offset - start
    if declared = consumed then r else r.setError (some (.sizeMismatch declared consumed))
  | none, .crc =>
    let declared := UInt32.ofNat slot.toNat
    let computed := checksum (r.window start r.offset)
    if declared = computed then r else r.setError (some (.crcMismatch declared computed))

/-- Decode up to `n` items, onto those in `acc` (latest first).  An item that fails is dropped and
ends the list. -/
def collect (item : DecodeM Value) : Nat → List Value → DecodeM (List Value)
  | 0, acc => return acc.reverse
  | n + 1, acc => do
    let v ← item
    if (← get).error.isSome then return acc.reverse
    collect item n (v :: acc)

/-- Decode items up to the offset `stop`, onto those in `acc` (latest first).  An item that fails
is dropped and the rest is skipped, unless the failure lies in the routine.  An item that takes no
bytes is the last.  Every other item takes at least one byte, so `fuel` is enough if it is the
number of bytes up to `stop`. -/
def collectWithin (item : DecodeM Value) (stop : Nat) : Nat → List Value → DecodeM (List Value)
  | 0, acc => return acc.reverse
  | fuel + 1, acc => do
    let before := (← get).offset
    if stop ≤ before then return acc.reverse
    let v ← item
    let r ← get
    match r.error with
    | some e =>
      if e.isRecoverable then set ((r.setError none).skipTo stop)
      return acc.reverse
    | none =>
      if r.offset = before then return (v :: acc).reverse
      collectWithin item stop fuel (v :: acc)

mutual

/-- Decode a value.  `call` runs the routine of another type. -/
def DecodeOp.run (call : String → DecodeM Value) : DecodeOp → DecodeM Value
  | .read p => modifyGet (·.readPrimitive p)
  | .readAlias typeName p => do
    let v ← modifyGet (·.readPrimitive p)
    return .named typeName v
  | .call name => call name
  | .struct ops => do
    let fields ← runFields call [] ops
    return .struct fields
  | .framed framing signed verify body => do
    let slot ← modifyGet (·.readInt (.word signed))
    let start := (← get).offset
    let fields ← runFields call [⟨framing.fieldName, .int (.word signed) slot⟩] body
    if verify then modify (·.verify framing signed slot start)
    return .struct fields
  | .lengthArray element => do
    let count ← modifyGet (·.readInt .int32)
    let items ← collect (element.run call) count.toInt.toNat []
    return .list items
  | .sizeArray element => do
    let size ← modifyGet (·.readInt .int32)
    let r ← get
    if r.error.isSome then return .list []
    let items ← collectWithin (element.run call) (r.offset + size.toInt.toNat) size.toInt.toNat []
    return .list items
  | .unsupported owner => do
    modify (·.fail (.unsupported owner))
    return .struct []

/-- Decode fields in order, onto the fields read so far. -/
def DecodeOp.runFields (call : String → DecodeM Value) (fields : List (Field Value)) :
    List (Field DecodeOp) → DecodeM (List (Field Value))
  | [] => return fields
  | ⟨name, op⟩ :: ops => do
    let v ← op.run call
    runFields call (Fields.insert name v fields) ops

end

/-- Decode a value of the type `name`. -/
def Program.decode (p : Program) : Nat → String → DecodeM Value
  | 0, _ => failure
  | fuel + 1, name =>
    match p.routine? name with
    | some r => r.decode.run (p.decode fuel)
    | none => do
      modify (·.fail (.codec s!"no routine for {name}"))
      return .struct []

end WireGrammar
