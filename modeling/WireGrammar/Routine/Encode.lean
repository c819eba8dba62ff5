import WireGrammar.Checksum
import WireGrammar.CodecError
import WireGrammar.Routine.Basic

/-!
# Running encode routines

Encoding appends to a writer and stops at the first value that does not fit.  What has been written
until then stays.

* `EncodeM` — steps that write and may stop; `EncodeM.exec` runs one.
* `EncodeOp.run` — run an operation on a value.  Where no value is given (`none`), the zero value of
  the type is encoded: this is how missing fields are filled in.
* `Program.encode` — run the routine of a type; `fuel` bounds how deep routines call each other.
-/

set_option autoImplicit false
namespace WireGrammar

/-- A step of encoding: it changes the writer, also when it stops with an error. -/
abbrev EncodeM := ExceptT CodecError (StateM Writer)

namespace EncodeM

variable {α β : Type}

/-- Run a step on a writer: its result, and the writer it leaves. -/
def exec (m : EncodeM α) (w : Writer) : Except CodecError α × Writer :=
  m.run.run w

@[simp] theorem exec_pure (a : α) (w : Writer) : exec (pure a) w = (.ok a, w) := rfl

@[simp] theorem exec_throw (e : CodecError) (w : Writer) :
    exec (throw e : EncodeM α) w = (.error e, w) := rfl

@[simp] theorem exec_get (w : Writer) : exec get w = (.ok w, w) := rfl

@[simp] theorem exec_modify (f : Writer → Writer) (w : Writer) :
    exec (modify f) w = (.ok (), f w) := rfl

/-- **Steps one after the other**: the second runs on the writer that the first leaves, unless the
first stops. -/
theorem exec_bind (m : EncodeM α) (k : α → EncodeM β) (w : Writer) :
    exec (m >>= k) w =
      match exec m w with
      | (.ok a, w') => exec (k a) w'
      | (.error e, w') => (.error e, w') := by
  show (ExceptT.bindCont k (m.run.run w).1).run (m.run.run w).2 = _
  unfold exec
  rcases m.run.run w with ⟨_ | _, _⟩ <;> rfl

end EncodeM

/-- What the slot of a framed struct says about the body of the struct. -/
def Framing.measure : Framing → ByteArray → BitVec 32
  | .size, body => BitVec.ofNat 32 body.size
  | .crc, body => (checksum body).toBitVec

/-- Write a value as a primitive. -/
def putPrimitive (p : Primitive) (v : Value) : EncodeM Unit :=
  match p, v with
  | .int k, .int l x =>
    if h : l = k then modify (·.putInt k (h ▸ x)) else throw (.mismatch p.name v)
  | .string, .text s => modify (·.putText s)
  | .bytes, .bytes b => modify (·.putBytes b)
  | _, _ => throw (.mismatch p.name v)

/-- Encode the values of a list one after the other. -/
def putAll (item : Value → EncodeM Unit) : List Value → EncodeM Unit
  | [] => pure ()
  | v :: vs => do
    item v
    putAll item vs

mutual

/-- Encode a value.  `call` runs the routine of another type. -/
def EncodeOp.run (call : String → Option Value → EncodeM Unit) :
    EncodeOp → Option Value → EncodeM Unit
  | .write p, v => putPrimitive p (v.getD (.zero p))
  | .writeAlias typeName p, v =>
    match v.getD (.named typeName (.zero p)) with
    | .named found x =>
      if found = typeName then putPrimitive p x else throw (.valueMismatch typeName found)
    | other => throw (.mismatch typeName other)
  | .call name, v => call name v
  | .struct ops, v =>
    match v.getD (.struct []) with
    | .struct fields => runFields call fields ops
    | other => throw (.mismatch "struct" other)
  | .framed framing signed body, v =>
    match v.getD (.struct []) with
    | .struct fields => do
      let slot := (← get).size
      let word := Primitive.int (.word signed)
      putPrimitive word ((Fields.get? framing.fieldName fields).getD (.zero word))
      let start := (← get).size
      runFields call fields body
      modify fun w => w.patch slot (framing.measure (w.bytes.extract start w.size))
    | other => throw (.mismatch "struct" other)
  | .lengthArray element, v =>
    match v.getD (.list []) with
    | .list items =>
      if items.length ≤ Writer.maxCount then do
        modify (·.putNat .int32 items.length)
        putAll (fun item => element.run call (some item)) items
      else throw (.encode (.bytesTooLong items.length))
    | other => throw (.mismatch "list" other)
  | .sizeArray element, v =>
    match v.getD (.list []) with
    | .list items => do
      let slot := (← get).size
      modify (·.putNat .int32 0)
      let start := (← get).size
      putAll (fun item => element.run call (some item)) items
      modify fun w => w.patch slot (BitVec.ofNat 32 (w.size - start))
    | other => throw (.mismatch "list" other)
  | .unsupported owner, _ => throw (.unsupported owner)

/-- Encode the given fields of a struct in the order of the operations. -/
def EncodeOp.runFields (call : String → Option Value → EncodeM Unit) (fields : List (Field Value)) :
    List (Field EncodeOp) → EncodeM Unit
  | [] => pure ()
  | ⟨name, op⟩ :: ops => do
    op.run call (Fields.get? name fields)
    runFields call fields ops

end

namespace Program

/-- The error of asking for a type without a routine. -/
def missing (p : Program) (name : String) : CodecError :=
  if p.skipped.contains name then .noRoutine name else .unknownType name

/-- Encode a value as the type `name`; without a value, its zero value. -/
def encode (p : Program) : Nat → String → Option Value → EncodeM Unit
  | 0, name, _ => throw (.unbounded name)
  | fuel + 1, name, v =>
    match p.routine? name with
    | some r => r.encode.run (p.encode fuel) v
    | none => throw (p.missing name)

end Program
end WireGrammar
