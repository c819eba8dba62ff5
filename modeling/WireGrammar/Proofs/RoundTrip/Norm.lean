import WireGrammar.Proofs.Encode.Layout

/-!
# The value that comes back

What decoding makes of an encoded value is not always the value itself: a struct comes back with
exactly the fields of its type.  Fields that the type does not have are dropped, missing ones are
filled with zero values, and the slot of a framed struct holds what goes over the wire, whatever was
given for it.

* `EncodeOp.norm` — what comes back of a value that an operation encodes.  As in `EncodeOp.run`, no
  value (`none`) stands for the zero value of the type.
* `Program.norm`, `Codec.norm` — what comes back of a value of a declared type.

That decoding gives exactly this is shown in `WireGrammar.Proofs.RoundTrip.Codec`.
-/

set_option autoImplicit false
namespace WireGrammar

mutual

/-- The value that comes back.  `lay` gives the bytes of a value as another type, and `call` what
comes back of it. -/
def EncodeOp.norm (lay : String → Option Value → Option ByteArray)
    (call : String → Option Value → Value) : EncodeOp → Option Value → Value
  | .write p, v => v.getD (.zero p)
  | .writeAlias typeName p, v => v.getD (.named typeName (.zero p))
  | .call name, v => call name v
  | .struct ops, v =>
    match v.getD (.struct []) with
    | .struct fields => .struct (Fields.ofList (normFields lay call fields ops))
    | other => other
  | .framed framing signed body, v =>
    match v.getD (.struct []) with
    | .struct fields =>
      let b := (layoutFields .reject lay fields body).getD .empty
      let slot : Field Value := ⟨framing.fieldName, .int (.word signed) (framing.measure b)⟩
      .struct (Fields.ofList (slot :: normFields lay call fields body))
    | other => other
  | .lengthArray element, v =>
    match v.getD (.list []) with
    | .list items => .list (items.map fun item => element.norm lay call (some item))
    | other => other
  | .sizeArray element, v =>
    match v.getD (.list []) with
    | .list items => .list (items.map fun item => element.norm lay call (some item))
    | other => other
  | .unsupported _, v => v.getD (.struct [])

/-- What comes back of the fields of a struct: one entry for each operation. -/
def EncodeOp.normFields (lay : String → Option Value → Option ByteArray)
    (call : String → Option Value → Value) (fields : List (Field Value)) :
    List (Field EncodeOp) → List (Field Value)
  | [] => []
  | ⟨name, op⟩ :: ops =>
    ⟨name, op.norm lay call (Fields.get? name fields)⟩ :: normFields lay call fields ops

end

/-- What comes back of a value of the type `name`; without a value, of its zero value.  What does
not encode is left alone. -/
def Program.norm (p : Program) : Nat → String → Option Value → Value
  | 0, _, v => v.getD (.struct [])
  | fuel + 1, name, v =>
    match p.routine? name with
    | some r => r.encode.norm (p.layout .reject fuel) (p.norm fuel) v
    | none => v.getD (.struct [])

/-- What comes back of a value of the type `typeName`. -/
def Codec.norm (c : Codec) (typeName : String) (v : Value) : Value :=
  c.program.norm (c.callBound * (v.depth + 1)) typeName (some v)

end WireGrammar
