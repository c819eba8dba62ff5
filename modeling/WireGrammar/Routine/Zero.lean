import WireGrammar.Routine.Basic
import WireGrammar.Value

/-!
# Zero values

* `DecodeOp.zero` — the zero value of an operation: zero numbers, empty text, bytes and lists, and
  structs of zero values.
* `Program.zero` — the zero value of a type; `fuel` bounds how deep routines call each other.
-/

set_option autoImplicit false
namespace WireGrammar

mutual

/-- The zero value that an operation would decode.  `call` gives the zero value of another type. -/
def DecodeOp.zero (call : String → Option Value) : DecodeOp → Option Value
  | .read p => some (.zero p)
  | .readAlias typeName p => some (.named typeName (.zero p))
  | .call name => call name
  | .struct ops => (zeroFields call [] ops).map .struct
  | .framed framing signed _ body =>
    (zeroFields call [⟨framing.fieldName, .zero (.int (.word signed))⟩] body).map .struct
  | .lengthArray _ | .sizeArray _ => some (.list [])
  | .unsupported _ => some (.struct [])

/-- The zero values of fields, onto the fields made so far. -/
def DecodeOp.zeroFields (call : String → Option Value) (fields : List (Field Value)) :
    List (Field DecodeOp) → Option (List (Field Value))
  | [] => some fields
  | ⟨name, op⟩ :: ops => do
    let v ← op.zero call
    zeroFields call (Fields.insert name v fields) ops

end

/-- The zero value of the type `name`; `none` when fuel runs out. -/
def Program.zero (p : Program) : Nat → String → Option Value
  | 0, _ => none
  | fuel + 1, name =>
    match p.routine? name with
    | some r => r.decode.zero (p.zero fuel)
    | none => some (.struct [])

end WireGrammar
