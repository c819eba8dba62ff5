import WireGrammar.Schema.Basic

/-!
# Routines

What a program does to encode and to decode a type: two trees of operations.

* `EncodeOp`, `DecodeOp` — the operations.  A framed struct is one operation: its first field is the
  slot that describes the rest.
* `Routine`, `Program` — the two operations of each declared type, and the names of the declared
  alternations, which have none.
* `Program.unresolved` — the names that routines call but that have no routine.
-/

set_option autoImplicit false
namespace WireGrammar

/-- How to encode a value. -/
inductive EncodeOp where
  | write (p : Primitive)
  /-- Unwrap a value of the scalar declaration `typeName`, then write it. -/
  | writeAlias (typeName : String) (p : Primitive)
  /-- Run another type's routine. -/
  | call (name : String)
  | struct (fields : List (Field EncodeOp))
  /-- Write a 32-bit slot and then `body`; fill the slot with the size or checksum of the body. -/
  | framed (framing : Framing) (signed : Bool) (body : List (Field EncodeOp))
  | lengthArray (element : EncodeOp)
  | sizeArray (element : EncodeOp)
  /-- An alternation inside the declaration `owner`. -/
  | unsupported (owner : String)

/-- How to decode a value. -/
inductive DecodeOp where
  | read (p : Primitive)
  /-- Read a primitive, then wrap it as a value of the scalar declaration `typeName`. -/
  | readAlias (typeName : String) (p : Primitive)
  /-- Run another type's routine. -/
  | call (name : String)
  | struct (fields : List (Field DecodeOp))
  /-- Read a 32-bit slot and then `body`; with `verify`, compare the slot with the size or checksum
  of the body. -/
  | framed (framing : Framing) (signed verify : Bool) (body : List (Field DecodeOp))
  | lengthArray (element : DecodeOp)
  | sizeArray (element : DecodeOp)
  /-- An alternation inside the declaration `owner`. -/
  | unsupported (owner : String)

/-- The two operations of a declared type. -/
structure Routine where
  name : String
  encode : EncodeOp
  decode : DecodeOp

/-- Routines in the order of the schema, and the names of the alternations that have none. -/
structure Program where
  routines : List Routine
  skipped : List String

/-- The routine of the type `name`. -/
def Program.routine? (p : Program) (name : String) : Option Routine :=
  p.routines.find? (·.name == name)

mutual

/-- The names that an operation calls, from left to right. -/
def EncodeOp.calls : EncodeOp → List String
  | .call name => [name]
  | .struct fields => callsOfFields fields
  | .framed _ _ body => callsOfFields body
  | .lengthArray e | .sizeArray e => e.calls
  | .write _ | .writeAlias .. | .unsupported _ => []

/-- The names that the operations of fields call. -/
def EncodeOp.callsOfFields : List (Field EncodeOp) → List String
  | [] => []
  | ⟨_, op⟩ :: fs => op.calls ++ callsOfFields fs

end

/-- The names that some routine calls and that have no routine, each once. -/
def Program.unresolved (p : Program) : List String :=
  ((p.routines.flatMap (·.encode.calls)).filter fun name => (p.routine? name).isNone).eraseDups

end WireGrammar
