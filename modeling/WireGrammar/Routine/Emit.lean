import WireGrammar.CompileError
import WireGrammar.Routine.Basic

/-!
# Emitting routines

From a schema to the program that encodes and decodes its types.

* `Ty.encodeOp`, `Ty.decodeOp` — the operations of a type.
* `framing?` — the framing of a struct; its first field must be a 32-bit integer then.
* `Schema.emit` — a routine for every declared type but the alternations, which are only listed.
-/

set_option autoImplicit false
namespace WireGrammar

/-- The framing that the first of `fields` asks for, with the signedness of its slot.  Only a 32-bit
integer can be the slot. -/
def framing? (owner : String) : List (Field Ty) → Except CompileError (Option (Framing × Bool))
  | [] => .ok none
  | f :: _ =>
    match Framing.ofName? f.name with
    | none => .ok none
    | some framing =>
      match f.val with
      | .scalar (.int ⟨signed, .w32⟩) => .ok (some (framing, signed))
      | _ => .error (.framingField owner f.name)

mutual

/-- How to encode a type that occurs in the declaration `owner`. -/
def Ty.encodeOp (owner : String) : Ty → Except CompileError EncodeOp
  | .scalar p => .ok (.write p)
  | .named name => .ok (.call name)
  | .struct fields => do
    let framing ← framing? owner fields
    let ops ← encodeFields owner fields
    match framing with
    | none => return .struct ops
    | some (framing, signed) => return .framed framing signed ops.tail
  | .array element .length => .lengthArray <$> element.encodeOp owner
  | .array element .size => .sizeArray <$> element.encodeOp owner
  | .polymorphic _ => .ok (.unsupported owner)

/-- How to encode fields. -/
def Ty.encodeFields (owner : String) :
    List (Field Ty) → Except CompileError (List (Field EncodeOp))
  | [] => .ok []
  | ⟨name, t⟩ :: fs => do
    let op ← t.encodeOp owner
    let ops ← encodeFields owner fs
    return ⟨name, op⟩ :: ops

end

mutual

/-- How to decode a type that occurs in the declaration `owner`.  Sizes are always verified,
checksums if `verifyCrc` says so. -/
def Ty.decodeOp (verifyCrc : Bool) (owner : String) : Ty → Except CompileError DecodeOp
  | .scalar p => .ok (.read p)
  | .named name => .ok (.call name)
  | .struct fields => do
    let framing ← framing? owner fields
    let ops ← decodeFields verifyCrc owner fields
    match framing with
    | none => return .struct ops
    | some (.size, signed) => return .framed .size signed true ops.tail
    | some (.crc, signed) => return .framed .crc signed verifyCrc ops.tail
  | .array element .length => .lengthArray <$> element.decodeOp verifyCrc owner
  | .array element .size => .sizeArray <$> element.decodeOp verifyCrc owner
  | .polymorphic _ => .ok (.unsupported owner)

/-- How to decode fields. -/
def Ty.decodeFields (verifyCrc : Bool) (owner : String) :
    List (Field Ty) → Except CompileError (List (Field DecodeOp))
  | [] => .ok []
  | ⟨name, t⟩ :: fs => do
    let op ← t.decodeOp verifyCrc owner
    let ops ← decodeFields verifyCrc owner fs
    return ⟨name, op⟩ :: ops

end

/-- The routine of a declared type; none for an alternation.  The values of a scalar declaration
carry its name. -/
def TypeDecl.routine? (verifyCrc : Bool) (d : TypeDecl) : Except CompileError (Option Routine) :=
  match d.type with
  | .polymorphic _ => .ok none
  | .scalar p => .ok (some ⟨d.name, .writeAlias d.name p, .readAlias d.name p⟩)
  | type => do
    let encode ← type.encodeOp d.name
    let decode ← type.decodeOp verifyCrc d.name
    return some ⟨d.name, encode, decode⟩

namespace Schema

/-- The program of declared types. -/
def emitDecls (verifyCrc : Bool) : List TypeDecl → Except CompileError Program
  | [] => .ok ⟨[], []⟩
  | d :: ds => do
    let routine ← d.routine? verifyCrc
    let rest ← emitDecls verifyCrc ds
    match routine with
    | some r => return { rest with routines := r :: rest.routines }
    | none => return { rest with skipped := d.name :: rest.skipped }

/-- The program of a schema. -/
def emit (verifyCrc : Bool) (s : Schema) : Except CompileError Program :=
  emitDecls verifyCrc s.decls

end Schema
end WireGrammar
