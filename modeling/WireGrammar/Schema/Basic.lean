import WireGrammar.Field
import WireGrammar.Primitive

/-!
# Schemas

The meaning of a grammar: each declared name with its type, references resolved.

* `Ty` — types.  References to scalar declarations have been replaced by their primitive; every
  other reference stays a name.
* `TypeDecl`, `Schema` — declared types in the order of the grammar.
* `Framing`, `Ty.framingField?` — a struct is framed if its first field is called `Size` or `CRC`.
-/

set_option autoImplicit false
namespace WireGrammar

/-- What an array starts with. -/
inductive Extent where
  /-- The number of elements. -/
  | length
  /-- The number of bytes the elements take. -/
  | size
deriving DecidableEq, Repr

/-- A resolved type. -/
inductive Ty where
  | scalar (p : Primitive)
  /-- A declaration, known by its name. -/
  | named (name : String)
  /-- Fields in the order they go over the wire. -/
  | struct (fields : List (Field Ty))
  | array (element : Ty) (extent : Extent)
  /-- An alternation.  Nothing on the wire tells its variants apart, so it has no codec. -/
  | polymorphic (variants : List Ty)

/-- A declared type. -/
structure TypeDecl where
  name : String
  type : Ty

/-- Declared types in the order of the grammar. -/
structure Schema where
  decls : List TypeDecl

/-- The declared type called `name`. -/
def Schema.get? (s : Schema) (name : String) : Option TypeDecl :=
  s.decls.find? (·.name == name)

/-- How a struct describes itself in its first field. -/
inductive Framing where
  /-- By the number of bytes that follow the field. -/
  | size
  /-- By the CRC-32 of the bytes that follow the field. -/
  | crc
deriving DecidableEq, Repr

namespace Framing

/-- The field name that asks for a framing. -/
def fieldName : Framing → String
  | .size => "Size"
  | .crc => "CRC"

/-- The framing that a first field called `name` asks for. -/
def ofName? (name : String) : Option Framing :=
  [Framing.size, .crc].find? (·.fieldName == name)

theorem ofName?_fieldName (f : Framing) : ofName? f.fieldName = some f := by
  cases f <;> decide

theorem fieldName_of_ofName? {name : String} {f : Framing} (h : ofName? name = some f) :
    f.fieldName = name := by
  simpa using List.find?_some h

end Framing

/-- The first field of a struct, if it frames the struct. -/
def Ty.framingField? : Ty → Option (Field Ty)
  | .struct (f :: _) => if (Framing.ofName? f.name).isSome then some f else none
  | _ => none

end WireGrammar
