/-!
# Primitive types

The types a grammar may use without declaring them: eight fixed-width integers, strings and byte
sequences.

* `IntKind` — signedness and width of an integer type; `IntKind.toInt` reads a word of that kind
  as an integer.
* `Primitive` — an integer kind, `string` or `bytes`.
* `Primitive.name`, `Primitive.ofName?` — the two directions of the naming; they are inverse to
  each other (`ofName?_name`, `name_of_ofName?`).
-/

set_option autoImplicit false
namespace WireGrammar

/-- The width of an integer type. -/
inductive Width where
  | w8
  | w16
  | w32
  | w64
deriving DecidableEq, Repr

/-- How many bytes an integer of this width takes. -/
def Width.bytes : Width → Nat
  | .w8 => 1
  | .w16 => 2
  | .w32 => 4
  | .w64 => 8

/-- An integer type: two's complement when signed. -/
structure IntKind where
  signed : Bool
  width : Width
deriving DecidableEq, Repr

namespace IntKind

def int8 : IntKind := ⟨true, .w8⟩
def int16 : IntKind := ⟨true, .w16⟩
def int32 : IntKind := ⟨true, .w32⟩
def int64 : IntKind := ⟨true, .w64⟩
def uint8 : IntKind := ⟨false, .w8⟩
def uint16 : IntKind := ⟨false, .w16⟩
def uint32 : IntKind := ⟨false, .w32⟩
def uint64 : IntKind := ⟨false, .w64⟩

/-- How many bytes an integer of this kind takes. -/
abbrev bytes (k : IntKind) : Nat := k.width.bytes

/-- How many bits an integer of this kind has. -/
abbrev bits (k : IntKind) : Nat := 8 * k.bytes

/-- The 32-bit kind of the given signedness. -/
def word (signed : Bool) : IntKind := ⟨signed, .w32⟩

/-- The integer a word stands for. -/
def toInt (k : IntKind) (x : BitVec k.bits) : Int :=
  if k.signed then x.toInt else x.toNat

/-- The word that stands for `n`, reduced modulo the width. -/
def ofInt (k : IntKind) (n : Int) : BitVec k.bits :=
  BitVec.ofInt k.bits n

theorem ofInt_toInt (k : IntKind) (x : BitVec k.bits) : k.ofInt (k.toInt x) = x := by
  unfold ofInt toInt
  split
  · exact BitVec.ofInt_toInt
  · simp

/-- The name of the kind in a grammar. -/
def name : IntKind → String
  | ⟨true, .w8⟩ => "int8"
  | ⟨true, .w16⟩ => "int16"
  | ⟨true, .w32⟩ => "int32"
  | ⟨true, .w64⟩ => "int64"
  | ⟨false, .w8⟩ => "uint8"
  | ⟨false, .w16⟩ => "uint16"
  | ⟨false, .w32⟩ => "uint32"
  | ⟨false, .w64⟩ => "uint64"

end IntKind

/-- A built-in type. Strings carry a 16-bit byte length, byte sequences a 32-bit one. -/
inductive Primitive where
  | int (kind : IntKind)
  | string
  | bytes
deriving DecidableEq, Repr

namespace Primitive

/-- The name of a built-in type in a grammar. -/
def name : Primitive → String
  | .int k => k.name
  | .string => "string"
  | .bytes => "bytes"

/-- Every built-in type. -/
def all : List Primitive :=
  [.int .int8, .int .int16, .int .int32, .int .int64,
   .int .uint8, .int .uint16, .int .uint32, .int .uint64, .string, .bytes]

/-- The built-in type called `s`, if there is one. -/
def ofName? (s : String) : Option Primitive :=
  all.find? (·.name == s)

/-- Is `s` reserved for a built-in type? -/
def isName (s : String) : Bool :=
  (ofName? s).isSome

theorem ofName?_name (p : Primitive) : ofName? p.name = some p := by
  rcases p with ⟨⟨s, w⟩⟩ | _ | _
  · cases s <;> cases w <;> decide
  · decide
  · decide

theorem name_of_ofName? {s : String} {p : Primitive} (h : ofName? s = some p) : p.name = s := by
  simpa using List.find?_some h

end Primitive
end WireGrammar
