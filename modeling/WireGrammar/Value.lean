import WireGrammar.Field
import WireGrammar.Primitive

/-!
# Dynamic values

What an encoder consumes and a decoder produces.

* `Value` — integers of every kind, text, bytes, lists, structs, and values of a named scalar type.
* `Value.zero` — the zero value of a primitive.
* `Value.describe` — the short description used when a value does not fit.
* `Value.beq`, with `Value.beq_iff` — equality is decidable; structs are equal as maps because
  their fields are kept sorted by name.
-/

set_option autoImplicit false
namespace WireGrammar

/-- A dynamic value.  The fields of a `struct` are a map: a list sorted by name. -/
inductive Value where
  | int (kind : IntKind) (bits : BitVec kind.bits)
  | text (s : String)
  | bytes (b : ByteArray)
  | list (items : List Value)
  | struct (fields : List (Field Value))
  /-- A value of the scalar declaration `typeName`; kept apart from its primitive. -/
  | named (typeName : String) (value : Value)

namespace Value

/-- The zero value of a primitive. -/
def zero : Primitive → Value
  | .int k => .int k 0#k.bits
  | .string => .text ""
  | .bytes => .bytes .empty

/-- What kind of value this is, for reporting a mismatch. -/
def describe : Value → String
  | .int k _ => k.name
  | .text _ => "string"
  | .bytes _ => "bytes"
  | .list _ => "list"
  | .struct _ => "struct"
  | .named typeName _ => typeName

/-- The integer as a signed 64-bit word; an unsigned 64-bit integer wraps. -/
def asInt64? : Value → Option Int64
  | .int k x => some (Int64.ofInt (k.toInt x))
  | _ => none

/-- The text, if the value is one. -/
def asText? : Value → Option String
  | .text s => some s
  | _ => none

/-- The items, if the value is a list. -/
def asList? : Value → Option (List Value)
  | .list items => some items
  | _ => none

/-- The fields, if the value is a struct. -/
def asStruct? : Value → Option (List (Field Value))
  | .struct fields => some fields
  | _ => none

/-- The field `name` of a struct. -/
def field? (v : Value) (name : String) : Option Value :=
  v.asStruct?.bind (Fields.get? name)

/-! ## Depth -/

mutual

/-- How deeply values are nested in `v`, counting `v` itself. -/
def depth : Value → Nat
  | .int .. | .text _ | .bytes _ => 1
  | .list items => listDepth items + 1
  | .struct fields => fieldsDepth fields + 1
  | .named _ v => v.depth + 1

/-- The largest depth in a list of values. -/
def listDepth : List Value → Nat
  | [] => 0
  | v :: vs => max v.depth (listDepth vs)

/-- The largest depth among fields. -/
def fieldsDepth : List (Field Value) → Nat
  | [] => 0
  | ⟨_, v⟩ :: fs => max v.depth (fieldsDepth fs)

end

/-! ## Equality -/

mutual

/-- Are two values the same? -/
def beq : Value → Value → Bool
  | .int k x, .int l y => k == l && x.toNat == y.toNat
  | .text s, .text t => s == t
  | .bytes a, .bytes b => a.data == b.data
  | .list vs, .list ws => beqList vs ws
  | .struct fs, .struct gs => beqFields fs gs
  | .named n v, .named m w => n == m && v.beq w
  | _, _ => false

/-- Are two lists of values the same? -/
def beqList : List Value → List Value → Bool
  | [], [] => true
  | v :: vs, w :: ws => v.beq w && beqList vs ws
  | _, _ => false

/-- Are two lists of fields the same? -/
def beqFields : List (Field Value) → List (Field Value) → Bool
  | [], [] => true
  | ⟨n, v⟩ :: fs, ⟨m, w⟩ :: gs => n == m && v.beq w && beqFields fs gs
  | _, _ => false

end

mutual

/-- **The test for equality is equality.** -/
theorem beq_iff : ∀ v w : Value, v.beq w = true ↔ v = w
  | .int k x, w => by
    cases w with
    | int l y =>
      simp only [beq, Bool.and_eq_true, beq_iff_eq, Value.int.injEq]
      constructor
      · rintro ⟨rfl, h⟩
        exact ⟨rfl, heq_of_eq (BitVec.eq_of_toNat_eq h)⟩
      · rintro ⟨rfl, h⟩
        cases h
        exact ⟨rfl, rfl⟩
    | _ => simp [beq]
  | .text s, w => by cases w <;> simp [beq]
  | .bytes b, w => by cases w <;> simp [beq, ByteArray.ext_iff]
  | .list vs, w => by
    cases w with
    | list ws => simp [beq, beqList_iff vs ws]
    | _ => simp [beq]
  | .struct fs, w => by
    cases w with
    | struct gs => simp [beq, beqFields_iff fs gs]
    | _ => simp [beq]
  | .named n v, w => by
    cases w with
    | named m w => simp [beq, beq_iff v w]
    | _ => simp [beq]

theorem beqList_iff : ∀ vs ws : List Value, beqList vs ws = true ↔ vs = ws
  | [], ws => by cases ws <;> simp [beqList]
  | v :: vs, ws => by
    cases ws with
    | nil => simp [beqList]
    | cons w ws => simp [beqList, beq_iff v w, beqList_iff vs ws]

theorem beqFields_iff : ∀ fs gs : List (Field Value), beqFields fs gs = true ↔ fs = gs
  | [], gs => by cases gs <;> simp [beqFields]
  | ⟨n, v⟩ :: fs, gs => by
    cases gs with
    | nil => simp [beqFields]
    | cons g gs =>
      obtain ⟨m, w⟩ := g
      simp [beqFields, beq_iff v w, beqFields_iff fs gs]

end

instance : DecidableEq Value := fun v w =>
  decidable_of_iff (v.beq w = true) (beq_iff v w)

end Value
end WireGrammar
