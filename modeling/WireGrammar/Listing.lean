import WireGrammar.Compile
import WireGrammar.Json

/-!
# Listings

Grammars, schemas and programs as JSON documents.

* `Grammar.toJson` — declarations as they are written.
* `Schema.toJson` — declared types.
* `Program.toJson` — routines, each framed struct spelled out in steps: reserve the slot, write the
  slot field, mark the start of the body, write the body, fill in the slot; or read the slot field,
  mark the start, read the body, verify the slot.
-/

set_option autoImplicit false
namespace WireGrammar

/-! ## Grammars -/

mutual

/-- An expression; what is absent is left out. -/
def Expr.toJson : Expr → Json
  | ⟨kind, label, target, children⟩ =>
    .obj ([⟨"kind", .str kind.name⟩]
      ++ (label.map fun s => Field.mk "name" (Json.str s)).toList
      ++ (target.map fun s => Field.mk "value" (Json.str s)).toList
      ++ (if children.isEmpty then [] else [⟨"children", .arr (listToJson children)⟩]))

/-- Several expressions. -/
def Expr.listToJson : List Expr → List Json
  | [] => []
  | e :: es => e.toJson :: listToJson es

end

/-- The declarations of a grammar. -/
def Grammar.toJson (g : Grammar) : Json :=
  .arr (g.decls.map fun d => .obj [⟨"name", .str d.name⟩, ⟨"type", d.expr.toJson⟩])

/-! ## Schemas -/

/-- The name of what an array starts with. -/
def Extent.name : Extent → String
  | .length => "length"
  | .size => "size"

mutual

/-- A type, tagged with its kind. -/
def Ty.toJson : Ty → Json
  | .scalar p => .obj [⟨"kind", .str "scalar"⟩, ⟨"primitive", .str p.name⟩]
  | .named name => .obj [⟨"kind", .str "named"⟩, ⟨"name", .str name⟩]
  | .struct fields => .obj [⟨"kind", .str "struct"⟩, ⟨"fields", .arr (fieldsToJson fields)⟩]
  | .array element extent =>
    .obj [⟨"kind", .str "array"⟩, ⟨"element", element.toJson⟩, ⟨"prefix", .str extent.name⟩]
  | .polymorphic variants =>
    .obj [⟨"kind", .str "polymorphic"⟩, ⟨"variants", .arr (listToJson variants)⟩]

/-- Fields with their types. -/
def Ty.fieldsToJson : List (Field Ty) → List Json
  | [] => []
  | ⟨name, t⟩ :: fs => .obj [⟨"name", .str name⟩, ⟨"type", t.toJson⟩] :: fieldsToJson fs

/-- Several types. -/
def Ty.listToJson : List Ty → List Json
  | [] => []
  | t :: ts => t.toJson :: listToJson ts

end

/-- The declared types of a schema. -/
def Schema.toJson (s : Schema) : Json :=
  .arr (s.decls.map fun d => .obj [⟨"name", .str d.name⟩, ⟨"type", d.type.toJson⟩])

/-! ## Programs -/

/-- The name of a framing. -/
def Framing.name : Framing → String
  | .size => "size"
  | .crc => "crc"

/-- An object with one key. -/
def tagged (tag : String) (j : Json) : Json :=
  .obj [⟨tag, j⟩]

/-- The step that handles one field. -/
def fieldStep (name : String) (op : Json) : Json :=
  tagged "field" (.obj [⟨"name", .str name⟩, ⟨"op", op⟩])

/-- A primitive under the name of a scalar declaration. -/
def aliasJson (typeName : String) (p : Primitive) : Json :=
  .obj [⟨"alias", .str typeName⟩, ⟨"primitive", .str p.name⟩]

/-- The name of a slot's primitive. -/
def slotJson (signed : Bool) : Json :=
  .str (IntKind.word signed).name

mutual

/-- An encode operation. -/
def EncodeOp.toJson : EncodeOp → Json
  | .write p => tagged "write" (.str p.name)
  | .writeAlias typeName p => tagged "write_alias" (aliasJson typeName p)
  | .call name => tagged "call" (.str name)
  | .struct ops => tagged "struct" (.arr (fieldSteps ops))
  | .framed framing signed body =>
    tagged "struct" (.arr
      ([.str "reserve_slot", fieldStep framing.fieldName (tagged "write" (slotJson signed)),
        .str "mark_start"]
        ++ fieldSteps body ++ [tagged "backpatch" (.str framing.name)]))
  | .lengthArray element => tagged "length_array" element.toJson
  | .sizeArray element => tagged "size_array" element.toJson
  | .unsupported owner => tagged "unsupported" (.str owner)

/-- The steps that write fields. -/
def EncodeOp.fieldSteps : List (Field EncodeOp) → List Json
  | [] => []
  | ⟨name, op⟩ :: ops => fieldStep name op.toJson :: fieldSteps ops

end

mutual

/-- A decode operation. -/
def DecodeOp.toJson : DecodeOp → Json
  | .read p => tagged "read" (.str p.name)
  | .readAlias typeName p => tagged "read_alias" (aliasJson typeName p)
  | .call name => tagged "call" (.str name)
  | .struct ops => tagged "struct" (.arr (fieldSteps ops))
  | .framed framing signed verify body =>
    tagged "struct" (.arr
      ([fieldStep framing.fieldName (tagged "read" (slotJson signed)), .str "mark_start"]
        ++ fieldSteps body
        ++ (if verify then
              [tagged "verify"
                (.obj [⟨"framing", .str framing.name⟩, ⟨"field", .str framing.fieldName⟩])]
            else [])))
  | .lengthArray element => tagged "length_array" element.toJson
  | .sizeArray element => tagged "size_array" element.toJson
  | .unsupported owner => tagged "unsupported" (.str owner)

/-- The steps that read fields. -/
def DecodeOp.fieldSteps : List (Field DecodeOp) → List Json
  | [] => []
  | ⟨name, op⟩ :: ops => fieldStep name op.toJson :: fieldSteps ops

end

/-- The two operations of a routine. -/
def Routine.toJson (r : Routine) : Json :=
  .obj [⟨"name", .str r.name⟩, ⟨"marshal", r.encode.toJson⟩, ⟨"unmarshal", r.decode.toJson⟩]

/-- A program. -/
def Program.toJson (p : Program) : Json :=
  .obj [⟨"routines", .arr (p.routines.map (·.toJson))⟩, ⟨"skipped", .arr (p.skipped.map .str)⟩]

end WireGrammar
