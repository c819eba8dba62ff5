import WireGrammar.Field
import WireGrammar.Text.Hex

/-!
# JSON documents

The documents that listings are made of, and their layout.

* `Json` — strings, arrays, and objects whose keys keep their order.
* `Json.quote` — a string with its quotes and escapes.
* `Json.pretty` — a document over several lines, two blanks per level; empty arrays and objects
  stay on one line.
-/

set_option autoImplicit false
namespace WireGrammar

/-- A document.  Listings need neither numbers nor truth values. -/
inductive Json where
  | str (s : String)
  | arr (items : List Json)
  | obj (fields : List (Field Json))

namespace Json

/-- How a character stands inside a quoted string. -/
def escape (c : Char) : String :=
  if c = '"' then "\\\""
  else if c = '\\' then "\\\\"
  else if c = '\n' then "\\n"
  else if c = '\r' then "\\r"
  else if c = '\t' then "\\t"
  else if c = '\x08' then "\\b"
  else if c = '\x0c' then "\\f"
  else if c.toNat < 32 then "\\u" ++ Text.hex 4 c.toNat
  else String.singleton c

/-- A string with its quotes and escapes. -/
def quote (s : String) : String :=
  "\"" ++ String.join (s.toList.map escape) ++ "\""

/-- The blanks before a line at the given depth. -/
def margin (depth : Nat) : String :=
  String.ofList (List.replicate (2 * depth) ' ')

/-- Brackets around the lines of a block that stands at `depth`. -/
def block (opening closing : String) (depth : Nat) (lines : List String) : String :=
  if lines.isEmpty then opening ++ closing
  else
    opening ++ "\n" ++ ",\n".intercalate (lines.map (margin (depth + 1) ++ ·)) ++
      "\n" ++ margin depth ++ closing

mutual

/-- The text of a document that stands at `depth`. -/
def prettyAt (depth : Nat) : Json → String
  | .str s => quote s
  | .arr items => block "[" "]" depth (prettyItems (depth + 1) items)
  | .obj fields => block "\x7b" "\x7d" depth (prettyFields (depth + 1) fields)

/-- The texts of the items of an array. -/
def prettyItems (depth : Nat) : List Json → List String
  | [] => []
  | j :: js => prettyAt depth j :: prettyItems depth js

/-- The texts of the fields of an object. -/
def prettyFields (depth : Nat) : List (Field Json) → List String
  | [] => []
  | ⟨name, j⟩ :: fs => (quote name ++ ": " ++ prettyAt depth j) :: prettyFields depth fs

end

/-- The text of a document. -/
def pretty (j : Json) : String :=
  prettyAt 0 j

end Json
end WireGrammar
