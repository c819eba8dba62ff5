/-!
# Errors of compilation

Any of these stops the compilation of the whole grammar.
-/

set_option autoImplicit false
namespace WireGrammar

/-- Why a grammar cannot be compiled. -/
inductive CompileError where
  /-- The text is not a grammar. -/
  | parse
  /-- Two declarations share a name but differ in their expressions. -/
  | conflict (name : String)
  /-- A declaration has the name of a built-in type. -/
  | reservedName (name : String)
  /-- Two fields of one struct inside `decl` have the same name. -/
  | duplicateField (decl field : String)
  /-- A leading `Size` or `CRC` field inside `decl` that is not a 32-bit integer. -/
  | framingField (decl field : String)
deriving DecidableEq, Repr

/-- The wording of a `CompileError`. -/
def CompileError.message : CompileError → String
  | .parse => "Parse error: the text is not a grammar"
  | .conflict name => s!"conflicting declarations for {name}"
  | .reservedName name => s!"declaration {name} reuses a built-in primitive name"
  | .duplicateField decl field => s!"duplicate field {field} in {decl}"
  | .framingField decl field => s!"framing field {field} of {decl} must be int32 or uint32"

end WireGrammar
