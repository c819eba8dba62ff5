import WireGrammar.Grammar.Parser
import WireGrammar.Routine.Emit
import WireGrammar.Schema.Resolve

/-!
# Compiling a grammar

* `compileGrammar` — resolve and emit.
* `compile` — the same from the text of a grammar.
-/

set_option autoImplicit false
namespace WireGrammar

/-- A grammar with its schema and its program. -/
structure Compiled where
  grammar : Grammar
  schema : Schema
  program : Program

/-- Resolve a grammar and emit its program. -/
def compileGrammar (verifyCrc : Bool) (g : Grammar) : Except CompileError Compiled := do
  let schema ← g.resolve
  let program ← schema.emit verifyCrc
  return ⟨g, schema, program⟩

/-- Read, resolve and emit. -/
def compile (verifyCrc : Bool) (text : String) : Except CompileError Compiled :=
  match Grammar.parse? text with
  | none => .error .parse
  | some g => compileGrammar verifyCrc g

end WireGrammar
