import WireGrammar.CompileError
import WireGrammar.Grammar.Basic
import WireGrammar.Schema.Basic

/-!
# Resolving a grammar

From the declarations of a grammar to its schema.

* `Grammar.distinct` — the declarations without repetitions; two of one name must agree, and none
  may have the name of a built-in type.
* `Expr.scalar?` — the primitive that a scalar declaration stands for.
* `Resolve.reference` — the type that a name refers to: scalar declarations are inlined, all others
  stay names.
* `Resolve.fieldName` — the name of a field, from its label, its reference or its position.
* `Grammar.resolve` — the schema of a grammar.
-/

set_option autoImplicit false
namespace WireGrammar

/-- The primitive of a scalar expression: one with a single child, a leaf that names it. -/
def Expr.scalar? (e : Expr) : Option Primitive :=
  match e.children with
  | [only] =>
    match only.kind with
    | .leaf => only.target.bind Primitive.ofName?
    | _ => none
  | _ => none

/-- Is this a scalar expression? -/
def Expr.isScalar (e : Expr) : Bool :=
  e.scalar?.isSome

namespace Resolve

/-- Go through declarations, keeping those of new names in `kept` (latest first). -/
def distinctFrom (kept : List Decl) : List Decl → Except CompileError (List Decl)
  | [] => .ok kept.reverse
  | d :: ds =>
    if Primitive.isName d.name then .error (.reservedName d.name)
    else
      match kept.find? (·.name == d.name) with
      | some first =>
        if first.expr = d.expr then distinctFrom kept ds else .error (.conflict d.name)
      | none => distinctFrom (d :: kept) ds

/-- The type that `name` refers to among `decls`.  A scalar declaration is replaced by what it
declares.  Only a hand-built declaration can be both scalar and a reference of its own; `fuel`
bounds how many such references are followed. -/
def reference (decls : List Decl) : Nat → String → Ty
  | fuel, name =>
    match Primitive.ofName? name with
    | some p => .scalar p
    | none =>
      match decls.find? (·.name == name) with
      | none => .named name
      | some d =>
        match d.expr.scalar?, d.expr.kind, fuel with
        | none, _, _ => .named name
        | some p, .sequence, _ => .scalar p
        | some p, .lengthArray, _ => .array (.scalar p) .length
        | some p, .sizeArray, _ => .array (.scalar p) .size
        | some p, .alternation, _ => .polymorphic [.scalar p]
        | some _, .leaf, 0 => .named name
        | some _, .leaf, fuel + 1 => reference decls fuel (d.expr.target.getD "")

/-- The name of the field that `e` makes at position `index`: its own name, else the plural of the
only element's name for an array, else a name made from the position. -/
def fieldName (e : Expr) (index : Nat) : String :=
  match e.ownName? with
  | some name => name
  | none =>
    match e.kind.isArray, e.children with
    | true, [only] =>
      match only.ownName? with
      | some name => name ++ "s"
      | none => s!"Field{index}"
    | _, _ => s!"Field{index}"

/-- A sequence of types: a single one stands for itself, any other number makes a struct. -/
def combine : List (Field Ty) → Ty
  | [only] => only.val
  | fields => .struct fields

mutual

/-- The type that an expression describes.  `ref` says what names refer to; `owner` is the
declaration that the expression belongs to. -/
def type (ref : String → Ty) (owner : String) : Expr → Except CompileError Ty
  | ⟨.leaf, _, target, _⟩ => .ok (ref (target.getD ""))
  | ⟨.sequence, _, _, children⟩ => combine <$> fields ref owner [] 0 children
  | ⟨.lengthArray, _, _, children⟩ =>
    (fun fs => .array (combine fs) .length) <$> fields ref owner [] 0 children
  | ⟨.sizeArray, _, _, children⟩ =>
    (fun fs => .array (combine fs) .size) <$> fields ref owner [] 0 children
  | ⟨.alternation, _, _, children⟩ => .polymorphic <$> types ref owner children

/-- The types that expressions describe. -/
def types (ref : String → Ty) (owner : String) : List Expr → Except CompileError (List Ty)
  | [] => .ok []
  | e :: es => do
    let t ← type ref owner e
    let ts ← types ref owner es
    return t :: ts

/-- The fields that expressions make, the first at position `index`; the names in `seen` are
taken. -/
def fields (ref : String → Ty) (owner : String) (seen : List String) (index : Nat) :
    List Expr → Except CompileError (List (Field Ty))
  | [] => .ok []
  | e :: es => do
    let name := fieldName e index
    if seen.contains name then throw (.duplicateField owner name)
    let t ← type ref owner e
    let fs ← fields ref owner (name :: seen) (index + 1) es
    return ⟨name, t⟩ :: fs

end

end Resolve

/-- The declarations of a grammar, each name once and in the order of first use. -/
def Grammar.distinct (g : Grammar) : Except CompileError (List Decl) :=
  Resolve.distinctFrom [] g.decls

/-- The schema of a grammar. -/
def Grammar.resolve (g : Grammar) : Except CompileError Schema := do
  let decls ← g.distinct
  let ref := Resolve.reference decls decls.length
  let types ← decls.mapM fun d => do
    let type ← Resolve.type ref d.name d.expr
    return { name := d.name, type := type : TypeDecl }
  return { decls := types }

end WireGrammar
