/-!
# Grammars

A grammar is a list of declarations, each giving a name to a type expression.

* `NodeKind`, `Expr` — type expressions as trees.  Every node has the same shape, so that grammars
  built by hand may hold trees that no text describes.
* `Decl`, `Grammar` — declarations in the order they are written.
* `Expr.ownName?` — the name a node brings along as a field.
* `Expr.beq`, with `Expr.beq_iff` — equality of expressions is decidable.
-/

set_option autoImplicit false
namespace WireGrammar

/-- The shape of a node of a type expression. -/
inductive NodeKind where
  /-- A reference to a built-in type or to a declaration. -/
  | leaf
  | sequence
  | alternation
  /-- An array that starts with the number of its elements. -/
  | lengthArray
  /-- An array that starts with the number of bytes its elements take. -/
  | sizeArray
deriving DecidableEq, Repr

/-- The name of a node's shape. -/
def NodeKind.name : NodeKind → String
  | .leaf => "leaf"
  | .sequence => "sequence"
  | .alternation => "alternation"
  | .lengthArray => "length_array"
  | .sizeArray => "size_array"

/-- Is this one of the two kinds of array? -/
def NodeKind.isArray : NodeKind → Bool
  | .lengthArray | .sizeArray => true
  | _ => false

/-- A type expression: `label` is an explicit field name, `target` what a leaf refers to. -/
structure Expr where
  kind : NodeKind
  label : Option String := none
  target : Option String := none
  children : List Expr := []

namespace Expr

/-- A reference to `target`. -/
def leaf (target : String) : Expr :=
  { kind := .leaf, target := some target }

/-- An unlabelled node with children. -/
def node (kind : NodeKind) (children : List Expr) : Expr :=
  { kind := kind, children := children }

/-- The name a node brings along as a field: its label, else what a leaf refers to. -/
def ownName? (e : Expr) : Option String :=
  match e.label, e.kind with
  | some name, _ => some name
  | none, .leaf => e.target
  | none, _ => none

mutual

/-- Are two expressions the same? -/
def beq : Expr → Expr → Bool
  | ⟨k, l, t, cs⟩, ⟨k', l', t', cs'⟩ => k == k' && l == l' && t == t' && beqList cs cs'

/-- Are two lists of expressions the same? -/
def beqList : List Expr → List Expr → Bool
  | [], [] => true
  | e :: es, f :: fs => e.beq f && beqList es fs
  | _, _ => false

end

mutual

/-- **The test for equality is equality.** -/
theorem beq_iff : ∀ e f : Expr, e.beq f = true ↔ e = f
  | ⟨k, l, t, cs⟩, ⟨k', l', t', cs'⟩ => by
    simp [beq, beqList_iff cs cs', and_assoc]

theorem beqList_iff : ∀ es fs : List Expr, beqList es fs = true ↔ es = fs
  | [], fs => by cases fs <;> simp [beqList]
  | e :: es, fs => by
    cases fs with
    | nil => simp [beqList]
    | cons f fs => simp [beqList, beq_iff e f, beqList_iff es fs]

end

instance : DecidableEq Expr := fun e f =>
  decidable_of_iff (e.beq f = true) (beq_iff e f)

end Expr

/-- A named type expression. -/
structure Decl where
  name : String
  expr : Expr
deriving DecidableEq

/-- Declarations in the order they are written. -/
structure Grammar where
  decls : List Decl
deriving DecidableEq

/-- The first declaration called `name`. -/
def Grammar.get? (g : Grammar) (name : String) : Option Decl :=
  g.decls.find? (·.name == name)

end WireGrammar
