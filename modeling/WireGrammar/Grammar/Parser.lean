import WireGrammar.Grammar.Basic
import WireGrammar.Grammar.Token

/-!
# Reading a grammar from its text

Declarations need no terminator: a name followed by `=` starts the next one.  So the tokens are
first cut before every such head, and then the tokens of each declaration are read by a machine
with a stack of open brackets.

* `Parser.cut` — the tokens before the first head, and the tokens of each declaration.
* `Parser.Level`, `Parser.State` — what has been read inside the innermost open bracket, and inside
  all the brackets around it.
* `Expr.ofTokens?` — the expression that the tokens of one declaration describe.
* `Grammar.parse?` — the grammar that a text describes.
-/

set_option autoImplicit false
namespace WireGrammar
namespace Parser

/-- Cut tokens before every `name =`: first what stands before the first of them, then each name
with the tokens up to the next. -/
def cut : List Token → List Token × List (String × List Token)
  | [] => ([], [])
  | .ident name :: .define :: ts =>
    let (body, pieces) := cut ts
    ([], (name, body) :: pieces)
  | t :: ts =>
    let (body, pieces) := cut ts
    (t :: body, pieces)

/-- Nothing is lost by cutting. -/
theorem append_cut (ts : List Token) :
    (cut ts).1 ++ (cut ts).2.flatMap (fun p => .ident p.1 :: .define :: p.2) = ts := by
  fun_induction cut ts with
  | case1 => rfl
  | case2 name ts body pieces h ih =>
    rw [h] at ih
    simpa using ih
  | case3 t ts hne body pieces h ih =>
    rw [h] at ih
    simpa using ih

/-- What has been read inside one bracket: finished branches and the terms of the current one,
both latest first. -/
structure Level where
  branches : List Expr := []
  terms : List Expr := []

namespace Level

/-- Add a term to the current branch. -/
def push (l : Level) (e : Expr) : Level :=
  { l with terms := e :: l.terms }

/-- Finish the current branch, which must have a term. -/
def nextBranch? (l : Level) : Option Level :=
  if l.terms.isEmpty then none
  else some { branches := .node .sequence l.terms.reverse :: l.branches }

/-- Finish the level: a single branch is a sequence, several are an alternation. -/
def close? (l : Level) : Option Expr :=
  l.nextBranch?.map fun l =>
    match l.branches with
    | [only] => only
    | branches => .node .alternation branches.reverse

end Level

/-- The children of an array: the terms of a bracketed sequence, or the alternation itself. -/
def elements (body : Expr) : List Expr :=
  match body.kind with
  | .sequence => body.children
  | _ => [body]

/-- The node that a bracket makes of its content. -/
def enclose : Bracket → Expr → Expr
  | .round, body => body
  | .square, body => .node .lengthArray (elements body)
  | .curly, body => .node .sizeArray (elements body)

/-- An open bracket: its label, and what had been read around it. -/
structure Enclosing where
  bracket : Bracket
  label : Option String
  outer : Level

/-- The state of reading an expression: the open brackets, innermost first, what has been read
inside the innermost, and a label waiting for its term. -/
structure State where
  stack : List Enclosing := []
  level : Level := {}
  label : Option String := none

namespace State

/-- Add a term, giving it the waiting label. -/
def push (s : State) (e : Expr) : State :=
  { s with level := s.level.push { e with label := s.label }, label := none }

/-- Open a bracket, which takes the waiting label. -/
def enter (s : State) (b : Bracket) : State :=
  { stack := ⟨b, s.label, s.level⟩ :: s.stack }

/-- Close a bracket; it must be the innermost open one. -/
def leave? (s : State) (b : Bracket) : Option State :=
  match s.label, s.stack with
  | none, enclosing :: stack =>
    if enclosing.bracket = b then
      s.level.close?.map fun body =>
        State.push { stack := stack, level := enclosing.outer, label := enclosing.label }
          (enclose b body)
    else none
  | _, _ => none

/-- Start the next branch. -/
def branch? (s : State) : Option State :=
  match s.label with
  | none => s.level.nextBranch?.map fun level => { s with level := level }
  | some _ => none

/-- Take in a token; a label is not a token by itself but a name with the colon after it. -/
def step? (s : State) : Token → Option State
  | .ident name => some (s.push (.leaf name))
  | .opening b => some (s.enter b)
  | .closing b => s.leave? b
  | .bar => s.branch?
  | .define | .semicolon | .colon => none

/-- Take in a label; only one may wait for its term. -/
def setLabel? (s : State) (name : String) : Option State :=
  match s.label with
  | none => some { s with label := some name }
  | some _ => none

/-- The finished expression, when no bracket is open and no label waits. -/
def finish? (s : State) : Option Expr :=
  match s.label, s.stack with
  | none, [] => s.level.close?
  | _, _ => none

/-- Read the tokens of a declaration; a semicolon may end them. -/
def run? (s : State) : List Token → Option Expr
  | [] => s.finish?
  | [.semicolon] => s.finish?
  | .ident name :: .colon :: ts =>
    match s.setLabel? name with
    | none => none
    | some s' => s'.run? ts
  | t :: ts =>
    match s.step? t with
    | none => none
    | some s' => s'.run? ts

end State
end Parser

/-- The expression that the tokens of one declaration describe. -/
def Expr.ofTokens? (ts : List Token) : Option Expr :=
  Parser.State.run? {} ts

/-- The grammar that tokens describe. -/
def Grammar.ofTokens? (ts : List Token) : Option Grammar :=
  match Parser.cut ts with
  | ([], pieces) =>
    (pieces.mapM fun (name, body) => (Expr.ofTokens? body).map (Decl.mk name)).map Grammar.mk
  | _ => none

/-- The grammar that a text describes. -/
def Grammar.parse? (text : String) : Option Grammar :=
  (Token.ofText? text).bind Grammar.ofTokens?

end WireGrammar
