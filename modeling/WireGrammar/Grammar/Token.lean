/-!
# Tokens of the grammar language

The text of a grammar is cut into tokens by a machine that takes in one character at a time.

* `Token`, `Bracket` — identifiers, the signs `=` (or `=>`), `|`, `;`, `:`, and brackets.
* `Lexer.Mode` — what the machine is in the middle of; `Lexer.step` takes in a character and may
  hand out tokens, `Lexer.finish` ends the text.
* `Token.ofText?` — all tokens of a text, or `none` if some character starts no token.

Blanks are space, tab, carriage return and line feed.  A comment starts with `#` or `//` and goes
up to the end of the line.
-/

set_option autoImplicit false
namespace WireGrammar

/-- The three kinds of brackets. -/
inductive Bracket where
  /-- A group, between `(` and `)`. -/
  | round
  /-- An array that starts with the number of its elements, between `[` and `]`. -/
  | square
  /-- An array that starts with the number of bytes its elements take, between curly brackets. -/
  | curly
deriving DecidableEq, Repr

/-- A token of the grammar language. -/
inductive Token where
  | ident (name : String)
  /-- The sign `=` or `=>`, between the name of a declaration and its expression. -/
  | define
  | bar
  | semicolon
  | colon
  | opening (b : Bracket)
  | closing (b : Bracket)
deriving DecidableEq, Repr

namespace Lexer

/-- A blank between tokens. -/
def isBlank (c : Char) : Bool :=
  c == ' ' || c == '\t' || c == '\r' || c == '\n'

/-- The end of a line, where a comment ends. -/
def isLineEnd (c : Char) : Bool :=
  c == '\n' || c == '\r'

/-- Can `c` start an identifier? -/
def isIdentStart (c : Char) : Bool :=
  c.isAlpha || c == '_'

/-- Can `c` continue an identifier? -/
def isIdentRest (c : Char) : Bool :=
  c.isAlphanum || c == '_'

/-- What the machine is in the middle of. -/
inductive Mode where
  | between
  | word (letters : String)
  /-- A first `/` has been seen. -/
  | slash
  /-- A `=` has been seen, which a `>` may still complete. -/
  | equals
  | comment
deriving DecidableEq, Repr

/-- The token that `c` is by itself. -/
def sign? : Char → Option Token
  | '|' => some .bar
  | ';' => some .semicolon
  | ':' => some .colon
  | '(' => some (.opening .round)
  | ')' => some (.closing .round)
  | '[' => some (.opening .square)
  | ']' => some (.closing .square)
  | '\x7b' => some (.opening .curly)
  | '\x7d' => some (.closing .curly)
  | _ => none

/-- Take in a character between two tokens. -/
def start (c : Char) : Option (List Token × Mode) :=
  if isBlank c then some ([], .between)
  else if isIdentStart c then some ([], .word (String.singleton c))
  else if c == '#' then some ([], .comment)
  else if c == '/' then some ([], .slash)
  else if c == '=' then some ([], .equals)
  else (sign? c).map fun t => ([t], .between)

/-- Take in a character after the token `t`, which it does not belong to. -/
def startAfter (t : Token) (c : Char) : Option (List Token × Mode) :=
  (start c).map fun (ts, m) => (t :: ts, m)

/-- Take in a character: the tokens it completes, and the mode it leads to. -/
def step : Mode → Char → Option (List Token × Mode)
  | .between, c => start c
  | .word w, c => if isIdentRest c then some ([], .word (w.push c)) else startAfter (.ident w) c
  | .slash, c => if c == '/' then some ([], .comment) else none
  | .equals, c => if c == '>' then some ([.define], .between) else startAfter .define c
  | .comment, c => some ([], if isLineEnd c then .between else .comment)

/-- The tokens that the end of the text completes. -/
def finish : Mode → Option (List Token)
  | .between | .comment => some []
  | .word w => some [.ident w]
  | .slash => none
  | .equals => some [.define]

/-- The tokens of a text that starts in mode `m`. -/
def run (m : Mode) : List Char → Option (List Token)
  | [] => finish m
  | c :: cs =>
    match step m c with
    | none => none
    | some (ts, m') => (run m' cs).map (ts ++ ·)

end Lexer

/-- The tokens of a text. -/
def Token.ofText? (text : String) : Option (List Token) :=
  Lexer.run .between text.toList

end WireGrammar
