import WireGrammar.Proofs.Grammar.Rendering

/-!
# Spacing does not matter

Blanks and comments keep tokens apart and do nothing else.  Whatever stands in front of, between and
behind the tokens of a text, as long as two names do not run together, the same grammar is read from
it, or none.

* `Token.Lexeme` — a token as it is written.
* `Token.weave` — lexemes with a gap in front of each and one behind the last.
* `Token.Spaces` — gaps that fit a sequence of tokens.
* `Token.renders_weave` — the text that is woven renders the tokens.
* `Grammar.parse?_weave` — so what is read from it depends on the tokens alone.
-/

set_option autoImplicit false
namespace WireGrammar

/-! ## What may follow a name -/

/-- No gap goes on with a name. -/
theorem Lexer.Gap.isIdentRest_eq_false {gap : List Char} (h : Gap gap) :
    ∀ c ∈ gap.head?, isIdentRest c = false := by
  cases h with
  | nil => exact fun c hc => by cases hc
  | @blank c cs hc _ =>
    rintro d ⟨⟩
    simp only [isBlank, Bool.or_eq_true, beq_iff_eq] at hc
    rcases hc with ((rfl | rfl) | rfl) | rfl
    all_goals decide
  | comment hmark _ _ _ =>
    rcases hmark with rfl | rfl
    · rintro d ⟨⟩
      decide
    · rintro d ⟨⟩
      decide

namespace Token

/-- Is the token a name? -/
def isName : Token → Bool
  | .ident _ => true
  | _ => false

/-- A sign is written with a character that no name has. -/
theorem Spells.exists_cons {t : Token} {cs : List Char} (h : t.Spells cs)
    (ht : t.isName = false) : ∃ c rest, cs = c :: rest ∧ Lexer.isIdentRest c = false := by
  cases h with
  | arrow => exact ⟨_, _, rfl, by decide⟩
  | text =>
    cases t with
    | ident name => cases ht
    | opening b => cases b <;> exact ⟨_, _, rfl, by decide⟩
    | closing b => cases b <;> exact ⟨_, _, rfl, by decide⟩
    | _ => exact ⟨_, _, rfl, by decide⟩

/-! ## Tokens with gaps around them -/

/-- A token as it is written. -/
structure Lexeme where
  token : Token
  spelling : List Char
  spells : token.Spells spelling

/-- Lexemes with a gap in front of each and one behind the last. -/
def weave : List Lexeme → List (List Char) → List Char
  | [], [gap] => gap
  | l :: ls, gap :: gaps => gap ++ (l.spelling ++ weave ls gaps)
  | _, _ => []

/-- There is a gap in front of each token and one behind the last, and the gap between two names is
not empty. -/
inductive Spaces : List Token → List (List Char) → Prop
  | last {gap : List Char} (hgap : Lexer.Gap gap) : Spaces [] [gap]
  | cons {t : Token} {ts : List Token} {gap next : List Char} {gaps : List (List Char)}
      (hgap : Lexer.Gap gap) (hapart : t.isName → ts.head?.any isName → next ≠ [])
      (h : Spaces ts (next :: gaps)) : Spaces (t :: ts) (gap :: next :: gaps)

theorem Spaces.gap {ts : List Token} {gap : List Char} {gaps : List (List Char)}
    (h : Spaces ts (gap :: gaps)) : Lexer.Gap gap := by
  cases h with
  | last hgap => exact hgap
  | cons hgap => exact hgap

/-- A token ends in front of woven text, if a gap keeps a name from a name. -/
theorem endsBefore_weave {t : Token} {ls : List Lexeme} {gap : List Char}
    {gaps : List (List Char)} (h : Spaces (ls.map (·.token)) (gap :: gaps))
    (hapart : t.isName → (ls.map (·.token)).head?.any isName → gap ≠ []) :
    t.EndsBefore (weave ls (gap :: gaps)) := by
  cases t with
  | ident name =>
    cases gap with
    | cons d ds =>
      have hhead : (weave ls ((d :: ds) :: gaps)).head? = some d := by
        cases ls with
        | nil =>
          cases h
          rfl
        | cons l ls => rfl
      rw [EndsBefore, hhead]
      exact h.gap.isIdentRest_eq_false
    | nil =>
      cases ls with
      | nil =>
        cases h
        exact fun c hc => by cases hc
      | cons l ls =>
        -- nothing stands between the name and the next token, so that is a sign
        have hsign : l.token.isName = false := by
          rw [Bool.eq_false_iff]
          exact fun hname => hapart rfl hname rfl
        obtain ⟨c, rest, hspelling, hc⟩ := l.spells.exists_cons hsign
        rw [weave, hspelling]
        rintro d ⟨⟩
        exact hc
  | _ => trivial

/-- **Woven text renders the tokens**, whatever the gaps are. -/
theorem renders_weave {ls : List Lexeme} {gaps : List (List Char)}
    (h : Spaces (ls.map (·.token)) gaps) : Renders (ls.map (·.token)) (weave ls gaps) := by
  induction ls generalizing gaps with
  | nil =>
    cases h with
    | last hgap => exact .nil hgap
  | cons l ls ih =>
    rw [List.map_cons] at h
    cases h with
    | cons hgap hapart h => exact .cons hgap l.spells (endsBefore_weave h hapart) (ih h)

end Token

namespace Grammar

/-- **Spacing does not matter.**  Two texts of the same lexemes, with any blanks and comments around
them that keep names apart, are read as the same grammar, or neither is read as one. -/
theorem parse?_weave {ls : List Token.Lexeme} {gaps gaps' : List (List Char)}
    (h : Token.Spaces (ls.map (·.token)) gaps) (h' : Token.Spaces (ls.map (·.token)) gaps') :
    parse? (String.ofList (Token.weave ls gaps)) =
      parse? (String.ofList (Token.weave ls gaps')) := by
  have hparse : ∀ {gaps : List (List Char)}, Token.Spaces (ls.map (·.token)) gaps →
      parse? (String.ofList (Token.weave ls gaps)) = ofTokens? (ls.map (·.token)) := by
    intro gaps h
    rw [parse?, Token.ofText?, String.toList_ofList, (Token.renders_weave h).run]
    rfl
  rw [hparse h, hparse h']

/-- A declaration of an array. -/
def arrayLexemes : List Token.Lexeme :=
  [⟨.ident "A", ['A'], .text rfl⟩, ⟨.define, ['=', '>'], .arrow⟩, ⟨.ident "b", ['b'], .text rfl⟩,
    ⟨.colon, [':'], .text trivial⟩, ⟨.opening .square, ['['], .text trivial⟩,
    ⟨.ident "c", ['c'], .text rfl⟩, ⟨.ident "d", ['d'], .text rfl⟩,
    ⟨.closing .square, [']'], .text trivial⟩]

/-- Nothing but the blank that keeps the two references apart. -/
def tightGaps : List (List Char) :=
  [[], [], [], [], [], [], [' '], [], []]

/-- Several lines, with comments that hold a declaration and a bracket. -/
def wideGaps : List (List Char) :=
  [['\t'] ++ (['#'] ++ " A = z".toList ++ ['\n']), ['\r'], ['\n'] ++ [' '],
    [' '] ++ (['/', '/'] ++ [']'] ++ ['\r']) ++ [' '], [' '], [' '],
    ['#'] ++ [] ++ ['\n'], [' '], ['/', '/'] ++ " B = d".toList ++ ['\n']]

theorem spaces_tightGaps : Token.Spaces (arrayLexemes.map (·.token)) tightGaps :=
  .cons .nil nofun <| .cons .nil nofun <| .cons .nil nofun <| .cons .nil nofun <|
  .cons .nil nofun <| .cons .nil (fun _ _ => List.cons_ne_nil _ _) <|
  .cons (.blank rfl .nil) nofun <| .cons .nil nofun <| .last .nil

theorem spaces_wideGaps : Token.Spaces (arrayLexemes.map (·.token)) wideGaps := by
  have hcomment : ∀ {mark body : List Char} {stop : Char}, mark = ['#'] ∨ mark = ['/', '/'] →
      body.any Lexer.isLineEnd = false → Lexer.isLineEnd stop = true →
      Lexer.Gap (mark ++ body ++ [stop]) := fun hmark hbody hstop =>
    .comment hmark (fun c hc => Bool.eq_false_iff.2 (List.any_eq_false.1 hbody c hc)) hstop .nil
  have hblank : ∀ {c : Char}, Lexer.isBlank c = true → Lexer.Gap [c] := fun hc => .blank hc .nil
  exact
    .cons ((hblank rfl).append (hcomment (.inl rfl) rfl rfl)) nofun <|
    .cons (hblank rfl) nofun <| .cons ((hblank rfl).append (hblank rfl)) nofun <|
    .cons (((hblank rfl).append (hcomment (.inr rfl) rfl rfl)).append (hblank rfl)) nofun <|
    .cons (hblank rfl) nofun <| .cons (hblank rfl) (fun _ _ => List.cons_ne_nil _ _) <|
    .cons (hcomment (.inl rfl) rfl rfl) nofun <| .cons (hblank rfl) nofun <|
    .last (hcomment (.inr rfl) rfl rfl)

/-- It is read from one line without any blank that can be left out, and from several lines with
comments that hold declarations. -/
theorem parse?_weave_array :
    parse? "A=>b:[c d]" = parse? "\t# A = z\nA\r=>\n b //]\r : [ c#\nd ]// B = d\n" ∧
      parse? "A=>b:[c d]" = some ⟨[⟨"A", .node .sequence
        [{ Expr.node .lengthArray [.leaf "c", .leaf "d"] with label := some "b" }]⟩]⟩ := by
  have htight : String.ofList (Token.weave arrayLexemes tightGaps) = "A=>b:[c d]" := by decide
  have hwide : String.ofList (Token.weave arrayLexemes wideGaps) =
    "\t# A = z\nA\r=>\n b //]\r : [ c#\nd ]// B = d\n" := by decide
  rw [← htight, ← hwide]
  refine ⟨parse?_weave spaces_tightGaps spaces_wideGaps, ?_⟩
  rw [htight]
  decide +kernel

end Grammar
end WireGrammar
