import WireGrammar.Proofs.Grammar.WellFormed

/-!
# Writing tokens

A sequence of tokens can be written in many ways: with blanks and comments around the tokens, and
the sign `=` also as `=>`.  All of them are read as the same tokens.

* `Lexer.Gap` — blanks, and comments with the end of their line.
* `Token.text`, `Token.Spells` — how a token is written.
* `Token.Renders` — all ways to write a sequence of tokens; a name must not run on into what
  follows it.
* `Token.Renders.run` — what renders tokens is cut into these tokens.
-/

set_option autoImplicit false
namespace WireGrammar
namespace Lexer

/-! ## Gaps -/

/-- What may stand between tokens: blanks, and comments with the end of their line. -/
inductive Gap : List Char → Prop
  | nil : Gap []
  | blank {c : Char} {cs : List Char} (hc : isBlank c = true) (hcs : Gap cs) : Gap (c :: cs)
  | comment {mark body cs : List Char} {stop : Char} (hmark : mark = ['#'] ∨ mark = ['/', '/'])
      (hbody : ∀ c ∈ body, isLineEnd c = false) (hstop : isLineEnd stop = true) (hcs : Gap cs) :
      Gap (mark ++ body ++ stop :: cs)

theorem Gap.append {cs ds : List Char} (hcs : Gap cs) (hds : Gap ds) : Gap (cs ++ ds) := by
  induction hcs with
  | nil => exact hds
  | blank hc _ ih => exact .blank hc ih
  | comment hmark hbody hstop _ ih =>
    rw [List.append_assoc, List.cons_append]
    exact .comment hmark hbody hstop ih

theorem run_mark {mark : List Char} (hmark : mark = ['#'] ∨ mark = ['/', '/']) (cs : List Char) :
    run .between (mark ++ cs) = run .comment cs := by
  rcases hmark with rfl | rfl
  · simp [run, step, start, isBlank, isIdentStart]
  · simp [run, step, start, isBlank, isIdentStart]

theorem run_comment {body : List Char} {stop : Char} (hbody : ∀ c ∈ body, isLineEnd c = false)
    (hstop : isLineEnd stop = true) (cs : List Char) :
    run .comment (body ++ stop :: cs) = run .between cs := by
  induction body with
  | nil => simp [run, step, hstop]
  | cons c body ih =>
    obtain ⟨hc, hbody⟩ := List.forall_mem_cons.1 hbody
    simp [run, step, hc, ih hbody]

/-- **A gap has no tokens.** -/
theorem Gap.run {gap : List Char} (h : Gap gap) (cs : List Char) :
    run .between (gap ++ cs) = run .between cs := by
  induction h with
  | nil => rfl
  | blank hc _ ih => simp [Lexer.run, step, start, hc, ih]
  | comment hmark hbody hstop _ ih =>
    rw [List.append_assoc, List.append_assoc, List.cons_append, run_mark hmark,
      run_comment hbody hstop, ih]

/-! ## Names -/

theorem isBlank_eq_false {c : Char} (h : isIdentStart c = true) : isBlank c = false := by
  rw [Bool.eq_false_iff]
  intro hblank
  simp only [isBlank, Bool.or_eq_true, beq_iff_eq] at hblank
  rcases hblank with ((rfl | rfl) | rfl) | rfl
  all_goals exact absurd h (by decide)

/-- A name goes on as long as it can. -/
theorem run_word_append {cs ds : List Char} (hcs : ∀ c ∈ cs, isIdentRest c = true)
    {w v : String} (hv : v.toList = w.toList ++ cs) :
    run (.word w) (cs ++ ds) = run (.word v) ds := by
  induction cs generalizing w with
  | nil =>
    rw [List.append_nil, String.toList_inj] at hv
    rw [hv, List.nil_append]
  | cons c cs ih =>
    obtain ⟨hc, hcs⟩ := List.forall_mem_cons.1 hcs
    have hpush : v.toList = (w.push c).toList ++ cs := by
      rw [hv, String.toList_push, List.append_assoc]
      rfl
    simp [run, step, hc, ih hcs hpush]

/-- A token is complete in front of a character that it does not take in. -/
theorem run_complete {m : Mode} {t : Token} {cs : List Char} (hfinish : finish m = some [t])
    (hstep : ∀ c ∈ cs.head?, step m c = startAfter t c) :
    run m cs = (run .between cs).map (t :: ·) := by
  cases cs with
  | nil => exact hfinish
  | cons c cs =>
    rw [run, run, hstep c rfl, step, startAfter]
    cases start c with
    | none => rfl
    | some next =>
      obtain ⟨ts, m'⟩ := next
      show (run m' cs).map (t :: ts ++ ·) = ((run m' cs).map (ts ++ ·)).map (t :: ·)
      rw [Option.map_map]
      rfl

theorem run_ident {name : String} (hname : isIdent name = true) {cs : List Char}
    (hcs : ∀ c ∈ cs.head?, isIdentRest c = false) :
    run .between (name.toList ++ cs) = (run .between cs).map (.ident name :: ·) := by
  rw [isIdent] at hname
  split at hname
  · cases hname
  · next c rest hlist =>
    rw [Bool.and_eq_true, List.all_eq_true] at hname
    have hv : name.toList = (String.singleton c).toList ++ rest := by
      rw [hlist, String.toList_singleton]
      rfl
    have hend : ∀ d ∈ cs.head?, step (.word name) d = startAfter (.ident name) d := by
      intro d hd
      rw [step, hcs d hd]
      rfl
    rw [hlist, ← run_complete rfl hend, ← run_word_append hname.2 hv]
    simp [run, step, start, isBlank_eq_false hname.1, hname.1]

/-! ## Signs -/

theorem run_sign {c : Char} {t : Token} (hc : start c = some ([t], .between)) (cs : List Char) :
    run .between (c :: cs) = (run .between cs).map (t :: ·) := by
  rw [run, step, hc]
  rfl

/-- A `=` is complete in front of whatever can follow. -/
theorem run_equals {cs : List Char} {ts : List Token} (h : run .between cs = some ts) :
    run .between ('=' :: cs) = some (.define :: ts) := by
  have hequals : run .between ('=' :: cs) = run .equals cs := by
    simp [run, step, start, isBlank, isIdentStart]
  have hend : ∀ c ∈ cs.head?, step .equals c = startAfter .define c := by
    intro c hc
    rw [step, if_neg]
    rw [beq_iff_eq]
    rintro rfl
    -- a `>` by itself starts no token
    cases cs with
    | nil => cases hc
    | cons d ds =>
      cases hc
      exact absurd h (by simp [run, step, start, isBlank, isIdentStart, sign?])
  rw [hequals, run_complete rfl hend, h]
  rfl

theorem run_arrow (cs : List Char) :
    run .between ('=' :: '>' :: cs) = (run .between cs).map (.define :: ·) := by
  simp [run, step, start, isBlank, isIdentStart, Function.comp_def]

end Lexer

/-! ## Tokens -/

namespace Token

/-- How a token is written; the sign between a name and its expression also as `=>`. -/
def text : Token → String
  | .ident name => name
  | .define => "="
  | .bar => "|"
  | .semicolon => ";"
  | .colon => ":"
  | .opening .round => "("
  | .closing .round => ")"
  | .opening .square => "["
  | .closing .square => "]"
  | .opening .curly => "\x7b"
  | .closing .curly => "\x7d"

/-- The ways to write a token. -/
inductive Spells : Token → List Char → Prop
  | text {t : Token} (ht : t.Proper) : Spells t t.text.toList
  | arrow : Spells .define ['=', '>']

/-- Does the token end where `cs` goes on?  A name must not run on. -/
def EndsBefore (cs : List Char) : Token → Prop
  | .ident _ => ∀ c ∈ cs.head?, Lexer.isIdentRest c = false
  | _ => True

/-- `Renders ts cs`: the characters are the tokens with gaps before, between and behind them. -/
inductive Renders : List Token → List Char → Prop
  | nil {gap : List Char} (hgap : Lexer.Gap gap) : Renders [] gap
  | cons {t : Token} {ts : List Token} {gap spelling cs : List Char} (hgap : Lexer.Gap gap)
      (ht : t.Spells spelling) (hend : t.EndsBefore cs) (hts : Renders ts cs) :
      Renders (t :: ts) (gap ++ (spelling ++ cs))

theorem Renders.gap_append {ts : List Token} {gap cs : List Char} (h : Renders ts cs)
    (hgap : Lexer.Gap gap) : Renders ts (gap ++ cs) := by
  cases h with
  | nil h => exact .nil (hgap.append h)
  | cons h ht hend hts =>
    rw [← List.append_assoc]
    exact .cons (hgap.append h) ht hend hts

/-- **What renders tokens is cut into these tokens.** -/
theorem Renders.run {ts : List Token} {cs : List Char} (h : Renders ts cs) :
    Lexer.run .between cs = some ts := by
  induction h with
  | @nil gap hgap =>
    have hrun := hgap.run []
    rwa [List.append_nil] at hrun
  | @cons t ts gap spelling cs hgap ht hend _ ih =>
    rw [hgap.run]
    cases ht with
    | arrow =>
      rw [List.cons_append, List.cons_append, List.nil_append, Lexer.run_arrow, ih]
      rfl
    | text ht =>
      cases t with
      | ident name =>
        rw [Token.text, Lexer.run_ident ht hend, ih]
        rfl
      | define => exact Lexer.run_equals ih
      | opening b =>
        cases b <;> exact (Lexer.run_sign rfl cs).trans (by rw [ih]; rfl)
      | closing b =>
        cases b <;> exact (Lexer.run_sign rfl cs).trans (by rw [ih]; rfl)
      | _ => exact (Lexer.run_sign rfl cs).trans (by rw [ih]; rfl)

end Token
end WireGrammar
