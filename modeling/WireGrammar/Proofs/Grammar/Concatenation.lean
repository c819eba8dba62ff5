import WireGrammar.Grammar.Parser

/-!
# One text behind another

Declarations need no terminator, so what comes behind a grammar might well become part of its last
declaration.  It does not when it starts with a declaration itself, on a line of its own: the end of
a line completes every token and every comment, and the head of a declaration ends the one before.

* `Lexer.run_newline`, `Token.ofText?_newline` — the tokens of two texts with a line feed between
  them are those of the one and those of the other.
* `Parser.cut_append` — tokens in front of a head are cut by themselves.
* `Grammar.ofTokens?_append`, `Grammar.parse?_append` — the declarations of two grammars, one behind
  the other.
-/

set_option autoImplicit false
namespace WireGrammar

/-! ## Tokens -/

namespace Lexer

/-- **A line feed completes what the machine is in the middle of**, as the end of the text does. -/
theorem step_newline (m : Mode) : step m '\n' = (finish m).map fun ts => (ts, .between) := by
  cases m <;> rfl

/-- **The tokens on both sides of a line feed do not meet.** -/
theorem run_newline (m : Mode) (cs ds : List Char) :
    run m (cs ++ '\n' :: ds) = (run m cs).bind fun ts => (run .between ds).map (ts ++ ·) := by
  induction cs generalizing m with
  | nil =>
    rw [List.nil_append, run, run, step_newline]
    cases finish m <;> rfl
  | cons c cs ih =>
    rw [List.cons_append, run, run]
    cases step m c with
    | none => rfl
    | some next =>
      obtain ⟨ts, m'⟩ := next
      simp only [ih m', Option.map_bind, Option.bind_map, Function.comp_def, Option.map_map,
        List.append_assoc]

end Lexer

theorem Token.ofText?_newline (s t : String) :
    ofText? (s ++ "\n" ++ t) = (ofText? s).bind fun ts => (ofText? t).map (ts ++ ·) := by
  have hlist : (s ++ "\n" ++ t).toList = s.toList ++ '\n' :: t.toList := by
    rw [String.toList_append, String.toList_append, List.append_assoc]
    rfl
  rw [ofText?, hlist, Lexer.run_newline]
  rfl

/-! ## Declarations -/

namespace Parser

/-- Tokens that start with a declaration do not start with the sign in the middle of its head. -/
theorem head?_ne_define {us : List Token} (h : (cut us).1 = []) : us.head? ≠ some .define := by
  intro hhead
  obtain ⟨us, rfl⟩ : ∃ us', us = .define :: us' := by
    cases us with
    | nil => cases hhead
    | cons u us =>
      cases hhead
      exact ⟨us, rfl⟩
  rw [cut] at h
  · cases h
  · intro name ts hcons
    cases hcons

/-- **Tokens in front of a head are cut by themselves.** -/
theorem cut_append {us : List Token} (hus : (cut us).1 = []) (ts : List Token) :
    cut (ts ++ us) = ((cut ts).1, (cut ts).2 ++ (cut us).2) := by
  fun_induction cut ts with
  | case1 => rw [List.nil_append, List.nil_append, ← hus]
  | case2 name ts body pieces hcut ih =>
    simp only [hcut] at ih
    rw [List.cons_append, List.cons_append, cut, ih]
    rfl
  | case3 t ts hhead body pieces hcut ih =>
    simp only [hcut] at ih
    rw [List.cons_append, cut, ih]
    -- a name at the very end stays a name: no `=` follows it
    rintro name rest rfl hrest
    cases ts with
    | nil =>
      rw [List.nil_append] at hrest
      exact head?_ne_define hus (by rw [hrest, List.head?_cons])
    | cons t ts =>
      rw [List.cons_append, List.cons.injEq] at hrest
      exact hhead name ts rfl (by rw [hrest.1])

end Parser

namespace Grammar

/-- Tokens describe a grammar if they start with a declaration and each declaration has an
expression. -/
theorem ofTokens?_eq_some_iff {ts : List Token} {g : Grammar} :
    ofTokens? ts = some g ↔ (Parser.cut ts).1 = [] ∧
      ((Parser.cut ts).2.mapM fun (name, body) => (Expr.ofTokens? body).map (Decl.mk name)) =
        some g.decls := by
  rw [ofTokens?]
  split
  · next pieces hcut =>
    simp only [hcut, Option.map_eq_some_iff, true_and]
    constructor
    · rintro ⟨decls, hdecls, rfl⟩
      exact hdecls
    · intro hdecls
      exact ⟨g.decls, hdecls, rfl⟩
  · next hcut =>
    constructor
    · intro h
      cases h
    · rintro ⟨hnil, -⟩
      exact (hcut _ (Prod.ext hnil rfl)).elim

/-- **The tokens of two grammars, one behind the other, describe the declarations of both.** -/
theorem ofTokens?_append {ts us : List Token} {g g' : Grammar} (hg : ofTokens? ts = some g)
    (hg' : ofTokens? us = some g') : ofTokens? (ts ++ us) = some ⟨g.decls ++ g'.decls⟩ := by
  obtain ⟨hts, hdecls⟩ := ofTokens?_eq_some_iff.1 hg
  obtain ⟨hus, hdecls'⟩ := ofTokens?_eq_some_iff.1 hg'
  rw [ofTokens?_eq_some_iff, Parser.cut_append hus]
  refine ⟨hts, ?_⟩
  rw [List.mapM_append, hdecls, hdecls']
  rfl

/-- **Reading is modular.**  Two texts that each describe a grammar, with a line feed between them,
describe the declarations of the first and then those of the second; however the first one ends. -/
theorem parse?_append {s t : String} {g g' : Grammar} (hg : parse? s = some g)
    (hg' : parse? t = some g') : parse? (s ++ "\n" ++ t) = some ⟨g.decls ++ g'.decls⟩ := by
  obtain ⟨ts, hts, hg⟩ := Option.bind_eq_some_iff.1 hg
  obtain ⟨us, hus, hg'⟩ := Option.bind_eq_some_iff.1 hg'
  rw [parse?, Token.ofText?_newline, hts, hus]
  exact ofTokens?_append hg hg'

/-- A reference at the end, behind it a comment that no line ends, and then a name. -/
theorem parse?_append_comment :
    parse? ("A = b: [c] | d // e = f" ++ "\n" ++ "g => (h i);") =
      some ⟨[⟨"A", .node .alternation [
          .node .sequence [{ Expr.node .lengthArray [.leaf "c"] with label := some "b" }],
          .node .sequence [.leaf "d"]]⟩,
        ⟨"g", .node .sequence [.node .sequence [.leaf "h", .leaf "i"]]⟩]⟩ := by
  have hs : parse? "A = b: [c] | d // e = f" = some ⟨[⟨"A", .node .alternation [
      .node .sequence [{ Expr.node .lengthArray [.leaf "c"] with label := some "b" }],
      .node .sequence [.leaf "d"]]⟩]⟩ := rfl
  have ht : parse? "g => (h i);" =
      some ⟨[⟨"g", .node .sequence [.node .sequence [.leaf "h", .leaf "i"]]⟩]⟩ := rfl
  exact parse?_append hs ht

end Grammar
end WireGrammar
