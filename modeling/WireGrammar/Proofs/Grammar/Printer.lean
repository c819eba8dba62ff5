import WireGrammar.Proofs.Grammar.Concatenation
import WireGrammar.Proofs.Grammar.Rendering

/-!
# Printing grammars

A well-formed grammar has a text.  Each declaration is printed on a line of its own, a nested
sequence or alternation in parentheses, an array in its brackets, and a label in front of its term.

* `Expr.body`, `Expr.tokens` — the tokens of an expression: without brackets of its own, as the
  branch of an alternation or the whole of a declaration, and as a term.
* `Token.line`, `Grammar.print` — the text.
* `Expr.Reads` — a term is read back wherever it stands: the parser, in any state, takes in its
  tokens and has the term as its latest one.  All well-formed terms are
  (`Expr.readable_of_wellFormed`).
* `Grammar.parse?_print` — the text of a well-formed grammar is read as that grammar.
* `Grammar.range_parse?` — so what can be read from text is exactly what is well-formed.
-/

set_option autoImplicit false
namespace WireGrammar

/-! ## Printing -/

/-- The brackets around a nested node; arrays have their own. -/
def NodeKind.bracket? : NodeKind → Option Bracket
  | .leaf => none
  | .sequence | .alternation => some .round
  | .lengthArray => some .square
  | .sizeArray => some .curly

namespace Expr

/-- The label in front of a term. -/
def labelTokens : Option String → List Token
  | none => []
  | some label => [.ident label, .colon]

/-- The brackets around what is inside them. -/
def bracketed : Option Bracket → List Token → List Token
  | none, inside => inside
  | some b, inside => .opening b :: inside ++ [.closing b]

/-- A term, given what is inside its brackets. -/
def wrap (e : Expr) (inside : List Token) : List Token :=
  labelTokens e.label ++ bracketed e.kind.bracket? inside

mutual

/-- What stands inside the brackets of a node; for a leaf, what it refers to. -/
def body : Expr → List Token
  | ⟨.leaf, _, target, _⟩ => [.ident (target.getD "")]
  | ⟨.alternation, _, _, children⟩ => branches children
  | ⟨.sequence, _, _, children⟩ => terms children
  | ⟨.lengthArray, _, _, children⟩ => terms children
  | ⟨.sizeArray, _, _, children⟩ => terms children

/-- Terms, one behind the other. -/
def terms : List Expr → List Token
  | [] => []
  | e :: es => e.wrap e.body ++ terms es

/-- Branches with a bar between them. -/
def branches : List Expr → List Token
  | [] => []
  | [b] => b.body
  | b :: bs => b.body ++ .bar :: branches bs

end

/-- The tokens of a term. -/
def tokens (e : Expr) : List Token :=
  e.wrap e.body

end Expr

namespace Token

/-- Is there a blank between the two tokens? -/
def spaced : Token → Token → Bool
  | .opening _, _ => false
  | _, .closing _ => false
  | _, .colon => false
  | _, _ => true

/-- Tokens on one line. -/
def line : List Token → String
  | [] => ""
  | [t] => t.text
  | t :: u :: ts => t.text ++ (if spaced t u then " " else "") ++ line (u :: ts)

end Token

/-- The tokens of a declaration. -/
def Decl.tokens (d : Decl) : List Token :=
  .ident d.name :: .define :: d.expr.body

/-- The text of declarations, each on a line of its own. -/
def printDecls : List Decl → String
  | [] => ""
  | d :: ds => Token.line d.tokens ++ "\n" ++ printDecls ds

/-- The text of a grammar. -/
def Grammar.print (g : Grammar) : String :=
  printDecls g.decls

/-! ## Tokens of well-formed expressions -/

/-- A token inside a declaration: a proper one, and not the sign behind a name. -/
def Token.Plain (t : Token) : Prop :=
  t.Proper ∧ t ≠ .define

namespace Expr

theorem plain_wrap {e : Expr} (hlabel : e.label.all Lexer.isIdent = true) {inside : List Token}
    (h : ∀ t ∈ inside, t.Plain) : ∀ t ∈ e.wrap inside, t.Plain := by
  refine List.forall_mem_append.2 ⟨fun t ht => ?_, fun t ht => ?_⟩
  · cases hl : e.label with
    | none => simp [hl, labelTokens] at ht
    | some label =>
      simp only [hl, labelTokens, List.mem_cons, List.not_mem_nil, or_false] at ht
      rw [hl] at hlabel
      rcases ht with rfl | rfl
      · exact ⟨hlabel, by simp⟩
      · exact ⟨trivial, by simp⟩
  · cases hb : e.kind.bracket? with
    | none =>
      rw [hb] at ht
      exact h t ht
    | some b =>
      simp only [hb, bracketed, List.cons_append, List.mem_cons, List.mem_append,
        List.not_mem_nil, or_false] at ht
      rcases ht with rfl | ht | rfl
      · exact ⟨trivial, by simp⟩
      · exact h t ht
      · exact ⟨trivial, by simp⟩

mutual

theorem plain_body : ∀ {e : Expr}, e.WellFormed → ∀ t ∈ e.body, t.Plain
  | ⟨.leaf, label, target, children⟩, he => by
    rw [WellFormed] at he
    rw [body]
    cases target with
    | none => simp [NodeKind.Admits] at he
    | some name => simpa [Token.Plain, Token.Proper] using he.2.1.1
  | ⟨.alternation, label, target, children⟩, he => by
    rw [WellFormed] at he
    rw [body]
    exact plain_branches he.2.2
  | ⟨.sequence, label, target, children⟩, he => by
    rw [WellFormed] at he
    rw [body]
    exact plain_terms he.2.2
  | ⟨.lengthArray, label, target, children⟩, he => by
    rw [WellFormed] at he
    rw [body]
    exact plain_terms he.2.2
  | ⟨.sizeArray, label, target, children⟩, he => by
    rw [WellFormed] at he
    rw [body]
    exact plain_terms he.2.2

theorem plain_terms : ∀ {es : List Expr}, WellFormedAll es → ∀ t ∈ terms es, t.Plain
  | [], _ => by simp [terms]
  | e :: es, h => by
    rw [WellFormedAll] at h
    rw [terms]
    exact List.forall_mem_append.2
      ⟨plain_wrap (wellFormed_iff.1 h.1).1 (plain_body h.1), plain_terms h.2⟩

theorem plain_branches : ∀ {bs : List Expr}, WellFormedAll bs → ∀ t ∈ branches bs, t.Plain
  | [], _ => by simp [branches]
  | [b], h => by
    rw [WellFormedAll] at h
    rw [branches]
    exact plain_body h.1
  | b :: b' :: bs, h => by
    rw [WellFormedAll] at h
    have hbar : Token.bar.Plain := ⟨trivial, by simp⟩
    rw [branches]
    · exact List.forall_mem_append.2
        ⟨plain_body h.1, List.forall_mem_cons.2 ⟨hbar, plain_branches h.2⟩⟩
    · simp

end

end Expr

/-! ## Reading terms -/

namespace Parser.State

/-- The state with something else read inside the innermost bracket. -/
def withLevel (s : State) (l : Level) : State :=
  { s with level := l }

theorem level_withLevel (s : State) (l : Level) : (s.withLevel l).level = l := rfl

@[simp] theorem withLevel_withLevel (s : State) (l l' : Level) :
    (s.withLevel l).withLevel l' = s.withLevel l' := rfl

theorem run?_label {s : State} (hs : s.label = none) (name : String) (ts : List Token) :
    s.run? (.ident name :: .colon :: ts) = ({ s with label := some name } : State).run? ts := by
  rw [run?, setLabel?, hs]

theorem run?_token {s : State} {t : Token} {ts : List Token} (hend : t ≠ .semicolon)
    (hname : ∀ name, t = .ident name → ts.head? ≠ some .colon) :
    s.run? (t :: ts) = (s.step? t).bind fun s' => s'.run? ts := by
  rw [run?]
  · cases s.step? t <;> rfl
  · intro h
    exact absurd h hend
  · rintro name rest rfl rfl
    exact absurd rfl (hname name rfl)

theorem run?_ident {s : State} {name : String} {ts : List Token} (hts : ts.head? ≠ some .colon) :
    s.run? (.ident name :: ts) = (s.push (.leaf name)).run? ts :=
  run?_token (by simp) fun _ _ => hts

theorem run?_opening (s : State) (b : Bracket) (ts : List Token) :
    s.run? (.opening b :: ts) = (s.enter b).run? ts :=
  run?_token (by simp) (by simp)

/-- The innermost bracket is closed, and the node that it makes is added around it. -/
theorem run?_closing (s : State) {b : Bracket} {l : Level} {body : Expr}
    (hbody : l.close? = some body) (ts : List Token) :
    ((s.enter b).withLevel l).run? (.closing b :: ts) = (s.push (enclose b body)).run? ts := by
  rw [run?_token (by simp) (by simp)]
  simp [step?, leave?, enter, withLevel, hbody]

theorem run?_bar {s : State} (hs : s.label = none) {l l' : Level} (hl : l.nextBranch? = some l')
    (ts : List Token) : (s.withLevel l).run? (.bar :: ts) = (s.withLevel l').run? ts := by
  rw [run?_token (by simp) (by simp)]
  simp [step?, branch?, hs, hl, withLevel]

end Parser.State

namespace Parser.Level

theorem close?_of_one {l : Level} {b : Expr} (h : l.nextBranch? = some { branches := [b] }) :
    l.close? = some b := by
  rw [close?, h]
  rfl

theorem close?_of_several {l : Level} {bs : List Expr}
    (h : l.nextBranch? = some { branches := bs.reverse }) (hbs : 2 ≤ bs.length) :
    l.close? = some (.node .alternation bs) := by
  rw [close?, h, Option.map_some]
  split
  · next only honly =>
    have hlength := congrArg List.length honly
    rw [List.length_reverse, List.length_singleton] at hlength
    omega
  · rw [List.reverse_reverse]

end Parser.Level

namespace Expr

open WireGrammar.Parser

/-- **The term is read back wherever it stands**: with its tokens taken in, it is the latest term.
A colon must not follow, which would make a label of a name. -/
def Reads (e : Expr) : Prop :=
  ∀ (s : State) (rest : List Token), s.label = none → rest.head? ≠ some .colon →
    s.run? (e.tokens ++ rest) = (s.withLevel (s.level.push e)).run? rest

theorem body_leaf {e : Expr} (h : e.kind = .leaf) : e.body = [.ident (e.target.getD "")] := by
  obtain ⟨kind, label, target, children⟩ := e
  obtain rfl : kind = .leaf := h
  rw [body]

theorem body_alternation {e : Expr} (h : e.kind = .alternation) : e.body = branches e.children := by
  obtain ⟨kind, label, target, children⟩ := e
  obtain rfl : kind = .alternation := h
  rw [body]

theorem body_terms {e : Expr} (hleaf : e.kind ≠ .leaf) (halt : e.kind ≠ .alternation) :
    e.body = terms e.children := by
  obtain ⟨kind, label, target, children⟩ := e
  cases kind with
  | leaf => exact absurd rfl hleaf
  | alternation => exact absurd rfl halt
  | _ => rw [body]

theorem bracket?_eq_none_iff {kind : NodeKind} : kind.bracket? = none ↔ kind = .leaf := by
  cases kind <;> simp [NodeKind.bracket?]

/-- No term starts with a colon. -/
theorem head?_tokens_append (e : Expr) (ts : List Token) :
    (e.tokens ++ ts).head? ≠ some .colon := by
  rw [tokens, wrap]
  cases e.label with
  | some label => simp [labelTokens]
  | none =>
    cases hb : e.kind.bracket? with
    | some b => simp [labelTokens, bracketed]
    | none => simp [labelTokens, bracketed, body_leaf (bracket?_eq_none_iff.1 hb)]

theorem head?_terms_append {rest : List Token} (hrest : rest.head? ≠ some .colon) (es : List Expr) :
    (terms es ++ rest).head? ≠ some .colon := by
  cases es with
  | nil => exact hrest
  | cons e es =>
    rw [terms, List.append_assoc]
    exact e.head?_tokens_append _

/-- Terms are read one after the other. -/
theorem run?_terms {es : List Expr} (hes : ∀ e ∈ es, e.Reads) {s : State} {rest : List Token}
    (hs : s.label = none) (hrest : rest.head? ≠ some .colon) :
    s.run? (terms es ++ rest) =
      (s.withLevel { s.level with terms := es.reverse ++ s.level.terms }).run? rest := by
  induction es generalizing s with
  | nil => rfl
  | cons e es ih =>
    obtain ⟨he, hes⟩ := List.forall_mem_cons.1 hes
    have hhead := he s _ hs (head?_terms_append hrest es)
    rw [terms, List.append_assoc]
    refine hhead.trans ?_
    rw [ih hes (s := s.withLevel (s.level.push e)) hs]
    simp [Level.push, State.level_withLevel]

/-- A branch of an alternation whose terms are read back. -/
def ReadsBranch (b : Expr) : Prop :=
  ∃ es, b = .node .sequence es ∧ es ≠ [] ∧ ∀ e ∈ es, e.Reads

/-- A branch is read as terms, which make up that branch when it is finished. -/
theorem ReadsBranch.exists_run? {b : Expr} (hb : b.ReadsBranch) {s : State} (hs : s.label = none)
    (hterms : s.level.terms = []) {rest : List Token} (hrest : rest.head? ≠ some .colon) :
    ∃ l : Level, s.run? (b.body ++ rest) = (s.withLevel l).run? rest ∧
      l.nextBranch? = some { branches := b :: s.level.branches } := by
  obtain ⟨es, rfl, hne, hes⟩ := hb
  refine ⟨{ s.level with terms := es.reverse }, ?_, ?_⟩
  · rw [body_terms (by simp [node]) (by simp [node])]
    refine (run?_terms hes hs hrest).trans ?_
    rw [hterms, List.append_nil]
  · simp [Level.nextBranch?, hne]

/-- **Branches are read one after the other.** -/
theorem exists_run?_branches :
    ∀ {bs : List Expr}, bs ≠ [] → (∀ b ∈ bs, b.ReadsBranch) → ∀ {s : State}, s.label = none →
      s.level.terms = [] → ∀ {rest : List Token}, rest.head? ≠ some .colon →
      ∃ l : Level, s.run? (branches bs ++ rest) = (s.withLevel l).run? rest ∧
        l.nextBranch? = some { branches := bs.reverse ++ s.level.branches }
  | [], hne, _, s, _, _, rest, _ => absurd rfl hne
  | [b], _, hbs, s, hs, hterms, rest, hrest => by
    rw [branches]
    exact (hbs b List.mem_cons_self).exists_run? hs hterms hrest
  | b :: b' :: bs, _, hbs, s, hs, hterms, rest, hrest => by
    obtain ⟨hb, hbs⟩ := List.forall_mem_cons.1 hbs
    have hbar : (Token.bar :: (branches (b' :: bs) ++ rest)).head? ≠ some .colon := by simp
    obtain ⟨l, hl, hnext⟩ := hb.exists_run? hs hterms hbar
    -- behind the bar `b` is the latest branch, and the next one starts without terms
    obtain ⟨l', hl', hnext'⟩ := exists_run?_branches (List.cons_ne_nil b' bs) hbs
      (s := s.withLevel { branches := b :: s.level.branches }) hs rfl hrest
    refine ⟨l', ?_, by simpa [State.level_withLevel] using hnext'⟩
    rw [branches, List.append_assoc, List.cons_append, hl, State.run?_bar hs hnext, hl',
      State.withLevel_withLevel]
    simp

/-! ## Reading brackets -/

/-- What the parser makes of the inside of a node's brackets. -/
def content (e : Expr) : Expr :=
  match e.kind with
  | .alternation => .node .alternation e.children
  | _ => .node .sequence e.children

theorem content_of_isRoot {e : Expr} (hroot : e.IsRoot) (he : e.WellFormed) : e.content = e := by
  obtain ⟨kind, label, target, children⟩ := e
  obtain ⟨-, hkind, -⟩ := wellFormed_iff.1 he
  obtain ⟨rfl | rfl, rfl⟩ : (kind = .sequence ∨ kind = .alternation) ∧ label = none := hroot
  · obtain ⟨rfl, -⟩ : target = none ∧ _ := hkind
    rfl
  · obtain ⟨rfl, -⟩ : target = none ∧ _ := hkind
    rfl

theorem leaf_target {e : Expr} (he : e.WellFormed) (hleaf : e.kind = .leaf) :
    { leaf (e.target.getD "") with label := e.label } = e := by
  obtain ⟨kind, label, target, children⟩ := e
  obtain rfl : kind = .leaf := hleaf
  obtain ⟨-, ⟨htarget, rfl⟩, -⟩ := wellFormed_iff.1 he
  cases target with
  | none => simp at htarget
  | some name => rfl

/-- Brackets make the node of what is inside them. -/
theorem enclose_content {e : Expr} (he : e.WellFormed) {b : Bracket}
    (hb : e.kind.bracket? = some b) : { enclose b e.content with label := e.label } = e := by
  obtain ⟨kind, label, target, children⟩ := e
  obtain ⟨-, hkind, -⟩ := wellFormed_iff.1 he
  cases kind with
  | leaf => simp [NodeKind.bracket?] at hb
  | _ =>
    obtain ⟨rfl, -⟩ : target = none ∧ _ := hkind
    cases hb
    rfl

/-- The term and the terms in it are read back.  Both are needed: a branch of an alternation is
printed without brackets, as the terms in it. -/
def Readable (e : Expr) : Prop :=
  e.Reads ∧ ∀ child ∈ e.children, child.Reads

theorem readsBranch_of_readable {b : Expr} (hb : b.IsBranch) (hwf : b.WellFormed)
    (hread : b.Readable) : b.ReadsBranch := by
  have hcontent := content_of_isRoot hb.isRoot hwf
  obtain ⟨-, hkind, -⟩ := wellFormed_iff.1 hwf
  rw [hb.1] at hkind
  refine ⟨b.children, ?_, hkind.2, hread.2⟩
  simpa only [content, hb.1] using hcontent.symm

/-- **The inside of brackets is read as the content of the node.** -/
theorem exists_run?_body {e : Expr} (hleaf : e.kind ≠ .leaf) (he : e.WellFormed)
    (hread : ∀ child ∈ e.children, child.Readable) {s : State} (hs : s.label = none)
    (hlevel : s.level = {}) {rest : List Token} (hrest : rest.head? ≠ some .colon) :
    ∃ l : Level, s.run? (e.body ++ rest) = (s.withLevel l).run? rest ∧
      l.close? = some e.content := by
  obtain ⟨-, hkind, hall⟩ := wellFormed_iff.1 he
  -- all but an alternation has its children as the terms of a single branch
  by_cases halt : e.kind = .alternation
  · rw [halt] at hkind
    obtain ⟨-, hlength, hbranch⟩ := hkind
    have hne : e.children ≠ [] := List.ne_nil_of_length_pos (by omega)
    have hbs : ∀ b ∈ e.children, b.ReadsBranch := fun b hb =>
      readsBranch_of_readable (hbranch b hb) (hall b hb) (hread b hb)
    obtain ⟨l, hl, hnext⟩ := exists_run?_branches hne hbs hs (by rw [hlevel]) hrest
    refine ⟨l, by rw [body_alternation halt, hl], ?_⟩
    rw [hlevel, List.append_nil] at hnext
    rw [Level.close?_of_several hnext hlength, content, halt]
  · have hne : e.children ≠ [] := by
      cases h : e.kind with
      | leaf => exact absurd h hleaf
      | alternation => exact absurd h halt
      | _ =>
        rw [h] at hkind
        exact hkind.2
    have hbranch : (node .sequence e.children).ReadsBranch :=
      ⟨e.children, rfl, hne, fun child hchild => (hread child hchild).1⟩
    obtain ⟨l, hl, hnext⟩ := hbranch.exists_run? hs (by rw [hlevel]) hrest
    rw [body_terms (by simp [node]) (by simp [node])] at hl
    refine ⟨l, by rw [body_terms hleaf halt]; exact hl, ?_⟩
    rw [hlevel] at hnext
    rw [Level.close?_of_one hnext, content]
    split
    · next h => exact absurd h halt
    · rfl

theorem run?_labelTokens {s : State} (hs : s.label = none) (label : Option String)
    (ts : List Token) :
    s.run? (labelTokens label ++ ts) = ({ s with label := label } : State).run? ts := by
  cases label with
  | none =>
    obtain ⟨stack, level, label⟩ := s
    obtain rfl : label = none := hs
    rfl
  | some name => exact State.run?_label hs name ts

/-- A term takes the label that waits for it. -/
theorem push_label {s : State} (hs : s.label = none) {e e' : Expr}
    (he : { e' with label := e.label } = e) :
    State.push { s with label := e.label } e' = s.withLevel (s.level.push e) := by
  simp [State.push, State.withLevel, he, hs]

/-- **A term is read back if the terms in it are.** -/
theorem reads_of_readable {e : Expr} (he : e.WellFormed)
    (hread : ∀ child ∈ e.children, child.Readable) : e.Reads := by
  intro s rest hs hrest
  rw [tokens, wrap, List.append_assoc, run?_labelTokens hs]
  cases hb : e.kind.bracket? with
  | none =>
    have hleaf := bracket?_eq_none_iff.1 hb
    rw [bracketed, body_leaf hleaf, List.singleton_append, State.run?_ident hrest,
      push_label hs (leaf_target he hleaf)]
  | some b =>
    have hleaf : e.kind ≠ .leaf := fun h => by simp [h, NodeKind.bracket?] at hb
    have hclosing : (Token.closing b :: rest).head? ≠ some .colon := by simp
    obtain ⟨l, hl, hclose⟩ := exists_run?_body hleaf he hread
      (s := State.enter { s with label := e.label } b) rfl rfl hclosing
    rw [bracketed, List.cons_append, List.cons_append, List.append_assoc, State.run?_opening,
      List.singleton_append, hl, State.run?_closing _ hclose, push_label hs (enclose_content he hb)]

mutual

/-- **Every well-formed term is read back**, with the terms in it. -/
theorem readable_of_wellFormed : ∀ {e : Expr}, e.WellFormed → e.Readable
  | ⟨kind, label, target, children⟩, he => by
    have hchildren : ∀ child ∈ children, child.Readable := by
      rw [WellFormed] at he
      exact readableAll_of_wellFormed he.2.2
    exact ⟨reads_of_readable he hchildren, fun child hchild => (hchildren child hchild).1⟩

theorem readableAll_of_wellFormed :
    ∀ {es : List Expr}, WellFormedAll es → ∀ e ∈ es, e.Readable
  | [], _ => by simp
  | e :: es, h => by
    rw [WellFormedAll] at h
    exact List.forall_mem_cons.2 ⟨readable_of_wellFormed h.1, readableAll_of_wellFormed h.2⟩

end

/-- **The tokens of a whole declaration are read back.** -/
theorem ofTokens?_body {e : Expr} (hroot : e.IsRoot) (he : e.WellFormed) :
    ofTokens? e.body = some e := by
  have hleaf : e.kind ≠ .leaf := by
    rcases hroot.1 with h | h <;> simp [h]
  have hread := readableAll_of_wellFormed (wellFormedAll_iff.2 (wellFormed_iff.1 he).2.2)
  have hend : ([] : List Token).head? ≠ some .colon := by simp
  obtain ⟨l, hl, hclose⟩ := exists_run?_body hleaf he hread (s := {}) rfl rfl hend
  rw [List.append_nil] at hl
  rw [ofTokens?, hl, ← content_of_isRoot hroot he, ← hclose]
  rfl

end Expr

/-! ## Reading lines -/

namespace Token

theorem exists_line_cons (t : Token) (ts : List Token) :
    ∃ rest, line (t :: ts) = t.text ++ rest := by
  cases ts with
  | nil => exact ⟨"", by rw [line, String.append_empty]⟩
  | cons u ts => exact ⟨_, by rw [line, String.append_assoc]⟩

theorem endsBefore_nil (t : Token) : t.EndsBefore [] := by
  cases t with
  | ident name => simp [EndsBefore]
  | _ => trivial

/-- On a line a name is followed by a blank or by a sign. -/
theorem endsBefore_line (t u : Token) (ts : List Token) :
    t.EndsBefore ((if spaced t u then " " else "") ++ line (u :: ts)).toList := by
  obtain ⟨rest, hrest⟩ := exists_line_cons u ts
  rw [hrest]
  cases t with
  | ident name =>
    intro c hc
    cases u with
    | closing b =>
      cases b
      all_goals
        simp [spaced, text] at hc
        subst hc
        decide
    | _ =>
      simp [spaced, text] at hc
      subst hc
      decide
  | _ => trivial

/-- **A line renders its tokens.** -/
theorem renders_line {ts : List Token} (h : ∀ t ∈ ts, t.Proper) : Renders ts (line ts).toList := by
  fun_induction line ts with
  | case1 => exact .nil .nil
  | case2 t =>
    obtain ⟨ht, -⟩ := List.forall_mem_cons.1 h
    have hrender := Renders.cons .nil (.text ht) t.endsBefore_nil (.nil .nil)
    rwa [List.nil_append, List.append_nil] at hrender
  | case3 t u ts ih =>
    obtain ⟨ht, hts⟩ := List.forall_mem_cons.1 h
    have hgap : Lexer.Gap (if spaced t u then " " else "").toList := by
      split
      · exact .blank rfl .nil
      · exact .nil
    have hend := endsBefore_line t u ts
    rw [String.toList_append] at hend
    rw [String.append_assoc, String.toList_append, String.toList_append]
    have hrender := Renders.cons .nil (.text ht) hend ((ih hts).gap_append hgap)
    rwa [List.nil_append] at hrender

end Token

theorem Parser.cut_of_plain {ts : List Token} (h : ∀ t ∈ ts, t.Plain) : cut ts = (ts, []) := by
  induction ts with
  | nil => rfl
  | cons t ts ih =>
    obtain ⟨-, hts⟩ := List.forall_mem_cons.1 h
    rw [cut, ih hts]
    rintro name rest - rfl
    exact absurd rfl (hts .define List.mem_cons_self).2

namespace Decl

variable {d : Decl}

theorem proper_tokens (hd : d.WellFormed) : ∀ t ∈ d.tokens, t.Proper := by
  obtain ⟨hname, -, hexpr⟩ := hd
  refine List.forall_mem_cons.2 ⟨hname, List.forall_mem_cons.2 ⟨trivial, fun t ht => ?_⟩⟩
  exact (Expr.plain_body hexpr t ht).1

/-- **The tokens of a declaration are read as that declaration.** -/
theorem ofTokens?_tokens (hd : d.WellFormed) : Grammar.ofTokens? d.tokens = some ⟨[d]⟩ := by
  obtain ⟨-, hroot, hexpr⟩ := hd
  rw [Grammar.ofTokens?_eq_some_iff, tokens, Parser.cut,
    Parser.cut_of_plain (Expr.plain_body hexpr)]
  simp [Expr.ofTokens?_body hroot hexpr]

end Decl

namespace Grammar

/-- The text of well-formed declarations has tokens, and these are read as the declarations. -/
theorem exists_tokens_printDecls {ds : List Decl} (h : ∀ d ∈ ds, d.WellFormed) :
    ∃ ts, Token.ofText? (printDecls ds) = some ts ∧ ofTokens? ts = some ⟨ds⟩ := by
  induction ds with
  | nil => exact ⟨[], rfl, rfl⟩
  | cons d ds ih =>
    obtain ⟨hd, hds⟩ := List.forall_mem_cons.1 h
    obtain ⟨ts, hts, hdecls⟩ := ih hds
    have hline : Token.ofText? (Token.line d.tokens) = some d.tokens :=
      (Token.renders_line (Decl.proper_tokens hd)).run
    refine ⟨d.tokens ++ ts, ?_, ofTokens?_append (Decl.ofTokens?_tokens hd) hdecls⟩
    rw [printDecls, Token.ofText?_newline, hline, hts]
    rfl

/-- **The text of a well-formed grammar is read as that grammar.** -/
theorem parse?_print {g : Grammar} (h : g.WellFormed) : parse? g.print = some g := by
  obtain ⟨ts, hts, hdecls⟩ := exists_tokens_printDecls h
  rw [parse?, print, hts]
  exact hdecls

/-- **What can be read from text is exactly what is well-formed.**  Whatever text is read, the
grammar is well-formed; and a well-formed grammar is read, exactly as it is, from its own text. -/
theorem range_parse? :
    (∀ (text : String) (g : Grammar), parse? text = some g → g.WellFormed) ∧
      ∀ g : Grammar, g.WellFormed → parse? g.print = some g :=
  ⟨fun _ _ => wellFormed_of_parse?, fun _ => parse?_print⟩

/-- A grammar with every kind of node, nested and labelled. -/
def everyKind : Grammar where
  decls := [
    ⟨"Message", .node .sequence [
      .leaf "Size",
      { Expr.node .lengthArray [.node .alternation [.node .sequence [.leaf "a", .leaf "b"],
        .node .sequence [.node .sequence [.leaf "c"]]]] with label := some "xs" },
      .node .sizeArray [.leaf "t", { Expr.leaf "u" with label := some "v" }]]⟩,
    ⟨"Size", .node .alternation [.node .sequence [.leaf "int32"], .node .sequence [.leaf "int8"]]⟩]

theorem range_parse?_everyKind :
    everyKind.WellFormed ∧
      everyKind.print = "Message = Size xs: [(a b | (c))] \x7bt v: u\x7d\nSize = int32 | int8\n" ∧
      parse? everyKind.print = some everyKind :=
  ⟨by decide, by decide, range_parse?.2 everyKind (by decide)⟩

end Grammar
end WireGrammar
