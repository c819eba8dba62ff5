import WireGrammar.Grammar.Parser

/-!
# Well-formed grammars

Every node of an expression has the same shape, so grammars built by hand may hold trees that no
text describes: a leaf with children, a sequence without any, a label that is no identifier.  What
is read from text is none of that.

* `Lexer.isIdent` — identifiers; all names among the tokens of a text are (`Lexer.proper_of_run`).
* `Expr.WellFormed`, `Grammar.WellFormed` — what each kind of node may have in it.
* `Grammar.wellFormed_of_parse?` — what is read from text is well-formed: each token keeps the state
  of the parser well-formed (`Parser.State.wellFormed_step?`), hence so does every run.
-/

set_option autoImplicit false
namespace WireGrammar

/-- A letter or an underscore, and then letters, digits and underscores. -/
def Lexer.isIdent (name : String) : Bool :=
  match name.toList with
  | [] => false
  | c :: cs => isIdentStart c && cs.all isIdentRest

/-! ## Grammars -/

/-- May the node be a branch of an alternation? -/
def Expr.IsBranch (e : Expr) : Prop :=
  e.kind = .sequence ∧ e.label = none

/-- May the node be all of a declaration? -/
def Expr.IsRoot (e : Expr) : Prop :=
  (e.kind = .sequence ∨ e.kind = .alternation) ∧ e.label = none

/-- What a node of this kind may refer to and have as its children. -/
def NodeKind.Admits (target : Option String) (children : List Expr) : NodeKind → Prop
  | .leaf => (target.any Lexer.isIdent = true) ∧ children = []
  | .sequence | .lengthArray | .sizeArray => target = none ∧ children ≠ []
  | .alternation => target = none ∧ 2 ≤ children.length ∧ ∀ b ∈ children, b.IsBranch

mutual

/-- Every node has what its kind may have, and every label is an identifier. -/
def Expr.WellFormed : Expr → Prop
  | ⟨kind, label, target, children⟩ =>
    label.all Lexer.isIdent = true ∧ kind.Admits target children ∧ WellFormedAll children

/-- Every node in the expressions has what its kind may have. -/
def Expr.WellFormedAll : List Expr → Prop
  | [] => True
  | e :: es => e.WellFormed ∧ WellFormedAll es

end

/-- A declaration of an identifier as a sequence or an alternation without a label. -/
def Decl.WellFormed (d : Decl) : Prop :=
  Lexer.isIdent d.name = true ∧ d.expr.IsRoot ∧ d.expr.WellFormed

/-- All declarations are well-formed. -/
def Grammar.WellFormed (g : Grammar) : Prop :=
  ∀ d ∈ g.decls, d.WellFormed

instance (e : Expr) : Decidable e.IsBranch :=
  inferInstanceAs (Decidable (_ ∧ _))

instance (e : Expr) : Decidable e.IsRoot :=
  inferInstanceAs (Decidable (_ ∧ _))

instance (target : Option String) (children : List Expr) :
    ∀ kind : NodeKind, Decidable (kind.Admits target children)
  | .leaf => inferInstanceAs (Decidable (_ ∧ _))
  | .sequence | .lengthArray | .sizeArray => inferInstanceAs (Decidable (_ ∧ _))
  | .alternation => inferInstanceAs (Decidable (_ ∧ _))

mutual

instance Expr.decidableWellFormed : ∀ e : Expr, Decidable e.WellFormed
  | ⟨kind, label, target, children⟩ =>
    have := decidableWellFormedAll children
    inferInstanceAs (Decidable (label.all Lexer.isIdent = true ∧ kind.Admits target children ∧ _))

instance Expr.decidableWellFormedAll : ∀ es : List Expr, Decidable (WellFormedAll es)
  | [] => inferInstanceAs (Decidable True)
  | e :: es =>
    have := decidableWellFormed e
    have := decidableWellFormedAll es
    inferInstanceAs (Decidable (_ ∧ _))

end

instance (d : Decl) : Decidable d.WellFormed :=
  inferInstanceAs (Decidable (_ ∧ _))

instance (g : Grammar) : Decidable g.WellFormed :=
  inferInstanceAs (Decidable (∀ d ∈ g.decls, d.WellFormed))

namespace Expr

theorem wellFormedAll_iff : ∀ {es : List Expr}, WellFormedAll es ↔ ∀ e ∈ es, e.WellFormed
  | [] => by simp [WellFormedAll]
  | e :: es => by
    have ih : WellFormedAll es ↔ ∀ e ∈ es, e.WellFormed := wellFormedAll_iff
    simp [WellFormedAll, ih]

theorem wellFormed_iff {e : Expr} :
    e.WellFormed ↔ e.label.all Lexer.isIdent = true ∧ e.kind.Admits e.target e.children ∧
      ∀ child ∈ e.children, child.WellFormed := by
  cases e
  rw [WellFormed, wellFormedAll_iff]

theorem wellFormed_leaf {target : String} (h : Lexer.isIdent target = true) :
    (leaf target).WellFormed :=
  wellFormed_iff.2 ⟨rfl, ⟨h, rfl⟩, List.forall_mem_nil _⟩

theorem wellFormed_node {kind : NodeKind} {es : List Expr} (hkind : kind.Admits none es)
    (h : ∀ e ∈ es, e.WellFormed) : (node kind es).WellFormed :=
  wellFormed_iff.2 ⟨rfl, hkind, h⟩

theorem WellFormed.withLabel {e : Expr} (h : e.WellFormed) {label : Option String}
    (hlabel : label.all Lexer.isIdent = true) : ({ e with label := label } : Expr).WellFormed := by
  obtain ⟨-, hkind, hall⟩ := wellFormed_iff.1 h
  exact wellFormed_iff.2 ⟨hlabel, hkind, hall⟩

theorem IsBranch.isRoot {e : Expr} (h : e.IsBranch) : e.IsRoot :=
  ⟨.inl h.1, h.2⟩

end Expr

/-! ## Tokens -/

/-- If the token is a name, it is an identifier. -/
def Token.Proper : Token → Prop
  | .ident name => Lexer.isIdent name = true
  | _ => True

namespace Lexer

/-- If the machine is in the middle of a name, that is an identifier so far. -/
def Mode.Proper : Mode → Prop
  | .word letters => isIdent letters = true
  | _ => True

theorem isIdent_singleton {c : Char} (h : isIdentStart c = true) :
    isIdent (String.singleton c) = true := by
  simp [isIdent, h]

theorem isIdent_push {w : String} {c : Char} (hw : isIdent w = true) (hc : isIdentRest c = true) :
    isIdent (w.push c) = true := by
  rw [isIdent] at hw ⊢
  rw [String.toList_push]
  cases hlist : w.toList with
  | nil => simp [hlist] at hw
  | cons d ds =>
    simp only [hlist, Bool.and_eq_true] at hw
    simp only [List.cons_append, List.all_append, List.all_cons, List.all_nil, hw, hc,
      Bool.and_self]

theorem proper_of_sign? {c : Char} {t : Token} (h : sign? c = some t) : t.Proper := by
  rw [sign?.eq_def] at h
  split at h
  all_goals cases h
  all_goals trivial

theorem proper_of_start {c : Char} {ts : List Token} {m : Mode} (h : start c = some (ts, m)) :
    (∀ t ∈ ts, t.Proper) ∧ m.Proper := by
  rw [start] at h
  split at h
  · cases h
    exact ⟨List.forall_mem_nil _, trivial⟩
  split at h
  · next hident =>
    cases h
    exact ⟨List.forall_mem_nil _, isIdent_singleton hident⟩
  split at h
  · cases h
    exact ⟨List.forall_mem_nil _, trivial⟩
  split at h
  · cases h
    exact ⟨List.forall_mem_nil _, trivial⟩
  split at h
  · cases h
    exact ⟨List.forall_mem_nil _, trivial⟩
  · obtain ⟨t, ht, heq⟩ := Option.map_eq_some_iff.1 h
    cases heq
    exact ⟨List.forall_mem_singleton.2 (proper_of_sign? ht), trivial⟩

theorem proper_of_startAfter {t : Token} (ht : t.Proper) {c : Char} {ts : List Token} {m : Mode}
    (h : startAfter t c = some (ts, m)) : (∀ t ∈ ts, t.Proper) ∧ m.Proper := by
  obtain ⟨⟨us, m'⟩, hstart, heq⟩ := Option.map_eq_some_iff.1 h
  cases heq
  obtain ⟨hus, hm⟩ := proper_of_start hstart
  exact ⟨List.forall_mem_cons.2 ⟨ht, hus⟩, hm⟩

/-- **A character completes and starts only identifiers.** -/
theorem proper_of_step {m m' : Mode} (hm : m.Proper) {c : Char} {ts : List Token}
    (h : step m c = some (ts, m')) : (∀ t ∈ ts, t.Proper) ∧ m'.Proper := by
  cases m with
  | between => exact proper_of_start h
  | word w =>
    rw [step] at h
    split at h
    · next hrest =>
      cases h
      exact ⟨List.forall_mem_nil _, isIdent_push hm hrest⟩
    · exact proper_of_startAfter (t := .ident w) hm h
  | slash =>
    rw [step] at h
    split at h
    · cases h
      exact ⟨List.forall_mem_nil _, trivial⟩
    · cases h
  | equals =>
    rw [step] at h
    split at h
    · cases h
      exact ⟨List.forall_mem_singleton.2 trivial, trivial⟩
    · exact proper_of_startAfter (t := .define) trivial h
  | comment =>
    cases h
    refine ⟨List.forall_mem_nil _, ?_⟩
    split <;> trivial

theorem proper_of_finish {m : Mode} (hm : m.Proper) {ts : List Token} (h : finish m = some ts) :
    ∀ t ∈ ts, t.Proper := by
  cases m with
  | between =>
    cases h
    exact List.forall_mem_nil _
  | word w =>
    cases h
    exact List.forall_mem_singleton.2 hm
  | slash => cases h
  | equals =>
    cases h
    exact List.forall_mem_singleton.2 trivial
  | comment =>
    cases h
    exact List.forall_mem_nil _

/-- **The names among the tokens of a text are identifiers.** -/
theorem proper_of_run :
    ∀ {m : Mode} {cs : List Char} {ts : List Token}, m.Proper → run m cs = some ts →
      ∀ t ∈ ts, t.Proper
  | m, [], ts, hm, h => proper_of_finish hm h
  | m, c :: cs, ts, hm, h => by
    rw [run] at h
    split at h
    · cases h
    · next us m' hstep =>
      obtain ⟨vs, hvs, rfl⟩ := Option.map_eq_some_iff.1 h
      obtain ⟨hus, hm'⟩ := proper_of_step hm hstep
      exact List.forall_mem_append.2 ⟨hus, proper_of_run hm' hvs⟩

end Lexer

theorem Token.proper_of_ofText? {text : String} {ts : List Token} (h : ofText? text = some ts) :
    ∀ t ∈ ts, t.Proper :=
  Lexer.proper_of_run (m := .between) trivial h

/-! ## The parser -/

namespace Parser

/-- Cutting keeps all tokens. -/
theorem mem_of_mem_cut {ts : List Token} {name : String} {body : List Token}
    (h : (name, body) ∈ (cut ts).2) : .ident name ∈ ts ∧ ∀ t ∈ body, t ∈ ts := by
  have hpiece : ∀ t ∈ .ident name :: .define :: body, t ∈ ts := by
    intro t ht
    rw [← append_cut ts]
    exact List.mem_append_right _ (List.mem_flatMap.2 ⟨(name, body), h, ht⟩)
  exact ⟨hpiece _ List.mem_cons_self,
    fun t ht => hpiece t (List.mem_cons_of_mem _ (List.mem_cons_of_mem _ ht))⟩

/-- What has been read inside a bracket is well-formed. -/
structure Level.WellFormed (l : Level) : Prop where
  branches : ∀ b ∈ l.branches, b.IsBranch ∧ b.WellFormed
  terms : ∀ e ∈ l.terms, e.WellFormed

theorem Level.wellFormed_empty : Level.WellFormed {} :=
  ⟨List.forall_mem_nil _, List.forall_mem_nil _⟩

theorem Level.WellFormed.push {l : Level} (hl : l.WellFormed) {e : Expr} (he : e.WellFormed) :
    (l.push e).WellFormed :=
  ⟨hl.branches, List.forall_mem_cons.2 ⟨he, hl.terms⟩⟩

theorem Level.WellFormed.nextBranch? {l l' : Level} (hl : l.WellFormed)
    (h : l.nextBranch? = some l') : l'.WellFormed ∧ l'.branches ≠ [] := by
  rw [Level.nextBranch?] at h
  split at h
  · cases h
  · next hne =>
    cases h
    have hbranch : (Expr.node .sequence l.terms.reverse).WellFormed := by
      refine Expr.wellFormed_node ⟨rfl, by simpa using hne⟩ fun e he => ?_
      exact hl.terms e (List.mem_reverse.1 he)
    refine ⟨⟨List.forall_mem_cons.2 ⟨⟨⟨rfl, rfl⟩, hbranch⟩, hl.branches⟩, ?_⟩,
      List.cons_ne_nil _ _⟩
    exact List.forall_mem_nil _

/-- A finished level is a sequence or, with two branches or more, an alternation. -/
theorem Level.WellFormed.close? {l : Level} (hl : l.WellFormed) {e : Expr}
    (h : l.close? = some e) : e.IsRoot ∧ e.WellFormed := by
  rw [Level.close?] at h
  obtain ⟨l', hl', rfl⟩ := Option.map_eq_some_iff.1 h
  obtain ⟨hwf, hne⟩ := hl.nextBranch? hl'
  split
  · next only heq =>
    obtain ⟨hbranch, honly⟩ := hwf.branches only (by rw [heq]; exact List.mem_singleton_self only)
    exact ⟨hbranch.isRoot, honly⟩
  · next hseveral =>
    have hlength : 2 ≤ l'.branches.length := by
      have hpos := List.length_pos_iff.2 hne
      have hone : l'.branches.length ≠ 1 := fun h => by
        obtain ⟨only, honly⟩ := List.length_eq_one_iff.1 h
        exact hseveral only honly
      omega
    refine ⟨⟨.inr rfl, rfl⟩, Expr.wellFormed_node ⟨rfl, ?_, fun b hb => ?_⟩ fun b hb => ?_⟩
    · rwa [List.length_reverse]
    · exact (hwf.branches b (List.mem_reverse.1 hb)).1
    · exact (hwf.branches b (List.mem_reverse.1 hb)).2

/-- The children of an array are well-formed, and there are some. -/
theorem wellFormed_elements {e : Expr} (he : e.WellFormed) :
    elements e ≠ [] ∧ ∀ child ∈ elements e, child.WellFormed := by
  obtain ⟨-, hkind, hall⟩ := Expr.wellFormed_iff.1 he
  rw [elements]
  split
  · next hsequence =>
    rw [hsequence] at hkind
    exact ⟨hkind.2, hall⟩
  · exact ⟨List.cons_ne_nil _ _, List.forall_mem_singleton.2 he⟩

theorem wellFormed_enclose (b : Bracket) {e : Expr} (he : e.WellFormed) :
    (enclose b e).WellFormed := by
  obtain ⟨hne, hall⟩ := wellFormed_elements he
  cases b with
  | round => exact he
  | square => exact Expr.wellFormed_node ⟨rfl, hne⟩ hall
  | curly => exact Expr.wellFormed_node ⟨rfl, hne⟩ hall

/-- What has been read inside and around the open brackets is well-formed, and so are the labels
that wait. -/
structure State.WellFormed (s : State) : Prop where
  level : s.level.WellFormed
  label : s.label.all Lexer.isIdent = true
  stack : ∀ enclosing ∈ s.stack,
    enclosing.outer.WellFormed ∧ enclosing.label.all Lexer.isIdent = true

namespace State

theorem wellFormed_empty : State.WellFormed {} :=
  ⟨Level.wellFormed_empty, rfl, List.forall_mem_nil _⟩

theorem WellFormed.push {s : State} (hs : s.WellFormed) {e : Expr} (he : e.WellFormed) :
    (s.push e).WellFormed :=
  ⟨hs.level.push (he.withLabel hs.label), rfl, hs.stack⟩

theorem WellFormed.enter {s : State} (hs : s.WellFormed) (b : Bracket) : (s.enter b).WellFormed :=
  ⟨Level.wellFormed_empty, rfl, List.forall_mem_cons.2 ⟨⟨hs.level, hs.label⟩, hs.stack⟩⟩

theorem WellFormed.leave? {s s' : State} (hs : s.WellFormed) {b : Bracket}
    (h : s.leave? b = some s') : s'.WellFormed := by
  rw [State.leave?] at h
  split at h
  · next enclosing stack _ hstack =>
    split at h
    · obtain ⟨body, hbody, rfl⟩ := Option.map_eq_some_iff.1 h
      obtain ⟨⟨houter, hlabel⟩, hrest⟩ : _ ∧ _ := by
        have hall := hs.stack
        rw [hstack] at hall
        exact List.forall_mem_cons.1 hall
      exact WellFormed.push ⟨houter, hlabel, hrest⟩
        (wellFormed_enclose b (hs.level.close? hbody).2)
    · cases h
  · cases h

theorem WellFormed.branch? {s s' : State} (hs : s.WellFormed) (h : s.branch? = some s') :
    s'.WellFormed := by
  rw [State.branch?] at h
  split at h
  · obtain ⟨level, hlevel, rfl⟩ := Option.map_eq_some_iff.1 h
    exact ⟨(hs.level.nextBranch? hlevel).1, hs.label, hs.stack⟩
  · cases h

/-- **A token keeps the state well-formed.** -/
theorem wellFormed_step? {s s' : State} (hs : s.WellFormed) {t : Token} (ht : t.Proper)
    (h : s.step? t = some s') : s'.WellFormed := by
  cases t with
  | ident name =>
    cases h
    exact hs.push (Expr.wellFormed_leaf ht)
  | opening b =>
    cases h
    exact hs.enter b
  | closing b => exact hs.leave? h
  | bar => exact hs.branch? h
  | define => cases h
  | semicolon => cases h
  | colon => cases h

theorem WellFormed.setLabel? {s s' : State} (hs : s.WellFormed) {name : String}
    (hname : Lexer.isIdent name = true) (h : s.setLabel? name = some s') : s'.WellFormed := by
  rw [State.setLabel?] at h
  split at h
  · cases h
    exact ⟨hs.level, hname, hs.stack⟩
  · cases h

theorem WellFormed.finish? {s : State} (hs : s.WellFormed) {e : Expr} (h : s.finish? = some e) :
    e.IsRoot ∧ e.WellFormed := by
  rw [State.finish?] at h
  split at h
  · exact hs.level.close? h
  · cases h

/-- **What a run of the parser makes is well-formed.** -/
theorem wellFormed_run? (s : State) (ts : List Token) {e : Expr} (hs : s.WellFormed)
    (hts : ∀ t ∈ ts, t.Proper) (h : s.run? ts = some e) : e.IsRoot ∧ e.WellFormed := by
  fun_induction run? s ts with
  | case1 s => exact hs.finish? h
  | case2 s => exact hs.finish? h
  | case3 s name ts hlabel => cases h
  | case4 s name ts s' hlabel ih =>
    obtain ⟨hname, hrest⟩ := List.forall_mem_cons.1 hts
    exact ih (hs.setLabel? hname hlabel) (List.forall_mem_cons.1 hrest).2 h
  | case5 s t ts h1 h2 hstep => cases h
  | case6 s t ts h1 h2 s' hstep ih =>
    obtain ⟨ht, hrest⟩ := List.forall_mem_cons.1 hts
    exact ih (wellFormed_step? hs ht hstep) hrest h

end State
end Parser

theorem exists_of_mem_mapM {α β : Type} {f : α → Option β} :
    ∀ {as : List α} {bs : List β}, as.mapM f = some bs → ∀ b ∈ bs, ∃ a ∈ as, f a = some b
  | [], bs, h, b, hb => by
    cases h
    cases hb
  | a :: as, bs, h, b, hb => by
    rw [List.mapM_cons] at h
    obtain ⟨b', hb', h⟩ := Option.bind_eq_some_iff.1 h
    obtain ⟨bs', hbs', h⟩ := Option.bind_eq_some_iff.1 h
    cases h
    rcases List.mem_cons.1 hb with rfl | hb
    · exact ⟨a, List.mem_cons_self, hb'⟩
    · obtain ⟨a', ha', hf⟩ := exists_of_mem_mapM hbs' b hb
      exact ⟨a', List.mem_cons_of_mem _ ha', hf⟩

/-- **What is read from text is well-formed.** -/
theorem Grammar.wellFormed_of_parse? {text : String} {g : Grammar} (h : parse? text = some g) :
    g.WellFormed := by
  obtain ⟨ts, hts, h⟩ := Option.bind_eq_some_iff.1 h
  have hproper := Token.proper_of_ofText? hts
  rw [ofTokens?] at h
  split at h
  · next pieces hcut =>
    obtain ⟨decls, hdecls, rfl⟩ := Option.map_eq_some_iff.1 h
    intro d hd
    obtain ⟨⟨name, body⟩, hmem, hbody⟩ := exists_of_mem_mapM hdecls d hd
    obtain ⟨e, he, rfl⟩ := Option.map_eq_some_iff.1 hbody
    have hpiece : (name, body) ∈ (Parser.cut ts).2 := by rwa [hcut]
    obtain ⟨hname, htokens⟩ := Parser.mem_of_mem_cut hpiece
    exact ⟨hproper _ hname, Parser.State.wellFormed_run? {} body Parser.State.wellFormed_empty
      (fun t ht => hproper t (htokens t ht)) he⟩
  · cases h

end WireGrammar
