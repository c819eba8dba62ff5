import Mathlib.Data.List.Nodup
import WireGrammar.Proofs.Grammar.Filled

/-!
# The order of declarations

Names are resolved in two passes: the first collects the declarations, one for each name, and the
second looks references up among them.  Neither depends on which declaration is met first.  Two
declarations of one name must be the same anyway, and once each name stands for one declaration,
looking it up gives the same answer wherever the declaration stands.

* `SameOutcome R x y` — both computations fail, or both succeed with results that `R` relates.
* `find?_eq_of_perm`, `mapM_perm` — looking up by a key and going through a list, in any order.
* `Grammar.distinct_perm` — the declarations that are kept are the same up to order: `distinct`
  succeeds exactly if no name is reserved and no name has two meanings, and then it keeps every
  declaration once (`Resolve.mem_distinctFrom`, `Resolve.nodup_distinctFrom`,
  `Resolve.exists_distinctFrom`).
* `Schema.emit_perm` — so are the routines: a declaration gives either a routine or a name without
  one, whatever the others are (`TypeDecl.part`, `Schema.emitDecls_eq`).
* `Grammar.resolve_emit_of_perm` — both together.
-/

set_option autoImplicit false
namespace WireGrammar

/-! ## Outcomes -/

section Outcomes

variable {ε α β γ δ : Type}

/-- Both computations fail, perhaps for different reasons, or both succeed with related results. -/
inductive SameOutcome (R : α → β → Prop) : Except ε α → Except ε β → Prop
  | error (e e' : ε) : SameOutcome R (.error e) (.error e')
  | ok {a : α} {b : β} (h : R a b) : SameOutcome R (.ok a) (.ok b)

namespace SameOutcome

variable {R : α → β → Prop} {S : γ → δ → Prop}

theorem refl (x : Except ε α) : SameOutcome (· = ·) x x := by
  cases x with
  | error e => exact .error e e
  | ok a => exact .ok rfl

theorem mono {R' : α → β → Prop} {x : Except ε α} {y : Except ε β} (h : SameOutcome R x y)
    (hR : ∀ a b, x = .ok a → y = .ok b → R a b → R' a b) : SameOutcome R' x y := by
  cases h with
  | error e e' => exact .error e e'
  | ok h => exact .ok (hR _ _ rfl rfl h)

theorem bind {x : Except ε α} {y : Except ε β} {f : α → Except ε γ} {g : β → Except ε δ}
    (h : SameOutcome R x y) (hfg : ∀ a b, R a b → SameOutcome S (f a) (g b)) :
    SameOutcome S (x >>= f) (y >>= g) := by
  cases h with
  | error e e' => exact .error e e'
  | ok h => exact hfg _ _ h

theorem map {x : Except ε α} {y : Except ε β} {f : α → γ} {g : β → δ} (h : SameOutcome R x y)
    (hfg : ∀ a b, R a b → S (f a) (g b)) : SameOutcome S (f <$> x) (g <$> y) := by
  cases h with
  | error e e' => exact .error e e'
  | ok h => exact .ok (hfg _ _ h)

theorem trans {T : α → γ → Prop} {U : β → γ → Prop} {x : Except ε α} {y : Except ε β}
    {z : Except ε γ} (hxy : SameOutcome R x y) (hyz : SameOutcome U y z)
    (hT : ∀ a b c, R a b → U b c → T a c) : SameOutcome T x z := by
  cases hxy with
  | error e _ =>
    cases hyz with
    | error _ e' => exact .error e e'
  | ok h =>
    cases hyz with
    | ok h' => exact .ok (hT _ _ _ h h')

theorem exists_of_ok {a : α} {y : Except ε β} (h : SameOutcome R (.ok a) y) :
    ∃ b, y = .ok b ∧ R a b := by
  cases h with
  | ok h => exact ⟨_, rfl, h⟩

end SameOutcome

/-! ## Lists in another order -/

/-- Where keys are different, looking up a key finds what has it. -/
theorem find?_eq_some_iff_of_nodup {key : α → String} {l : List α} (hl : (l.map key).Nodup)
    {k : String} {a : α} : l.find? (key · == k) = some a ↔ a ∈ l ∧ key a = k := by
  constructor
  · intro h
    exact ⟨List.mem_of_find?_eq_some h, by simpa using List.find?_some h⟩
  · rintro ⟨ha, rfl⟩
    cases hb : l.find? (key · == key a) with
    | none => exact absurd (List.find?_eq_none.1 hb a ha) (by simp)
    | some b =>
      have hkey : key b = key a := by simpa using List.find?_some hb
      rw [List.inj_on_of_nodup_map hl (List.mem_of_find?_eq_some hb) ha hkey]

/-- **Looking up by a key does not depend on the order**, where keys are different. -/
theorem find?_eq_of_perm {key : α → String} {l l' : List α} (h : l.Perm l')
    (hl : (l.map key).Nodup) (k : String) :
    l.find? (key · == k) = l'.find? (key · == k) := by
  have hl' : (l'.map key).Nodup := (h.map key).nodup_iff.1 hl
  ext a
  rw [find?_eq_some_iff_of_nodup hl, find?_eq_some_iff_of_nodup hl', h.mem_iff]

/-- **Going through a list in another order** has the same outcome up to order. -/
theorem mapM_perm {f : α → Except ε β} {l l' : List α} (h : l.Perm l') :
    SameOutcome List.Perm (l.mapM f) (l'.mapM f) := by
  induction h with
  | nil => exact .ok .nil
  | cons a _ ih =>
    rw [List.mapM_cons, List.mapM_cons]
    refine (SameOutcome.refl (f a)).bind fun b _ hb => ih.bind fun bs bs' hbs => ?_
    rw [← hb]
    exact .ok (hbs.cons b)
  | swap a a' l =>
    simp only [List.mapM_cons]
    cases f a with
    | error e =>
      cases f a' with
      | error e' => exact .error e' e
      | ok b' => exact .error e e
    | ok b =>
      cases f a' with
      | error e' => exact .error e' e'
      | ok b' =>
        cases l.mapM f with
        | error e => exact .error e e
        | ok bs => exact .ok (.swap b b' bs)
  | trans _ _ ih ih' => exact ih.trans ih' fun _ _ _ h h' => h.trans h'

end Outcomes

/-! ## The declarations that are kept -/

namespace Resolve

variable {kept ds out : List Decl}

/-- **Every name is kept once.** -/
theorem nodup_distinctFrom (h : distinctFrom kept ds = .ok out)
    (hkept : (kept.map (·.name)).Nodup) : (out.map (·.name)).Nodup := by
  fun_induction distinctFrom kept ds with
  | case1 kept =>
    cases h
    rwa [List.map_reverse, List.nodup_reverse]
  | case2 => cases h
  | case3 kept d ds _ first _ _ ih => exact ih h hkept
  | case4 => cases h
  | case5 kept d ds _ hnone ih =>
    refine ih h (List.nodup_cons.2 ⟨fun hmem => ?_, hkept⟩)
    obtain ⟨d', hd', hname⟩ := List.mem_map.1 hmem
    exact absurd (List.find?_eq_none.1 hnone d' hd') (by simp [hname])

/-- No kept name is that of a built-in type. -/
theorem not_isName_of_distinctFrom (h : distinctFrom kept ds = .ok out) :
    ∀ d ∈ ds, ¬ Primitive.isName d.name := by
  fun_induction distinctFrom kept ds with
  | case1 => exact fun _ hd => absurd hd List.not_mem_nil
  | case2 => cases h
  | case3 kept d ds hname first _ _ ih => exact List.forall_mem_cons.2 ⟨hname, ih h⟩
  | case4 => cases h
  | case5 kept d ds hname _ ih => exact List.forall_mem_cons.2 ⟨hname, ih h⟩

/-- **Nothing else stands in the way**: if no name is reserved and none has two meanings, the
declarations can be told apart. -/
theorem exists_distinctFrom (hname : ∀ d ∈ ds, ¬ Primitive.isName d.name)
    (hsame : ∀ d, d ∈ kept ∨ d ∈ ds → ∀ d' ∈ ds, d.name = d'.name → d = d') :
    ∃ out, distinctFrom kept ds = .ok out := by
  fun_induction distinctFrom kept ds with
  | case1 kept => exact ⟨_, rfl⟩
  | case2 kept d ds hreserved => exact absurd hreserved (hname d List.mem_cons_self)
  | case3 kept d ds _ first _ _ ih =>
    refine ih (fun e he => hname e (List.mem_cons_of_mem _ he)) fun e he e' he' => ?_
    exact hsame e (he.imp_right (List.mem_cons_of_mem _)) e' (List.mem_cons_of_mem _ he')
  | case4 kept d ds _ first hfirst hne =>
    have heq : first.name = d.name := by simpa using List.find?_some hfirst
    have hfirst' := hsame first (.inl (List.mem_of_find?_eq_some hfirst)) d List.mem_cons_self heq
    exact absurd (congrArg Decl.expr hfirst') hne
  | case5 kept d ds _ _ ih =>
    refine ih (fun e he => hname e (List.mem_cons_of_mem _ he)) fun e he e' he' => ?_
    refine hsame e ?_ e' (List.mem_cons_of_mem _ he')
    rcases he with he | he
    · rcases List.mem_cons.1 he with rfl | he
      · exact .inr List.mem_cons_self
      · exact .inl he
    · exact .inr (List.mem_cons_of_mem _ he)

end Resolve

namespace Grammar

variable {g g' : Grammar} {ds : List Decl}

theorem nodup_of_distinct (h : g.distinct = .ok ds) : (ds.map (·.name)).Nodup :=
  Resolve.nodup_distinctFrom h List.nodup_nil

theorem mem_of_distinct (h : g.distinct = .ok ds) {d : Decl} : d ∈ ds ↔ d ∈ g.decls := by
  rw [Resolve.mem_distinctFrom h]
  simp

/-- Declarations that can be told apart can be told apart in any order. -/
theorem exists_distinct_of_perm (h : g.decls.Perm g'.decls) (hds : g.distinct = .ok ds) :
    ∃ ds', g'.distinct = .ok ds' := by
  refine Resolve.exists_distinctFrom (fun d hd => ?_) fun d hd d' hd' hname => ?_
  · exact Resolve.not_isName_of_distinctFrom hds d (h.mem_iff.2 hd)
  · have hmem := hd.resolve_left List.not_mem_nil
    exact List.inj_on_of_nodup_map (nodup_of_distinct hds)
      ((mem_of_distinct hds).2 (h.mem_iff.2 hmem)) ((mem_of_distinct hds).2 (h.mem_iff.2 hd')) hname

/-- **The same declarations are kept**, whatever their order. -/
theorem distinct_perm (h : g.decls.Perm g'.decls) :
    SameOutcome List.Perm g.distinct g'.distinct := by
  cases hds : g.distinct with
  | error e =>
    cases hds' : g'.distinct with
    | error e' => exact .error e e'
    | ok ds' =>
      obtain ⟨ds, hok⟩ := exists_distinct_of_perm h.symm hds'
      cases hds.symm.trans hok
  | ok ds =>
    obtain ⟨ds', hds'⟩ := exists_distinct_of_perm h hds
    rw [hds']
    refine .ok ((List.perm_ext_iff_of_nodup (nodup_of_distinct hds).of_map
      (nodup_of_distinct hds').of_map).2 fun d => ?_)
    rw [mem_of_distinct hds, mem_of_distinct hds', h.mem_iff]

end Grammar

/-! ## Types -/

/-- References are resolved by looking names up, and in no other way. -/
theorem Resolve.reference_congr {ds ds' : List Decl}
    (h : ∀ name, ds.find? (·.name == name) = ds'.find? (·.name == name)) :
    ∀ (fuel : Nat) (name : String), reference ds fuel name = reference ds' fuel name
  | fuel, name => by
    rw [reference, reference, h name]
    split
    · rfl
    · split
      · rfl
      · next d _ =>
        cases d.expr.scalar? with
        | none => rfl
        | some p =>
          cases d.expr.kind with
          | leaf =>
            cases fuel with
            | zero => rfl
            | succ fuel => exact reference_congr h fuel _
          | _ => rfl

/-- The declared types have the names of the declarations. -/
theorem Resolve.map_name_of_mapM {type : Decl → Except CompileError Ty} {ds : List Decl}
    {ts : List TypeDecl}
    (h : (ds.mapM fun d => do
      let t ← type d
      return { name := d.name, type := t : TypeDecl }) = .ok ts) :
    ts.map (·.name) = ds.map (·.name) := by
  induction ds generalizing ts with
  | nil =>
    cases h
    rfl
  | cons d ds ih =>
    rw [List.mapM_cons] at h
    obtain ⟨t, ht, h⟩ := exists_of_bind_eq_ok h
    obtain ⟨rest, hrest, h⟩ := exists_of_bind_eq_ok h
    obtain ⟨u, -, ht⟩ := exists_of_bind_eq_ok ht
    cases ht
    cases h
    rw [List.map_cons, List.map_cons, ih hrest]

namespace Grammar

variable {g g' : Grammar}

/-- **No name is declared twice in a schema.** -/
theorem nodup_of_resolve {s : Schema} (h : g.resolve = .ok s) : (s.decls.map (·.name)).Nodup := by
  obtain ⟨ds, hds, h⟩ := exists_of_bind_eq_ok h
  obtain ⟨ts, hts, h⟩ := exists_of_bind_eq_ok h
  cases h
  rw [Resolve.map_name_of_mapM hts]
  exact nodup_of_distinct hds

/-- **The same types are declared**, whatever the order of the declarations. -/
theorem resolve_perm (h : g.decls.Perm g'.decls) :
    SameOutcome (fun s s' : Schema => s.decls.Perm s'.decls) g.resolve g'.resolve := by
  rw [resolve, resolve]
  have hdistinct := (distinct_perm h).mono fun ds ds' hds _ hperm =>
    And.intro (nodup_of_distinct hds) hperm
  refine hdistinct.bind fun ds ds' ⟨hnodup, hperm⟩ => ?_
  have href : Resolve.reference ds ds.length = Resolve.reference ds' ds'.length := by
    funext name
    rw [hperm.length_eq]
    exact Resolve.reference_congr (find?_eq_of_perm hperm hnodup) _ name
  simp only [href]
  exact (mapM_perm hperm).bind fun _ _ hts => .ok hts

end Grammar

/-! ## Routines -/

/-- What a declared type adds to a program: its routine, or its name where it has none. -/
def TypeDecl.part (verifyCrc : Bool) (d : TypeDecl) : Except CompileError (Routine ⊕ String) :=
  (fun r => r.elim (.inr d.name) .inl) <$> d.routine? verifyCrc

namespace Schema

/-- **A program is put together from the parts of its declarations**, in their order. -/
theorem emitDecls_eq (verifyCrc : Bool) (ds : List TypeDecl) :
    emitDecls verifyCrc ds =
      (fun parts => ⟨parts.filterMap Sum.getLeft?, parts.filterMap Sum.getRight?⟩) <$>
        ds.mapM (·.part verifyCrc) := by
  induction ds with
  | nil => rfl
  | cons d ds ih =>
    rw [emitDecls, ih, List.mapM_cons, TypeDecl.part]
    cases d.routine? verifyCrc with
    | error e => rfl
    | ok r =>
      cases ds.mapM (·.part verifyCrc) with
      | error e => rfl
      | ok parts =>
        cases r with
        | none => rfl
        | some r => rfl

/-- The routines of a program are called after declarations. -/
theorem names_sublist_of_emitDecls {verifyCrc : Bool} :
    ∀ {ds : List TypeDecl} {p : Program}, emitDecls verifyCrc ds = .ok p →
      (p.routines.map (·.name)).Sublist (ds.map (·.name))
  | [], p, h => by
    cases h
    exact .slnil
  | d :: ds, p, h => by
    obtain ⟨rest, hrest, ⟨r, hr, rfl⟩ | ⟨-, rfl⟩⟩ := emitDecls_cons_cases h
    · rw [List.map_cons, List.map_cons, (TypeDecl.routine?_cases hr).1]
      exact (names_sublist_of_emitDecls hrest).cons_cons d.name
    · exact (names_sublist_of_emitDecls hrest).cons d.name

/-- **The same routines are emitted**, whatever the order of the declarations. -/
theorem emit_perm {s s' : Schema} (h : s.decls.Perm s'.decls)
    (hs : (s.decls.map (·.name)).Nodup) (verifyCrc : Bool) :
    SameOutcome (fun p p' : Program =>
        (∀ name, p.routine? name = p'.routine? name) ∧ p.skipped.Perm p'.skipped)
      (s.emit verifyCrc) (s'.emit verifyCrc) := by
  have hemit : SameOutcome (fun p p' : Program =>
      p.routines.Perm p'.routines ∧ p.skipped.Perm p'.skipped)
      (s.emit verifyCrc) (s'.emit verifyCrc) := by
    rw [emit, emit, emitDecls_eq, emitDecls_eq]
    exact (mapM_perm h).map fun parts parts' hparts => ⟨hparts.filterMap _, hparts.filterMap _⟩
  refine hemit.mono fun p p' hp _ ⟨hroutines, hskipped⟩ => ⟨fun name => ?_, hskipped⟩
  exact find?_eq_of_perm hroutines ((names_sublist_of_emitDecls hp).nodup hs) name

end Schema

/-- **The order of declarations does not matter.**  For every grammar and every other order of its
declarations: either both can be resolved or neither can, and the two schemas declare the same
types.  Either both are emitted or neither is, and then every name has the same routine, with the
same two trees, and the same names are listed as having none. -/
theorem Grammar.resolve_emit_of_perm {g g' : Grammar} (h : g.decls.Perm g'.decls) :
    SameOutcome (fun s s' : Schema => s.decls.Perm s'.decls ∧ ∀ verifyCrc,
        SameOutcome (fun p p' : Program =>
            (∀ name, p.routine? name = p'.routine? name) ∧ p.skipped.Perm p'.skipped)
          (s.emit verifyCrc) (s'.emit verifyCrc))
      g.resolve g'.resolve :=
  (resolve_perm h).mono fun _ _ hs _ hperm =>
    ⟨hperm, Schema.emit_perm hperm (nodup_of_resolve hs)⟩

/-! ## Letters that refer to each other

References forward and backward, a declaration that stands there twice, and an alternation.
-/

namespace Inbox

def letter : Decl :=
  ⟨"Letter", .node .sequence [{ Expr.leaf "int32" with label := some "Size" }, .leaf "Stamp",
    .node .lengthArray [.leaf "Page"]]⟩

def stamp : Decl :=
  ⟨"Stamp", .node .sequence [.leaf "int16"]⟩

def page : Decl :=
  ⟨"Page", .node .sequence [{ Expr.leaf "string" with label := some "Text" },
    .node .sizeArray [.leaf "Letter"]]⟩

def reply : Decl :=
  ⟨"Reply", .node .alternation [.node .sequence [.leaf "Letter"], .node .sequence [.leaf "Page"]]⟩

def grammar : Grammar := ⟨[letter, stamp, page, stamp, reply]⟩

/-- The same declarations from the last to the first. -/
def reversed : Grammar := ⟨grammar.decls.reverse⟩

def schema : Schema where
  decls := [
    ⟨"Letter", .struct [⟨"Size", .scalar (.int .int32)⟩, ⟨"Stamp", .scalar (.int .int16)⟩,
      ⟨"Pages", .array (.named "Page") .length⟩]⟩,
    ⟨"Stamp", .scalar (.int .int16)⟩,
    ⟨"Page", .struct [⟨"Text", .scalar .string⟩, ⟨"Letters", .array (.named "Letter") .size⟩]⟩,
    ⟨"Reply", .polymorphic [.named "Letter", .named "Page"]⟩]

theorem resolve_grammar : grammar.resolve = .ok schema := by cbv

end Inbox

/-- Read from the last declaration to the first, the grammar declares the same types and gives the
same routines. -/
theorem Grammar.resolve_emit_of_perm_inbox :
    ∃ s' p p', Inbox.reversed.resolve = .ok s' ∧ Inbox.schema.decls.Perm s'.decls ∧
      Inbox.schema.emit true = .ok p ∧ s'.emit true = .ok p' ∧ p.skipped = ["Reply"] ∧
      (∀ name, p.routine? name = p'.routine? name) ∧ p.skipped.Perm p'.skipped := by
  have hreverse : Inbox.grammar.decls.Perm Inbox.reversed.decls := (List.reverse_perm _).symm
  have hsame := resolve_emit_of_perm hreverse
  rw [Inbox.resolve_grammar] at hsame
  obtain ⟨s', hs', hperm, hemit⟩ := hsame.exists_of_ok
  obtain ⟨p', hp', hroutine, hskipped⟩ := (hemit true).exists_of_ok
  exact ⟨s', _, p', hs', hperm, rfl, hp', rfl, hroutine, hskipped⟩

end WireGrammar
