import WireGrammar.Compile
import WireGrammar.Proofs.Grammar.WellFormed
import WireGrammar.Proofs.Routine.Emission

/-!
# No empty brackets

A grammar that was read from text has no sequence, alternation or array without anything in it.  So
no struct of its schema is without fields, and every value takes bytes on the wire.

* `Expr.Filled` — every node of the expression but a leaf has children.
* `Grammar.filled_of_parse?` — what is read from text is well-formed, hence filled.
* `Resolve.solid_type` — a filled expression describes a type without empty structs.
* `solid_of_compile` — no routine of a program compiled from text writes a struct without fields.
-/

set_option autoImplicit false
namespace WireGrammar

mutual

/-- Every node but a leaf has children. -/
def Expr.Filled : Expr → Prop
  | ⟨kind, _, _, children⟩ => (kind = .leaf ∨ children ≠ []) ∧ FilledAll children

/-- Every node in the expressions but a leaf has children. -/
def Expr.FilledAll : List Expr → Prop
  | [] => True
  | e :: es => e.Filled ∧ FilledAll es

end

mutual

/-- A well-formed expression has no empty brackets. -/
theorem Expr.WellFormed.filled : ∀ {e : Expr}, e.WellFormed → e.Filled
  | ⟨kind, label, target, children⟩, h => by
    rw [WellFormed] at h
    obtain ⟨-, hkind, hall⟩ := h
    rw [Filled]
    refine ⟨?_, WellFormedAll.filledAll hall⟩
    cases kind with
    | leaf => exact .inl rfl
    | alternation => exact .inr (List.ne_nil_of_length_pos (Nat.zero_lt_of_lt hkind.2.1))
    | _ => exact .inr hkind.2

theorem Expr.WellFormedAll.filledAll : ∀ {es : List Expr}, WellFormedAll es → FilledAll es
  | [], _ => by
    rw [FilledAll]
    trivial
  | e :: es, h => by
    rw [WellFormedAll] at h
    rw [FilledAll]
    exact ⟨h.1.filled, WellFormedAll.filledAll h.2⟩

end

/-- **What is read from text has no empty brackets.** -/
theorem Grammar.filled_of_parse? {text : String} {g : Grammar} (h : parse? text = some g) :
    ∀ d ∈ g.decls, d.expr.Filled := by
  intro d hd
  obtain ⟨-, -, hexpr⟩ := wellFormed_of_parse? h d hd
  exact hexpr.filled

/-! ## The schema -/

theorem exists_of_mem_mapM_ok {ε α β : Type} {f : α → Except ε β} :
    ∀ {as : List α} {bs : List β}, as.mapM f = .ok bs → ∀ b ∈ bs, ∃ a ∈ as, f a = .ok b
  | [], bs, h, b, hb => by
    cases h
    cases hb
  | a :: as, bs, h, b, hb => by
    rw [List.mapM_cons] at h
    obtain ⟨b', hb', h⟩ := exists_of_bind_eq_ok h
    obtain ⟨bs', hbs', h⟩ := exists_of_bind_eq_ok h
    cases h
    rcases List.mem_cons.1 hb with rfl | hb
    · exact ⟨a, List.mem_cons_self, hb'⟩
    · obtain ⟨a', ha', hf⟩ := exists_of_mem_mapM_ok hbs' b hb
      exact ⟨a', List.mem_cons_of_mem _ ha', hf⟩

namespace Resolve

/-- A name never refers to a struct. -/
theorem solid_reference (decls : List Decl) :
    ∀ (fuel : Nat) (name : String), (reference decls fuel name).Solid := by
  intro fuel name
  fun_induction reference decls fuel name with
  | case9 => assumption
  | _ => simp only [Ty.Solid]

theorem solid_combine {fs : List (Field Ty)} (hne : fs ≠ []) (h : Ty.SolidFields fs) :
    (combine fs).Solid := by
  rw [combine.eq_def]
  split
  · rw [Ty.SolidFields] at h
    exact h.1
  · rw [Ty.Solid]
    exact ⟨hne, h⟩

/-- The fields of several expressions are that of the first and those of the others. -/
theorem fields_cons_cases {ref : String → Ty} {owner : String} {seen : List String} {index : Nat}
    {e : Expr} {es : List Expr} {fs : List (Field Ty)}
    (h : fields ref owner seen index (e :: es) = .ok fs) :
    ∃ t rest, type ref owner e = .ok t ∧
      fields ref owner (fieldName e index :: seen) (index + 1) es = .ok rest ∧
      fs = ⟨fieldName e index, t⟩ :: rest := by
  rw [fields] at h
  split at h
  · cases h
  · obtain ⟨t, ht, h⟩ := exists_of_bind_eq_ok h
    obtain ⟨rest, hrest, h⟩ := exists_of_bind_eq_ok h
    cases h
    exact ⟨t, rest, ht, hrest, rfl⟩

theorem fields_ne_nil {ref : String → Ty} {owner : String} {seen : List String} {index : Nat}
    {es : List Expr} {fs : List (Field Ty)} (h : fields ref owner seen index es = .ok fs)
    (hne : es ≠ []) : fs ≠ [] := by
  cases es with
  | nil => exact absurd rfl hne
  | cons e es =>
    obtain ⟨t, rest, -, -, rfl⟩ := fields_cons_cases h
    exact List.cons_ne_nil _ _

mutual

/-- **A filled expression describes a type without empty structs**, if names refer to such types. -/
theorem solid_type {ref : String → Ty} (href : ∀ name, (ref name).Solid) {owner : String} :
    ∀ {e : Expr} {t : Ty}, e.Filled → type ref owner e = .ok t → t.Solid
  | ⟨.leaf, _, target, _⟩, t, _, h => by
    cases h
    exact href _
  | ⟨.sequence, _, _, children⟩, t, he, h => by
    rw [Expr.Filled] at he
    obtain ⟨fs, hfs, rfl⟩ := exists_of_map_eq_ok h
    exact solid_combine (fields_ne_nil hfs (he.1.resolve_left (by decide)))
      (solidFields_fields href he.2 hfs)
  | ⟨.lengthArray, _, _, children⟩, t, he, h => by
    rw [Expr.Filled] at he
    obtain ⟨fs, hfs, rfl⟩ := exists_of_map_eq_ok h
    rw [Ty.Solid]
    exact solid_combine (fields_ne_nil hfs (he.1.resolve_left (by decide)))
      (solidFields_fields href he.2 hfs)
  | ⟨.sizeArray, _, _, children⟩, t, he, h => by
    rw [Expr.Filled] at he
    obtain ⟨fs, hfs, rfl⟩ := exists_of_map_eq_ok h
    rw [Ty.Solid]
    exact solid_combine (fields_ne_nil hfs (he.1.resolve_left (by decide)))
      (solidFields_fields href he.2 hfs)
  | ⟨.alternation, _, _, children⟩, t, he, h => by
    obtain ⟨ts, -, rfl⟩ := exists_of_map_eq_ok h
    rw [Ty.Solid]
    trivial

theorem solidFields_fields {ref : String → Ty} (href : ∀ name, (ref name).Solid)
    {owner : String} :
    ∀ {es : List Expr} {seen : List String} {index : Nat} {fs : List (Field Ty)},
      Expr.FilledAll es → fields ref owner seen index es = .ok fs → Ty.SolidFields fs
  | [], seen, index, fs, _, h => by
    cases h
    rw [Ty.SolidFields]
    trivial
  | e :: es, seen, index, fs, hes, h => by
    rw [Expr.FilledAll] at hes
    obtain ⟨t, rest, ht, hrest, rfl⟩ := fields_cons_cases h
    rw [Ty.SolidFields]
    exact ⟨solid_type href hes.1 ht, solidFields_fields href hes.2 hrest⟩

end

/-- **Leaving out repetitions keeps the declarations**: it neither loses one nor adds any. -/
theorem mem_distinctFrom {kept ds out : List Decl} (h : distinctFrom kept ds = .ok out)
    {d : Decl} : d ∈ out ↔ d ∈ kept ∨ d ∈ ds := by
  fun_induction distinctFrom kept ds with
  | case1 kept =>
    cases h
    simp
  | case2 => cases h
  | case3 kept d' ds _ first hfirst hexpr ih =>
    -- what is left out is there already
    have hname : first.name = d'.name := by simpa using List.find?_some hfirst
    have hsame : first = d' := by
      obtain ⟨name, expr⟩ := first
      obtain ⟨name', expr'⟩ := d'
      simp only at hname hexpr
      rw [hname, hexpr]
    have hmem := List.mem_of_find?_eq_some hfirst
    rw [hsame] at hmem
    rw [ih h, List.mem_cons]
    constructor
    · rintro (hd | hd)
      · exact .inl hd
      · exact .inr (.inr hd)
    · rintro (hd | rfl | hd)
      · exact .inl hd
      · exact .inl hmem
      · exact .inr hd
  | case4 => cases h
  | case5 kept d' ds _ _ ih => rw [ih h, List.mem_cons, List.mem_cons, or_assoc, or_left_comm]

end Resolve

/-- Every declared type comes from a declaration that is kept, and all that are kept say what its
names refer to. -/
theorem Grammar.exists_distinct_of_resolve {g : Grammar} {s : Schema} (h : g.resolve = .ok s) :
    ∃ decls, g.distinct = .ok decls ∧ ∀ d ∈ s.decls, ∃ e ∈ decls, e.name = d.name ∧
      Resolve.type (Resolve.reference decls decls.length) e.name e.expr = .ok d.type := by
  obtain ⟨decls, hdecls, h⟩ := exists_of_bind_eq_ok h
  obtain ⟨types, htypes, h⟩ := exists_of_bind_eq_ok h
  cases h
  refine ⟨decls, hdecls, fun d hd => ?_⟩
  obtain ⟨e, he, hed⟩ := exists_of_mem_mapM_ok htypes d hd
  obtain ⟨t, ht, h⟩ := exists_of_bind_eq_ok hed
  cases h
  exact ⟨e, he, rfl, ht⟩

/-- Every declared type comes from a declaration of the grammar. -/
theorem Grammar.exists_decl_of_resolve {g : Grammar} {s : Schema} (h : g.resolve = .ok s)
    {d : TypeDecl} (hd : d ∈ s.decls) :
    ∃ decls, ∃ e ∈ g.decls, e.name = d.name ∧
      Resolve.type (Resolve.reference decls decls.length) e.name e.expr = .ok d.type := by
  obtain ⟨decls, hdecls, htypes⟩ := exists_distinct_of_resolve h
  obtain ⟨e, he, hname, ht⟩ := htypes d hd
  refine ⟨decls, e, ?_, hname, ht⟩
  exact ((Resolve.mem_distinctFrom hdecls).1 he).resolve_left List.not_mem_nil

/-! ## The program -/

/-- Compiling goes through only if reading, resolving and emitting do. -/
theorem compile_eq_ok {verifyCrc : Bool} {text : String} {compiled : Compiled}
    (h : compile verifyCrc text = .ok compiled) :
    Grammar.parse? text = some compiled.grammar ∧
      compiled.grammar.resolve = .ok compiled.schema ∧
      compiled.schema.emit verifyCrc = .ok compiled.program := by
  rw [compile] at h
  split at h
  · cases h
  · next g hg =>
    obtain ⟨s, hs, h⟩ := exists_of_bind_eq_ok h
    obtain ⟨p, hp, h⟩ := exists_of_bind_eq_ok h
    cases h
    exact ⟨hg, hs, hp⟩

/-- The converse: the three steps one after the other. -/
theorem compile_of_parse? {verifyCrc : Bool} {text : String} {compiled : Compiled}
    (hparse : Grammar.parse? text = some compiled.grammar)
    (hresolve : compiled.grammar.resolve = .ok compiled.schema)
    (hemit : compiled.schema.emit verifyCrc = .ok compiled.program) :
    compile verifyCrc text = .ok compiled := by
  rw [compile, hparse]
  show compileGrammar verifyCrc compiled.grammar = .ok compiled
  rw [compileGrammar, hresolve]
  show (do let program ← compiled.schema.emit verifyCrc; _) = _
  rw [hemit]
  rfl

/-- **No routine of a program compiled from text writes a struct without fields.** -/
theorem solid_of_compile {verifyCrc : Bool} {text : String} {compiled : Compiled}
    (h : compile verifyCrc text = .ok compiled) : compiled.program.Solid := by
  intro name r hr
  obtain ⟨hparse, hresolve, hemit⟩ := compile_eq_ok h
  obtain ⟨d, hd, rfl, hdr⟩ := compiled.schema.exists_decl_of_emit hemit hr
  obtain ⟨decls, e, he, -, ht⟩ := Grammar.exists_decl_of_resolve hresolve hd
  have hsolid : d.type.Solid :=
    Resolve.solid_type (Resolve.solid_reference decls _) (Grammar.filled_of_parse? hparse e he) ht
  rcases (TypeDecl.routine?_cases hdr).2 with ⟨q, -, hq, -⟩ | ⟨hop, -⟩
  · rw [hq, EncodeOp.Solid]
    trivial
  · exact Ty.solid_encodeOp hop hsolid

end WireGrammar
