import WireGrammar.Proofs.Grammar.Outcome

/-!
# Scalar declarations are inlined

A reference to a scalar declaration is replaced by what the declaration describes, so resolving an
expression may go on in another declaration.  It does not go on from there: a scalar declaration
holds a single leaf, and that leaf names a built-in type.  So resolving comes to an end on every
grammar, also where declarations refer to themselves or to each other, and leaves no reference to a
scalar declaration behind.

* `Resolve.step` — one step of resolving an expression, with `next` for the expressions it goes on
  to.
* `Resolve.Calls` — the expressions that a step goes on to; a step depends on no others
  (`Resolve.step_congr`).
* `Resolve.wellFounded_calls` — going on comes to an end.
* `Resolve.type_eq_step`, `Resolve.eq_type_of_step` — the types of expressions are worked out in
  such steps, and nothing else is.
* `Ty.names` — every name that a type refers to, also inside alternations.
* `Grammar.resolve_inlines_scalars` — both for the grammars that resolve.
-/

set_option autoImplicit false
namespace WireGrammar
namespace Resolve

/-! ## Steps -/

/-- What a name refers to: a scalar declaration is gone on to, any other stays a name. -/
def stepReference (decls : List Decl) (next : Expr → Except CompileError Ty) (name : String) :
    Except CompileError Ty :=
  match Primitive.ofName? name with
  | some p => .ok (.scalar p)
  | none =>
    match decls.find? (·.name == name) with
    | some d => if d.expr.isScalar then next d.expr else .ok (.named name)
    | none => .ok (.named name)

/-- The fields of a struct, the first at position `index`; the names in `seen` are taken. -/
def stepFields (next : Expr → Except CompileError Ty) (owner : String) (seen : List String)
    (index : Nat) : List Expr → Except CompileError (List (Field Ty))
  | [] => .ok []
  | e :: es => do
    let name := fieldName e index
    if seen.contains name then throw (.duplicateField owner name)
    let t ← next e
    let fs ← stepFields next owner (name :: seen) (index + 1) es
    return ⟨name, t⟩ :: fs

/-- A single child stands for itself, any other number of children makes a struct. -/
def stepSequence (next : Expr → Except CompileError Ty) (owner : String) :
    List Expr → Except CompileError Ty
  | [only] => next only
  | children => .struct <$> stepFields next owner [] 0 children

/-- One step of resolving an expression of the declaration `owner`; `next` resolves the expressions
that it goes on to. -/
def step (decls : List Decl) (next : Expr → Except CompileError Ty) (owner : String) (e : Expr) :
    Except CompileError Ty :=
  match e.kind with
  | .leaf => stepReference decls next (e.target.getD "")
  | .sequence => stepSequence next owner e.children
  | .lengthArray => (.array · .length) <$> stepSequence next owner e.children
  | .sizeArray => (.array · .size) <$> stepSequence next owner e.children
  | .alternation => .polymorphic <$> e.children.mapM next

/-- Resolving the first expression goes on to the second: a child of a node, or the scalar
declaration that a leaf refers to. -/
inductive Calls (decls : List Decl) : Expr → Expr → Prop
  | child {e c : Expr} (hkind : e.kind ≠ .leaf) (hc : c ∈ e.children) : Calls decls e c
  | inline {e : Expr} {d : Decl} (hkind : e.kind = .leaf)
      (hname : Primitive.ofName? (e.target.getD "") = none)
      (hd : decls.find? (·.name == e.target.getD "") = some d) (hscalar : d.expr.isScalar) :
      Calls decls e d.expr

section Congruence

variable {decls : List Decl} {next next' : Expr → Except CompileError Ty} {owner : String}

theorem stepReference_congr {name : String}
    (h : ∀ d, Primitive.ofName? name = none → decls.find? (·.name == name) = some d →
      d.expr.isScalar → next d.expr = next' d.expr) :
    stepReference decls next name = stepReference decls next' name := by
  rw [stepReference, stepReference]
  split
  · rfl
  · next hname =>
    split
    · next d hd =>
      by_cases hscalar : d.expr.isScalar
      · rw [if_pos hscalar, if_pos hscalar, h d hname hd hscalar]
      · rw [if_neg hscalar, if_neg hscalar]
    · rfl

theorem stepFields_congr {es : List Expr} (h : ∀ e ∈ es, next e = next' e) (seen : List String)
    (index : Nat) :
    stepFields next owner seen index es = stepFields next' owner seen index es := by
  induction es generalizing seen index with
  | nil => rfl
  | cons e es ih =>
    obtain ⟨he, hes⟩ := List.forall_mem_cons.1 h
    rw [stepFields, stepFields, he, ih hes]

theorem stepSequence_congr {es : List Expr} (h : ∀ e ∈ es, next e = next' e) :
    stepSequence next owner es = stepSequence next' owner es := by
  rw [stepSequence.eq_def, stepSequence.eq_def]
  split
  · next only => exact h only (List.mem_singleton_self only)
  · rw [stepFields_congr h]

theorem mapM_next_congr {es : List Expr} (h : ∀ e ∈ es, next e = next' e) :
    es.mapM next = es.mapM next' := by
  induction es with
  | nil => rfl
  | cons e es ih =>
    obtain ⟨he, hes⟩ := List.forall_mem_cons.1 h
    rw [List.mapM_cons, List.mapM_cons, he, ih hes]

/-- **A step depends on nothing but the expressions that it goes on to.** -/
theorem step_congr {e : Expr} (h : ∀ e', Calls decls e e' → next e' = next' e') :
    step decls next owner e = step decls next' owner e := by
  have hchildren : e.kind ≠ .leaf → ∀ c ∈ e.children, next c = next' c :=
    fun hkind c hc => h c (.child hkind hc)
  rw [step, step]
  split
  · next hkind =>
    exact stepReference_congr fun d hname hd hscalar => h d.expr (.inline hkind hname hd hscalar)
  · next hkind => rw [stepSequence_congr (hchildren (by simp [hkind]))]
  · next hkind => rw [stepSequence_congr (hchildren (by simp [hkind]))]
  · next hkind => rw [stepSequence_congr (hchildren (by simp [hkind]))]
  · next hkind => rw [mapM_next_congr (hchildren (by simp [hkind]))]

end Congruence

/-! ## Scalar declarations -/

/-- A scalar expression holds one leaf, which names a built-in type. -/
theorem exists_of_scalar? {e : Expr} {p : Primitive} (h : e.scalar? = some p) :
    ∃ only name, e.children = [only] ∧ only.kind = .leaf ∧ only.target = some name ∧
      Primitive.ofName? name = some p := by
  rw [Expr.scalar?] at h
  split at h
  · next only hchildren =>
    split at h
    · next hkind =>
      obtain ⟨name, htarget, hname⟩ := Option.bind_eq_some_iff.1 h
      exact ⟨only, name, hchildren, hkind, htarget, hname⟩
    · cases h
  · cases h

/-- No declaration is a leaf with children. -/
def BareRoots (decls : List Decl) : Prop :=
  ∀ d ∈ decls, d.expr.kind = .leaf → d.expr.children = []

variable {decls : List Decl}

/-- A scalar declaration is not a leaf itself. -/
theorem BareRoots.kind_ne_leaf (hroots : BareRoots decls) {d : Decl} {p : Primitive}
    (hd : d ∈ decls) (hp : d.expr.scalar? = some p) : d.expr.kind ≠ .leaf := by
  intro hkind
  obtain ⟨only, _, hchildren, -⟩ := exists_of_scalar? hp
  rw [hroots d hd hkind] at hchildren
  exact List.cons_ne_nil _ _ hchildren.symm

/-! ## Going on comes to an end -/

/-- A leaf that names a built-in type goes on to nothing. -/
theorem not_calls_of_ofName? {e e' : Expr} {p : Primitive} (hkind : e.kind = .leaf)
    (hp : Primitive.ofName? (e.target.getD "") = some p) : ¬ Calls decls e e' := by
  intro hcall
  cases hcall with
  | child hne _ => exact hne hkind
  | inline _ hname _ _ => exact Option.some_ne_none p (hp.symm.trans hname)

/-- **Inlining goes one declaration deep**: a scalar declaration goes on to its leaf, and its leaf
to nothing. -/
theorem acc_of_isScalar (hroots : BareRoots decls) {d : Decl} (hd : d ∈ decls)
    (hscalar : d.expr.isScalar) : Acc (fun e' e => Calls decls e e') d.expr := by
  obtain ⟨p, hp⟩ := Option.isSome_iff_exists.1 hscalar
  obtain ⟨only, name, hchildren, hleaf, htarget, hname⟩ := exists_of_scalar? hp
  have honly : Acc (fun e' e => Calls decls e e') only := by
    refine ⟨_, fun e hcall => absurd hcall (not_calls_of_ofName? (p := p) hleaf ?_)⟩
    rw [htarget]
    exact hname
  refine ⟨_, fun e hcall => ?_⟩
  cases hcall with
  | child _ hc =>
    rw [hchildren, List.mem_singleton] at hc
    rwa [hc]
  | inline hkind _ _ _ => exact absurd hkind (hroots.kind_ne_leaf hd hp)

mutual

theorem acc_calls (hroots : BareRoots decls) :
    ∀ e : Expr, Acc (fun e' e => Calls decls e e') e
  | ⟨kind, label, target, children⟩ => by
    refine ⟨_, fun e' hcall => ?_⟩
    cases hcall with
    | child _ hc => exact acc_calls_of_mem hroots children e' hc
    | inline _ _ hd hscalar => exact acc_of_isScalar hroots (List.mem_of_find?_eq_some hd) hscalar

theorem acc_calls_of_mem (hroots : BareRoots decls) :
    ∀ es : List Expr, ∀ e ∈ es, Acc (fun e' e => Calls decls e e') e
  | [] => nofun
  | e :: es => List.forall_mem_cons.2 ⟨acc_calls hroots e, acc_calls_of_mem hroots es⟩

end

/-- **Going on comes to an end**, from every expression and however declarations refer to each
other. -/
theorem wellFounded_calls (hroots : BareRoots decls) :
    WellFounded (fun e' e => Calls decls e e') :=
  ⟨acc_calls hroots⟩

/-! ## The resolver takes such steps -/

theorem reference_of_ofName? {name : String} {p : Primitive}
    (h : Primitive.ofName? name = some p) (fuel : Nat) :
    reference decls fuel name = .scalar p := by
  rw [reference, h]

theorem fields_eq_stepFields (ref : String → Ty) (owner : String) (seen : List String)
    (index : Nat) (es : List Expr) :
    fields ref owner seen index es = stepFields (type ref owner) owner seen index es := by
  induction es generalizing seen index with
  | nil => rw [fields, stepFields]
  | cons e es ih => rw [fields, stepFields, ih]

theorem length_of_stepFields {next : Expr → Except CompileError Ty} {owner : String}
    {seen : List String} {index : Nat} {es : List Expr} {fs : List (Field Ty)}
    (h : stepFields next owner seen index es = .ok fs) : fs.length = es.length := by
  induction es generalizing seen index fs with
  | nil =>
    cases h
    rfl
  | cons e es ih =>
    rw [stepFields] at h
    split at h
    · cases h
    · obtain ⟨t, -, h⟩ := exists_of_bind_eq_ok h
      obtain ⟨rest, hrest, h⟩ := exists_of_bind_eq_ok h
      cases h
      rw [List.length_cons, List.length_cons, ih hrest]

/-- What the fields are combined to is what the number of children says. -/
theorem combine_fields (ref : String → Ty) (owner : String) (children : List Expr) :
    combine <$> fields ref owner [] 0 children =
      stepSequence (type ref owner) owner children := by
  rw [fields_eq_stepFields, stepSequence.eq_def]
  split
  · next only =>
    rw [stepFields]
    cases type ref owner only with
    | error err => rfl
    | ok t => rfl
  · next hmany =>
    cases hfs : stepFields (type ref owner) owner [] 0 children with
    | error err => rfl
    | ok fs =>
      have hlength := length_of_stepFields hfs
      refine congrArg Except.ok ?_
      rw [combine.eq_def]
      split
      · obtain ⟨only, hone⟩ := List.length_eq_one_iff.1 hlength.symm
        exact absurd hone (hmany only)
      · rfl

theorem types_eq_mapM (ref : String → Ty) (owner : String) (es : List Expr) :
    types ref owner es = es.mapM (type ref owner) := by
  induction es with
  | nil => rfl
  | cons e es ih => rw [types, List.mapM_cons, ih]

theorem type_leaf (ref : String → Ty) (owner : String) {e : Expr} (hkind : e.kind = .leaf) :
    type ref owner e = .ok (ref (e.target.getD "")) := by
  obtain ⟨kind, label, target, children⟩ := e
  subst hkind
  rw [type]

/-- A node that is not a leaf is resolved in such a step, whatever names refer to. -/
theorem type_node (decls : List Decl) (ref : String → Ty) (owner : String) {e : Expr}
    (hkind : e.kind ≠ .leaf) : type ref owner e = step decls (type ref owner) owner e := by
  obtain ⟨kind, label, target, children⟩ := e
  have hcombine := combine_fields ref owner children
  cases kind with
  | leaf => exact absurd rfl hkind
  | sequence => rwa [type, step]
  | lengthArray =>
    show _ = (Ty.array · .length) <$> stepSequence (type ref owner) owner children
    rw [type, ← hcombine, Functor.map_map]
  | sizeArray =>
    show _ = (Ty.array · .size) <$> stepSequence (type ref owner) owner children
    rw [type, ← hcombine, Functor.map_map]
  | alternation => rw [type, step, types_eq_mapM]

/-- A scalar declaration describes what a reference to it is replaced by. -/
theorem type_of_scalar? (hroots : BareRoots decls) {name : String} {d : Decl} {p : Primitive}
    (hname : Primitive.ofName? name = none) (hd : decls.find? (·.name == name) = some d)
    (hp : d.expr.scalar? = some p) (fuel : Nat) (owner : String) :
    type (reference decls fuel) owner d.expr = .ok (reference decls fuel name) := by
  have hkind := hroots.kind_ne_leaf (List.mem_of_find?_eq_some hd) hp
  obtain ⟨only, target, hchildren, hleaf, htarget, htype⟩ := exists_of_scalar? hp
  have honly : type (reference decls fuel) owner only = .ok (.scalar p) := by
    rw [type_leaf _ _ hleaf, htarget, Option.getD_some, reference_of_ofName? htype]
  rw [type_node decls _ _ hkind, step, hchildren, stepSequence, honly, reference.eq_def]
  simp only [hname, hd, hp]
  cases hk : d.expr.kind with
  | leaf => exact absurd hk hkind
  | sequence => rfl
  | lengthArray => rfl
  | sizeArray => rfl
  | alternation =>
    simp only [List.mapM_cons, honly]
    rfl

/-- A reference is resolved in such a step. -/
theorem reference_eq_step (hroots : BareRoots decls) (fuel : Nat) (owner name : String) :
    .ok (reference decls fuel name) =
      stepReference decls (type (reference decls fuel) owner) name := by
  rw [stepReference]
  split
  · next p hp => rw [reference_of_ofName? hp]
  · next hname =>
    split
    · next d hd =>
      cases hp : d.expr.scalar? with
      | none =>
        rw [if_neg (by simp [Expr.isScalar, hp]), reference.eq_def]
        simp only [hname, hd, hp]
      | some p =>
        rw [if_pos (by simp [Expr.isScalar, hp]), type_of_scalar? hroots hname hd hp]
    · next hd =>
      rw [reference.eq_def]
      simp only [hname, hd]

/-- **The type of an expression is worked out in such steps**, and how many references may be
followed plays no part. -/
theorem type_eq_step (hroots : BareRoots decls) (fuel : Nat) (owner : String) (e : Expr) :
    type (reference decls fuel) owner e =
      step decls (type (reference decls fuel) owner) owner e := by
  by_cases hkind : e.kind = .leaf
  · rw [type_leaf _ _ hkind, reference_eq_step hroots fuel owner, step, hkind]
  · exact type_node decls _ _ hkind

/-- **Nothing else is worked out in such steps.** -/
theorem eq_type_of_step (hroots : BareRoots decls) {f : Expr → Except CompileError Ty}
    {owner : String} (hf : ∀ e, f e = step decls f owner e) (fuel : Nat) :
    f = type (reference decls fuel) owner := by
  funext e
  induction e using (wellFounded_calls hroots).induction with
  | _ e ih => rw [hf e, type_eq_step hroots fuel owner e, step_congr ih]

end Resolve

/-! ## What is left of references -/

mutual

/-- The names that a type refers to, from left to right and also inside alternations. -/
def Ty.names : Ty → List String
  | .scalar _ => []
  | .named name => [name]
  | .struct fields => namesOfFields fields
  | .array element _ => element.names
  | .polymorphic variants => namesOfAll variants

/-- The names that the types of fields refer to. -/
def Ty.namesOfFields : List (Field Ty) → List String
  | [] => []
  | ⟨_, t⟩ :: fs => t.names ++ namesOfFields fs

/-- The names that several types refer to. -/
def Ty.namesOfAll : List Ty → List String
  | [] => []
  | t :: ts => t.names ++ namesOfAll ts

end

theorem Ty.namesOfFields_eq (fs : List (Field Ty)) :
    namesOfFields fs = namesOfAll (fs.map (·.val)) := by
  induction fs with
  | nil => rfl
  | cons f fs ih => rw [namesOfFields, List.map_cons, namesOfAll, ih]

mutual

/-- **A type refers to what its leaves refer to.** -/
theorem Expr.Describes.exists_of_mem_names {ref : String → Ty} {name : String} :
    ∀ {e : Expr} {t : Ty}, Describes ref e t → name ∈ t.names →
      ∃ target, name ∈ (ref target).names
  | _, _, .leaf, hname => ⟨_, hname⟩
  | _, _, .single h, hname => h.exists_of_mem_names hname
  | _, _, .struct _ _ _ h, hname => by
    rw [Ty.names, Ty.namesOfFields_eq] at hname
    exact h.exists_of_mem_names hname
  | _, _, .lengthArray h, hname => by
    rw [Ty.names] at hname
    exact h.exists_of_mem_names hname
  | _, _, .sizeArray h, hname => by
    rw [Ty.names] at hname
    exact h.exists_of_mem_names hname
  | _, _, .alternation h, hname => by
    rw [Ty.names] at hname
    exact h.exists_of_mem_names hname

theorem Expr.DescribesAll.exists_of_mem_names {ref : String → Ty} {name : String} :
    ∀ {es : List Expr} {ts : List Ty}, DescribesAll ref es ts → name ∈ Ty.namesOfAll ts →
      ∃ target, name ∈ (ref target).names
  | _, _, .nil, hname => absurd hname List.not_mem_nil
  | _, _, .cons h hs, hname => by
    rw [Ty.namesOfAll] at hname
    rcases List.mem_append.1 hname with hname | hname
    · exact h.exists_of_mem_names hname
    · exact hs.exists_of_mem_names hname

end

theorem Resolve.describes_of_type {ref : String → Ty} {owner : String} {e : Expr} {t : Ty}
    (h : type ref owner e = .ok t) : e.Describes ref t := by
  have houtcome := type_outcome ref owner e
  rw [h] at houtcome
  cases houtcome with
  | ok hdesc => exact hdesc

/-- **A name that a reference leaves behind** is that of no built-in type and of no scalar
declaration. -/
theorem Resolve.of_mem_names_reference {decls : List Decl} (hroots : BareRoots decls) {fuel : Nat}
    {target name : String} (h : name ∈ (reference decls fuel target).names) :
    Primitive.ofName? name = none ∧
      ∀ d, decls.find? (·.name == name) = some d → d.expr.isScalar = false := by
  cases hname : Primitive.ofName? target with
  | some p =>
    rw [reference_of_ofName? hname, Ty.names] at h
    exact absurd h List.not_mem_nil
  | none =>
    rw [reference.eq_def] at h
    cases hd : decls.find? (·.name == target) with
    | none =>
      simp only [hname, hd, Ty.names, List.mem_singleton] at h
      rw [h, hd]
      refine ⟨hname, fun d' hd' => ?_⟩
      cases hd'
    | some d =>
      cases hp : d.expr.scalar? with
      | none =>
        simp only [hname, hd, hp, Ty.names, List.mem_singleton] at h
        rw [h, hd]
        refine ⟨hname, fun d' hd' => ?_⟩
        cases hd'
        rw [Expr.isScalar, hp]
        rfl
      | some p =>
        -- what a scalar declaration is replaced by has no names in it
        have hkind := hroots.kind_ne_leaf (List.mem_of_find?_eq_some hd) hp
        simp only [hname, hd, hp] at h
        cases hk : d.expr.kind with
        | leaf => exact absurd hk hkind
        | _ =>
          simp only [hk, Ty.names, Ty.namesOfAll] at h
          exact absurd h List.not_mem_nil

/-! ## Grammars -/

namespace Grammar

variable {g : Grammar}

theorem bareRoots_of_distinct {decls : List Decl} (h : g.distinct = .ok decls)
    (hbare : ∀ d ∈ g.decls, Expr.BareLeaves d.expr.nodes) : Resolve.BareRoots decls := by
  intro d hd
  have hleaves := hbare d ((mem_of_distinct h).1 hd)
  obtain ⟨name, kind, label, target, children⟩ := d
  rw [Expr.nodes] at hleaves
  exact hleaves _ List.mem_cons_self

/-- **Scalar declarations are inlined, and inlining ends.**  For every grammar whose leaves have no
children, among the declarations that are kept: resolving an expression step by step comes to an
end, a step depends on the expressions that it goes on to only, and so there is exactly one function
that resolves all expressions in such steps, the one that makes the schema.  Every name that a type
of the schema still refers to, at any depth, is neither that of a built-in type nor that of a scalar
declaration. -/
theorem resolve_inlines_scalars
    (hbare : ∀ d ∈ g.decls, ∀ n ∈ d.expr.nodes, n.kind = .leaf → n.children = []) :
    (∀ decls, g.distinct = .ok decls →
      WellFounded (fun e' e => Resolve.Calls decls e e') ∧
      (∀ owner e next next', (∀ e', Resolve.Calls decls e e' → next e' = next' e') →
        Resolve.step decls next owner e = Resolve.step decls next' owner e) ∧
      ∀ owner f, (∀ e, f e = Resolve.step decls f owner e) ↔
        f = Resolve.type (Resolve.reference decls decls.length) owner) ∧
    (∀ s, g.resolve = .ok s → ∀ t ∈ s.decls, ∀ name ∈ t.type.names,
      (∀ p : Primitive, p.name ≠ name) ∧
      ∀ d ∈ g.decls, d.name = name → d.expr.isScalar = false) := by
  constructor
  · intro decls hdecls
    have hroots := bareRoots_of_distinct hdecls hbare
    refine ⟨Resolve.wellFounded_calls hroots, fun _ _ _ _ h => Resolve.step_congr h, ?_⟩
    intro owner f
    constructor
    · exact fun hf => Resolve.eq_type_of_step hroots hf decls.length
    · rintro rfl e
      exact Resolve.type_eq_step hroots decls.length owner e
  · intro s hs t ht name hname
    obtain ⟨decls, hdecls, htypes⟩ := exists_distinct_of_resolve hs
    obtain ⟨d, -, -, htype⟩ := htypes t ht
    obtain ⟨target, htarget⟩ := (Resolve.describes_of_type htype).exists_of_mem_names hname
    have hroots := bareRoots_of_distinct hdecls hbare
    obtain ⟨hprimitive, hscalar⟩ := Resolve.of_mem_names_reference hroots htarget
    constructor
    · rintro p rfl
      rw [Primitive.ofName?_name] at hprimitive
      cases hprimitive
    · rintro d hd rfl
      refine hscalar d ((find?_eq_some_iff_of_nodup (nodup_of_distinct hdecls)).2 ⟨?_, rfl⟩)
      exact (mem_of_distinct hdecls).2 hd

/-! ## Declarations that go round in circles -/

namespace Rounds

def mark : Decl :=
  ⟨"Mark", .node .sequence [.leaf "uint16"]⟩

/-- A declaration of itself, two of each other, and a scalar one that others refer to. -/
def grammar : Grammar where
  decls := [
    ⟨"Self", .node .sequence [.leaf "Self"]⟩,
    ⟨"There", .node .sequence [.leaf "Back"]⟩,
    ⟨"Back", .node .sequence [.leaf "There"]⟩,
    mark,
    ⟨"Either", .node .alternation [.node .sequence [.leaf "Mark"],
      .node .sequence [.leaf "Self", .node .sizeArray [.leaf "Mark"], .leaf "Elsewhere"]]⟩]

def schema : Schema where
  decls := [
    ⟨"Self", .named "Self"⟩,
    ⟨"There", .named "Back"⟩,
    ⟨"Back", .named "There"⟩,
    ⟨"Mark", .scalar (.int .uint16)⟩,
    ⟨"Either", .polymorphic [.scalar (.int .uint16),
      .struct [⟨"Self", .named "Self"⟩, ⟨"Marks", .array (.scalar (.int .uint16)) .size⟩,
        ⟨"Elsewhere", .named "Elsewhere"⟩]]⟩]

theorem distinct_grammar : grammar.distinct = .ok grammar.decls := by cbv

theorem resolve_grammar : grammar.resolve = .ok schema := by cbv

end Rounds

/-- Circles are resolved in finitely many steps, and no reference to `Mark` is left. -/
theorem resolve_inlines_scalars_rounds :
    WellFounded (fun e' e => Resolve.Calls Rounds.grammar.decls e e') ∧
    Rounds.grammar.resolve = .ok Rounds.schema ∧
    "Mark" ∉ Rounds.schema.decls.flatMap (·.type.names) := by
  have h := resolve_inlines_scalars (g := Rounds.grammar) (by decide)
  refine ⟨(h.1 _ Rounds.distinct_grammar).1, Rounds.resolve_grammar, fun hmem => ?_⟩
  obtain ⟨t, ht, hname⟩ := List.mem_flatMap.1 hmem
  have hmark := (h.2 _ Rounds.resolve_grammar t ht "Mark" hname).2 Rounds.mark (by decide) rfl
  cases hmark

end Grammar
end WireGrammar
