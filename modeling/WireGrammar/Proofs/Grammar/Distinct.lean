import WireGrammar.Proofs.Grammar.Filled

/-!
# The fields of a struct have different names

A struct value is a map from names, so two fields of one name would share one entry.  Resolving a
grammar refuses such structs, and nothing later brings them back.

* `Ty.Distinct`, `EncodeOp.Distinct` — in every struct the fields have different names; the slot of
  a framed struct counts as one of them.  Emission keeps this (`Ty.distinct_encodeOp`).
* `Resolve.distinct_type` — an expression that can be resolved describes such a type.
* `distinct_of_compile` — so in no struct that a program compiled from text writes do two fields
  share a name.
-/

set_option autoImplicit false
namespace WireGrammar

mutual

/-- In every struct of the type the fields have different names. -/
def Ty.Distinct : Ty → Prop
  | .scalar _ | .named _ | .polymorphic _ => True
  | .struct fields => (fields.map (·.name)).Nodup ∧ DistinctFields fields
  | .array element _ => element.Distinct

/-- In every struct in the types of the fields the fields have different names. -/
def Ty.DistinctFields : List (Field Ty) → Prop
  | [] => True
  | ⟨_, t⟩ :: fs => t.Distinct ∧ DistinctFields fs

end

mutual

/-- In every struct that the operation writes the fields have different names. -/
def EncodeOp.Distinct : EncodeOp → Prop
  | .write _ | .writeAlias .. | .call _ | .unsupported _ => True
  | .struct ops => (ops.map (·.name)).Nodup ∧ DistinctFields ops
  | .framed framing _ body =>
    (framing.fieldName :: body.map (·.name)).Nodup ∧ DistinctFields body
  | .lengthArray element | .sizeArray element => element.Distinct

/-- In every struct that the operations of fields write the fields have different names. -/
def EncodeOp.DistinctFields : List (Field EncodeOp) → Prop
  | [] => True
  | ⟨_, op⟩ :: ops => op.Distinct ∧ DistinctFields ops

end

/-- In every struct that a routine writes the fields have different names. -/
def Program.Distinct (p : Program) : Prop :=
  ∀ name r, p.routine? name = some r → r.encode.Distinct

/-! ## Emission -/

theorem EncodeOp.distinctFields_tail {ops : List (Field EncodeOp)} (h : DistinctFields ops) :
    DistinctFields ops.tail := by
  cases ops with
  | nil => exact h
  | cons op ops =>
    rw [DistinctFields] at h
    exact h.2

/-- Emission keeps the names of fields. -/
theorem Ty.map_name_encodeFields {owner : String} {fields : List (Field Ty)}
    {ops : List (Field EncodeOp)} (h : encodeFields owner fields = .ok ops) :
    ops.map (·.name) = fields.map (·.name) := by
  induction fields generalizing ops with
  | nil =>
    cases h
    rfl
  | cons f fs ih =>
    rw [encodeFields] at h
    obtain ⟨op, -, h⟩ := exists_of_bind_eq_ok h
    obtain ⟨rest, hrest, h⟩ := exists_of_bind_eq_ok h
    cases h
    rw [List.map_cons, List.map_cons, ih hrest]

/-- A framed struct begins with the field that asks for the framing. -/
theorem map_name_of_framing? {owner : String} {fields : List (Field Ty)} {framing : Framing}
    {signed : Bool} (h : framing? owner fields = .ok (some (framing, signed))) :
    fields.map (·.name) = framing.fieldName :: fields.tail.map (·.name) := by
  cases fields with
  | nil => cases h
  | cons f fs =>
    rw [framing?] at h
    split at h
    · cases h
    · next found hfound =>
      split at h
      · cases h
        rw [List.map_cons, List.tail_cons, Framing.fieldName_of_ofName? hfound]
      · cases h

mutual

theorem Ty.distinct_encodeOp {owner : String} :
    ∀ {t : Ty} {op : EncodeOp}, t.encodeOp owner = .ok op → t.Distinct → op.Distinct
  | .scalar p, op, h, _ => by
    cases h
    rw [EncodeOp.Distinct]
    trivial
  | .named n, op, h, _ => by
    cases h
    rw [EncodeOp.Distinct]
    trivial
  | .struct fields, op, h, ht => by
    rw [Distinct] at ht
    obtain ⟨ops, hops, ⟨-, rfl⟩ | ⟨framing, signed, hframing, rfl⟩⟩ := encodeOp_struct_cases h
    · rw [EncodeOp.Distinct, map_name_encodeFields hops]
      exact ⟨ht.1, distinctFields_encodeFields hops ht.2⟩
    · have hnames : framing.fieldName :: ops.tail.map (·.name) = fields.map (·.name) := by
        rw [List.map_tail, map_name_encodeFields hops, ← List.map_tail,
          map_name_of_framing? hframing]
      rw [EncodeOp.Distinct, hnames]
      exact ⟨ht.1, EncodeOp.distinctFields_tail (distinctFields_encodeFields hops ht.2)⟩
  | .array element .length, op, h, ht => by
    rw [encodeOp] at h
    obtain ⟨e, he, rfl⟩ := exists_of_map_eq_ok h
    rw [EncodeOp.Distinct]
    exact distinct_encodeOp he (by rwa [Distinct] at ht)
  | .array element .size, op, h, ht => by
    rw [encodeOp] at h
    obtain ⟨e, he, rfl⟩ := exists_of_map_eq_ok h
    rw [EncodeOp.Distinct]
    exact distinct_encodeOp he (by rwa [Distinct] at ht)
  | .polymorphic variants, op, h, _ => by
    cases h
    rw [EncodeOp.Distinct]
    trivial

theorem Ty.distinctFields_encodeFields {owner : String} :
    ∀ {fields : List (Field Ty)} {ops : List (Field EncodeOp)},
      encodeFields owner fields = .ok ops → DistinctFields fields → EncodeOp.DistinctFields ops
  | [], ops, h, _ => by
    cases h
    rw [EncodeOp.DistinctFields]
    trivial
  | ⟨_, t⟩ :: fs, ops, h, ht => by
    rw [encodeFields] at h
    obtain ⟨op, hop, h⟩ := exists_of_bind_eq_ok h
    obtain ⟨rest, hrest, h⟩ := exists_of_bind_eq_ok h
    cases h
    rw [DistinctFields] at ht
    rw [EncodeOp.DistinctFields]
    exact ⟨distinct_encodeOp hop ht.1, distinctFields_encodeFields hrest ht.2⟩

end

/-! ## Resolution -/

namespace Resolve

/-- A name never refers to a struct. -/
theorem distinct_reference (decls : List Decl) :
    ∀ (fuel : Nat) (name : String), (reference decls fuel name).Distinct := by
  intro fuel name
  fun_induction reference decls fuel name with
  | case9 => assumption
  | _ => simp only [Ty.Distinct]

theorem distinct_combine {fs : List (Field Ty)} (hnames : (fs.map (·.name)).Nodup)
    (h : Ty.DistinctFields fs) : (combine fs).Distinct := by
  rw [combine.eq_def]
  split
  · rw [Ty.DistinctFields] at h
    exact h.1
  · rw [Ty.Distinct]
    exact ⟨hnames, h⟩

/-- **Fields that can be resolved have different names**, and none of the names that were taken
before. -/
theorem nodup_fields {ref : String → Ty} {owner : String} :
    ∀ {es : List Expr} {seen : List String} {index : Nat} {fs : List (Field Ty)},
      fields ref owner seen index es = .ok fs →
      (fs.map (·.name)).Nodup ∧ ∀ name ∈ fs.map (·.name), name ∉ seen
  | [], seen, index, fs, h => by
    cases h
    exact ⟨List.nodup_nil, fun _ hn => absurd hn List.not_mem_nil⟩
  | e :: es, seen, index, fs, h => by
    have hnew : fieldName e index ∉ seen := by
      intro hmem
      rw [fields, if_pos (List.contains_iff_mem.2 hmem)] at h
      cases h
    obtain ⟨t, rest, -, hrest, rfl⟩ := fields_cons_cases h
    obtain ⟨hnodup, hfresh⟩ := nodup_fields hrest
    rw [List.map_cons]
    refine ⟨List.nodup_cons.2 ⟨fun hmem => hfresh _ hmem List.mem_cons_self, hnodup⟩, ?_⟩
    intro name hname
    rcases List.mem_cons.1 hname with rfl | hname
    · exact hnew
    · exact fun hseen => hfresh name hname (List.mem_cons_of_mem _ hseen)

mutual

/-- **An expression that can be resolved describes a distinct type**, if names refer to such
types. -/
theorem distinct_type {ref : String → Ty} (href : ∀ name, (ref name).Distinct) {owner : String} :
    ∀ {e : Expr} {t : Ty}, type ref owner e = .ok t → t.Distinct
  | ⟨.leaf, _, target, _⟩, t, h => by
    cases h
    exact href _
  | ⟨.sequence, _, _, children⟩, t, h => by
    obtain ⟨fs, hfs, rfl⟩ := exists_of_map_eq_ok h
    exact distinct_combine (nodup_fields hfs).1 (distinctFields_fields href hfs)
  | ⟨.lengthArray, _, _, children⟩, t, h => by
    obtain ⟨fs, hfs, rfl⟩ := exists_of_map_eq_ok h
    rw [Ty.Distinct]
    exact distinct_combine (nodup_fields hfs).1 (distinctFields_fields href hfs)
  | ⟨.sizeArray, _, _, children⟩, t, h => by
    obtain ⟨fs, hfs, rfl⟩ := exists_of_map_eq_ok h
    rw [Ty.Distinct]
    exact distinct_combine (nodup_fields hfs).1 (distinctFields_fields href hfs)
  | ⟨.alternation, _, _, children⟩, t, h => by
    obtain ⟨ts, -, rfl⟩ := exists_of_map_eq_ok h
    rw [Ty.Distinct]
    trivial

theorem distinctFields_fields {ref : String → Ty} (href : ∀ name, (ref name).Distinct)
    {owner : String} :
    ∀ {es : List Expr} {seen : List String} {index : Nat} {fs : List (Field Ty)},
      fields ref owner seen index es = .ok fs → Ty.DistinctFields fs
  | [], seen, index, fs, h => by
    cases h
    rw [Ty.DistinctFields]
    trivial
  | e :: es, seen, index, fs, h => by
    obtain ⟨t, rest, ht, hrest, rfl⟩ := fields_cons_cases h
    rw [Ty.DistinctFields]
    exact ⟨distinct_type href ht, distinctFields_fields href hrest⟩

end

end Resolve

/-- **In no struct that a program writes do two fields share a name**, if its schema comes from a
grammar. -/
theorem distinct_of_resolve {verifyCrc : Bool} {g : Grammar} {s : Schema} {p : Program}
    (hresolve : g.resolve = .ok s) (hemit : s.emit verifyCrc = .ok p) : p.Distinct := by
  intro name r hr
  obtain ⟨d, hd, rfl, hdr⟩ := s.exists_decl_of_emit hemit hr
  obtain ⟨decls, e, he, -, ht⟩ := Grammar.exists_decl_of_resolve hresolve hd
  have hdistinct : d.type.Distinct := Resolve.distinct_type (Resolve.distinct_reference decls _) ht
  rcases (TypeDecl.routine?_cases hdr).2 with ⟨q, -, hq, -⟩ | ⟨hop, -⟩
  · rw [hq, EncodeOp.Distinct]
    trivial
  · exact Ty.distinct_encodeOp hop hdistinct

theorem distinct_of_compile {verifyCrc : Bool} {text : String} {compiled : Compiled}
    (h : compile verifyCrc text = .ok compiled) : compiled.program.Distinct := by
  obtain ⟨-, hresolve, hemit⟩ := compile_eq_ok h
  exact distinct_of_resolve hresolve hemit

end WireGrammar
