import WireGrammar.Codec
import WireGrammar.Proofs.Routine.Emission

/-!
# References and calls

A routine calls exactly the names that its type refers to, in the same order.  So whether the calls
of a program all find a routine can be read off the schema: a reference is good if a declared type
of that name is not an alternation.

* `Ty.refs`, `Schema.refs` — the names that types refer to, from left to right.
* `Schema.Codes`, `Schema.Alternates` — a name is declared as a type with a routine, as an
  alternation.
* `Schema.calls_of_emit` — the calls of a program are the references of its schema.
* `Schema.isSome_routine?_iff`, `Schema.mem_skipped_iff` — which names have a routine, and which are
  listed as having none.
* `Codec.link_eq` — linking looks for the first call without a routine.
-/

set_option autoImplicit false
namespace WireGrammar

/-! ## Types -/

mutual

/-- The names that a type refers to, from left to right.  What stands in an alternation does not
count, since no routine ever enters one. -/
def Ty.refs : Ty → List String
  | .scalar _ | .polymorphic _ => []
  | .named name => [name]
  | .struct fields => refsOfFields fields
  | .array element _ => element.refs

/-- The names that the types of fields refer to. -/
def Ty.refsOfFields : List (Field Ty) → List String
  | [] => []
  | ⟨_, t⟩ :: fs => t.refs ++ refsOfFields fs

end

/-- The slot of a framed struct is an integer. -/
theorem exists_scalar_of_framing? {owner : String} {fields : List (Field Ty)} {framing : Framing}
    {signed : Bool} (h : framing? owner fields = .ok (some (framing, signed))) :
    ∃ name fs, fields = ⟨name, .scalar (.int (.word signed))⟩ :: fs := by
  cases fields with
  | nil => cases h
  | cons f fs =>
    obtain ⟨name, t⟩ := f
    rw [framing?] at h
    split at h
    · cases h
    · split at h
      · next ht =>
        cases h
        exact ⟨name, fs, by rw [show t = _ from ht]; rfl⟩
      · cases h

mutual

/-- **An operation calls what its type refers to**, in the same order. -/
theorem Ty.calls_encodeOp {owner : String} :
    ∀ {t : Ty} {op : EncodeOp}, t.encodeOp owner = .ok op → op.calls = t.refs
  | .scalar p, op, h => by
    cases h
    rw [EncodeOp.calls, refs]
  | .named name, op, h => by
    cases h
    rw [EncodeOp.calls, refs]
  | .struct fields, op, h => by
    rw [refs]
    obtain ⟨ops, hops, ⟨-, rfl⟩ | ⟨framing, signed, hframing, rfl⟩⟩ := encodeOp_struct_cases h
    · rw [EncodeOp.calls, callsOfFields_encodeFields hops]
    · -- the slot, which the framed struct leaves out, calls nothing
      obtain ⟨name, fs, rfl⟩ := exists_scalar_of_framing? hframing
      rw [encodeFields] at hops
      obtain ⟨slot, hslot, hops⟩ := exists_of_bind_eq_ok hops
      obtain ⟨body, hbody, hops⟩ := exists_of_bind_eq_ok hops
      cases hops
      rw [EncodeOp.calls, List.tail_cons, refsOfFields, refs, List.nil_append,
        callsOfFields_encodeFields hbody]
  | .array element .length, op, h => by
    rw [encodeOp] at h
    obtain ⟨e, he, rfl⟩ := exists_of_map_eq_ok h
    rw [EncodeOp.calls, refs, calls_encodeOp he]
  | .array element .size, op, h => by
    rw [encodeOp] at h
    obtain ⟨e, he, rfl⟩ := exists_of_map_eq_ok h
    rw [EncodeOp.calls, refs, calls_encodeOp he]
  | .polymorphic variants, op, h => by
    cases h
    rw [EncodeOp.calls, refs]

theorem Ty.callsOfFields_encodeFields {owner : String} :
    ∀ {fields : List (Field Ty)} {ops : List (Field EncodeOp)},
      encodeFields owner fields = .ok ops → EncodeOp.callsOfFields ops = refsOfFields fields
  | [], ops, h => by
    cases h
    rw [EncodeOp.callsOfFields, refsOfFields]
  | ⟨name, t⟩ :: fs, ops, h => by
    rw [encodeFields] at h
    obtain ⟨op, hop, h⟩ := exists_of_bind_eq_ok h
    obtain ⟨rest, hrest, h⟩ := exists_of_bind_eq_ok h
    cases h
    rw [EncodeOp.callsOfFields, refsOfFields, calls_encodeOp hop, callsOfFields_encodeFields hrest]

end

/-! ## Declarations -/

/-- The type is an alternation. -/
def Ty.IsAlternation (t : Ty) : Prop :=
  ∃ variants, t = .polymorphic variants

/-- Only an alternation has no routine. -/
theorem TypeDecl.isAlternation_of_routine? {verifyCrc : Bool} {d : TypeDecl}
    (h : d.routine? verifyCrc = .ok none) : d.type.IsAlternation :=
  Classical.byContradiction fun halt =>
    routine?_ne_none (fun variants ht => halt ⟨variants, ht⟩) verifyCrc h

/-- The routine of a declaration calls what its type refers to; an alternation has none. -/
theorem TypeDecl.calls_of_routine? {verifyCrc : Bool} {d : TypeDecl} {r : Routine}
    (h : d.routine? verifyCrc = .ok (some r)) :
    ¬ d.type.IsAlternation ∧ r.encode.calls = d.type.refs := by
  constructor
  · rintro ⟨variants, ht⟩
    rw [routine?, ht] at h
    cases h
  · rcases (routine?_cases h).2 with ⟨p, ht, he, -⟩ | ⟨he, -⟩
    · rw [ht, he, EncodeOp.calls, Ty.refs]
    · exact Ty.calls_encodeOp he

namespace Schema

/-- The names that the declared types refer to, in the order of the declarations. -/
def refs (s : Schema) : List String :=
  s.decls.flatMap (·.type.refs)

/-- The name is declared, and not as an alternation. -/
def Codes (s : Schema) (name : String) : Prop :=
  ∃ d ∈ s.decls, d.name = name ∧ ¬ d.type.IsAlternation

/-- The name is declared as an alternation. -/
def Alternates (s : Schema) (name : String) : Prop :=
  ∃ d ∈ s.decls, d.name = name ∧ d.type.IsAlternation

theorem calls_of_emitDecls {verifyCrc : Bool} :
    ∀ {ds : List TypeDecl} {p : Program}, emitDecls verifyCrc ds = .ok p →
      p.routines.flatMap (·.encode.calls) = ds.flatMap (·.type.refs)
  | [], p, h => by
    cases h
    rfl
  | d :: ds, p, h => by
    obtain ⟨rest, hrest, ⟨r, hr, rfl⟩ | ⟨hr, rfl⟩⟩ := emitDecls_cons_cases h
    · rw [List.flatMap_cons, List.flatMap_cons, (TypeDecl.calls_of_routine? hr).2,
        calls_of_emitDecls hrest]
    · obtain ⟨variants, ht⟩ := TypeDecl.isAlternation_of_routine? hr
      rw [List.flatMap_cons, ht, Ty.refs, List.nil_append, ← calls_of_emitDecls hrest]

theorem mem_names_of_emitDecls {verifyCrc : Bool} {name : String} :
    ∀ {ds : List TypeDecl} {p : Program}, emitDecls verifyCrc ds = .ok p →
      ((∃ r ∈ p.routines, r.name = name) ↔
        ∃ d ∈ ds, d.name = name ∧ ¬ d.type.IsAlternation) ∧
      (name ∈ p.skipped ↔ ∃ d ∈ ds, d.name = name ∧ d.type.IsAlternation)
  | [], p, h => by
    cases h
    simp
  | d :: ds, p, h => by
    obtain ⟨rest, hrest, ⟨r, hr, rfl⟩ | ⟨hr, rfl⟩⟩ := emitDecls_cons_cases h
    · have hname := (TypeDecl.routine?_cases hr).1
      have halt := (TypeDecl.calls_of_routine? hr).1
      simp [mem_names_of_emitDecls hrest, hname, halt, or_and_right, exists_or]
    · have halt := TypeDecl.isAlternation_of_routine? hr
      simp [mem_names_of_emitDecls hrest, halt, or_and_right, exists_or, @eq_comm _ name]

variable {s : Schema} {verifyCrc : Bool} {p : Program}

/-- **The calls of a program are the references of its schema.** -/
theorem calls_of_emit (h : s.emit verifyCrc = .ok p) :
    p.routines.flatMap (·.encode.calls) = s.refs :=
  calls_of_emitDecls h

/-- **Which names have a routine.** -/
theorem isSome_routine?_iff (h : s.emit verifyCrc = .ok p) {name : String} :
    (p.routine? name).isSome ↔ s.Codes name := by
  rw [Program.routine?, List.find?_isSome]
  simp only [beq_iff_eq]
  exact (mem_names_of_emitDecls h).1

/-- **Which names are listed as having none.** -/
theorem mem_skipped_iff (h : s.emit verifyCrc = .ok p) {name : String} :
    name ∈ p.skipped ↔ s.Alternates name :=
  (mem_names_of_emitDecls h).2

end Schema

/-! ## Linking -/

/-- A linked codec runs the program that it was linked from. -/
theorem Codec.link_eq_ok {p : Program} {o : Overflow} {c : Codec} (h : link p o = .ok c) :
    c.program = p ∧ c.overflow = o := by
  rw [link] at h
  split at h
  · cases h
    exact ⟨rfl, rfl⟩
  · cases h

/-- **Linking looks for the first call without a routine**, in the order of the routines. -/
theorem Codec.link_eq (p : Program) (o : Overflow) :
    link p o =
      match (p.routines.flatMap (·.encode.calls)).find? fun name => (p.routine? name).isNone with
      | none => .ok { program := p, overflow := o }
      | some name => .error (p.missing name) := by
  rw [link, Program.unresolved, ← List.head?_filter]
  cases (p.routines.flatMap (·.encode.calls)).filter fun name => (p.routine? name).isNone with
  | nil => rfl
  | cons name rest =>
    rw [List.eraseDups_cons]
    rfl

end WireGrammar
