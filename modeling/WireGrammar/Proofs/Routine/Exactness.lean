import WireGrammar.Proofs.Grammar.Outcome
import WireGrammar.Proofs.Routine.References
import WireGrammar.Proofs.Routine.Steps

/-!
# Exactly what is emitted

When a schema can be emitted, and what its program holds, is said here of the types alone.

* `Ty.misframed?` — a struct of the type begins with a field that asks for a framing and is no
  32-bit integer.
* `Ty.encodeOp_outcome` — this is the only reason for which a type has no operations.
* `Ty.stepsOf_encodeOp` — the steps of both trees are those that the type asks for.
* `Routine.Serves` — a routine is what a declaration asks for.
* `Schema.emit_outcome` — so the first declaration with such a struct is reported, else there is a
  program in which every declaration stands once.
-/

set_option autoImplicit false
namespace WireGrammar

/-! ## Slots -/

mutual

/-- The structs of a type, through fields and elements. -/
def Ty.structs : Ty → List (List (Field Ty))
  | .struct fields => fields :: structsOfFields fields
  | .array element _ => element.structs
  | .scalar _ | .named _ | .polymorphic _ => []

/-- The structs of the types of fields. -/
def Ty.structsOfFields : List (Field Ty) → List (List (Field Ty))
  | [] => []
  | ⟨_, t⟩ :: fs => t.structs ++ structsOfFields fs

end

/-- Is the type a 32-bit integer? -/
def Ty.isSlot : Ty → Bool
  | .scalar p => p = .int .int32 ∨ p = .int .uint32
  | _ => false

/-- The name of the first field, if it is that of a slot and the field is none. -/
def slotFault? : List (Field Ty) → Option String
  | [] => none
  | f :: _ => if (f.name = "Size" ∨ f.name = "CRC") ∧ ¬ f.val.isSlot then some f.name else none

/-- The first field that should be a slot and is none, in a struct of the type. -/
def Ty.misframed? (t : Ty) : Option String :=
  t.structs.findSome? slotFault?

theorem Ty.isSlot_iff {t : Ty} : t.isSlot ↔ ∃ signed, t = .scalar (.int (.word signed)) := by
  constructor
  · intro h
    cases t with
    | scalar p =>
      rcases of_decide_eq_true h with rfl | rfl
      · exact ⟨true, rfl⟩
      · exact ⟨false, rfl⟩
    | _ => cases h
  · rintro ⟨signed, rfl⟩
    cases signed <;> rfl

theorem Framing.ofName?_isSome_iff {name : String} :
    (ofName? name).isSome ↔ name = "Size" ∨ name = "CRC" := by
  rw [ofName?, List.find?_isSome]
  constructor
  · rintro ⟨framing, -, hname⟩
    cases framing with
    | size => exact .inl (beq_iff_eq.1 hname).symm
    | crc => exact .inr (beq_iff_eq.1 hname).symm
  · rintro (rfl | rfl)
    · exact ⟨.size, by decide, rfl⟩
    · exact ⟨.crc, by decide, rfl⟩

/-- **A struct can be framed** unless it begins with a field that should be a slot and is none. -/
theorem framing?_outcome (owner : String) (fields : List (Field Ty)) :
    Outcome (fun _ => slotFault? fields = none)
      (fun err => ∃ name, slotFault? fields = some name ∧ err = .framingField owner name)
      (framing? owner fields) := by
  cases fields with
  | nil => exact .ok rfl
  | cons f fs =>
    have hname := @Framing.ofName?_isSome_iff f.name
    rw [framing?]
    split
    · next hnone =>
      rw [hnone] at hname
      exact .ok (if_neg fun h => Bool.false_ne_true (hname.2 h.1))
    · next framing hframing =>
      rw [hframing] at hname
      split
      · next signed hval => exact .ok (if_neg fun h => h.2 (Ty.isSlot_iff.2 ⟨signed, hval⟩))
      · next hval =>
        refine .error ⟨f.name, if_pos ⟨hname.1 rfl, fun hslot => ?_⟩, rfl⟩
        obtain ⟨signed, ht⟩ := Ty.isSlot_iff.1 hslot
        exact hval signed ht

/-- A struct is framed as its first field asks. -/
theorem ofName?_of_framing? {owner : String} {fields : List (Field Ty)}
    {framing : Option (Framing × Bool)} (h : framing? owner fields = .ok framing) :
    (fields.head?.map (·.name)).bind Framing.ofName? = framing.map (·.1) := by
  cases fields with
  | nil =>
    cases h
    rfl
  | cons f fs =>
    rw [framing?] at h
    split at h
    · next hnone =>
      cases h
      exact hnone
    · next found hframing =>
      split at h
      · cases h
        exact hframing
      · cases h

/-! ## The two trees of a type -/

mutual

theorem Ty.encodeOp_outcome (owner : String) :
    ∀ t : Ty, Outcome (fun _ => t.misframed? = none)
      (fun err => ∃ name, t.misframed? = some name ∧ err = .framingField owner name)
      (t.encodeOp owner)
  | .scalar _ | .named _ | .polymorphic _ => .ok rfl
  | .struct fields => by
    rw [encodeOp, misframed?, structs, List.findSome?_cons]
    refine Outcome.bind ((framing?_outcome owner fields).mono_error ?_) fun framing hframing => ?_
    · rintro err ⟨name, hname, rfl⟩
      exact ⟨name, by rw [hname], rfl⟩
    · rw [hframing]
      refine Outcome.bind (encodeFields_outcome owner fields) fun ops hops => ?_
      cases framing <;> exact .ok hops
  | .array element .length => by
    rw [encodeOp, misframed?, structs]
    exact (encodeOp_outcome owner element).map fun _ h => h
  | .array element .size => by
    rw [encodeOp, misframed?, structs]
    exact (encodeOp_outcome owner element).map fun _ h => h

theorem Ty.encodeFields_outcome (owner : String) :
    ∀ fields : List (Field Ty), Outcome
      (fun _ => (structsOfFields fields).findSome? slotFault? = none)
      (fun err => ∃ name, (structsOfFields fields).findSome? slotFault? = some name ∧
        err = .framingField owner name)
      (encodeFields owner fields)
  | [] => .ok rfl
  | ⟨name, t⟩ :: fs => by
    rw [encodeFields, structsOfFields, List.findSome?_append]
    refine Outcome.bind ((encodeOp_outcome owner t).mono_error ?_) fun op hop => ?_
    · rintro err ⟨name, hname, rfl⟩
      rw [misframed?] at hname
      exact ⟨name, by rw [hname, Option.some_or], rfl⟩
    · rw [misframed?] at hop
      rw [hop, Option.none_or]
      exact Outcome.bind (encodeFields_outcome owner fs) fun ops hops => .ok hops

end

/-- The slot of a framed struct is an integer under the name of the framing. -/
theorem exists_slot_of_framing? {owner : String} {fields : List (Field Ty)} {framing : Framing}
    {signed : Bool} (h : framing? owner fields = .ok (some (framing, signed))) :
    ∃ rest, fields = ⟨framing.fieldName, .scalar (.int (.word signed))⟩ :: rest := by
  have hnames := map_name_of_framing? h
  obtain ⟨name, rest, rfl⟩ := exists_scalar_of_framing? h
  obtain ⟨rfl, -⟩ := List.cons.inj hnames
  exact ⟨rest, rfl⟩

namespace Direction

/-- The steps of the tree that goes one way, given the tree that encodes. -/
def stepsOf (op : EncodeOp) : Direction → Step
  | .encode => op.steps
  | .decode verifyCrc => (op.mirror verifyCrc).steps

/-- The steps of the fields in the tree that goes one way. -/
def fieldsStepsOf (ops : List (Field EncodeOp)) : Direction → List Step
  | .encode => EncodeOp.fieldsSteps ops
  | .decode verifyCrc => DecodeOp.fieldsSteps (EncodeOp.mirrorFields verifyCrc ops)

variable (dir : Direction)

theorem stepsOf_write (p : Primitive) : dir.stepsOf (.write p) = .move p := by
  cases dir <;> simp only [stepsOf, EncodeOp.mirror, EncodeOp.steps, DecodeOp.steps]

theorem stepsOf_call (name : String) : dir.stepsOf (.call name) = .call name := by
  cases dir <;> simp only [stepsOf, EncodeOp.mirror, EncodeOp.steps, DecodeOp.steps]

theorem stepsOf_unsupported (owner : String) :
    dir.stepsOf (.unsupported owner) = .unsupported owner := by
  cases dir <;> simp only [stepsOf, EncodeOp.mirror, EncodeOp.steps, DecodeOp.steps]

theorem stepsOf_lengthArray (element : EncodeOp) :
    dir.stepsOf (.lengthArray element) = .lengthArray (dir.stepsOf element) := by
  cases dir <;> simp only [stepsOf, EncodeOp.mirror, EncodeOp.steps, DecodeOp.steps]

theorem stepsOf_sizeArray (element : EncodeOp) :
    dir.stepsOf (.sizeArray element) = .sizeArray (dir.stepsOf element) := by
  cases dir <;> simp only [stepsOf, EncodeOp.mirror, EncodeOp.steps, DecodeOp.steps]

theorem stepsOf_struct (ops : List (Field EncodeOp)) :
    dir.stepsOf (.struct ops) = .struct (dir.fieldsStepsOf ops) := by
  cases dir <;> simp only [stepsOf, fieldsStepsOf, EncodeOp.mirror, EncodeOp.steps, DecodeOp.steps]

theorem stepsOf_framed (framing : Framing) (signed : Bool) (body : List (Field EncodeOp)) :
    dir.stepsOf (.framed framing signed body) =
      .struct (dir.frame (some framing)
        (.field framing.fieldName (.move (.int (.word signed))) :: dir.fieldsStepsOf body)) := by
  cases dir <;> simp [stepsOf, fieldsStepsOf, EncodeOp.mirror, EncodeOp.steps, DecodeOp.steps,
    frame, opening, closing]

theorem fieldsStepsOf_nil : dir.fieldsStepsOf [] = [] := by
  cases dir <;> rfl

theorem fieldsStepsOf_cons (name : String) (op : EncodeOp) (ops : List (Field EncodeOp)) :
    dir.fieldsStepsOf (⟨name, op⟩ :: ops) =
      .field name (dir.stepsOf op) :: dir.fieldsStepsOf ops := by
  cases dir <;> rfl

end Direction

mutual

/-- **The steps of both trees are those that the type asks for.** -/
theorem Ty.stepsOf_encodeOp {dir : Direction} {owner : String} :
    ∀ {t : Ty} {op : EncodeOp}, t.encodeOp owner = .ok op → dir.stepsOf op = t.steps dir owner
  | .scalar _, _, h => by
    cases h
    rw [dir.stepsOf_write, steps]
  | .named _, _, h => by
    cases h
    rw [dir.stepsOf_call, steps]
  | .polymorphic _, _, h => by
    cases h
    rw [dir.stepsOf_unsupported, steps]
  | .struct fields, op, h => by
    obtain ⟨ops, hops, ⟨hframing, rfl⟩ | ⟨framing, signed, hframing, rfl⟩⟩ :=
      encodeOp_struct_cases h
    · rw [dir.stepsOf_struct, steps, ofName?_of_framing? hframing, fieldsStepsOf_encodeFields hops]
      rfl
    · rw [dir.stepsOf_framed, steps, ofName?_of_framing? hframing,
        ← fieldsStepsOf_encodeFields hops]
      obtain ⟨rest, rfl⟩ := exists_slot_of_framing? hframing
      obtain ⟨slot, hslot, hops⟩ := exists_of_bind_eq_ok hops
      obtain ⟨body, -, hops⟩ := exists_of_bind_eq_ok hops
      cases hslot
      cases hops
      rw [dir.fieldsStepsOf_cons, dir.stepsOf_write]
      rfl
  | .array element .length, op, h => by
    rw [encodeOp] at h
    obtain ⟨e, he, rfl⟩ := exists_of_map_eq_ok h
    rw [dir.stepsOf_lengthArray, steps, stepsOf_encodeOp he]
  | .array element .size, op, h => by
    rw [encodeOp] at h
    obtain ⟨e, he, rfl⟩ := exists_of_map_eq_ok h
    rw [dir.stepsOf_sizeArray, steps, stepsOf_encodeOp he]

theorem Ty.fieldsStepsOf_encodeFields {dir : Direction} {owner : String} :
    ∀ {fields : List (Field Ty)} {ops : List (Field EncodeOp)},
      encodeFields owner fields = .ok ops → dir.fieldsStepsOf ops = fieldsSteps dir owner fields
  | [], ops, h => by
    cases h
    rw [dir.fieldsStepsOf_nil, fieldsSteps]
  | ⟨name, t⟩ :: fs, ops, h => by
    rw [encodeFields] at h
    obtain ⟨op, hop, h⟩ := exists_of_bind_eq_ok h
    obtain ⟨rest, hrest, h⟩ := exists_of_bind_eq_ok h
    cases h
    rw [dir.fieldsStepsOf_cons, fieldsSteps, stepsOf_encodeOp hop, fieldsStepsOf_encodeFields hrest]

end

/-! ## Declarations -/

instance : DecidablePred Ty.IsAlternation
  | .polymorphic variants => isTrue ⟨variants, rfl⟩
  | .scalar _ | .named _ | .struct _ | .array .. => isFalse nofun

/-- The bare steps that a declaration asks for. -/
def TypeDecl.plan (d : TypeDecl) : Step :=
  match d.type with
  | .scalar p => .moveAlias d.name p
  | t => t.plan d.name

/-- The error that a declaration causes: a struct begins with a field that should be a slot and is
none. -/
def TypeDecl.misframing? (d : TypeDecl) : Option CompileError :=
  d.type.misframed?.map (.framingField d.name ·)

/-- The routine is what a declaration asks for: without the steps that frame, both trees are its
plan, and every struct in either of them is framed as its first field asks. -/
structure Routine.Serves (verifyCrc : Bool) (d : TypeDecl) (r : Routine) : Prop where
  name_eq : r.name = d.name
  bare_encode : r.encode.steps.bare = d.plan
  bare_decode : r.decode.steps.bare = d.plan
  frames_encode : ∀ ss ∈ r.encode.steps.structs, Direction.encode.Frames ss
  frames_decode : ∀ ss ∈ r.decode.steps.structs, (Direction.decode verifyCrc).Frames ss

/-- What a declaration adds to a program: its routine, or its name if it is an alternation. -/
inductive TypeDecl.Yields (verifyCrc : Bool) (d : TypeDecl) : Routine ⊕ String → Prop
  | routine {r : Routine} (halt : ¬ d.type.IsAlternation) (h : r.Serves verifyCrc d) :
      Yields verifyCrc d (.inl r)
  | name (halt : d.type.IsAlternation) : Yields verifyCrc d (.inr d.name)

/-- The routine of a scalar gives its values the name of the declaration. -/
theorem Routine.serves_scalar (verifyCrc : Bool) (name : String) (p : Primitive) :
    Routine.Serves verifyCrc ⟨name, .scalar p⟩ ⟨name, .writeAlias name p, .readAlias name p⟩ where
  name_eq := rfl
  bare_encode := rfl
  bare_decode := rfl
  frames_encode := nofun
  frames_decode := nofun

/-- The routine of any other type has the steps that the type asks for. -/
theorem Routine.serves_of_encodeOp {verifyCrc : Bool} {d : TypeDecl} {op : EncodeOp}
    (hscalar : ∀ p, d.type ≠ .scalar p) (h : d.type.encodeOp d.name = .ok op) :
    Routine.Serves verifyCrc d ⟨d.name, op, op.mirror verifyCrc⟩ := by
  have hplan : d.plan = d.type.plan d.name := by
    rw [TypeDecl.plan.eq_def]
    split
    · next p hp => exact absurd hp (hscalar p)
    · rfl
  have hencode : op.steps = d.type.steps .encode d.name := @Ty.stepsOf_encodeOp .encode _ _ _ h
  have hdecode : (op.mirror verifyCrc).steps = d.type.steps (.decode verifyCrc) d.name :=
    @Ty.stepsOf_encodeOp (.decode verifyCrc) _ _ _ h
  constructor
  · rfl
  · rw [hplan, hencode, Ty.bare_steps]
  · rw [hplan, hdecode, Ty.bare_steps]
  · rw [hencode]
    exact Ty.frames_steps
  · rw [hdecode]
    exact Ty.frames_steps

/-- The routine of a type that is neither a scalar nor an alternation. -/
theorem TypeDecl.routine?_eq {verifyCrc : Bool} {d : TypeDecl} (hscalar : ∀ p, d.type ≠ .scalar p)
    (halt : ¬ d.type.IsAlternation) :
    d.routine? verifyCrc = do
      let encode ← d.type.encodeOp d.name
      let decode ← d.type.decodeOp verifyCrc d.name
      return some ⟨d.name, encode, decode⟩ := by
  rw [routine?.eq_def]
  split
  · next variants ht => exact absurd ⟨variants, ht⟩ halt
  · next p hp => exact absurd hp (hscalar p)
  · rfl

/-- **A declaration adds its routine or its name to a program**, unless a struct of it begins with a
field that should be a slot and is none. -/
theorem TypeDecl.part_outcome (verifyCrc : Bool) (d : TypeDecl) :
    Outcome (fun part => d.misframing? = none ∧ d.Yields verifyCrc part)
      (fun err => d.misframing? = some err) (d.part verifyCrc) := by
  by_cases halt : d.type.IsAlternation
  · obtain ⟨name, t⟩ := d
    obtain ⟨variants, rfl⟩ := halt
    exact .ok ⟨rfl, .name ⟨variants, rfl⟩⟩
  by_cases hscalar : ∃ p, d.type = .scalar p
  · obtain ⟨name, t⟩ := d
    obtain ⟨p, rfl⟩ := hscalar
    exact .ok ⟨rfl, .routine halt (Routine.serves_scalar verifyCrc name p)⟩
  have hne : ∀ p, d.type ≠ .scalar p := fun p hp => hscalar ⟨p, hp⟩
  have hencode : Outcome
      (fun op => d.type.encodeOp d.name = .ok op ∧ d.misframing? = none)
      (fun err => d.misframing? = some err) (d.type.encodeOp d.name) := by
    refine (Ty.encodeOp_outcome d.name d.type).mono (fun op hop hframed => ⟨hop, ?_⟩) ?_
    · rw [misframing?, hframed]
      rfl
    · rintro err ⟨name, hname, rfl⟩
      rw [misframing?, hname]
      rfl
  rw [part, routine?_eq hne halt]
  refine Outcome.map (Outcome.bind hencode fun op hop => ?_) fun routine h => h
  obtain ⟨hop, hframed⟩ := hop
  rw [Ty.decodeOp_of_encodeOp hop]
  exact .ok ⟨hframed, .routine halt (Routine.serves_of_encodeOp hne hop)⟩

/-- The routines and the names that declarations add to a program stand in their order. -/
theorem TypeDecl.Yields.forall₂ {verifyCrc : Bool} {ds : List TypeDecl}
    {parts : List (Routine ⊕ String)} (h : List.Forall₂ (Yields verifyCrc) ds parts) :
    List.Forall₂ (Routine.Serves verifyCrc) (ds.filter fun d => ¬ d.type.IsAlternation)
        (parts.filterMap Sum.getLeft?) ∧
      parts.filterMap Sum.getRight? = (ds.filter fun d => d.type.IsAlternation).map (·.name) := by
  induction h with
  | nil => exact ⟨.nil, rfl⟩
  | @cons d part ds parts hd _ ih =>
    cases hd with
    | routine halt hr =>
      rw [List.filter_cons_of_pos (by simpa using halt),
        List.filter_cons_of_neg (by simpa using halt)]
      exact ⟨.cons hr ih.1, ih.2⟩
    | name halt =>
      rw [List.filter_cons_of_neg (by simpa using halt),
        List.filter_cons_of_pos (by simpa using halt)]
      exact ⟨ih.1, congrArg (d.name :: ·) ih.2⟩

/-! ## Programs -/

namespace Schema

/-- **Emission succeeds exactly where every struct that asks for a framing begins with a slot**, and
then every declaration stands once in the program. -/
theorem emit_cases (verifyCrc : Bool) (s : Schema) :
    Outcome
      (fun p => s.decls.findSome? (·.misframing?) = none ∧
        List.Forall₂ (Routine.Serves verifyCrc) (s.decls.filter fun d => ¬ d.type.IsAlternation)
          p.routines ∧
        p.skipped = (s.decls.filter fun d => d.type.IsAlternation).map (·.name))
      (fun err => s.decls.findSome? (·.misframing?) = some err) (s.emit verifyCrc) := by
  rw [emit, emitDecls_eq]
  have hparts := Outcome.mapM fun d (_ : d ∈ s.decls) => d.part_outcome verifyCrc
  refine (hparts.mono_error ?_).map fun parts h => ?_
  · rintro err ⟨before, d, after, hdecls, hbefore, herr⟩
    refine List.findSome?_eq_some_iff.2 ⟨before, d, after, hdecls, herr, fun d' hd' => ?_⟩
    obtain ⟨part, hframed, -⟩ := hbefore d' hd'
    exact hframed
  · obtain ⟨hframed, hyields⟩ := (List.forall₂_and_left _ _).1 h
    exact ⟨List.findSome?_eq_none_iff.2 hframed, TypeDecl.Yields.forall₂ hyields⟩

/-- **Emission is exact and symmetric.**  For every schema of a grammar: if some struct in a
declared type, through fields and elements, begins with a field called `Size` or `CRC` that is no
32-bit integer, the first declaration with such a struct is reported.  Otherwise there is a program.
Every declaration stands in it once, as a routine or, if it is an alternation, as a name, both in
the order of the declarations; every routine, and nothing else, is found by its name; and the two
trees of a routine are the same but for the steps that frame a struct, which stand where the first
field of the struct asks for them. -/
theorem emit_outcome {g : Grammar} {s : Schema} (h : g.resolve = .ok s) (verifyCrc : Bool) :
    (∀ err, s.decls.findSome? (·.misframing?) = some err → s.emit verifyCrc = .error err) ∧
    (s.decls.findSome? (·.misframing?) = none → ∃ p, s.emit verifyCrc = .ok p ∧
      List.Forall₂ (Routine.Serves verifyCrc) (s.decls.filter fun d => ¬ d.type.IsAlternation)
        p.routines ∧
      p.skipped = (s.decls.filter fun d => d.type.IsAlternation).map (·.name) ∧
      ∀ name r, p.routine? name = some r ↔ r ∈ p.routines ∧ r.name = name) := by
  have hcases := emit_cases verifyCrc s
  cases hemit : s.emit verifyCrc with
  | error err =>
    rw [hemit] at hcases
    cases hcases with
    | error herr =>
      refine ⟨fun err' herr' => ?_, fun hnone => ?_⟩
      · cases herr.symm.trans herr'
        rfl
      · cases herr.symm.trans hnone
  | ok p =>
    rw [hemit] at hcases
    cases hcases with
    | ok hp =>
      obtain ⟨hnone, hroutines, hskipped⟩ := hp
      refine ⟨fun err herr => ?_, fun _ => ⟨p, rfl, hroutines, hskipped, fun name r => ?_⟩⟩
      · cases hnone.symm.trans herr
      · exact find?_eq_some_iff_of_nodup
          ((names_sublist_of_emitDecls hemit).nodup (Grammar.nodup_of_resolve h))

end Schema

namespace Inbox

/-- A note whose paragraphs begin with a checksum that is too short. -/
def note : Decl :=
  ⟨"Note", .node .sequence [.leaf "Stamp",
    .node .lengthArray [{ Expr.leaf "int16" with label := some "CRC" }, .leaf "string"]]⟩

def noteSchema : Schema where
  decls := [
    ⟨"Stamp", .scalar (.int .int16)⟩,
    ⟨"Note", .struct [⟨"Stamp", .scalar (.int .int16)⟩, ⟨"Field1", .array
      (.struct [⟨"CRC", .scalar (.int .int16)⟩, ⟨"string", .scalar .string⟩]) .length⟩]⟩]

theorem resolve_note : Grammar.resolve ⟨[stamp, note]⟩ = .ok noteSchema := by cbv

end Inbox

/-- The letters have a program, with a framed routine first; the note has none. -/
theorem Schema.emit_outcome_inbox :
    (∃ p r rs, Inbox.schema.emit true = .ok p ∧ p.routines = r :: rs ∧ p.skipped = ["Reply"] ∧
      p.routine? "Letter" = some r ∧ r.encode.steps.bare = r.decode.steps.bare ∧
      ∀ ss ∈ r.encode.steps.structs, Direction.encode.Frames ss) ∧
    Inbox.noteSchema.emit true = .error (.framingField "Note" "CRC") := by
  refine ⟨?_, (emit_outcome Inbox.resolve_note true).1 _ rfl⟩
  obtain ⟨p, hp, hroutines, hskipped, hfind⟩ := (emit_outcome Inbox.resolve_grammar true).2 rfl
  have hdecls : (Inbox.schema.decls.filter fun d => ¬ d.type.IsAlternation) =
    Inbox.schema.decls.take 3 := rfl
  rw [hdecls] at hroutines
  obtain ⟨r, rs, hr, -, hrs⟩ := List.forall₂_cons_left_iff.1 hroutines
  have hmem : r ∈ p.routines := hrs ▸ List.mem_cons_self
  exact ⟨p, r, rs, hp, hrs, hskipped, (hfind _ r).2 ⟨hmem, hr.name_eq⟩,
    hr.bare_encode.trans hr.bare_decode.symm, hr.frames_encode⟩

end WireGrammar
