import WireGrammar.Codec
import WireGrammar.Proofs.Routine.CallGraph

/-!
# What a type leads to

A type leads to the types of its fields, to that of its elements, and to what is declared under its
name.  Decoding takes the same ways: from an operation it comes to another only where the type of
the first leads to the type of the second.  So what a type does not lead to is never met when it is
decoded, however often the routines of recursive types call each other.

* `Schema.parts`, `Schema.Reaches` — the types in a type, at once and at any depth.
* `Program.Enters`, `Program.Reaches` — the same for decode operations.
* `Program.Throughout` — a property of all that an operation reaches.
* `Ty.Emits` — an operation comes from a type.
* `Ty.Emits.reaches` — whatever an operation reaches comes from a type that its own type reaches.
* `Note.schema`, `Note.program` — pages in pages, each guarded by a checksum, and a size array
  beside them.
-/

set_option autoImplicit false
namespace WireGrammar

/-! ## Types -/

/-- The types that are directly in a type.  What stands in an alternation does not count, since no
routine ever enters one. -/
def Schema.parts (s : Schema) : Ty → List Ty
  | .struct fields => fields.map (·.val)
  | .array element _ => [element]
  | .named name => (s.decls.filter (·.name == name)).map (·.type)
  | .scalar _ | .polymorphic _ => []

/-- The second type is in the first one at any depth, or is the first one itself. -/
def Schema.Reaches (s : Schema) : Ty → Ty → Prop :=
  Relation.ReflTransGen fun t u => u ∈ s.parts t

/-- The type is a struct whose first field asks for the framing. -/
def Ty.FramedBy (t : Ty) (framing : Framing) : Prop :=
  ∃ f, t.framingField? = some f ∧ f.name = framing.fieldName

/-- A collection of types that has the parts of all its members has all that they reach. -/
theorem Schema.Reaches.mem_of_closed {s : Schema} {t u : Ty} (h : s.Reaches t u)
    (types : List Ty) (ht : t ∈ types) (hclosed : ∀ a ∈ types, ∀ b ∈ s.parts a, b ∈ types) :
    u ∈ types := by
  induction h with
  | refl => exact ht
  | tail _ hpart ih => exact hclosed _ ih _ hpart

/-! ## Operations -/

namespace Program

/-- Decoding by an operation can run another one as a part of it. -/
inductive Enters (p : Program) : DecodeOp → DecodeOp → Prop
  | field {ops : List (Field DecodeOp)} {f : Field DecodeOp} (hf : f ∈ ops) :
      Enters p (.struct ops) f.val
  | body {framing : Framing} {signed verify : Bool} {body : List (Field DecodeOp)}
      {f : Field DecodeOp} (hf : f ∈ body) : Enters p (.framed framing signed verify body) f.val
  | counted (element : DecodeOp) : Enters p (.lengthArray element) element
  | sized (element : DecodeOp) : Enters p (.sizeArray element) element
  | routine {name : String} {t : Routine} (ht : p.routine? name = some t) :
      Enters p (.call name) t.decode

/-- Decoding by an operation can come to another one. -/
def Reaches (p : Program) : DecodeOp → DecodeOp → Prop :=
  Relation.ReflTransGen p.Enters

/-- All operations that an operation reaches have a property. -/
def Throughout (p : Program) (Q : DecodeOp → Prop) (op : DecodeOp) : Prop :=
  ∀ op', p.Reaches op op' → Q op'

variable {p : Program} {Q : DecodeOp → Prop} {op op' : DecodeOp}

theorem Throughout.self (h : p.Throughout Q op) : Q op :=
  h op .refl

theorem Throughout.enter (h : p.Throughout Q op) (henter : p.Enters op op') :
    p.Throughout Q op' :=
  fun op'' hreach => h op'' (hreach.head henter)

end Program

/-! ## From types to operations -/

/-- The operation decodes the type; for a scalar it may do so under a name. -/
inductive Ty.Emits (verifyCrc : Bool) : Ty → DecodeOp → Prop
  | plain {t : Ty} {owner : String} {op : DecodeOp} (h : t.decodeOp verifyCrc owner = .ok op) :
      Emits verifyCrc t op
  | renamed (typeName : String) (q : Primitive) :
      Emits verifyCrc (.scalar q) (.readAlias typeName q)

namespace Ty

variable {verifyCrc : Bool} {owner : String}

/-- The two forms of the decode operation of a struct. -/
theorem decodeOp_struct_cases {fields : List (Field Ty)} {op : DecodeOp}
    (h : (Ty.struct fields).decodeOp verifyCrc owner = .ok op) :
    ∃ ops, decodeFields verifyCrc owner fields = .ok ops ∧
      (op = .struct ops ∨
        ∃ framing signed, framing? owner fields = .ok (some (framing, signed)) ∧
          op = .framed framing signed (framing.verified verifyCrc) ops.tail) := by
  rw [decodeOp] at h
  obtain ⟨framing, hframing, h⟩ := exists_of_bind_eq_ok h
  obtain ⟨ops, hops, h⟩ := exists_of_bind_eq_ok h
  refine ⟨ops, hops, ?_⟩
  match framing with
  | none => exact .inl (Except.ok.inj h).symm
  | some (.size, signed) => exact .inr ⟨.size, signed, hframing, (Except.ok.inj h).symm⟩
  | some (.crc, signed) => exact .inr ⟨.crc, signed, hframing, (Except.ok.inj h).symm⟩

/-- A struct is emitted with a framing only if its first field asks for it. -/
theorem framedBy_of_framing? {fields : List (Field Ty)} {framing : Framing} {signed : Bool}
    (h : framing? owner fields = .ok (some (framing, signed))) :
    (Ty.struct fields).FramedBy framing := by
  cases fields with
  | nil => cases h
  | cons f fs =>
    rw [framing?] at h
    split at h
    · cases h
    · next framing' hname =>
      split at h
      · cases h
        refine ⟨f, ?_, (Framing.fieldName_of_ofName? hname).symm⟩
        rw [framingField?, hname]
        rfl
      · cases h

theorem exists_field_of_decodeFields {f : Field DecodeOp} :
    ∀ {fields : List (Field Ty)} {ops : List (Field DecodeOp)},
      decodeFields verifyCrc owner fields = .ok ops → f ∈ ops →
      ∃ g ∈ fields, g.val.decodeOp verifyCrc owner = .ok f.val
  | [], ops, h, hf => by
    cases h
    cases hf
  | ⟨name, t⟩ :: fields, ops, h, hf => by
    rw [decodeFields] at h
    obtain ⟨op, hop, h⟩ := exists_of_bind_eq_ok h
    obtain ⟨rest, hrest, h⟩ := exists_of_bind_eq_ok h
    cases h
    rcases List.mem_cons.1 hf with rfl | hf
    · exact ⟨⟨name, t⟩, List.mem_cons_self, hop⟩
    · obtain ⟨g, hg, hgop⟩ := exists_field_of_decodeFields hrest hf
      exact ⟨g, List.mem_cons_of_mem _ hg, hgop⟩

variable {s : Schema} {p : Program} {t : Ty} {op op' : DecodeOp}

theorem Emits.named (verifyCrc : Bool) (name : String) :
    (Ty.named name).Emits verifyCrc (.call name) := by
  have h : (Ty.named name).decodeOp verifyCrc name = .ok (.call name) := by rw [decodeOp]
  exact .plain h

theorem Emits.of_routine? {d : TypeDecl} {r : Routine}
    (h : d.routine? verifyCrc = .ok (some r)) : d.type.Emits verifyCrc r.decode := by
  rcases (TypeDecl.routine?_cases h).2 with ⟨q, ht, -, hd⟩ | ⟨-, hd⟩
  · rw [ht, hd]
    exact .renamed d.name q
  · exact .plain hd

/-- One step of decoding is one step between types. -/
theorem Emits.enters (hp : s.emit verifyCrc = .ok p) (h : t.Emits verifyCrc op)
    (henter : p.Enters op op') : ∃ t' ∈ s.parts t, t'.Emits verifyCrc op' := by
  cases h with
  | renamed typeName q => cases henter
  | @plain _ owner _ h =>
    cases t with
    | scalar q =>
      cases h
      cases henter
    | named name =>
      cases h
      cases henter with
      | routine ht =>
        obtain ⟨d, hd, rfl, hdr⟩ := s.exists_decl_of_emit hp ht
        have hpart : d.type ∈ s.parts (.named d.name) :=
          List.mem_map_of_mem (List.mem_filter.2 ⟨hd, beq_self_eq_true d.name⟩)
        exact ⟨d.type, hpart, .of_routine? hdr⟩
    | struct fields =>
      obtain ⟨ops, hops, rfl | ⟨framing, signed, -, rfl⟩⟩ := decodeOp_struct_cases h
      · cases henter with
        | field hf =>
          obtain ⟨g, hg, hgop⟩ := exists_field_of_decodeFields hops hf
          exact ⟨g.val, List.mem_map_of_mem hg, .plain hgop⟩
      · cases henter with
        | body hf =>
          obtain ⟨g, hg, hgop⟩ := exists_field_of_decodeFields hops (List.mem_of_mem_tail hf)
          exact ⟨g.val, List.mem_map_of_mem hg, .plain hgop⟩
    | array element extent =>
      cases extent with
      | length =>
        rw [decodeOp] at h
        obtain ⟨e, he, rfl⟩ := exists_of_map_eq_ok h
        cases henter with
        | counted => exact ⟨element, List.mem_singleton_self element, .plain he⟩
      | size =>
        rw [decodeOp] at h
        obtain ⟨e, he, rfl⟩ := exists_of_map_eq_ok h
        cases henter with
        | sized => exact ⟨element, List.mem_singleton_self element, .plain he⟩
    | polymorphic variants =>
      cases h
      cases henter

/-- **Whatever decoding comes to belongs to a type that is reached.** -/
theorem Emits.reaches (hp : s.emit verifyCrc = .ok p) (h : t.Emits verifyCrc op)
    (hreach : p.Reaches op op') : ∃ t', s.Reaches t t' ∧ t'.Emits verifyCrc op' := by
  induction hreach with
  | refl => exact ⟨t, .refl, h⟩
  | tail _ henter ih =>
    obtain ⟨u, htu, hu⟩ := ih
    obtain ⟨t', hut, ht'⟩ := hu.enters hp henter
    exact ⟨t', htu.tail hut, ht'⟩

/-- Only a size array is decoded as one. -/
theorem Emits.exists_of_sizeArray {element : DecodeOp}
    (h : t.Emits verifyCrc (.sizeArray element)) :
    ∃ u, t = .array u .size ∧ u.Emits verifyCrc element := by
  cases h with
  | @plain _ owner _ h =>
    cases t with
    | scalar q => cases h
    | named name => cases h
    | struct fields =>
      obtain ⟨ops, -, h | ⟨framing, signed, -, h⟩⟩ := decodeOp_struct_cases h
      · cases h
      · cases h
    | array u extent =>
      cases extent with
      | length =>
        rw [decodeOp] at h
        obtain ⟨e, -, h⟩ := exists_of_map_eq_ok h
        cases h
      | size =>
        rw [decodeOp] at h
        obtain ⟨e, he, h⟩ := exists_of_map_eq_ok h
        cases h
        exact ⟨u, rfl, .plain he⟩
    | polymorphic variants => cases h

/-- Only a struct whose first field asks for a framing is decoded with it. -/
theorem Emits.framedBy {framing : Framing} {signed verify : Bool} {body : List (Field DecodeOp)}
    (h : t.Emits verifyCrc (.framed framing signed verify body)) : t.FramedBy framing := by
  cases h with
  | @plain _ owner _ h =>
    cases t with
    | scalar q => cases h
    | named name => cases h
    | struct fields =>
      obtain ⟨ops, -, h | ⟨framing', signed', hframing, h⟩⟩ := decodeOp_struct_cases h
      · cases h
      · cases h
        exact framedBy_of_framing? hframing
    | array u extent =>
      cases extent <;>
      · rw [decodeOp] at h
        obtain ⟨e, -, h⟩ := exists_of_map_eq_ok h
        cases h
    | polymorphic variants => cases h

end Ty

/-! ## Checksums beside a size array

Notes as the instance at which the theorems about what a type leads to are tried out.  A page leads
to itself through an array of pages, but to no size array; a note leads to a size array as well.
-/

namespace Note

/-- What is declared as a page. -/
def page : Ty :=
  .struct [⟨"CRC", .scalar (.int .uint32)⟩, ⟨"title", .scalar .string⟩,
    ⟨"Pages", .array (.named "Page") .length⟩]

/-- What is declared as a note. -/
def note : Ty :=
  .struct [⟨"Page", .named "Page"⟩, ⟨"int8s", .array (.scalar (.int .int8)) .size⟩]

/-- A note is a page and a size array. -/
def schema : Schema where
  decls := [⟨"Note", note⟩, ⟨"Page", page⟩]

theorem grounded : schema.Grounded := by
  refine Schema.grounded_of_rank (fun name => if name = "Note" then 1 else 0) ?_
  simp [schema, note, page, Ty.inlineRefs, Ty.inlineRefsOfFields]

/-- The routines of notes and pages. -/
def program : Program where
  routines := [
    ⟨"Note", .struct [⟨"Page", .call "Page"⟩, ⟨"int8s", .sizeArray (.write (.int .int8))⟩],
      .struct [⟨"Page", .call "Page"⟩, ⟨"int8s", .sizeArray (.read (.int .int8))⟩]⟩,
    ⟨"Page", .framed .crc false [⟨"title", .write .string⟩, ⟨"Pages", .lengthArray (.call "Page")⟩],
      .framed .crc false true
        [⟨"title", .read .string⟩, ⟨"Pages", .lengthArray (.call "Page")⟩]⟩]
  skipped := []

theorem emit_schema : schema.emit true = .ok program := rfl

/-- The codec of notes. -/
def codec : Codec where
  program := program

/-- The bytes of a page with an empty page in it.  The checksum of the inner page ends with
`last`. -/
def pageBytes (last : UInt8) : ByteArray :=
  ⟨#[0xba, 0x6d, 0xc4, 0xcf, 0, 1, 97, 0, 0, 0, 1, 0xb1, 0xc2, 0xa1, last, 0, 0, 0, 0, 0, 0]⟩

/-- What is read of them. -/
def pageValue (inner : BitVec 32) : Value :=
  .struct [⟨"CRC", .int .uint32 0xba6dc4cf⟩,
    ⟨"Pages", .list [.struct [⟨"CRC", .int .uint32 inner⟩, ⟨"Pages", .list []⟩,
      ⟨"title", .text ""⟩]]⟩,
    ⟨"title", .text "a"⟩]

/-- The types that a page leads to. -/
def pageTypes : List Ty :=
  [.named "Page", page, .scalar (.int .uint32), .scalar .string, .array (.named "Page") .length]

/-- The types that a note leads to. -/
def noteTypes : List Ty :=
  [.named "Note", note, .array (.scalar (.int .int8)) .size, .scalar (.int .int8)] ++ pageTypes

theorem pageTypes_closed : ∀ a ∈ pageTypes, ∀ b ∈ schema.parts a, b ∈ pageTypes := by
  simp [pageTypes, Schema.parts, schema, page]

theorem noteTypes_closed : ∀ a ∈ noteTypes, ∀ b ∈ schema.parts a, b ∈ noteTypes := by
  simp [noteTypes, pageTypes, Schema.parts, schema, page, note]

end Note
end WireGrammar
