import WireGrammar.Proofs.Decode.Acceptance
import WireGrammar.Proofs.RoundTrip.Codec
import WireGrammar.Proofs.Routine.Reach

/-!
# Decoding without checksums

A grammar can be compiled so that checksums are compared, or so that they are not.  The two programs
encode alike.  They decode alike too, up to the first checksum that is wrong: from there on the
strict one carries an error, and only a size array could ever make it forget that.  So where no
checksum stands in the elements of a size array, being strict means to refuse some inputs, always
for a checksum, and to agree on all others.

* `DecodeOp.lenient`, `Program.lenient` — an operation and a program without the comparison of
  checksums.  The other way of compiling gives just that (`Schema.emit_lenient`).
* `Program.Surfaces` — no mismatch is ever forgotten on the way.
* `Decodes.lenient` — decoding is lenient decoding, or it ends with a mismatch.
* `Codec.decode_lenient` — so it is for a codec on whole inputs, and
  `Codec.strict_lenient_of_compile` for the two programs of a grammar.
-/

set_option autoImplicit false
namespace WireGrammar

/-! ## Leaving out the comparison -/

mutual

/-- The operation without the comparison of checksums. -/
def DecodeOp.lenient : DecodeOp → DecodeOp
  | .read q => .read q
  | .readAlias typeName q => .readAlias typeName q
  | .call name => .call name
  | .struct ops => .struct (lenientFields ops)
  | .framed framing signed verify body =>
    .framed framing signed (verify && framing.verified false) (lenientFields body)
  | .lengthArray element => .lengthArray element.lenient
  | .sizeArray element => .sizeArray element.lenient
  | .unsupported owner => .unsupported owner

/-- The operations of fields without the comparison of checksums. -/
def DecodeOp.lenientFields : List (Field DecodeOp) → List (Field DecodeOp)
  | [] => []
  | ⟨name, op⟩ :: ops => ⟨name, op.lenient⟩ :: lenientFields ops

end

/-- The routine without the comparison of checksums. -/
def Routine.lenient (t : Routine) : Routine :=
  { t with decode := t.decode.lenient }

/-- The program without the comparison of checksums. -/
def Program.lenient (p : Program) : Program :=
  { p with routines := p.routines.map Routine.lenient }

theorem Program.routine?_lenient (p : Program) (name : String) :
    p.lenient.routine? name = (p.routine? name).map Routine.lenient := by
  rw [routine?, lenient, List.find?_map]
  rfl

mutual

theorem EncodeOp.lenient_mirror :
    ∀ op : EncodeOp, (op.mirror true).lenient = op.mirror false
  | .write _ | .writeAlias .. | .call _ | .unsupported _ => by
    simp only [mirror, DecodeOp.lenient]
  | .struct ops => by
    rw [mirror, mirror, DecodeOp.lenient, lenientFields_mirrorFields]
  | .framed framing signed body => by
    rw [mirror, mirror, DecodeOp.lenient, lenientFields_mirrorFields]
    cases framing <;> rfl
  | .lengthArray element => by
    rw [mirror, mirror, DecodeOp.lenient, lenient_mirror]
  | .sizeArray element => by
    rw [mirror, mirror, DecodeOp.lenient, lenient_mirror]

theorem EncodeOp.lenientFields_mirrorFields :
    ∀ ops : List (Field EncodeOp),
      DecodeOp.lenientFields (mirrorFields true ops) = mirrorFields false ops
  | [] => by rw [mirrorFields, mirrorFields, DecodeOp.lenientFields]
  | ⟨name, op⟩ :: ops => by
    rw [mirrorFields, mirrorFields, DecodeOp.lenientFields, lenient_mirror,
      lenientFields_mirrorFields]

end

theorem TypeDecl.routine?_lenient {d : TypeDecl} {t : Routine}
    (h : d.routine? true = .ok (some t)) : d.routine? false = .ok (some t.lenient) := by
  obtain ⟨name, type⟩ := d
  cases type with
  | polymorphic _ => cases h
  | scalar q =>
    cases h
    rw [Routine.lenient, DecodeOp.lenient]
    rfl
  | _ =>
    obtain ⟨e, he, h⟩ := exists_of_bind_eq_ok h
    obtain ⟨d, hd, h⟩ := exists_of_bind_eq_ok h
    cases h
    cases hd.symm.trans (Ty.decodeOp_of_encodeOp he)
    rw [Routine.lenient, EncodeOp.lenient_mirror]
    simp only [routine?, he, Ty.decodeOp_of_encodeOp he]
    rfl

namespace Schema

theorem emitDecls_lenient :
    ∀ {ds : List TypeDecl} {p : Program}, emitDecls true ds = .ok p →
      emitDecls false ds = .ok p.lenient
  | [], p, h => by
    cases h
    rfl
  | d :: ds, p, h => by
    obtain ⟨rest, hrest, ⟨t, ht, rfl⟩ | ⟨ht, rfl⟩⟩ := emitDecls_cons_cases h
    · rw [emitDecls, TypeDecl.routine?_lenient ht, emitDecls_lenient hrest]
      rfl
    · obtain ⟨variants, htype⟩ := TypeDecl.isAlternation_of_routine? ht
      rw [emitDecls, TypeDecl.routine?, htype, emitDecls_lenient hrest]
      rfl

/-- **Without checksums, emission gives the same program but for the comparisons.** -/
theorem emit_lenient {s : Schema} {p : Program} (h : s.emit true = .ok p) :
    s.emit false = .ok p.lenient :=
  emitDecls_lenient h

end Schema

/-! ## Mismatches -/

/-- The reader has met a checksum that is wrong. -/
def Reader.Mismatched (r : Reader) : Prop :=
  ∃ declared computed, r.error = some (.crcMismatch declared computed)

theorem Reader.Mismatched.isSome_error {r : Reader} (h : r.Mismatched) : r.error.isSome := by
  obtain ⟨declared, computed, herr⟩ := h
  rw [herr]
  rfl

/-- Comparing a checksum changes nothing unless it is wrong. -/
theorem Reader.verify_crc_cases (r : Reader) (signed : Bool)
    (slot : BitVec (IntKind.word signed).bits) (start : Nat) :
    r.verify .crc signed slot start = r ∨ (r.verify .crc signed slot start).Mismatched := by
  by_cases herr : r.error.isSome
  · exact .inl (verify_of_error herr .crc signed slot start)
  · rw [Option.not_isSome_iff_eq_none] at herr
    simp only [verify, herr]
    split
    · exact .inl rfl
    · exact .inr ⟨_, _, rfl⟩

/-- Comparing a slot, if at all, does what the lenient comparison does or finds a wrong
checksum. -/
theorem Reader.verify_lenient (r : Reader) (framing : Framing) (signed verify : Bool)
    (slot : BitVec (IntKind.word signed).bits) (start : Nat) :
    (if verify then r.verify framing signed slot start else r) =
        (if verify && framing.verified false then r.verify framing signed slot start else r) ∨
      framing = .crc ∧
        (if verify then r.verify framing signed slot start else r).Mismatched := by
  cases verify with
  | false => exact .inl rfl
  | true =>
    cases framing with
    | size => exact .inl rfl
    | crc =>
      rcases r.verify_crc_cases signed slot start with heq | hbad
      · exact .inl heq
      · exact .inr ⟨rfl, hbad⟩

namespace Program

/-- Decoding by an operation can come to a checksum. -/
def Guards (p : Program) (op : DecodeOp) : Prop :=
  ∃ signed verify body, p.Reaches op (.framed .crc signed verify body)

/-- No size array that decoding by the operation can come to has a checksum in its elements, so no
mismatch is ever forgotten. -/
def Surfaces (p : Program) : DecodeOp → Prop :=
  p.Throughout fun op => ∀ element, op = .sizeArray element → ¬ p.Guards element

variable {p : Program} {op op' : DecodeOp}

theorem Guards.head (henter : p.Enters op op') (h : p.Guards op') : p.Guards op := by
  obtain ⟨signed, verify, body, hreach⟩ := h
  exact ⟨signed, verify, body, hreach.head henter⟩

end Program

section Decoding

variable {p : Program}

mutual

/-- **Decoding is lenient decoding, or it ends with a mismatch.** -/
theorem Decodes.lenient {op : DecodeOp} {r r' : Reader} {v : Value} :
    Decodes p op r v r' → p.Surfaces op →
      Decodes p.lenient op.lenient r v r' ∨ p.Guards op ∧ r'.Mismatched
  | .read q r, _ => by
    rw [DecodeOp.lenient]
    exact .inl (.read q r)
  | .readAlias typeName q r, _ => by
    rw [DecodeOp.lenient]
    exact .inl (.readAlias typeName q r)
  | @Decodes.call _ name t r r' v ht h, hop => by
    rw [DecodeOp.lenient]
    rcases h.lenient (hop.enter (.routine ht)) with h | ⟨hguards, hbad⟩
    · refine .inl (.call (t := t.lenient) ?_ h)
      rw [Program.routine?_lenient, ht, Option.map_some]
    · exact .inr ⟨hguards.head (.routine ht), hbad⟩
  | .noRoutine r ht, _ => by
    rw [DecodeOp.lenient]
    refine .inl (.noRoutine r ?_)
    rw [Program.routine?_lenient, ht, Option.map_none]
  | .struct h, hop => by
    rw [DecodeOp.lenient]
    rcases h.lenient fun f hf => hop.enter (.field hf) with h | ⟨⟨f, hf, hguards⟩, hbad⟩
    · exact .inl (.struct h)
    · exact .inr ⟨hguards.head (.field hf), hbad⟩
  | @Decodes.framed _ framing signed verify body r start r' slot fields hslot h, hop => by
    rw [DecodeOp.lenient]
    rcases h.lenient fun f hf => hop.enter (.body hf) with h | ⟨⟨f, hf, hguards⟩, hbad⟩
    · rcases r'.verify_lenient framing signed verify slot start.offset with heq | ⟨rfl, hbad⟩
      · rw [heq]
        exact .inl (.framed _ hslot h)
      · exact .inr ⟨⟨signed, verify, body, .refl⟩, hbad⟩
    · -- the body has met the mismatch, so its own slot is not compared any more
      rw [Reader.verify_of_error hbad.isSome_error, ite_self]
      exact .inr ⟨hguards.head (.body hf), hbad⟩
  | .lengthArray hcount h, hop => by
    rw [DecodeOp.lenient]
    rcases h.lenient (hop.enter (.counted _)) with h | ⟨hguards, hbad⟩
    · exact .inl (.lengthArray hcount h)
    · exact .inr ⟨hguards.head (.counted _), hbad⟩
  | .noHeader hsize herr, _ => by
    rw [DecodeOp.lenient]
    exact .inl (.noHeader hsize herr)
  | .sizeArray hsize herr h, hop => by
    rw [DecodeOp.lenient]
    have hunguarded := hop.self _ rfl
    exact .inl (.sizeArray hsize herr (h.lenient (hop.enter (.sized _)) hunguarded))
  | .unsupported owner r, _ => by
    rw [DecodeOp.lenient]
    exact .inl (.unsupported owner r)

theorem DecodesFields.lenient {acc fields : List (Field Value)} {ops : List (Field DecodeOp)}
    {r r' : Reader} :
    DecodesFields p acc ops r fields r' → (∀ f ∈ ops, p.Surfaces f.val) →
      DecodesFields p.lenient acc (DecodeOp.lenientFields ops) r fields r' ∨
        (∃ f ∈ ops, p.Guards f.val) ∧ r'.Mismatched
  | .nil acc r, _ => by
    rw [DecodeOp.lenientFields]
    exact .inl (.nil acc r)
  | .cons hv h, hops => by
    obtain ⟨hop, hops⟩ := List.forall_mem_cons.1 hops
    rw [DecodeOp.lenientFields]
    rcases hv.lenient hop with hv | ⟨hguards, hbad⟩
    · rcases h.lenient hops with h | ⟨⟨f, hf, hguards⟩, hbad⟩
      · exact .inl (.cons hv h)
      · exact .inr ⟨⟨f, List.mem_cons_of_mem _ hf, hguards⟩, hbad⟩
    · rw [h.reader_eq_of_error hbad.isSome_error]
      exact .inr ⟨⟨_, List.mem_cons_self, hguards⟩, hbad⟩

theorem DecodesCount.lenient {element : DecodeOp} {n : Nat} {r r' : Reader} {vs : List Value} :
    DecodesCount p element n r vs r' → p.Surfaces element →
      DecodesCount p.lenient element.lenient n r vs r' ∨ p.Guards element ∧ r'.Mismatched
  | .zero element r, _ => .inl (.zero _ r)
  | .failed n hv herr, hop => by
    rcases hv.lenient hop with hv | hbad
    · exact .inl (.failed n hv herr)
    · exact .inr hbad
  | .next hv herr h, hop => by
    rcases hv.lenient hop with hv | ⟨-, hbad⟩
    · rcases h.lenient hop with h | hbad
      · exact .inl (.next hv herr h)
      · exact .inr hbad
    · have hsome := hbad.isSome_error
      rw [herr] at hsome
      cases hsome

/-- In a size array the elements meet no checksum, so none of them fails for one. -/
theorem DecodesWithin.lenient {element : DecodeOp} {stop : Nat} {r r' : Reader}
    {vs : List Value} :
    DecodesWithin p element stop r vs r' → p.Surfaces element → ¬ p.Guards element →
      DecodesWithin p.lenient element.lenient stop r vs r'
  | .done element hstop, _, _ => .done _ hstop
  | .failed hlt hv herr, hop, hunguarded => by
    have hv := (hv.lenient hop).resolve_right fun h => hunguarded h.1
    exact .failed hlt hv herr
  | .idle hlt hv herr hoff, hop, hunguarded => by
    have hv := (hv.lenient hop).resolve_right fun h => hunguarded h.1
    exact .idle hlt hv herr hoff
  | .next hlt hv herr hoff h, hop, hunguarded => by
    have hv := (hv.lenient hop).resolve_right fun h => hunguarded h.1
    exact .next hlt hv herr hoff (h.lenient hop hunguarded)

end

end Decoding

/-- What a type leads to says whether its mismatches come to the surface. -/
theorem Ty.Emits.surfaces {s : Schema} {verifyCrc : Bool} {p : Program} {t : Ty} {op : DecodeOp}
    (hp : s.emit verifyCrc = .ok p) (h : t.Emits verifyCrc op)
    (ht : ∀ element u, s.Reaches t (.array element .size) → s.Reaches element u →
      ¬ u.FramedBy .crc) : p.Surfaces op := by
  rintro _ hreach element rfl ⟨signed, verify, body, hguard⟩
  obtain ⟨t', htt', ht'⟩ := h.reaches hp hreach
  obtain ⟨u, rfl, hu⟩ := ht'.exists_of_sizeArray
  obtain ⟨w, huw, hw⟩ := hu.reaches hp hguard
  exact ht u w htt' huw hw.framedBy

/-! ## Codecs -/

/-- Where a grammar compiles with checksums it compiles without, to the lenient program. -/
theorem compile_lenient {text : String} {compiled : Compiled}
    (h : compile true text = .ok compiled) :
    compile false text = .ok { compiled with program := compiled.program.lenient } := by
  obtain ⟨hparse, hresolve, hemit⟩ := compile_eq_ok h
  simp only [compile, hparse, compileGrammar, hresolve]
  show (do let program ← compiled.schema.emit false; _) = _
  rw [Schema.emit_lenient hemit]
  rfl

namespace Codec

variable {c c' : Codec} {typeName : String}

/-- **A strict codec agrees with the lenient one or refuses a checksum.** -/
theorem decode_lenient {s : Schema} (hp : s.emit true = .ok c.program)
    (hp' : c'.program = c.program.lenient) (hs : s.Grounded)
    (hsurf : c.program.Surfaces (.call typeName)) (b : ByteArray) :
    c'.decode typeName b = c.decode typeName b ∨
      ∃ declared computed,
        c.decode typeName b = .error (.decode (.crcMismatch declared computed)) := by
  have hroutine : c'.program.routine? typeName =
      (c.program.routine? typeName).map Routine.lenient := by
    rw [hp', Program.routine?_lenient]
  have hmissing : c'.program.missing typeName = c.program.missing typeName := by
    rw [hp']
    rfl
  by_cases ht : (c.program.routine? typeName).isSome
  · obtain ⟨v, r', hdecodes, hrun⟩ := exists_decodeFrom hp hs ht { buffer := b }
    rcases hdecodes.lenient hsurf with hlenient | ⟨-, declared, computed, herr⟩
    · rw [DecodeOp.lenient, ← hp'] at hlenient
      have hemit : s.emit false = .ok c'.program := by rw [hp', Schema.emit_lenient hp]
      have hrun' := decodeFrom_of_decodes hemit hs (by rwa [hroutine, Option.isSome_map]) hlenient
      simp only [decode, hrun, hrun', true_or]
    · simp only [decode, hrun, complete_of_error herr]
      exact .inr ⟨declared, computed, rfl⟩
  · rw [Option.not_isSome_iff_eq_none] at ht
    simp only [decode, decodeFrom, hroutine, ht, Option.map_none, hmissing, true_or]

/-- **Strict and lenient codecs of a grammar.**  Compiled with and without the comparison of
checksums, a grammar without a reference cycle that avoids every array has the same encode routines.
And from a type that leads to no checksum in the elements of a size array: whatever the strict codec
accepts, the lenient one accepts with the same value; and where the lenient one accepts, the strict
one does so too or refuses a wrong checksum. -/
theorem strict_lenient_of_compile {text : String} {strict lenient : Compiled}
    (hstrict : compile true text = .ok strict) (hlenient : compile false text = .ok lenient) :
    strict.program.routines.map (fun t => (t.name, t.encode)) =
        lenient.program.routines.map (fun t => (t.name, t.encode)) ∧
      ∀ {o o' : Overflow} {c c' : Codec}, link strict.program o = .ok c →
        link lenient.program o' = .ok c' → strict.schema.Grounded →
        ∀ {typeName : String}, (∀ element t, strict.schema.Reaches (.named typeName)
          (.array element .size) → strict.schema.Reaches element t → ¬ t.FramedBy .crc) →
        ∀ (b : ByteArray) (v : Value),
          (c.decode typeName b = .ok v → c'.decode typeName b = .ok v) ∧
          (c'.decode typeName b = .ok v → c.decode typeName b = .ok v ∨
            ∃ declared computed,
              c.decode typeName b = .error (.decode (.crcMismatch declared computed))) := by
  cases (compile_lenient hstrict).symm.trans hlenient
  refine ⟨?_, fun {o o' c c'} hlink hlink' hs {typeName} ht b v => ?_⟩
  · simp only [Program.lenient, List.map_map]
    rfl
  · have hp := emit_eq_of_link hstrict hlink
    have hsurf := (Ty.Emits.named true typeName).surfaces hp ht
    have hp' : c'.program = c.program.lenient := by
      rw [(link_eq_ok hlink').1, (link_eq_ok hlink).1]
    rcases decode_lenient hp hp' hs hsurf b with heq | ⟨declared, computed, hbad⟩
    · rw [heq]
      exact ⟨id, .inl⟩
    · refine ⟨fun h => ?_, fun _ => .inr ⟨declared, computed, hbad⟩⟩
      rw [hbad] at h
      cases h

end Codec

/-! ## Notes -/

namespace Note

/-- The grammar of notes. -/
def text : String :=
  "Note = Page \x7bint8\x7d; Page = CRC:uint32 title:string [Page];"

/-- What the grammar of notes compiles to. -/
def compiled : Compiled where
  grammar := {
    decls := [
      ⟨"Note", .node .sequence [.leaf "Page", .node .sizeArray [.leaf "int8"]]⟩,
      ⟨"Page", .node .sequence [{ Expr.leaf "uint32" with label := some "CRC" },
        { Expr.leaf "string" with label := some "title" }, .node .lengthArray [.leaf "Page"]]⟩] }
  schema := schema
  program := program

theorem compile_text : compile true text = .ok compiled :=
  compile_of_parse? (by decide +kernel) (by cbv) rfl

/-- The size array of a note is beside its checksums. -/
theorem no_checksum_in_sizeArray (element t : Ty)
    (helement : schema.Reaches (.named "Note") (.array element .size))
    (ht : schema.Reaches element t) : ¬ t.FramedBy .crc := by
  have hmem := helement.mem_of_closed noteTypes (by simp [noteTypes]) noteTypes_closed
  obtain rfl : element = .scalar (.int .int8) := by
    simpa [noteTypes, pageTypes, note, page] using hmem
  have hself := ht.mem_of_closed [.scalar (.int .int8)] (by simp) (by simp [Schema.parts])
  rw [List.mem_singleton] at hself
  rintro ⟨f, hf, -⟩
  rw [hself] at hf
  cases hf

/-- The codec of notes that does not compare checksums. -/
def lenient : Codec where
  program := program.lenient

theorem link_program : Codec.link program .reject = .ok codec := rfl

theorem link_lenient : Codec.link program.lenient .reject = .ok lenient := rfl

/-- A page and one byte.  The checksum of the inner page ends with `last`. -/
def bytes (last : UInt8) : ByteArray :=
  pageBytes last ++ ⟨#[0, 0, 0, 1, 5]⟩

/-- What is read of them. -/
def value (inner : BitVec 32) : Value :=
  .struct [⟨"Page", pageValue inner⟩, ⟨"int8s", .list [.int .int8 5]⟩]

theorem decode_bytes : codec.decode "Note" (bytes 0xa3) = .ok (value 0xb1c2a1a3) := by
  decide +kernel

theorem decode_forged : lenient.decode "Note" (bytes 7) = .ok (value 0xb1c2a107) := by
  decide +kernel

theorem decode_forged_ne : codec.decode "Note" (bytes 7) ≠ .ok (value 0xb1c2a107) := by
  decide +kernel

end Note

/-- The lenient codec takes the right page and the forged one; the strict codec refuses the forged
one. -/
theorem Codec.strict_lenient_of_compile_note :
    Note.lenient.decode "Note" (Note.bytes 0xa3) = .ok (Note.value 0xb1c2a1a3) ∧
      ∃ declared computed, Note.codec.decode "Note" (Note.bytes 7) =
        .error (.decode (.crcMismatch declared computed)) := by
  obtain ⟨-, h⟩ := strict_lenient_of_compile Note.compile_text (compile_lenient Note.compile_text)
  have hnote := h Note.link_program Note.link_lenient Note.grounded Note.no_checksum_in_sizeArray
  exact ⟨(hnote (Note.bytes 0xa3) _).1 Note.decode_bytes,
    ((hnote (Note.bytes 7) _).2 Note.decode_forged).resolve_left Note.decode_forged_ne⟩

end WireGrammar
