import WireGrammar.Proofs.RoundTrip.Codec
import WireGrammar.Proofs.RoundTrip.Soundness

/-!
# Lists are paid for in bytes

The header of an array can promise two thousand million elements in four bytes.  A promise alone
brings nothing about: an element stays in the list only if it was decoded without an error, and then
it has taken at least one byte of its own.  Elements that fail are dropped together with all that
is in them, so the bytes that a size array gives back when it rewinds have paid for nothing.

* `Value.elements` — how many list elements there are in a value, at all depths.
* `DecodeOp.Solid` — no struct is without fields; decode operations share it with their mirror
  images (`EncodeOp.solid_mirror`).
* `Reader.Pays r r' n` — the way from `r` to `r'` is at least `n` bytes long, and longer than that
  if no error was met on it.
* `Decodes.pays` — decoding pays for the elements of its value.
* `Codec.decodeFrom_elements_le` — so does a codec, on every reader.
-/

set_option autoImplicit false
namespace WireGrammar

/-! ## Counting elements -/

namespace Value

mutual

/-- How many list elements there are in a value, counted at all depths. -/
def elements : Value → Nat
  | .int .. | .text _ | .bytes _ => 0
  | .list items => items.length + elementsOfItems items
  | .struct fields => elementsOfFields fields
  | .named _ v => v.elements

/-- How many list elements there are inside the items of a list. -/
def elementsOfItems : List Value → Nat
  | [] => 0
  | v :: vs => v.elements + elementsOfItems vs

/-- How many list elements there are in the fields of a struct. -/
def elementsOfFields : List (Field Value) → Nat
  | [] => 0
  | ⟨_, v⟩ :: fs => v.elements + elementsOfFields fs

end

/-- A field replaces at most one other, so it adds no more than its own elements. -/
theorem elementsOfFields_insert_le (name : String) (v : Value) (fs : List (Field Value)) :
    elementsOfFields (Fields.insert name v fs) ≤ v.elements + elementsOfFields fs := by
  induction fs with
  | nil => simp only [Fields.insert, elementsOfFields, Nat.le_refl]
  | cons f fs ih =>
    rw [Fields.insert]
    split
    · simp only [elementsOfFields]
      omega
    · split
      · simp only [elementsOfFields, Nat.le_refl]
      · simp only [elementsOfFields]
        omega

end Value

/-! ## Structs without fields -/

mutual

/-- No struct that the operation reads is without fields. -/
def DecodeOp.Solid : DecodeOp → Prop
  | .read _ | .readAlias .. | .call _ | .unsupported _ => True
  | .struct ops => ops ≠ [] ∧ SolidFields ops
  | .framed _ _ _ body => SolidFields body
  | .lengthArray element | .sizeArray element => element.Solid

/-- No struct that the operations of fields read is without fields. -/
def DecodeOp.SolidFields : List (Field DecodeOp) → Prop
  | [] => True
  | ⟨_, op⟩ :: ops => op.Solid ∧ SolidFields ops

end

mutual

theorem EncodeOp.solid_mirror (verifyCrc : Bool) :
    ∀ op : EncodeOp, (op.mirror verifyCrc).Solid ↔ op.Solid
  | .write _ | .writeAlias .. | .call _ | .unsupported _ => by
    simp only [mirror, DecodeOp.Solid, Solid]
  | .struct ops => by
    have hnil : mirrorFields verifyCrc ops ≠ [] ↔ ops ≠ [] := by
      refine not_congr ⟨eq_nil_of_mirrorFields, ?_⟩
      rintro rfl
      rw [mirrorFields]
    rw [mirror, DecodeOp.Solid, Solid, hnil, solidFields_mirrorFields]
  | .framed _ _ body => by rw [mirror, DecodeOp.Solid, Solid, solidFields_mirrorFields]
  | .lengthArray element => by rw [mirror, DecodeOp.Solid, Solid, solid_mirror]
  | .sizeArray element => by rw [mirror, DecodeOp.Solid, Solid, solid_mirror]

theorem EncodeOp.solidFields_mirrorFields (verifyCrc : Bool) :
    ∀ ops : List (Field EncodeOp),
      DecodeOp.SolidFields (mirrorFields verifyCrc ops) ↔ SolidFields ops
  | [] => by rw [mirrorFields, DecodeOp.SolidFields, SolidFields]
  | ⟨_, op⟩ :: ops => by
    rw [mirrorFields, DecodeOp.SolidFields, SolidFields, solid_mirror, solidFields_mirrorFields]

end

/-- No struct that a routine reads is without fields. -/
def Program.DecodeSolid (p : Program) : Prop :=
  ∀ name t, p.routine? name = some t → t.decode.Solid

theorem decodeSolid_of_compile {verifyCrc : Bool} {text : String} {compiled : Compiled}
    (h : compile verifyCrc text = .ok compiled) : compiled.program.DecodeSolid := by
  intro name t ht
  obtain ⟨-, -, hemit⟩ := compile_eq_ok h
  rw [compiled.schema.mirror_of_emit hemit ht]
  exact (EncodeOp.solid_mirror verifyCrc t.encode).2 (solid_of_compile h name t ht)

/-! ## Paying in bytes -/

namespace Reader

/-- The way from `r` to `r'` is at least `n` bytes long, and longer than that if it has met no
error. -/
structure Pays (r r' : Reader) (n : Nat) : Prop where
  le : r.offset + n ≤ r'.offset
  lt : r'.error = none → r.offset + n < r'.offset

variable {r r' start : Reader}

/-- A step that moves on, and takes a byte unless it fails, pays for itself. -/
theorem Advances.pays (h : r.Advances r') (hlt : r'.error = none → r.offset < r'.offset) :
    r.Pays r' 0 :=
  ⟨h.offset_le, hlt⟩

theorem pays_readInt {k : IntKind} {x : BitVec k.bits} (h : r.readInt k = (x, start)) :
    r.Pays start 0 := by
  have hadv := r.advances_readInt k
  rw [h] at hadv
  refine hadv.pays fun herr => ?_
  obtain ⟨-, -, -, rfl⟩ := readInt_eq_of_error_eq_none h herr
  exact Nat.lt_add_of_pos_right k.bytes_pos

theorem pays_readPrimitive (r : Reader) (q : Primitive) : r.Pays (r.readPrimitive q).2 0 := by
  refine (r.advances_readPrimitive q).pays fun herr => ?_
  obtain ⟨b, hb, hoffset⟩ := r.exists_layout_readPrimitive herr
  have hpos := q.layout_pos hb
  omega

/-- A primitive is not a list. -/
theorem elements_readPrimitive (r : Reader) (q : Primitive) :
    (r.readPrimitive q).1.elements = 0 := by
  cases q <;> simp only [readPrimitive, Value.elements]

/-- A failure takes nothing and pays for nothing. -/
theorem pays_fail (r : Reader) (e : DecodeError) : r.Pays (r.fail e) 0 :=
  (r.advances_fail e).pays fun herr => absurd herr (r.error_fail_ne_none e)

/-- Comparing a slot does not move the reader and clears no error. -/
theorem Pays.verify {n : Nat} (h : r.Pays r' n) (framing : Framing) (signed : Bool)
    (slot : BitVec (IntKind.word signed).bits) (offset : Nat) :
    r.Pays (r'.verify framing signed slot offset) n := by
  have hverify := (r'.advances_verify framing signed slot offset).offset_le
  refine ⟨h.le.trans hverify, fun herr => ?_⟩
  exact (h.lt (error_eq_none_of_verify herr)).trans_le hverify

/-- An integer that has been read leaves the reader inside its buffer. -/
theorem offset_le_size_of_readInt {k : IntKind} {x : BitVec k.bits} (h : r.readInt k = (x, start))
    (herr : start.error = none) : start.offset ≤ start.buffer.size := by
  obtain ⟨-, hle, -, rfl⟩ := readInt_eq_of_error_eq_none h herr
  have hpos := k.bytes_pos
  rw [remaining] at hle
  simp only
  omega

/-- Behind a header that has paid for itself, what comes after it only has to be paid for. -/
theorem Pays.behind {n : Nat} (h : r.Pays start 0) (hle : start.offset + n ≤ r'.offset)
    (herr : r'.error = none → start.error = none) : r.Pays r' n := by
  have hheader := h.le
  refine ⟨by omega, fun hnone => ?_⟩
  have hlt := h.lt (herr hnone)
  omega

end Reader

/-! ## Decoding -/

section Decoding

variable {p : Program}

mutual

/-- **Decoding pays for the elements of its value**, whether or not it ends in an error. -/
theorem Decodes.pays (hp : p.DecodeSolid) {op : DecodeOp} {r r' : Reader} {v : Value} :
    Decodes p op r v r' → op.Solid → r.Pays r' v.elements
  | .read q r, _ => by
    rw [r.elements_readPrimitive]
    exact r.pays_readPrimitive q
  | .readAlias typeName q r, _ => by
    rw [Value.elements, r.elements_readPrimitive]
    exact r.pays_readPrimitive q
  | .call ht h, _ => h.pays hp (hp _ _ ht)
  | .noRoutine r ht, _ => by
    rw [Value.elements, Value.elementsOfFields]
    exact r.pays_fail _
  | .struct h, hop => by
    rw [DecodeOp.Solid] at hop
    obtain ⟨hle, hlt⟩ := h.pays hp hop.2
    simp only [Value.elementsOfFields, Nat.zero_add] at hle hlt
    rw [Value.elements]
    exact ⟨hle, hlt hop.1⟩
  | .framed verify hslot h, hop => by
    rw [DecodeOp.Solid] at hop
    obtain ⟨hle, -⟩ := h.pays hp hop
    simp only [Value.elementsOfFields, Value.elements, Nat.zero_add] at hle
    rw [Value.elements]
    have hbody := (Reader.pays_readInt hslot).behind hle h.error_eq_none
    split
    · exact hbody.verify _ _ _ _
    · exact hbody
  | .lengthArray hcount h, hop => by
    rw [DecodeOp.Solid] at hop
    rw [Value.elements]
    exact (Reader.pays_readInt hcount).behind (h.pays hp hop) h.error_eq_none
  | .noHeader hsize herr, _ => by
    simp only [Value.elements, Value.elementsOfItems, List.length_nil]
    exact Reader.pays_readInt hsize
  | .sizeArray hsize herr h, hop => by
    rw [DecodeOp.Solid] at hop
    rw [Value.elements]
    have hin := Reader.offset_le_size_of_readInt hsize herr
    exact (Reader.pays_readInt hsize).behind (h.pays hp hop hin) fun _ => herr
  | .unsupported owner r, _ => by
    rw [Value.elements, Value.elementsOfFields]
    exact r.pays_fail _

theorem DecodesFields.pays (hp : p.DecodeSolid) {acc fields : List (Field Value)}
    {ops : List (Field DecodeOp)} {r r' : Reader} :
    DecodesFields p acc ops r fields r' → DecodeOp.SolidFields ops →
      r.offset + Value.elementsOfFields fields ≤ Value.elementsOfFields acc + r'.offset ∧
      (ops ≠ [] → r'.error = none →
        r.offset + Value.elementsOfFields fields < Value.elementsOfFields acc + r'.offset)
  | .nil acc r, _ => ⟨by omega, fun hne => absurd rfl hne⟩
  | @DecodesFields.cons _ acc fields name op ops r r₁ r' v hv h, hops => by
    rw [DecodeOp.SolidFields] at hops
    have hhead := hv.pays hp hops.1
    have htail := (h.pays hp hops.2).1
    have hinsert := Value.elementsOfFields_insert_le name v acc
    refine ⟨?_, fun _ herr => ?_⟩
    · have := hhead.le
      omega
    · have := hhead.lt (h.error_eq_none herr)
      omega

theorem DecodesCount.pays (hp : p.DecodeSolid) {element : DecodeOp} {n : Nat} {r r' : Reader}
    {vs : List Value} :
    DecodesCount p element n r vs r' → element.Solid →
      r.offset + (vs.length + Value.elementsOfItems vs) ≤ r'.offset
  | .zero _ r, _ => Nat.le_refl _
  | .failed n hv _, hop => by
    simp only [List.length_nil, Value.elementsOfItems]
    exact hv.advances.offset_le
  | .next hv herr h, hop => by
    -- the byte that the element has taken beyond its own elements pays for the element itself
    have hhead := (hv.pays hp hop).lt herr
    have htail := h.pays hp hop
    simp only [List.length_cons, Value.elementsOfItems]
    omega

theorem DecodesWithin.pays (hp : p.DecodeSolid) {element : DecodeOp} {stop : Nat} {r r' : Reader}
    {vs : List Value} :
    DecodesWithin p element stop r vs r' → element.Solid → r.offset ≤ r.buffer.size →
      r.offset + (vs.length + Value.elementsOfItems vs) ≤ r'.offset
  | .done _ hstop, _, _ => Nat.le_refl _
  | .failed hlt hv _, _, hr => by
    simp only [List.length_nil, Value.elementsOfItems]
    -- the rewind goes back to the end of the array at most, which lies behind the failed element
    split
    · simp only [Reader.skipTo, Reader.setError, hv.advances.buffer_eq]
      omega
    · exact hv.advances.offset_le
  | .idle _ hv herr hoff, hop, _ => by
    have hhead := (hv.pays hp hop).lt herr
    omega
  | .next _ hv herr _ h, hop, hr => by
    have hhead := (hv.pays hp hop).lt herr
    have htail := h.pays hp hop (hv.advances.offset_le_size hr)
    simp only [List.length_cons, Value.elementsOfItems]
    omega

end

end Decoding

/-! ## Codecs -/

namespace Codec

variable {verifyCrc : Bool} {text : String} {compiled : Compiled} {o : Overflow} {c : Codec}
  {typeName : String}

/-- **A value has no more list elements than bytes were read for it.**  For every grammar that
compiles, without a reference cycle that avoids every array, and for every reader, wherever it
stands and whatever its error: the elements of all lists in what is decoded, counted at all depths,
are at most as many as the bytes by which the reader has moved on.  It makes no difference what the
input declares, and whether decoding ends in an error. -/
theorem decodeFrom_elements_le (hcompile : compile verifyCrc text = .ok compiled)
    (hs : compiled.schema.Grounded) (hlink : link compiled.program o = .ok c)
    (ht : (c.program.routine? typeName).isSome) (r : Reader) :
    ∃ v r', c.decodeFrom typeName r = .ok (v, r') ∧ r.offset + v.elements ≤ r'.offset := by
  have hsolid := decodeSolid_of_compile hcompile
  rw [← (link_eq_ok hlink).1] at hsolid
  obtain ⟨v, r', hdecodes, hrun⟩ := exists_decodeFrom (emit_eq_of_link hcompile hlink) hs ht r
  have hcall : (DecodeOp.call typeName).Solid := by
    rw [DecodeOp.Solid]
    trivial
  exact ⟨v, r', hrun, (hdecodes.pays hsolid hcall).le⟩

end Codec

/-- A tree whose size array promises all that 31 bits can say.  Two trees are there, and the
beginning of a third. -/
def Tree.greedy : Reader where
  buffer :=
    ⟨#[0, 0, 0, 35, 0xd2, 0x02, 0xef, 0x8d, 0, 0x7f, 0xff, 0xff, 0xff,
      0, 0, 0, 9, 0xd2, 0x02, 0xef, 0x8d, 0, 0, 0, 0, 0,
      0, 0, 0, 9, 0xd2, 0x02, 0xef, 0x8d, 0, 0, 0, 0, 0,
      0, 0]⟩

/-- Two trees are all that is made of the promise. -/
theorem Codec.decodeFrom_elements_le_tree :
    ∃ v r', Tree.codec.decodeFrom "Top" Tree.greedy = .ok (v, r') ∧ v.elements = 2 ∧
      Tree.greedy.offset + v.elements ≤ r'.offset := by
  obtain ⟨v, r', hrun, hle⟩ := decodeFrom_elements_le Tree.compile_text Tree.grounded
    Tree.link_program (show (Tree.program.routine? "Top").isSome from rfl) Tree.greedy
  have htwo : (Tree.codec.decodeFrom "Top" Tree.greedy).toOption.map (·.1.elements) = some 2 := by
    decide +kernel
  rw [hrun] at htwo
  exact ⟨v, r', hrun, Option.some.inj htwo, hle⟩

end WireGrammar
