import WireGrammar.Proofs.Decode.Elements
import WireGrammar.Proofs.Decode.Locality
import WireGrammar.Proofs.RoundTrip.Operation

/-!
# The byte budget of a size array

A size array says in front how many bytes its elements take.  The loop over the elements looks at
this budget before each of them and not behind it, so an element that begins within the budget may
end beyond it.  Where an element fails, the loop goes to the end of the budget wherever the element
has got to, and what was decoded before stays.

* `Program.Reaches.solid` — no element that a compiled program comes to is without bytes.
* `DecodesWithin.stops` — without an error the loop ends where the budget ends, or its last element
  straddles that place.
* `Codec.decodeBy_sizeArray_stops` — so it is for every size array of a codec;
  `Codec.decodeBy_sizeArray_straddles` gives an array with such an element.
* `Codec.decodeBy_sizeArray_prefix` — encoded elements in front of one that fails are what is left
  of an array.
-/

set_option autoImplicit false
namespace WireGrammar

/-! ## Elements take bytes -/

theorem DecodeOp.SolidFields.of_mem {f : Field DecodeOp} :
    ∀ {ops : List (Field DecodeOp)}, SolidFields ops → f ∈ ops → f.val.Solid
  | ⟨_, op⟩ :: ops, h, hf => by
    rw [SolidFields] at h
    rcases List.mem_cons.1 hf with rfl | hf
    · exact h.1
    · exact of_mem h.2 hf

namespace Program

variable {p : Program} {op op' : DecodeOp}

theorem Enters.solid (hp : p.DecodeSolid) (h : p.Enters op op') (hop : op.Solid) : op'.Solid := by
  cases h with
  | field hf =>
    rw [DecodeOp.Solid] at hop
    exact hop.2.of_mem hf
  | body hf =>
    rw [DecodeOp.Solid] at hop
    exact hop.of_mem hf
  | counted =>
    rw [DecodeOp.Solid] at hop
    exact hop
  | sized =>
    rw [DecodeOp.Solid] at hop
    exact hop
  | routine ht => exact hp _ _ ht

theorem Reaches.solid (hp : p.DecodeSolid) (h : p.Reaches op op') (hop : op.Solid) :
    op'.Solid := by
  induction h with
  | refl => exact hop
  | tail _ henter ih => exact henter.solid hp ih

/-- No struct is without fields in the elements of a size array that a type comes to. -/
theorem Reaches.solid_element (hp : p.DecodeSolid) {typeName : String} {element : DecodeOp}
    (h : p.Reaches (.call typeName) (.sizeArray element)) : element.Solid := by
  have hcall : (DecodeOp.call typeName).Solid := by
    rw [DecodeOp.Solid]
    trivial
  have harray := h.solid hp hcall
  rwa [DecodeOp.Solid] at harray

end Program

/-! ## Where the loop ends -/

/-- **Without an error the loop ends where its budget ends**, unless its last element begins before
that place and ends behind it. -/
theorem DecodesWithin.stops {p : Program} (hp : p.DecodeSolid) {element : DecodeOp}
    (hsolid : element.Solid) {stop : Nat} {r r' : Reader} {vs : List Value}
    (h : DecodesWithin p element stop r vs r') (hr : r.offset ≤ stop)
    (hbuffer : stop ≤ r.buffer.size) (hnone : r'.error = none) :
    r'.offset = stop ∨
      ∃ before v mid, vs = before ++ [v] ∧ r.Advances mid ∧ mid.offset < stop ∧
        stop < r'.offset ∧ Decodes p element mid v r' := by
  -- every element takes bytes, so the induction is on what is left of the budget
  induction hleft : stop - r.offset using Nat.strong_induction_on generalizing r vs with
  | h left ih =>
    cases h with
    | done _ hstop => exact .inl (Nat.le_antisymm hr hstop)
    | @failed _ _ _ r₁ _ e _ hv herr =>
      by_cases he : e.isRecoverable
      · left
        rw [if_pos he]
        show min stop r₁.buffer.size = stop
        rw [hv.advances.buffer_eq]
        exact Nat.min_eq_left hbuffer
      · rw [if_neg he, herr] at hnone
        cases hnone
    | idle _ hv herr hoff =>
      have hpays := (hv.pays hp hsolid).lt herr
      omega
    | @next _ _ _ r₁ _ v vs hlt hv herr _ h =>
      have hpays := (hv.pays hp hsolid).lt herr
      rcases Nat.lt_or_ge stop r₁.offset with hover | hunder
      · right
        -- the loop has nothing more to do behind the end of its budget
        cases h with
        | done => exact ⟨[], v, r, rfl, .refl r, hlt, hover, hv⟩
        | failed hlt' => exact absurd hlt' (by omega)
        | idle hlt' => exact absurd hlt' (by omega)
        | next hlt' => exact absurd hlt' (by omega)
      · rw [← hv.advances.buffer_eq] at hbuffer
        rcases ih (stop - r₁.offset) (by omega) h hunder hbuffer rfl with
          hstop | ⟨before, w, mid, rfl, hmid, hbegin, hend, hw⟩
        · exact .inl hstop
        · exact .inr ⟨v :: before, w, mid, rfl, hv.advances.trans hmid, hbegin, hend, hw⟩

namespace Codec

variable {verifyCrc : Bool} {text : String} {compiled : Compiled} {o : Overflow} {c : Codec}
  {typeName : String}

theorem decodeSolid_of_link (hcompile : compile verifyCrc text = .ok compiled)
    (hlink : link compiled.program o = .ok c) : c.program.DecodeSolid := by
  rw [(link_eq_ok hlink).1]
  exact decodeSolid_of_compile hcompile

/-- **Where a size array ends.**  On every reader without an error that stands in front of a budget
of `n` bytes which are all there, decoding gives a list.  If it leaves no error, the reader is right
behind the budget, or the last element of the list began within the budget and ended beyond it. -/
theorem decodeBy_sizeArray_stops (hcompile : compile verifyCrc text = .ok compiled)
    (hs : compiled.schema.Grounded) (hlink : link compiled.program o = .ok c) {element : DecodeOp}
    (hreach : c.program.Reaches (.call typeName) (.sizeArray element)) {r : Reader}
    (hr : r.error = none) {n : Nat}
    (hn : (BigEndian.decode .int32 (r.buffer.extract r.offset (r.offset + 4))).toInt = n)
    (hfits : r.offset + 4 + n ≤ r.buffer.size) :
    ∃ vs r', c.decodeBy (.sizeArray element) r = some (.list vs, r') ∧
      (r'.error = none →
        r'.offset = r.offset + 4 + n ∨
          ∃ before v mid, vs = before ++ [v] ∧ mid.buffer = r.buffer ∧ mid.error = none ∧
            mid.offset < r.offset + 4 + n ∧ r.offset + 4 + n < r'.offset ∧
            c.decodeBy element mid = some (v, r')) := by
  have hemit := emit_eq_of_link hcompile hlink
  have hsolid := decodeSolid_of_link hcompile hlink
  obtain ⟨v, r', hdecodes, hrun⟩ := exists_decodeBy hemit hs (.sizeArray element) r
  have hle : IntKind.int32.bytes ≤ r.remaining := by
    show 4 ≤ r.buffer.size - r.offset
    omega
  have hread := Reader.readInt_eq_of_take (k := .int32) (Reader.take_of_le hr hle)
  cases hdecodes with
  | noHeader hsize herr =>
    cases hread.symm.trans hsize
    rw [hr] at herr
    cases herr
  | sizeArray hsize herr h =>
    cases hread.symm.trans hsize
    refine ⟨_, r', hrun, fun hnone => ?_⟩
    have hbudget : (BigEndian.decode .int32 (r.buffer.extract r.offset
        (r.offset + 4))).toInt.toNat = n := by
      rw [hn, Int.toNat_natCast]
    replace h : DecodesWithin c.program element (r.offset + 4 + n)
        { r with offset := r.offset + 4 } _ r' := hbudget ▸ h
    rcases h.stops hsolid (hreach.solid_element hsolid) (Nat.le_add_right _ _) hfits hnone with
      hstop | ⟨before, v, mid, hvs, hmid, hbegin, hend, hv⟩
    · exact .inl hstop
    · exact .inr ⟨before, v, mid, hvs, hmid.buffer_eq, hv.error_eq_none hnone, hbegin, hend,
        (decodeBy_eq_some_iff hemit hs).2 hv⟩

end Codec

namespace Items

/-- Numbers behind the size of all of them. -/
def source : String := "Items = \x7bint16\x7d"

/-- What the grammar of numbers compiles to. -/
def compiled : Compiled where
  grammar := { decls := [⟨"Items", .node .sequence [.node .sizeArray [.leaf "int16"]]⟩] }
  schema := { decls := [⟨"Items", .array (.scalar (.int .int16)) .size⟩] }
  program := {
    routines := [
      ⟨"Items", .sizeArray (.write (.int .int16)), .sizeArray (.read (.int .int16))⟩]
    skipped := [] }

theorem compile_source : compile true source = .ok compiled :=
  compile_of_parse? (by decide +kernel) (by cbv) rfl

theorem grounded : compiled.schema.Grounded :=
  Schema.grounded_of_rank (fun _ => 0) (by simp [compiled, Ty.inlineRefs])

/-- A codec for numbers. -/
def codec : Codec := { program := compiled.program }

theorem link_program : Codec.link compiled.program .reject = .ok codec := rfl

theorem reaches_sizeArray :
    codec.program.Reaches (.call "Items") (.sizeArray (.read (.int .int16))) :=
  .single (.routine (t := ⟨"Items", .sizeArray (.write (.int .int16)),
    .sizeArray (.read (.int .int16))⟩) rfl)

/-- Two numbers behind a budget of `n` bytes. -/
def reader (n : UInt8) : Reader where
  buffer := ⟨#[0, 0, 0, n, 1, 2, 3, 4]⟩

end Items

/-- With a budget of two bytes the first number is all that is decoded. -/
theorem Codec.decodeBy_sizeArray_stops_items :
    ∃ vs r', Items.codec.decodeBy (.sizeArray (.read (.int .int16))) (Items.reader 2) =
      some (.list vs, r') ∧ r'.error = none ∧ r'.offset = 6 := by
  obtain ⟨vs, r', hrun, hstop⟩ := decodeBy_sizeArray_stops Items.compile_source Items.grounded
    Items.link_program Items.reaches_sizeArray (r := Items.reader 2) rfl (n := 2) rfl (by decide)
  have hfirst : Items.codec.decodeBy (.sizeArray (.read (.int .int16))) (Items.reader 2) =
      some (.list [.int .int16 0x102], { Items.reader 2 with offset := 6 }) := rfl
  cases hfirst.symm.trans hrun
  refine ⟨_, _, hrun, rfl, ?_⟩
  rcases hstop rfl with hstop | ⟨-, -, -, -, -, -, -, hend, -⟩
  · exact hstop
  · exact absurd hend (Nat.lt_irrefl 6)

/-- **An array need not end where its budget ends.**  With a budget of one byte the first number is
decoded all the same, and what comes next is read from one byte too far. -/
theorem Codec.decodeBy_sizeArray_straddles :
    compile true Items.source = .ok Items.compiled ∧ Items.compiled.schema.Grounded ∧
      link Items.compiled.program .reject = .ok Items.codec ∧
      Items.codec.program.Reaches (.call "Items") (.sizeArray (.read (.int .int16))) ∧
      (BigEndian.decode .int32 ((Items.reader 1).buffer.extract 0 4)).toInt = 1 ∧
      Items.codec.decodeBy (.sizeArray (.read (.int .int16))) (Items.reader 1) =
        some (.list [.int .int16 0x102], { Items.reader 1 with offset := 4 + 1 + 1 }) :=
  ⟨Items.compile_source, Items.grounded, Items.link_program, Items.reaches_sizeArray, rfl, rfl⟩

/-! ## Elements in front of one that fails -/

namespace Codec

variable {verifyCrc : Bool} {text : String} {compiled : Compiled} {o : Overflow} {c : Codec}
  {typeName : String}

/-- **What is left of a size array.**  Where the bytes of some values come first and then an element
fails within the budget, decoding gives what comes back of these values, neither more nor less,
whatever bytes follow and wherever the buffer ends.  An error of the input is forgotten, and the
reader goes to the end of the budget or of the buffer.  An error of the routine stays, with the
reader where it is. -/
theorem decodeBy_sizeArray_prefix (hcompile : compile verifyCrc text = .ok compiled)
    (hs : compiled.schema.Grounded) (hlink : link compiled.program o = .ok c) {element : EncodeOp}
    (hreach : c.program.Reaches (.call typeName) (.sizeArray (element.mirror verifyCrc)))
    {xs : List Value} {b : ByteArray}
    (hxs : layoutAll (fun x => (c.encodeBy element x).toOption) xs = some b) {n : Nat}
    (hb : b.size < n) (hn : n ≤ Writer.maxCount) {buffer before rest : ByteArray}
    (hbuffer : buffer = before ++ (BigEndian.encode .int32 (BitVec.ofNat 32 n) ++ b) ++ rest)
    {v : Value} {r' : Reader} {e : DecodeError}
    (hfail : c.decodeBy (element.mirror verifyCrc)
      { buffer, offset := before.size + 4 + b.size } = some (v, r'))
    (he : r'.error = some e) :
    c.decodeBy (.sizeArray (element.mirror verifyCrc)) { buffer, offset := before.size } =
      some (.list (xs.map (c.normBy element)),
        if e.isRecoverable then { buffer, offset := min (before.size + 4 + n) buffer.size }
        else r') := by
  have hemit := emit_eq_of_link hcompile hlink
  have hencode : ∀ {x a}, (c.encodeBy element x).toOption = some a →
      c.encodeBy element x = .ok a := by
    intro x a ha
    cases hx : c.encodeBy element x with
    | error e => simp [hx, Except.toOption] at ha
    | ok a' => simpa [hx, Except.toOption] using ha
  have hop : element.Solid := (element.solid_mirror verifyCrc).1
    (hreach.solid_element (decodeSolid_of_link hcompile hlink))
  have hfaces : Reader.Faces { buffer, offset := before.size }
      (BigEndian.encode .int32 (BitVec.ofNat 32 n) ++ b) := ⟨rfl, before, rest, hbuffer, rfl⟩
  obtain ⟨hsize, helements, -⟩ := hfaces.readInt_append (k := .int32)
  have hlast := (decodeBy_eq_some_iff hemit hs).1 hfail
  have hskip : (r'.setError none).skipTo (before.size + 4 + n) =
      { buffer, offset := min (before.size + 4 + n) buffer.size } := by
    rw [Reader.setError, Reader.skipTo, hlast.advances.buffer_eq]
  have hstop : DecodesWithin c.program (element.mirror verifyCrc) (before.size + 4 + n)
      { buffer, offset := before.size + 4 + b.size } []
      (if e.isRecoverable then { buffer, offset := min (before.size + 4 + n) buffer.size }
        else r') := by
    rw [← hskip]
    exact .failed (Nat.add_lt_add_left hb _) hlast he
  have hall := decodesWithin_append
    (fun x a ha => size_encodeBy_pos hcompile hlink hop (hencode ha))
    (fun x a ha hle => inverts_encodeBy hcompile hlink hop (hencode ha) (by omega)) hxs helements
    (Nat.add_le_add_left (Nat.le_of_lt hb) _) hstop
  rw [List.append_nil] at hall
  exact (decodeBy_eq_some_iff hemit hs).2 (decodes_sizeArray hn hsize rfl hall)

end Codec

namespace Tree

theorem reaches_sizeArray :
    codec.program.Reaches (.call "Top") (.sizeArray ((EncodeOp.call "Tree").mirror true)) := by
  have htree : codec.program.Reaches (.call "Tree") (.sizeArray (.call "Tree")) :=
    (Relation.ReflTransGen.single (.routine rfl)).tail (.body (.tail _ (.head _)))
  exact htree.head (.routine rfl)

/-- The bytes of two trees with nothing in them. -/
def twoLeaves : ByteArray :=
  ⟨#[0, 0, 0, 9, 0xd2, 0x02, 0xef, 0x8d, 0, 0, 0, 0, 0,
    0, 0, 0, 9, 0xd2, 0x02, 0xef, 0x8d, 0, 0, 0, 0, 0]⟩

theorem layoutAll_leaves :
    layoutAll (fun x => (codec.encodeBy (.call "Tree") x).toOption) [.struct [], .struct []] =
      some twoLeaves := by
  decide +kernel

/-- Two trees and the beginning of a third behind a budget of 30 bytes, of which 28 are there. -/
def cut : ByteArray :=
  ⟨#[1]⟩ ++ (BigEndian.encode .int32 (BitVec.ofNat 32 30) ++ twoLeaves) ++ ⟨#[0, 0]⟩

end Tree

/-- Two trees are left of a cut array, and the reader is at the end of the buffer. -/
theorem Codec.decodeBy_sizeArray_prefix_tree :
    Tree.codec.decodeBy (.sizeArray (.call "Tree")) { buffer := Tree.cut, offset := 1 } =
      some (.list ([.struct [], .struct []].map (Tree.codec.normBy (.call "Tree"))),
        { buffer := Tree.cut, offset := 33 }) := by
  have hemit := emit_eq_of_link Tree.compile_text Tree.link_program
  obtain ⟨v, r', -, hrun⟩ := exists_decodeBy hemit Tree.grounded (.call "Tree")
    { buffer := Tree.cut, offset := 31 }
  have herr : (Tree.codec.decodeBy (.call "Tree") { buffer := Tree.cut, offset := 31 }).map
      (·.2.error) = some (some .unexpectedEnd) := by decide +kernel
  rw [hrun] at herr
  exact decodeBy_sizeArray_prefix Tree.compile_text Tree.grounded Tree.link_program
    Tree.reaches_sizeArray Tree.layoutAll_leaves (n := 30) (by decide) (by decide) rfl hrun
    (Option.some.inj herr)

end WireGrammar
