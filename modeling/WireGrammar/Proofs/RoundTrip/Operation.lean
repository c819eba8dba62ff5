import WireGrammar.Proofs.Encode.Clipped
import WireGrammar.Proofs.RoundTrip.Codec

/-!
# Single operations

A codec encodes and decodes values of declared types.  The same can be asked of each operation on
the way, such as an array inside a type or an element of that array.

* `Codec.encodeBy`, `Codec.decodeBy` — encode and decode by one operation, with as many calls as a
  codec allows for.
* `Codec.normBy` — what comes back of a value that one operation encodes.  By a call, all three do
  what the codec does (`Codec.encodeBy_call`, `decodeBy_call`, `normBy_call`).
* `Codec.exists_decodeBy` — these calls are enough on every reader, and the result is the one that
  the rules without bounds give (`Codec.decodeBy_eq_some_iff`).
* `Codec.inverts_encodeBy` — the mirror image of an operation takes exactly the bytes of a value.
-/

set_option autoImplicit false
namespace WireGrammar
namespace Codec

/-- The bytes that an operation makes of a value. -/
def encodeBy (c : Codec) (op : EncodeOp) (v : Value) : Except CodecError ByteArray :=
  match (op.run (c.program.encode (c.callBound * (v.depth + 1))) (some v)).exec
      { overflow := c.overflow } with
  | (.error e, _) => .error e
  | (.ok (), w) => w.finish.mapError .encode

/-- The value that an operation decodes, and the reader that it leaves; `none` if it ran out of
calls. -/
def decodeBy (c : Codec) (op : DecodeOp) (r : Reader) : Option (Value × Reader) :=
  (op.run (c.program.decode (c.callBound * (r.remaining + 1)))).run r

/-- What comes back of a value that an operation encodes: the normal form of what the policy of the
codec keeps of it. -/
def normBy (c : Codec) (op : EncodeOp) (v : Value) : Value :=
  let fuel := c.callBound * (v.depth + 1)
  op.norm (c.program.layout .reject fuel) (c.program.norm fuel) (some (c.overflow.keep v))

/-- A codec encodes the values of a type by a call. -/
theorem encodeBy_call (c : Codec) (typeName : String) (v : Value) :
    c.encodeBy (.call typeName) v = c.encode typeName v := rfl

/-- A codec decodes the values of a type by a call. -/
theorem decodeBy_call {c : Codec} {typeName : String} (ht : (c.program.routine? typeName).isSome)
    (r : Reader) : c.decodeBy (.call typeName) r = (c.decodeFrom typeName r).toOption := by
  obtain ⟨t, ht⟩ := Option.isSome_iff_exists.1 ht
  simp only [decodeBy, DecodeOp.run, decodeFrom, ht]
  split
  · next h => rw [h, Except.toOption]
  · next h => rw [h, Except.toOption]

theorem normBy_call (c : Codec) (typeName : String) (v : Value) :
    c.normBy (.call typeName) v = c.norm typeName (c.overflow.keep v) := by
  rw [normBy, norm, Overflow.depth_keep]
  rfl

/-! ## Decoding -/

section Decoding

variable {s : Schema} {verifyCrc : Bool} {c : Codec}

/-- **An operation has enough calls on every reader**, and its result is the one that the rules
without bounds give. -/
theorem exists_decodeBy (hp : s.emit verifyCrc = .ok c.program) (hs : s.Grounded) (op : DecodeOp)
    (r : Reader) : ∃ v r', Decodes c.program op r v r' ∧ c.decodeBy op r = some (v, r') := by
  obtain ⟨rank, hrank⟩ := hs.exists_decodeRank hp
  have henough : ∀ name (r' : Reader), r'.remaining ≤ r.remaining →
      DecodeM.Ends (c.program.decode (c.callBound * (r.remaining + 1)) name) r' := by
    intro name r' hr'
    have hle := hrank.le name
    have hmul := Nat.mul_le_mul_left (c.program.routines.length + 1) hr'
    refine hrank.decode_ends _ name r' ?_
    rw [callBound, Nat.mul_succ]
    omega
  obtain ⟨⟨v, r'⟩, hv⟩ := op.run_ends (c.program.decode_advancing _) r
    (fun name _ r' hr' => henough name r' hr'.remaining_le)
    (fun name r' hr' => henough name r' (Nat.le_of_lt hr'))
  have hdecodes := DecodeOp.decodes_of_run (c.program.decode_advancing _)
    (c.program.decodes_of_decode _) op r v r' hv
  exact ⟨v, r', hdecodes, hv⟩

theorem decodeBy_eq_some_iff (hp : s.emit verifyCrc = .ok c.program) (hs : s.Grounded)
    {op : DecodeOp} {r r' : Reader} {v : Value} :
    c.decodeBy op r = some (v, r') ↔ Decodes c.program op r v r' := by
  obtain ⟨v', r'', hdecodes, hrun⟩ := exists_decodeBy hp hs op r
  constructor
  · intro h
    cases hrun.symm.trans h
    exact hdecodes
  · intro h
    obtain ⟨rfl, rfl⟩ := h.unique hdecodes
    exact hrun

end Decoding

/-! ## Encoding -/

section Encoding

variable {verifyCrc : Bool} {text : String} {compiled : Compiled} {o : Overflow} {c : Codec}
  {op : EncodeOp} {v : Value} {b : ByteArray}

/-- The bytes of a value are its layout. -/
theorem encodeBy_eq_ok :
    c.encodeBy op v = .ok b ↔
      op.layout c.overflow (c.program.layout c.overflow (c.callBound * (v.depth + 1))) (some v) =
        some b := by
  obtain ⟨out, hout, hspec⟩ := op.run_writes
    (c.program.encode_writes c.overflow (c.callBound * (v.depth + 1))) (some v)
  rw [encodeBy, hout _ rfl, ← hspec]
  obtain ⟨_ | _, bytes, _ | _⟩ := out <;>
    simp [Output.accepted, Writer.finish, Writer.extend, Except.mapError]

theorem solid_of_link (hcompile : compile verifyCrc text = .ok compiled)
    (hlink : link compiled.program o = .ok c) : c.program.Solid := by
  rw [(link_eq_ok hlink).1]
  exact solid_of_compile hcompile

/-- A value takes bytes, unless it is a struct without fields. -/
theorem size_encodeBy_pos (hcompile : compile verifyCrc text = .ok compiled)
    (hlink : link compiled.program o = .ok c) (hop : op.Solid) (hv : c.encodeBy op v = .ok b) :
    0 < b.size := by
  have hsolid := solid_of_link hcompile hlink
  exact EncodeOp.layout_pos (fun _ _ _ => c.program.layout_pos hsolid) hop (encodeBy_eq_ok.1 hv)

/-- **The mirror image of an operation takes exactly the bytes of a value**, wherever it meets
them. -/
theorem inverts_encodeBy (hcompile : compile verifyCrc text = .ok compiled)
    (hlink : link compiled.program o = .ok c) (hop : op.Solid) (hv : c.encodeBy op v = .ok b)
    (hb : b.size ≤ Writer.maxCount) :
    Inverts c.program (op.mirror verifyCrc) b (c.normBy op v) := by
  have hemit := emit_eq_of_link hcompile hlink
  have hsolid := solid_of_link hcompile hlink
  have hlayout := encodeBy_eq_ok.1 hv
  rw [← EncodeOp.layout_keep] at hlayout
  exact EncodeOp.inverts_mirror
    (fun _ _ _ => Program.inverts_call (fun _ _ => compiled.schema.mirror_of_emit hemit) hsolid)
    (fun _ _ _ => c.program.layout_pos hsolid) hop hlayout hb

end Encoding

end Codec
end WireGrammar
