import WireGrammar.Proofs.Decode.Termination
import WireGrammar.Proofs.Encode.Refinement
import WireGrammar.Proofs.Grammar.Filled
import WireGrammar.Proofs.RoundTrip.Inversion
import WireGrammar.Proofs.Routine.References

/-!
# Codecs give values back

What a codec of a compiled grammar encodes, it decodes again, in the middle of any other bytes.

* `Codec.inverts` — decoding a type takes exactly the bytes of a value and gives its normal form.
* `Codec.decodeFrom_encode` — so does a codec on any reader that stands in front of these bytes.
-/

set_option autoImplicit false
namespace WireGrammar
namespace Codec

variable {verifyCrc : Bool} {text : String} {compiled : Compiled} {c : Codec} {typeName : String}
  {v : Value} {b : ByteArray}

/-- A linked codec runs the emitted program. -/
theorem emit_eq_of_link {o : Overflow} (hcompile : compile verifyCrc text = .ok compiled)
    (hlink : link compiled.program o = .ok c) :
    compiled.schema.emit verifyCrc = .ok c.program := by
  obtain ⟨-, -, hemit⟩ := compile_eq_ok hcompile
  rwa [(link_eq_ok hlink).1]

/-- What has a layout has a routine. -/
theorem isSome_routine?_of_encode (hv : c.encode typeName v = .ok b) :
    (c.program.routine? typeName).isSome := by
  obtain ⟨n, r, -, hr, -⟩ := Program.layout_eq_some (encode_eq_ok.1 hv)
  rw [hr]
  rfl

/-- **Decoding a type takes exactly the bytes of a value**, wherever it meets them. -/
theorem inverts (hcompile : compile verifyCrc text = .ok compiled)
    (hlink : link compiled.program .reject = .ok c) (hv : c.encode typeName v = .ok b)
    (hb : b.size ≤ Writer.maxCount) : Inverts c.program (.call typeName) b (c.norm typeName v) := by
  obtain ⟨hprogram, hoverflow⟩ := link_eq_ok hlink
  have hemit := emit_eq_of_link hcompile hlink
  have hlayout := encode_eq_ok.1 hv
  rw [hoverflow] at hlayout
  have hsolid : c.program.Solid := by
    rw [hprogram]
    exact solid_of_compile hcompile
  exact Program.inverts_call (fun name r hr => compiled.schema.mirror_of_emit hemit hr) hsolid
    hlayout hb

/-- A reader in front of the bytes decodes the normal form and moves past them. -/
theorem decodeFrom_of_faces (hcompile : compile verifyCrc text = .ok compiled)
    (hs : compiled.schema.Grounded) (hlink : link compiled.program .reject = .ok c)
    (hv : c.encode typeName v = .ok b) (hb : b.size ≤ Writer.maxCount) {r : Reader}
    (hr : r.Faces b) : c.decodeFrom typeName r = .ok (c.norm typeName v, r.skip b.size) := by
  exact decodeFrom_of_decodes (emit_eq_of_link hcompile hlink) hs (isSome_routine?_of_encode hv)
    (inverts hcompile hlink hv hb r hr)

theorem faces_whole (b : ByteArray) : ({ buffer := b } : Reader).Faces b :=
  ⟨rfl, .empty, .empty, by rw [ByteArray.empty_append, ByteArray.append_empty], rfl⟩

/-- Nothing is left behind the whole of the bytes. -/
theorem complete_whole (b : ByteArray) :
    complete (({ buffer := b } : Reader).skip b.size) = .ok () := by
  have hrest : ¬ 0 < (({ buffer := b } : Reader).skip b.size).remaining := by
    rw [Reader.remaining, Reader.offset_skip]
    show ¬ 0 < b.size - (0 + b.size)
    omega
  rw [complete_of_none (Reader.error_skip _ _), if_neg hrest]

/-- **Round trip in any context.**  For every grammar that compiles, without a reference cycle that
avoids every array: a value that encodes is decoded from its bytes as its normal form, whatever
stands before and after them, and the reader ends up right behind them without an error. -/
theorem decodeFrom_encode (hcompile : compile verifyCrc text = .ok compiled)
    (hs : compiled.schema.Grounded) (hlink : link compiled.program .reject = .ok c)
    (hv : c.encode typeName v = .ok b) (hb : b.size < 2 ^ 31) :
    (∀ before after : ByteArray,
      c.decodeFrom typeName { buffer := before ++ b ++ after, offset := before.size } =
        .ok (c.norm typeName v,
          { buffer := before ++ b ++ after, offset := before.size + b.size, error := none })) ∧
    c.decode typeName b = .ok (c.norm typeName v) := by
  have hmax : b.size ≤ Writer.maxCount := by
    rw [Writer.maxCount]
    omega
  refine ⟨fun before after => ?_, ?_⟩
  · exact decodeFrom_of_faces hcompile hs hlink hv hmax ⟨rfl, before, after, rfl, rfl⟩
  · rw [decode, decodeFrom_of_faces hcompile hs hlink hv hmax (faces_whole b)]
    simp only [complete_whole]

end Codec

namespace Tree

/-- The grammar of trees. -/
def text : String :=
  "Tree = Size:int32 Mark \x7bTree\x7d; Mark = CRC:uint32 v:int8; Top = Tree;"

/-- What the grammar of trees compiles to. -/
def compiled : Compiled where
  grammar := {
    decls := [
      ⟨"Tree", .node .sequence [{ Expr.leaf "int32" with label := some "Size" }, .leaf "Mark",
        .node .sizeArray [.leaf "Tree"]]⟩,
      ⟨"Mark", .node .sequence [{ Expr.leaf "uint32" with label := some "CRC" },
        { Expr.leaf "int8" with label := some "v" }]⟩,
      ⟨"Top", .node .sequence [.leaf "Tree"]⟩] }
  schema := schema
  program := program

theorem compile_text : compile true text = .ok compiled :=
  compile_of_parse? (by decide +kernel) (by cbv) rfl

theorem link_program : Codec.link program .reject = .ok codec := rfl

/-- The bytes of the tree: its size, its mark with a checksum, and the size of the two trees in
it. -/
def bytes : ByteArray :=
  ⟨#[0, 0, 0, 35, 0xd2, 0x02, 0xef, 0x8d, 0, 0, 0, 0, 26,
    0, 0, 0, 9, 0xd2, 0x02, 0xef, 0x8d, 0, 0, 0, 0, 0,
    0, 0, 0, 9, 0xd2, 0x02, 0xef, 0x8d, 0, 0, 0, 0, 0]⟩

/-- What comes back of the tree. -/
def filled : Value :=
  let mark : Field Value :=
    ⟨"Mark", .struct [⟨"CRC", .int .uint32 0xd202ef8d⟩, ⟨"v", .int .int8 0⟩]⟩
  let leaf : Value := .struct [mark, ⟨"Size", .int .int32 9⟩, ⟨"Trees", .list []⟩]
  .struct [mark, ⟨"Size", .int .int32 35⟩, ⟨"Trees", .list [leaf, leaf]⟩]

theorem encode_value : codec.encode "Top" value = .ok bytes := by decide +kernel

end Tree

theorem Codec.decodeFrom_encode_tree :
    Tree.codec.encode "Top" Tree.value = .ok Tree.bytes ∧
      Tree.codec.decode "Top" Tree.bytes = .ok (Tree.codec.norm "Top" Tree.value) ∧
      Tree.codec.norm "Top" Tree.value = Tree.filled := by
  have h := decodeFrom_encode Tree.compile_text Tree.grounded Tree.link_program Tree.encode_value
    (by decide)
  exact ⟨Tree.encode_value, h.2, by decide +kernel⟩

end WireGrammar
