import WireGrammar.Proofs.Encode.Enough
import WireGrammar.Proofs.RoundTrip.Codec
import WireGrammar.Proofs.RoundTrip.Soundness

/-!
# Accepted bytes have a canonical form

A decoder is lenient: it takes a negative count or length as zero, drops what a size array cannot
hold, and may leave checksums alone.  So many byte sequences can stand for one value.  Encoding the
value gives bytes that are no longer than any of these, and that stay as they are when they are
decoded and encoded again.

* `Codec.exists_stable_of_decode` — an accepted value has a layout no longer than its bytes.
* `Codec.canonical_of_decode` — the layout is a fixed point of decoding and encoding.
-/

set_option autoImplicit false
namespace WireGrammar
namespace Codec

variable {verifyCrc : Bool} {text : String} {compiled : Compiled} {c : Codec} {typeName : String}
  {v : Value} {b : ByteArray}

theorem regular_of_compile (hcompile : compile verifyCrc text = .ok compiled)
    (hlink : link compiled.program .reject = .ok c) : c.program.Regular verifyCrc where
  mirror _ _ ht := compiled.schema.mirror_of_emit (emit_eq_of_link hcompile hlink) ht
  distinct := by
    rw [(link_eq_ok hlink).1]
    exact distinct_of_compile hcompile

/-- **An accepted value has a layout no longer than its bytes.** -/
theorem exists_stable_of_decode (hp : c.program.Regular verifyCrc)
    (h : c.decode typeName b = .ok v) :
    ∃ b', Stable c.program (.call typeName) v b' ∧ b'.size ≤ b.size := by
  obtain ⟨-, r', hdecodes, herr, -, hoffset⟩ := exists_decodes_of_decode h
  have hmirror : (EncodeOp.call typeName).mirror verifyCrc = .call typeName := by
    rw [EncodeOp.mirror]
  have hdistinct : (EncodeOp.call typeName).Distinct := by
    rw [EncodeOp.Distinct]
    trivial
  obtain ⟨b', hb', hle⟩ := hdecodes.stable hp hmirror hdistinct (Nat.zero_le _) herr
  rw [hoffset, Nat.zero_add] at hle
  exact ⟨b', hb', hle⟩

/-- Bytes that decoding inverts are accepted. -/
theorem decode_of_inverts (hcompile : compile verifyCrc text = .ok compiled)
    (hs : compiled.schema.Grounded) (hlink : link compiled.program .reject = .ok c)
    (ht : (c.program.routine? typeName).isSome) (h : Inverts c.program (.call typeName) b v) :
    c.decode typeName b = .ok v := by
  rw [decode, decodeFrom_of_decodes (emit_eq_of_link hcompile hlink) hs ht (h _ (faces_whole b))]
  simp only [complete_whole]

/-- **Accepted bytes have a canonical form.**  For every grammar that compiles, without a reference
cycle that avoids every array: a value that is decoded encodes again, in no more bytes than it was
read from.  These bytes are decoded as a value that differs from it in the slots of framed structs
at most, and that value encodes as the same bytes. -/
theorem canonical_of_decode (hcompile : compile verifyCrc text = .ok compiled)
    (hs : compiled.schema.Grounded) (hlink : link compiled.program .reject = .ok c)
    (hb : b.size < 2 ^ 31) (h : c.decode typeName b = .ok v) :
    ∃ b' v', c.encode typeName v = .ok b' ∧ b'.size ≤ b.size ∧
      c.decode typeName b' = .ok v' ∧ EqUpToSlots c.program (.call typeName) v v' ∧
      c.encode typeName v' = .ok b' := by
  obtain ⟨hprogram, hoverflow⟩ := link_eq_ok hlink
  have hemit := emit_eq_of_link hcompile hlink
  have hregular := regular_of_compile hcompile hlink
  have hgrounded := hs.program hemit
  have hsolid : c.program.Solid := by
    rw [hprogram]
    exact solid_of_compile hcompile
  obtain ⟨b', ⟨n, hn⟩, hle⟩ := exists_stable_of_decode hregular h
  obtain ⟨hlayout, heq⟩ := hn n (Nat.le_refl n)
  -- the layout of the value that comes back is found with the same number of calls
  have hlayout' := heq.layout_eq hregular.distinct .reject (by rw [EncodeOp.Distinct]; trivial) n
  rw [hlayout] at hlayout'
  simp only [EncodeOp.layout, EncodeOp.norm] at hlayout hlayout' heq
  have hmax : b'.size ≤ Writer.maxCount := by
    rw [Writer.maxCount]
    omega
  have hinverts := Program.inverts_call hregular.mirror hsolid hlayout hmax
  rw [← hoverflow] at hlayout hlayout'
  refine ⟨b', _, encode_of_layout hgrounded hlayout, hle, ?_, heq,
    encode_of_layout hgrounded hlayout'.symm⟩
  exact decode_of_inverts hcompile hs hlink (exists_decodes_of_decode h).1 hinverts

end Codec

/-- The bytes of a tree with nothing in it. -/
def Tree.leafBytes : ByteArray :=
  ⟨#[0, 0, 0, 9, 0xd2, 0x02, 0xef, 0x8d, 0, 0, 0, 0, 0]⟩

/-- A tree that promises bytes which are not there is written as one that promises none. -/
theorem Codec.canonical_of_decode_tree :
    Tree.codec.decode "Top" Tree.cutBytes = .ok Tree.cutValue ∧
      Tree.codec.encode "Top" Tree.cutValue = .ok Tree.leafBytes ∧
      ∃ v', Tree.codec.decode "Top" Tree.leafBytes = .ok v' ∧
        EqUpToSlots Tree.program (.call "Top") Tree.cutValue v' ∧
        Tree.codec.encode "Top" v' = .ok Tree.leafBytes := by
  have hleaf : Tree.codec.encode "Top" Tree.cutValue = .ok Tree.leafBytes := by decide +kernel
  obtain ⟨b', v', hb', -, hv', heq, hback⟩ := canonical_of_decode Tree.compile_text Tree.grounded
    Tree.link_program (by decide) Tree.decode_cutBytes
  cases hleaf.symm.trans hb'
  exact ⟨Tree.decode_cutBytes, hleaf, v', hv', heq, hback⟩

end WireGrammar
