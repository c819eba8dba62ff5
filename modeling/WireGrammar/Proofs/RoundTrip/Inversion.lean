import WireGrammar.Bytes.Lemmas
import WireGrammar.Proofs.Decode.Evaluation
import WireGrammar.Proofs.RoundTrip.Norm

/-!
# Decoding undoes the layout

A decode operation that stands in front of the layout of a value takes exactly the bytes of the
layout and makes of them what should come back, whatever stands before and after.

* `Reader.Faces r b` — nothing has gone wrong and the next bytes are `b`.
* `Inverts p op b v` — decoding by `op` takes the bytes `b` and gives `v`.
* `decodesCount_items`, `decodesWithin_items` — the loops over the elements of arrays find as many
  elements as have been written.  For the one that counts bytes, every element must take some; it
  may also go on behind them (`decodesWithin_append`).
* `EncodeOp.inverts_mirror`, `Program.inverts_call` — the mirror image of an operation inverts it,
  and so does a routine.
-/

set_option autoImplicit false
namespace WireGrammar

/-! ## Readers in front of bytes -/

/-- The bytes of a text are read as the text. -/
theorem Text.fromUTF8?_toUTF8 (s : String) : String.fromUTF8? s.toUTF8 = some s := by
  rw [String.fromUTF8?, dif_pos (show s.toUTF8.IsValidUTF8 from s.isValidUTF8)]
  rfl

namespace Reader

/-- Move on by `n` bytes. -/
def skip (r : Reader) (n : Nat) : Reader :=
  { r with offset := r.offset + n }

@[simp] theorem error_skip (r : Reader) (n : Nat) : (r.skip n).error = r.error := rfl

@[simp] theorem offset_skip (r : Reader) (n : Nat) : (r.skip n).offset = r.offset + n := rfl

theorem skip_skip (r : Reader) (m n : Nat) : (r.skip m).skip n = r.skip (m + n) := by
  rw [skip, skip, skip, Nat.add_assoc]

theorem skip_append (r : Reader) (a b : ByteArray) :
    r.skip (a ++ b).size = (r.skip a.size).skip b.size := by
  rw [skip_skip, ByteArray.size_append]

/-- Nothing has gone wrong, and the next bytes are `b`. -/
structure Faces (r : Reader) (b : ByteArray) : Prop where
  error_eq : r.error = none
  exists_buffer_eq : ∃ before after, r.buffer = before ++ b ++ after ∧ r.offset = before.size

theorem Faces.left {r : Reader} {a b : ByteArray} (h : r.Faces (a ++ b)) : r.Faces a := by
  obtain ⟨herr, before, after, hbuffer, hoffset⟩ := h
  exact ⟨herr, before, b ++ after, by simpa only [ByteArray.append_assoc] using hbuffer, hoffset⟩

theorem Faces.right {r : Reader} {a b : ByteArray} (h : r.Faces (a ++ b)) :
    (r.skip a.size).Faces b := by
  obtain ⟨herr, before, after, hbuffer, hoffset⟩ := h
  refine ⟨herr, before ++ a, after, ?_, ?_⟩
  · simpa only [skip, ByteArray.append_assoc] using hbuffer
  · rw [offset_skip, hoffset, ByteArray.size_append]

theorem Faces.take {r : Reader} {b : ByteArray} (h : r.Faces b) :
    r.take b.size = (some b, r.skip b.size) := by
  obtain ⟨herr, before, after, hbuffer, hoffset⟩ := h
  obtain ⟨buffer, offset, error⟩ := r
  cases herr
  cases hbuffer
  cases hoffset
  exact take_append before b after

theorem Faces.window {r : Reader} {b : ByteArray} (h : r.Faces b) :
    (r.skip b.size).window r.offset (r.skip b.size).offset = b := by
  have htake := h.take
  rw [Reader.take, h.error_eq] at htake
  simp only at htake
  split at htake
  · exact Option.some.inj (Prod.mk.inj htake).1
  · cases (Prod.mk.inj htake).1

/-- **An integer is read back.** -/
theorem Faces.readInt {r : Reader} {k : IntKind} {x : BitVec k.bits}
    (h : r.Faces (BigEndian.encode k x)) : r.readInt k = (x, r.skip k.bytes) := by
  have htake := h.take
  rw [BigEndian.size_encode] at htake
  simp only [Reader.readInt, htake, BigEndian.decode_encode]

/-- An integer and then bytes: the integer is read, and the bytes come next. -/
theorem Faces.readInt_append {r : Reader} {k : IntKind} {x : BitVec k.bits} {b : ByteArray}
    (h : r.Faces (BigEndian.encode k x ++ b)) :
    r.readInt k = (x, r.skip k.bytes) ∧ (r.skip k.bytes).Faces b ∧
      r.skip (BigEndian.encode k x ++ b).size = (r.skip k.bytes).skip b.size := by
  have hright := h.right
  have hskip := r.skip_append (BigEndian.encode k x) b
  rw [BigEndian.size_encode] at hright hskip
  exact ⟨h.left.readInt, hright, hskip⟩

theorem Faces.readText {r : Reader} {s : String} (hs : s.utf8ByteSize ≤ Writer.maxTextLength)
    (h : r.Faces (BigEndian.counted .uint16 s.toUTF8)) :
    r.readText = (s, r.skip (BigEndian.counted .uint16 s.toUTF8).size) := by
  obtain ⟨hread, hnext, hskip⟩ := h.readInt_append
  have hsize : (BitVec.ofNat IntKind.uint16.bits s.toUTF8.size).toNat = s.toUTF8.size := by
    rw [BitVec.toNat_ofNat]
    exact Nat.mod_eq_of_lt (Nat.lt_succ_of_le hs)
  rw [BigEndian.counted, hskip]
  simp only [Reader.readText, hread, hsize, hnext.take, Text.fromUTF8?_toUTF8]

theorem toNat_ofNat_of_le {n : Nat} (h : n ≤ Writer.maxCount) : (BitVec.ofNat 32 n).toNat = n := by
  rw [Writer.maxCount] at h
  rw [BitVec.toNat_ofNat]
  exact Nat.mod_eq_of_lt (by omega)

/-- A number that 31 bits can say is read back from a signed word. -/
theorem toInt_ofNat_of_le {n : Nat} (h : n ≤ Writer.maxCount) : (BitVec.ofNat 32 n).toInt = n := by
  have hn := toNat_ofNat_of_le h
  rw [Writer.maxCount] at h
  rw [BitVec.toInt_eq_toNat_of_lt (by omega), hn]

theorem toNat_toInt_ofNat_of_le {n : Nat} (h : n ≤ Writer.maxCount) :
    (BitVec.ofNat IntKind.int32.bits n).toInt.toNat = n := by
  rw [show (BitVec.ofNat IntKind.int32.bits n).toInt = n from toInt_ofNat_of_le h]
  exact Int.toNat_natCast n

theorem Faces.readBytes {r : Reader} {b : ByteArray} (hb : b.size ≤ Writer.maxCount)
    (h : r.Faces (BigEndian.counted .int32 b)) :
    r.readBytes = (b, r.skip (BigEndian.counted .int32 b).size) := by
  obtain ⟨hread, hnext, hskip⟩ := h.readInt_append
  rw [BigEndian.counted, hskip]
  simp only [Reader.readBytes, hread, toNat_toInt_ofNat_of_le hb, hnext.take]

/-- **A primitive is read back.** -/
theorem Faces.readPrimitive {r : Reader} {p : Primitive} {v : Value} {b : ByteArray}
    (hv : p.layout .reject v = some b) (h : r.Faces b) :
    r.readPrimitive p = (v, r.skip b.size) := by
  revert hv
  fun_cases Primitive.layout .reject p v with
  | case1 k x =>
    intro hb
    cases hb
    simp only [Reader.readPrimitive, h.readInt, BigEndian.size_encode]
  | case2 k l x hne => exact fun hb => nomatch hb
  | case3 s =>
    intro hb
    obtain ⟨t, ht, rfl⟩ := Option.map_eq_some_iff.1 hb
    rw [Overflow.kept] at ht
    split at ht
    · next hs =>
      cases ht
      simp only [Reader.readPrimitive, h.readText hs]
    · cases ht
  | case4 c hc =>
    intro hb
    cases hb
    simp only [Reader.readPrimitive, h.readBytes hc]
  | case5 c hc => exact fun hb => nomatch hb
  | case6 => exact fun hb => nomatch hb

/-- **The slot of a framed struct agrees with its body**, as long as 31 bits can say the size. -/
theorem Faces.verify {r : Reader} {b : ByteArray} (hb : b.size ≤ Writer.maxCount) (h : r.Faces b)
    (framing : Framing) (signed : Bool) :
    (r.skip b.size).verify framing signed (framing.measure b) r.offset = r.skip b.size := by
  have herr : (r.skip b.size).error = none := h.error_eq
  cases framing with
  | size =>
    have hdeclared : (IntKind.word signed).toInt (Framing.size.measure b) = b.size := by
      cases signed with
      | true => exact toInt_ofNat_of_le hb
      | false =>
        show ((BitVec.ofNat 32 b.size).toNat : Int) = b.size
        rw [toNat_ofNat_of_le hb]
    have hconsumed : (r.skip b.size).offset - r.offset = b.size := by
      rw [offset_skip, Nat.add_sub_cancel_left]
    simp only [Reader.verify, herr, hdeclared, hconsumed, if_true]
  | crc =>
    have hdeclared : UInt32.ofNat (Framing.crc.measure b).toNat = checksum b := by
      simp [Framing.measure]
    simp only [Reader.verify, herr, h.window]
    exact if_pos hdeclared

end Reader

/-! ## Decoding in front of bytes -/

/-- Decoding by `op` takes exactly the bytes `b`, wherever it meets them, and gives `v`. -/
def Inverts (p : Program) (op : DecodeOp) (b : ByteArray) (v : Value) : Prop :=
  ∀ r : Reader, r.Faces b → Decodes p op r v (r.skip b.size)

section Arrays

variable {p : Program} {element : DecodeOp} {item : Value → Option ByteArray}
  {norm : Value → Value}

/-- A length array behind a count that 31 bits can say. -/
theorem decodes_lengthArray {n : Nat} (hn : n ≤ Writer.maxCount) {r start r' : Reader}
    {vs : List Value} (hcount : r.readInt .int32 = (BitVec.ofNat IntKind.int32.bits n, start))
    (h : DecodesCount p element n start vs r') :
    Decodes p (.lengthArray element) r (.list vs) r' := by
  refine .lengthArray hcount ?_
  rwa [Reader.toNat_toInt_ofNat_of_le hn]

/-- A size array behind a size that 31 bits can say. -/
theorem decodes_sizeArray {n : Nat} (hn : n ≤ Writer.maxCount) {r start r' : Reader}
    {vs : List Value} (hsize : r.readInt .int32 = (BitVec.ofNat IntKind.int32.bits n, start))
    (herr : start.error = none) (h : DecodesWithin p element (start.offset + n) start vs r') :
    Decodes p (.sizeArray element) r (.list vs) r' := by
  refine .sizeArray hsize herr ?_
  rwa [Reader.toNat_toInt_ofNat_of_le hn]

/-- **As many elements are found as have been written.** -/
theorem decodesCount_items :
    ∀ {vs : List Value} {b : ByteArray},
      (∀ v a, item v = some a → a.size ≤ b.size → Inverts p element a (norm v)) →
      layoutAll item vs = some b → ∀ r : Reader, r.Faces b →
      DecodesCount p element vs.length r (vs.map norm) (r.skip b.size)
  | [], b, _, h, r, _ => by
    cases h
    exact .zero element r
  | v :: vs, b, hitem, h, r, hr => by
    obtain ⟨a, c, ha, hc, rfl⟩ := layoutAll_cons_eq_some h
    have hsize := ByteArray.size_append (a := a) (b := c)
    have hhead := hitem v a ha (by omega) r hr.left
    have htail := decodesCount_items (fun w a ha hle => hitem w a ha (by omega)) hc _ hr.right
    rw [r.skip_append]
    exact .next hhead hr.error_eq htail

/-- **Elements that have been written are found**, and then the loop goes on behind them, as far as
its bytes go.  It does not end too early because each of them takes at least one byte. -/
theorem decodesWithin_append (hpos : ∀ v a, item v = some a → 0 < a.size) :
    ∀ {vs : List Value} {b : ByteArray},
      (∀ v a, item v = some a → a.size ≤ b.size → Inverts p element a (norm v)) →
      layoutAll item vs = some b → ∀ {r r' : Reader} {stop : Nat} {ws : List Value}, r.Faces b →
      r.offset + b.size ≤ stop → DecodesWithin p element stop (r.skip b.size) ws r' →
      DecodesWithin p element stop r (vs.map norm ++ ws) r'
  | [], b, _, h, r, r', stop, ws, _, _, hrest => by
    cases h
    exact hrest
  | v :: vs, b, hitem, h, r, r', stop, ws, hr, hstop, hrest => by
    obtain ⟨a, c, ha, hc, rfl⟩ := layoutAll_cons_eq_some h
    have hsize := ByteArray.size_append (a := a) (b := c)
    have ha_pos := hpos v a ha
    have hhead := hitem v a ha (by omega) r hr.left
    rw [r.skip_append] at hrest
    have hle : (r.skip a.size).offset + c.size ≤ stop := by
      rw [Reader.offset_skip]
      omega
    have htail := decodesWithin_append hpos (fun w a ha hle => hitem w a ha (by omega)) hc
      hr.right hle hrest
    refine .next ?_ hhead hr.error_eq ?_ htail
    · omega
    · rw [Reader.offset_skip]
      omega

/-- **As many elements are found as have been written**, where only the number of their bytes is
known. -/
theorem decodesWithin_items (hpos : ∀ v a, item v = some a → 0 < a.size) {vs : List Value}
    {b : ByteArray}
    (hitem : ∀ v a, item v = some a → a.size ≤ b.size → Inverts p element a (norm v))
    (h : layoutAll item vs = some b) (r : Reader) (hr : r.Faces b) :
    DecodesWithin p element (r.offset + b.size) r (vs.map norm) (r.skip b.size) := by
  have hdone : DecodesWithin p element (r.offset + b.size) (r.skip b.size) [] (r.skip b.size) :=
    .done element (Nat.le_refl _)
  have hall := decodesWithin_append hpos hitem h hr (Nat.le_refl _) hdone
  rwa [List.append_nil] at hall

end Arrays

section Operations

variable {p : Program} {verifyCrc : Bool} {lay : String → Option Value → Option ByteArray}
  {call : String → Option Value → Value}

mutual

/-- **The mirror image of an operation inverts it**, if the routines that it calls are inverted and
take bytes. -/
theorem EncodeOp.inverts_mirror
    (hcall : ∀ name v b, lay name v = some b → b.size ≤ Writer.maxCount →
      Inverts p (.call name) b (call name v))
    (hpos : ∀ name v b, lay name v = some b → 0 < b.size) :
    ∀ {op : EncodeOp} {v : Option Value} {b : ByteArray}, op.Solid →
      op.layout .reject lay v = some b → b.size ≤ Writer.maxCount →
      Inverts p (op.mirror verifyCrc) b (op.norm lay call v)
  | .write q, v, b, _, h, _ => by
    intro r hr
    rw [layout] at h
    have hread := hr.readPrimitive h
    have hdecodes := Decodes.read (p := p) q r
    rwa [hread] at hdecodes
  | .writeAlias typeName q, v, b, _, h, _ => by
    intro r hr
    obtain ⟨x, hx, h⟩ := layout_writeAlias_eq_some h
    have hread := hr.readPrimitive h
    have hdecodes := Decodes.readAlias (p := p) typeName q r
    rw [hread] at hdecodes
    rwa [mirror, norm, hx]
  | .call name, v, b, _, h, hb => by
    rw [layout] at h
    rw [mirror, norm]
    exact hcall name v b h hb
  | .struct ops, v, b, hsolid, h, hb => by
    intro r hr
    rw [Solid] at hsolid
    obtain ⟨fields, hv, h⟩ := layout_struct_eq_some h
    simp only [mirror, norm, hv]
    exact .struct (decodesFields_mirrorFields hcall hpos hsolid.2 h hb [] r hr)
  | .framed framing signed body, v, b, hsolid, h, hb => by
    intro r hr
    rw [Solid] at hsolid
    obtain ⟨fields, c, hv, hlayout, rfl⟩ := layout_framed_eq_some h
    rw [ByteArray.size_append] at hb
    have hc : c.size ≤ Writer.maxCount := by omega
    obtain ⟨hslot, hbody, hskip⟩ := Reader.Faces.readInt_append (k := .word signed) hr
    have hfields := decodesFields_mirrorFields hcall hpos hsolid hlayout hc
      [⟨framing.fieldName, .int (.word signed) (framing.measure c)⟩] _ hbody
    have hdecodes := Decodes.framed (framing.verified verifyCrc) hslot hfields
    rw [hbody.verify hc, ite_self, ← hskip] at hdecodes
    simp only [mirror, norm, hv, hlayout]
    exact hdecodes
  | .lengthArray element, v, b, hsolid, h, hb => by
    intro r hr
    rw [Solid] at hsolid
    obtain ⟨items, c, hv, hlen, hlayout, rfl⟩ := layout_lengthArray_eq_some h
    rw [ByteArray.size_append] at hb
    obtain ⟨hcount, helements, hskip⟩ := Reader.Faces.readInt_append (k := .int32) hr
    have hitems := decodesCount_items (fun item a ha hle =>
      inverts_mirror hcall hpos hsolid ha (by omega)) hlayout _ helements
    have hdecodes := decodes_lengthArray hlen hcount hitems
    rw [← hskip] at hdecodes
    simp only [mirror, norm, hv]
    exact hdecodes
  | .sizeArray element, v, b, hsolid, h, hb => by
    intro r hr
    rw [Solid] at hsolid
    obtain ⟨items, c, hv, hlayout, rfl⟩ := layout_sizeArray_eq_some h
    rw [ByteArray.size_append] at hb
    have hc : c.size ≤ Writer.maxCount := by omega
    obtain ⟨hsize, helements, hskip⟩ := Reader.Faces.readInt_append (k := .int32) hr
    have hitems := decodesWithin_items (fun item a ha => layout_pos hpos hsolid ha)
      (fun item a ha hle => inverts_mirror hcall hpos hsolid ha (by omega)) hlayout _ helements
    have hdecodes := decodes_sizeArray hc hsize hr.error_eq hitems
    rw [← hskip] at hdecodes
    simp only [mirror, norm, hv]
    exact hdecodes
  | .unsupported owner, v, b, _, h, _ => by
    rw [layout] at h
    cases h

theorem EncodeOp.decodesFields_mirrorFields
    (hcall : ∀ name v b, lay name v = some b → b.size ≤ Writer.maxCount →
      Inverts p (.call name) b (call name v))
    (hpos : ∀ name v b, lay name v = some b → 0 < b.size) {fields : List (Field Value)} :
    ∀ {ops : List (Field EncodeOp)} {b : ByteArray}, SolidFields ops →
      layoutFields .reject lay fields ops = some b → b.size ≤ Writer.maxCount →
      ∀ (acc : List (Field Value)) (r : Reader), r.Faces b →
      DecodesFields p acc (mirrorFields verifyCrc ops) r
        ((normFields lay call fields ops).foldl (fun fs f => Fields.insert f.name f.val fs) acc)
        (r.skip b.size)
  | [], b, _, h, _, acc, r, _ => by
    rw [layoutFields] at h
    cases h
    rw [mirrorFields, normFields]
    exact .nil acc r
  | ⟨name, op⟩ :: ops, b, hsolid, h, hb, acc, r, hr => by
    rw [SolidFields] at hsolid
    obtain ⟨a, c, ha, hc, rfl⟩ := layoutFields_cons_eq_some h
    rw [ByteArray.size_append] at hb
    have hhead := inverts_mirror hcall hpos hsolid.1 ha (by omega) r hr.left
    have htail := decodesFields_mirrorFields hcall hpos hsolid.2 hc (by omega)
      (Fields.insert name (op.norm lay call (Fields.get? name fields)) acc) _ hr.right
    rw [mirrorFields, normFields, List.foldl_cons, r.skip_append]
    exact .cons hhead htail

end

end Operations

/-! ## Programs -/

/-- **Every routine is undone**, if its two trees are mirror images and no struct is without
fields. -/
theorem Program.inverts_call {p : Program} {verifyCrc : Bool}
    (hmirror : ∀ name r, p.routine? name = some r → r.decode = r.encode.mirror verifyCrc)
    (hsolid : p.Solid) :
    ∀ {fuel : Nat} {name : String} {v : Option Value} {b : ByteArray},
      p.layout .reject fuel name v = some b → b.size ≤ Writer.maxCount →
      Inverts p (.call name) b (p.norm fuel name v)
  | 0, name, v, b, h, _ => by cases h
  | fuel + 1, name, v, b, h, hb => by
    intro r hr
    obtain ⟨n, t, hn, ht, h⟩ := layout_eq_some h
    cases hn
    have hinverts : Inverts p (t.encode.mirror verifyCrc) b
        (t.encode.norm (p.layout .reject fuel) (p.norm fuel) v) :=
      EncodeOp.inverts_mirror (fun _ _ _ h hb => inverts_call hmirror hsolid h hb)
        (fun _ _ _ => p.layout_pos hsolid) (hsolid name t ht) h hb
    rw [← hmirror name t ht] at hinverts
    rw [norm, ht]
    exact .call ht (hinverts r hr)

end WireGrammar
