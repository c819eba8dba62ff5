import WireGrammar.Proofs.Decode.Acceptance
import WireGrammar.Proofs.RoundTrip.Norm
import WireGrammar.Proofs.RoundTrip.Slots

/-!
# What is decoded can be encoded

A value that a decoder returns without an error is a value of its type: it has the fields of the
type and no others, its text and its lists are no longer than a length field can say, and no
alternation is in it.  So it has a layout, which takes no more bytes than were read for it.

* `Reader.exists_layout_readPrimitive` — a primitive that has been read has a layout as long as the
  bytes it was read from.
* `Stable p op v b` — with enough calls, `v` is laid out as `b`, and what comes back of it differs
  in slots only.  `Stable.struct` and the like put it together along an operation.
* `Decodes.stable` — what has been decoded without an error is stable.
-/

set_option autoImplicit false
namespace WireGrammar

/-! ## Reading without an error -/

theorem BigEndian.size_counted (k : IntKind) (b : ByteArray) :
    (counted k b).size = k.bytes + b.size := by
  rw [counted, ByteArray.size_append, size_encode]

/-- Text that bytes were read as is written as these bytes. -/
theorem Text.toUTF8_of_fromUTF8? {b : ByteArray} {s : String} (h : String.fromUTF8? b = some s) :
    s.toUTF8 = b := by
  rw [String.fromUTF8?] at h
  split at h
  · cases h
    rfl
  · cases h

namespace Reader

variable {r r' : Reader}

theorem error_fail_ne_none (r : Reader) (e : DecodeError) : (r.fail e).error ≠ none := by
  rw [fail]
  split
  · next he =>
    rw [he]
    exact Option.some_ne_none _
  · exact Option.some_ne_none e

/-- Reading an integer that leaves no error moves on by its bytes and stays in the buffer. -/
theorem offset_eq_of_readInt {k : IntKind} {x : BitVec k.bits} (h : r.readInt k = (x, r'))
    (herr : r'.error = none) (hr : r.offset ≤ r.buffer.size) :
    r'.offset = r.offset + k.bytes ∧ r'.offset ≤ r'.buffer.size := by
  have hadv := r.advances_readInt k
  rw [h] at hadv
  obtain ⟨-, -, -, rfl⟩ := readInt_eq_of_error_eq_none h herr
  exact ⟨rfl, hadv.offset_le_size hr⟩

/-- A header of the same width as the one that was read, and what was read behind it. -/
theorem offset_add_size_le {k l : IntKind} {x : BitVec k.bits} {b : ByteArray} {start stop : Nat}
    (hk : k.bytes = l.bytes) (hstart : start = r.offset + l.bytes) (h : start + b.size ≤ stop) :
    r.offset + (BigEndian.encode k x ++ b).size ≤ stop := by
  rw [ByteArray.size_append, BigEndian.size_encode]
  omega

/-- Where a slot has been compared, if at all, without an error, there was none before. -/
theorem error_eq_none_of_ite_verify {framing : Framing} {signed verify : Bool}
    {slot : BitVec (IntKind.word signed).bits} {start : Nat}
    (h : (if verify then r.verify framing signed slot start else r).error = none) :
    r.error = none ∧
      r.offset ≤ (if verify then r.verify framing signed slot start else r).offset := by
  cases verify with
  | false => exact ⟨h, Nat.le_refl _⟩
  | true =>
    exact ⟨error_eq_none_of_verify h, (r.advances_verify framing signed slot start).offset_le⟩

/-- Consuming bytes that leaves no error has found them. -/
theorem take_eq_of_error_eq_none {n : Nat} {x : Option ByteArray} (h : r.take n = (x, r'))
    (herr : r'.error = none) :
    r.error = none ∧ ∃ b, x = some b ∧ b.size = n ∧ r'.offset = r.offset + n := by
  rw [take] at h
  split at h
  · next e he =>
    cases h
    cases he.symm.trans herr
  · next hnone =>
    split at h
    · next hle =>
      cases h
      refine ⟨hnone, _, rfl, ?_, rfl⟩
      rw [remaining] at hle
      rw [ByteArray.size_extract]
      omega
    · cases h
      cases herr

/-- The same behind a length. -/
theorem take_eq_of_readInt {start : Reader} {k : IntKind} {x : BitVec k.bits} {n : Nat}
    {y : Option ByteArray} (hx : r.readInt k = (x, start)) (hy : start.take n = (y, r'))
    (herr : r'.error = none) :
    ∃ b, y = some b ∧ b.size = n ∧ r'.offset = r.offset + (k.bytes + n) := by
  obtain ⟨hstart, b, rfl, hsize, hoffset⟩ := take_eq_of_error_eq_none hy herr
  obtain ⟨-, -, -, rfl⟩ := readInt_eq_of_error_eq_none hx hstart
  exact ⟨b, rfl, hsize, by rw [hoffset, Nat.add_assoc]⟩

/-- Text that has been read is as long as 16 bits can say. -/
theorem readText_eq_of_error_eq_none {s : String} (h : r.readText = (s, r'))
    (herr : r'.error = none) :
    s.utf8ByteSize ≤ Writer.maxTextLength ∧
      r'.offset = r.offset + (IntKind.uint16.bytes + s.utf8ByteSize) := by
  cases hn : r.readInt .uint16 with
  | mk n start =>
    cases hx : start.take n.toNat with
    | mk x stop =>
      simp only [readText, hn, hx] at h
      split at h
      · next heq =>
        cases heq
        cases h
        obtain ⟨b, hnone, -⟩ := take_eq_of_readInt hn hx herr
        cases hnone
      · next b _ heq =>
        cases heq
        split at h
        · next t ht =>
          cases h
          obtain ⟨b', heq, hsize, hoffset⟩ := take_eq_of_readInt hn hx herr
          cases heq
          have hlength : s.utf8ByteSize = n.toNat := by
            rw [← hsize, ← Text.toUTF8_of_fromUTF8? ht]
            rfl
          have hlt : n.toNat < 2 ^ 16 := n.isLt
          rw [hlength, Writer.maxTextLength]
          exact ⟨by omega, hoffset⟩
        · cases h
          cases herr

/-- What a signed word says is no more than 31 bits can say. -/
theorem toNat_toInt_le (x : BitVec IntKind.int32.bits) : x.toInt.toNat ≤ Writer.maxCount := by
  have hlt : 2 * x.toInt < 2 ^ 32 := BitVec.two_mul_toInt_lt
  rw [Writer.maxCount]
  omega

/-- A byte sequence that has been read is as long as 31 bits can say. -/
theorem readBytes_eq_of_error_eq_none {b : ByteArray} (h : r.readBytes = (b, r'))
    (herr : r'.error = none) :
    b.size ≤ Writer.maxCount ∧ r'.offset = r.offset + (IntKind.int32.bytes + b.size) := by
  cases hn : r.readInt .int32 with
  | mk n start =>
    cases hx : start.take n.toInt.toNat with
    | mk x stop =>
      simp only [readBytes, hn, hx] at h
      split at h
      · next heq =>
        cases heq
        cases h
        obtain ⟨b, hnone, -⟩ := take_eq_of_readInt hn hx herr
        cases hnone
      · next heq =>
        cases heq
        cases h
        obtain ⟨b', heq, hsize, hoffset⟩ := take_eq_of_readInt hn hx herr
        cases heq
        rw [hsize]
        exact ⟨toNat_toInt_le n, hoffset⟩

/-- **A primitive that has been read has a layout**, as long as the bytes that it was read from. -/
theorem exists_layout_readPrimitive {q : Primitive} (herr : (r.readPrimitive q).2.error = none) :
    ∃ b, q.layout .reject (r.readPrimitive q).1 = some b ∧
      r.offset + b.size = (r.readPrimitive q).2.offset := by
  cases q with
  | int k =>
    cases hx : r.readInt k with
    | mk x stop =>
      simp only [readPrimitive, hx] at herr ⊢
      obtain ⟨-, -, -, rfl⟩ := readInt_eq_of_error_eq_none hx herr
      refine ⟨BigEndian.encode k x, by simp [Primitive.layout], ?_⟩
      rw [BigEndian.size_encode]
  | string =>
    cases hs : r.readText with
    | mk s stop =>
      simp only [readPrimitive, hs] at herr ⊢
      obtain ⟨hlength, hoffset⟩ := readText_eq_of_error_eq_none hs herr
      refine ⟨BigEndian.counted .uint16 s.toUTF8, ?_, ?_⟩
      · simp [Primitive.layout, Overflow.kept, hlength]
      · rw [hoffset, BigEndian.size_counted]
        rfl
  | bytes =>
    cases hb : r.readBytes with
    | mk b stop =>
      simp only [readPrimitive, hb] at herr ⊢
      obtain ⟨hlength, hoffset⟩ := readBytes_eq_of_error_eq_none hb herr
      refine ⟨BigEndian.counted .int32 b, by simp [Primitive.layout, hlength], ?_⟩
      rw [hoffset, BigEndian.size_counted]

end Reader

/-! ## Stable values -/

/-- With enough calls, `v` is laid out as `b`, and what comes back of it differs in slots only. -/
def Stable (p : Program) (op : EncodeOp) (v : Value) (b : ByteArray) : Prop :=
  ∃ n, ∀ fuel, n ≤ fuel →
    op.layout .reject (p.layout .reject fuel) (some v) = some b ∧
      EqUpToSlots p op v (op.norm (p.layout .reject fuel) (p.norm fuel) (some v))

/-- The same for the entries of a struct, whatever else the struct has. -/
def StableFields (p : Program) (ops : List (Field EncodeOp)) (es : List (Field Value))
    (b : ByteArray) : Prop :=
  ∃ n, ∀ fuel, n ≤ fuel → ∀ fields, (∀ f ∈ es, Fields.get? f.name fields = some f.val) →
    EncodeOp.layoutFields .reject (p.layout .reject fuel) fields ops = some b ∧
      EqUpToSlotsFields p ops es
        (EncodeOp.normFields (p.layout .reject fuel) (p.norm fuel) fields ops)

/-- The same for the items of a list. -/
def StableAll (p : Program) (element : EncodeOp) (vs : List Value) (b : ByteArray) : Prop :=
  ∃ n, ∀ fuel, n ≤ fuel →
    layoutAll (fun item => element.layout .reject (p.layout .reject fuel) (some item)) vs =
        some b ∧
      EqUpToSlotsAll p element vs
        (vs.map fun item => element.norm (p.layout .reject fuel) (p.norm fuel) (some item))

section Stable

variable {p : Program} {b c : ByteArray} {v : Value}

theorem Stable.write {q : Primitive} (h : q.layout .reject v = some b) :
    Stable p (.write q) v b := by
  refine ⟨0, fun fuel _ => ⟨?_, ?_⟩⟩
  · rw [EncodeOp.layout]
    exact h
  · rw [EncodeOp.norm]
    exact .write q v

theorem Stable.writeAlias (typeName : String) {q : Primitive} (h : q.layout .reject v = some b) :
    Stable p (.writeAlias typeName q) (.named typeName v) b := by
  refine ⟨0, fun fuel _ => ⟨?_, ?_⟩⟩
  · simp only [EncodeOp.layout, Option.getD_some, if_pos]
    exact h
  · rw [EncodeOp.norm]
    exact .writeAlias typeName q _

theorem Stable.call {name : String} {t : Routine} (ht : p.routine? name = some t)
    (h : Stable p t.encode v b) : Stable p (.call name) v b := by
  obtain ⟨n, hn⟩ := h
  refine ⟨n + 1, fun fuel hfuel => ?_⟩
  obtain ⟨k, rfl⟩ : ∃ k, fuel = k + 1 := ⟨fuel - 1, by omega⟩
  obtain ⟨hlayout, heq⟩ := hn k (by omega)
  rw [EncodeOp.layout, EncodeOp.norm, Program.layout, Program.norm, ht]
  exact ⟨hlayout, .call ht heq⟩

theorem Stable.struct {ops : List (Field EncodeOp)} {es : List (Field Value)}
    (hnames : es.map (·.name) = ops.map (·.name)) (hnodup : (ops.map (·.name)).Nodup)
    (h : StableFields p ops es b) : Stable p (.struct ops) (.struct (Fields.ofList es)) b := by
  obtain ⟨n, hn⟩ := h
  refine ⟨n, fun fuel hfuel => ?_⟩
  obtain ⟨hlayout, heq⟩ := hn fuel hfuel _ (Fields.get?_ofList (by rwa [hnames]))
  rw [EncodeOp.layout, EncodeOp.norm]
  exact ⟨hlayout, .struct heq⟩

theorem Stable.framed {framing : Framing} {signed : Bool} {body : List (Field EncodeOp)}
    {es : List (Field Value)} (x : BitVec (IntKind.word signed).bits)
    (hnames : es.map (·.name) = body.map (·.name))
    (hnodup : (framing.fieldName :: body.map (·.name)).Nodup) (h : StableFields p body es c) :
    Stable p (.framed framing signed body)
      (.struct (Fields.ofList (⟨framing.fieldName, .int (.word signed) x⟩ :: es)))
      (BigEndian.encode .uint32 (framing.measure c) ++ c) := by
  obtain ⟨n, hn⟩ := h
  refine ⟨n, fun fuel hfuel => ?_⟩
  obtain ⟨hx, hget⟩ := Fields.get?_ofList_cons (x := Value.int _ x) (by rwa [hnames])
  obtain ⟨hlayout, heq⟩ := hn fuel hfuel _ hget
  rw [EncodeOp.layout_framed_of_slot hx, hlayout, EncodeOp.norm]
  exact ⟨rfl, .framed framing x _ heq⟩

theorem Stable.lengthArray {element : EncodeOp} {vs : List Value}
    (hlen : vs.length ≤ Writer.maxCount) (h : StableAll p element vs c) :
    Stable p (.lengthArray element) (.list vs)
      (BigEndian.encode .int32 (BitVec.ofNat 32 vs.length) ++ c) := by
  obtain ⟨n, hn⟩ := h
  refine ⟨n, fun fuel hfuel => ?_⟩
  obtain ⟨hlayout, heq⟩ := hn fuel hfuel
  simp only [EncodeOp.layout, EncodeOp.norm, Option.getD_some, if_pos hlen, hlayout]
  exact ⟨rfl, .lengthArray heq⟩

theorem Stable.sizeArray {element : EncodeOp} {vs : List Value} (h : StableAll p element vs c) :
    Stable p (.sizeArray element) (.list vs)
      (BigEndian.encode .uint32 (BitVec.ofNat 32 c.size) ++ c) := by
  obtain ⟨n, hn⟩ := h
  refine ⟨n, fun fuel hfuel => ?_⟩
  obtain ⟨hlayout, heq⟩ := hn fuel hfuel
  simp only [EncodeOp.layout, EncodeOp.norm, Option.getD_some, hlayout]
  exact ⟨rfl, .sizeArray heq⟩

theorem StableFields.nil : StableFields p [] [] .empty := by
  refine ⟨0, fun fuel _ fields _ => ?_⟩
  rw [EncodeOp.layoutFields, EncodeOp.normFields]
  exact ⟨rfl, .nil⟩

theorem StableFields.cons {name : String} {op : EncodeOp} {ops : List (Field EncodeOp)}
    {es : List (Field Value)} (hv : Stable p op v b) (h : StableFields p ops es c) :
    StableFields p (⟨name, op⟩ :: ops) (⟨name, v⟩ :: es) (b ++ c) := by
  obtain ⟨n, hn⟩ := hv
  obtain ⟨m, hm⟩ := h
  refine ⟨max n m, fun fuel hfuel fields hget => ?_⟩
  obtain ⟨hb, hhead⟩ := hn fuel (by omega)
  obtain ⟨hc, htail⟩ := hm fuel (by omega) fields fun f hf => hget f (List.mem_cons_of_mem _ hf)
  rw [EncodeOp.layoutFields, EncodeOp.normFields, hget _ List.mem_cons_self, hb, hc]
  exact ⟨rfl, .cons hhead htail⟩

theorem StableAll.nil (element : EncodeOp) : StableAll p element [] .empty :=
  ⟨0, fun _ _ => ⟨rfl, .nil element⟩⟩

theorem StableAll.cons {element : EncodeOp} {vs : List Value} (hv : Stable p element v b)
    (h : StableAll p element vs c) : StableAll p element (v :: vs) (b ++ c) := by
  obtain ⟨n, hn⟩ := hv
  obtain ⟨m, hm⟩ := h
  refine ⟨max n m, fun fuel hfuel => ?_⟩
  obtain ⟨hb, hhead⟩ := hn fuel (by omega)
  obtain ⟨hc, htail⟩ := hm fuel (by omega)
  rw [layoutAll, hb, hc]
  exact ⟨rfl, .cons hhead htail⟩

end Stable

/-! ## Operations from their mirror images -/

namespace EncodeOp

variable {verifyCrc : Bool} {op : EncodeOp}

theorem eq_of_mirror_eq_read {q : Primitive} (h : op.mirror verifyCrc = .read q) :
    op = .write q := by
  cases op with
  | write q' => rwa [mirror, DecodeOp.read.injEq, ← write.injEq] at h
  | _ => simp [mirror] at h

theorem eq_of_mirror_eq_readAlias {typeName : String} {q : Primitive}
    (h : op.mirror verifyCrc = .readAlias typeName q) : op = .writeAlias typeName q := by
  cases op with
  | writeAlias typeName' q' => rwa [mirror, DecodeOp.readAlias.injEq, ← writeAlias.injEq] at h
  | _ => simp [mirror] at h

theorem eq_of_mirror_eq_call {name : String} (h : op.mirror verifyCrc = .call name) :
    op = .call name := by
  cases op with
  | call name' => rwa [mirror, DecodeOp.call.injEq, ← call.injEq] at h
  | _ => simp [mirror] at h

theorem exists_of_mirror_eq_struct {ops : List (Field DecodeOp)}
    (h : op.mirror verifyCrc = .struct ops) :
    ∃ ops', op = .struct ops' ∧ mirrorFields verifyCrc ops' = ops := by
  cases op with
  | struct ops' => exact ⟨ops', rfl, by rwa [mirror, DecodeOp.struct.injEq] at h⟩
  | _ => simp [mirror] at h

theorem exists_of_mirror_eq_framed {framing : Framing} {signed verify : Bool}
    {body : List (Field DecodeOp)} (h : op.mirror verifyCrc = .framed framing signed verify body) :
    ∃ body', op = .framed framing signed body' ∧ mirrorFields verifyCrc body' = body := by
  cases op with
  | framed framing' signed' body' =>
    rw [mirror, DecodeOp.framed.injEq] at h
    obtain ⟨rfl, rfl, -, h⟩ := h
    exact ⟨body', rfl, h⟩
  | _ => simp [mirror] at h

theorem exists_of_mirror_eq_lengthArray {element : DecodeOp}
    (h : op.mirror verifyCrc = .lengthArray element) :
    ∃ element', op = .lengthArray element' ∧ element'.mirror verifyCrc = element := by
  cases op with
  | lengthArray element' => exact ⟨element', rfl, by rwa [mirror, DecodeOp.lengthArray.injEq] at h⟩
  | _ => simp [mirror] at h

theorem exists_of_mirror_eq_sizeArray {element : DecodeOp}
    (h : op.mirror verifyCrc = .sizeArray element) :
    ∃ element', op = .sizeArray element' ∧ element'.mirror verifyCrc = element := by
  cases op with
  | sizeArray element' => exact ⟨element', rfl, by rwa [mirror, DecodeOp.sizeArray.injEq] at h⟩
  | _ => simp [mirror] at h

theorem eq_of_mirror_eq_unsupported {owner : String}
    (h : op.mirror verifyCrc = .unsupported owner) : op = .unsupported owner := by
  cases op with
  | unsupported owner' => rwa [mirror, DecodeOp.unsupported.injEq, ← unsupported.injEq] at h
  | _ => simp [mirror] at h

theorem exists_of_mirrorFields_eq_cons {ops : List (Field EncodeOp)} {name : String}
    {op : DecodeOp} {rest : List (Field DecodeOp)}
    (h : mirrorFields verifyCrc ops = ⟨name, op⟩ :: rest) :
    ∃ op' rest', ops = ⟨name, op'⟩ :: rest' ∧ op'.mirror verifyCrc = op ∧
      mirrorFields verifyCrc rest' = rest := by
  cases ops with
  | nil => simp [mirrorFields] at h
  | cons f rest' =>
    rw [mirrorFields, List.cons.injEq, Field.mk.injEq] at h
    obtain ⟨⟨rfl, hop⟩, hrest⟩ := h
    exact ⟨f.val, rest', rfl, hop, hrest⟩

theorem eq_nil_of_mirrorFields {ops : List (Field EncodeOp)}
    (h : mirrorFields verifyCrc ops = []) : ops = [] := by
  cases ops with
  | nil => rfl
  | cons f rest => simp [mirrorFields] at h

end EncodeOp

/-! ## Decoded values -/

/-- The two trees of every routine are mirror images, and in no struct do two fields share a
name. -/
structure Program.Regular (verifyCrc : Bool) (p : Program) : Prop where
  mirror : ∀ name t, p.routine? name = some t → t.decode = t.encode.mirror verifyCrc
  distinct : p.Distinct

theorem DecodesCount.error_eq_none {p : Program} {d : DecodeOp} {n : Nat} {r r' : Reader}
    {vs : List Value} (h : DecodesCount p d n r vs r') (herr : r'.error = none) :
    r.error = none := by
  cases h with
  | zero => exact herr
  | failed _ _ hfail =>
    rw [herr] at hfail
    cases hfail
  | next hv hnone _ => exact hv.error_eq_none hnone

section Decoded

variable {p : Program} {verifyCrc : Bool}

mutual

/-- **What has been decoded without an error is stable**, in no more bytes than were read. -/
theorem Decodes.stable (hp : p.Regular verifyCrc) {d : DecodeOp} {r r' : Reader} {v : Value} :
    Decodes p d r v r' → ∀ {op : EncodeOp}, op.mirror verifyCrc = d → op.Distinct →
      r.offset ≤ r.buffer.size → r'.error = none →
      ∃ b, Stable p op v b ∧ r.offset + b.size ≤ r'.offset
  | .read q r, op, hop, _, _, herr => by
    cases EncodeOp.eq_of_mirror_eq_read hop
    obtain ⟨b, hb, hoffset⟩ := r.exists_layout_readPrimitive herr
    exact ⟨b, .write hb, Nat.le_of_eq hoffset⟩
  | .readAlias typeName q r, op, hop, _, _, herr => by
    cases EncodeOp.eq_of_mirror_eq_readAlias hop
    obtain ⟨b, hb, hoffset⟩ := r.exists_layout_readPrimitive herr
    exact ⟨b, .writeAlias typeName hb, Nat.le_of_eq hoffset⟩
  | .call ht h, op, hop, _, hr, herr => by
    cases EncodeOp.eq_of_mirror_eq_call hop
    obtain ⟨b, hb, hoffset⟩ := h.stable hp (hp.mirror _ _ ht).symm (hp.distinct _ _ ht) hr herr
    exact ⟨b, hb.call ht, hoffset⟩
  | .noRoutine r ht, op, _, _, _, herr => by
    exact absurd herr (r.error_fail_ne_none _)
  | .struct h, op, hop, hdistinct, hr, herr => by
    obtain ⟨ops, rfl, hops⟩ := EncodeOp.exists_of_mirror_eq_struct hop
    rw [EncodeOp.Distinct] at hdistinct
    obtain ⟨es, b, hnames, hb, rfl, hoffset⟩ := h.stable hp hops hdistinct.2 hr herr
    exact ⟨b, .struct hnames hdistinct.1 hb, hoffset⟩
  | .framed verify hslot h, op, hop, hdistinct, hr, herr => by
    obtain ⟨body, rfl, hbody⟩ := EncodeOp.exists_of_mirror_eq_framed hop
    rw [EncodeOp.Distinct] at hdistinct
    obtain ⟨hnone, hle⟩ := Reader.error_eq_none_of_ite_verify herr
    obtain ⟨hstart, hin⟩ := Reader.offset_eq_of_readInt hslot (h.error_eq_none hnone) hr
    obtain ⟨es, c, hnames, hc, rfl, hoffset⟩ := h.stable hp hbody hdistinct.2 hin hnone
    refine ⟨_, .framed _ hnames hdistinct.1 hc, ?_⟩
    exact Reader.offset_add_size_le rfl hstart (hoffset.trans hle)
  | .lengthArray hcount h, op, hop, hdistinct, hr, herr => by
    obtain ⟨element, rfl, helement⟩ := EncodeOp.exists_of_mirror_eq_lengthArray hop
    rw [EncodeOp.Distinct] at hdistinct
    obtain ⟨hstart, hin⟩ := Reader.offset_eq_of_readInt hcount (h.error_eq_none herr) hr
    obtain ⟨c, hc, hlen, hoffset⟩ := h.stable hp helement hdistinct hin herr
    refine ⟨_, .lengthArray (by rw [hlen]; exact Reader.toNat_toInt_le _) hc, ?_⟩
    exact Reader.offset_add_size_le rfl hstart hoffset
  | .noHeader hsize hfail, op, _, _, _, herr => by
    rw [herr] at hfail
    cases hfail
  | .sizeArray hsize hnone h, op, hop, hdistinct, hr, herr => by
    obtain ⟨element, rfl, helement⟩ := EncodeOp.exists_of_mirror_eq_sizeArray hop
    rw [EncodeOp.Distinct] at hdistinct
    obtain ⟨hstart, hin⟩ := Reader.offset_eq_of_readInt hsize hnone hr
    obtain ⟨c, hc, hoffset⟩ := h.stable hp helement hdistinct hin herr
    exact ⟨_, .sizeArray hc, Reader.offset_add_size_le rfl hstart hoffset⟩
  | .unsupported owner r, op, _, _, _, herr => by
    exact absurd herr (r.error_fail_ne_none _)

theorem DecodesFields.stable (hp : p.Regular verifyCrc) {ds : List (Field DecodeOp)}
    {r r' : Reader} {acc fields : List (Field Value)} :
    DecodesFields p acc ds r fields r' → ∀ {ops : List (Field EncodeOp)},
      EncodeOp.mirrorFields verifyCrc ops = ds → EncodeOp.DistinctFields ops →
      r.offset ≤ r.buffer.size → r'.error = none →
      ∃ es b, es.map (·.name) = ops.map (·.name) ∧ StableFields p ops es b ∧
        fields = es.foldl (fun fs f => Fields.insert f.name f.val fs) acc ∧
        r.offset + b.size ≤ r'.offset
  | .nil acc r, ops, hops, _, _, _ => by
    cases EncodeOp.eq_nil_of_mirrorFields hops
    exact ⟨[], .empty, rfl, .nil, rfl, Nat.le_refl _⟩
  | .cons hv h, ops, hops, hdistinct, hr, herr => by
    obtain ⟨op, rest, rfl, hop, hrest⟩ := EncodeOp.exists_of_mirrorFields_eq_cons hops
    rw [EncodeOp.DistinctFields] at hdistinct
    obtain ⟨b, hb, hhead⟩ := hv.stable hp hop hdistinct.1 hr (h.error_eq_none herr)
    obtain ⟨es, c, hnames, hc, rfl, htail⟩ :=
      h.stable hp hrest hdistinct.2 (hv.advances.offset_le_size hr) herr
    refine ⟨_ :: es, _, ?_, .cons hb hc, rfl, ?_⟩
    · rw [List.map_cons, hnames, List.map_cons]
    · rw [ByteArray.size_append]
      omega

theorem DecodesCount.stable (hp : p.Regular verifyCrc) {d : DecodeOp} {n : Nat} {r r' : Reader}
    {vs : List Value} :
    DecodesCount p d n r vs r' → ∀ {op : EncodeOp}, op.mirror verifyCrc = d → op.Distinct →
      r.offset ≤ r.buffer.size → r'.error = none →
      ∃ b, StableAll p op vs b ∧ vs.length = n ∧ r.offset + b.size ≤ r'.offset
  | .zero d r, op, _, _, _, _ => ⟨.empty, .nil op, rfl, Nat.le_refl _⟩
  | .failed n hv hfail, op, _, _, _, herr => by
    rw [herr] at hfail
    cases hfail
  | .next hv hnone h, op, hop, hdistinct, hr, herr => by
    obtain ⟨b, hb, hhead⟩ := hv.stable hp hop hdistinct hr hnone
    obtain ⟨c, hc, hlen, htail⟩ :=
      h.stable hp hop hdistinct (hv.advances.offset_le_size hr) herr
    refine ⟨_, .cons hb hc, congrArg Nat.succ hlen, ?_⟩
    rw [ByteArray.size_append]
    omega

theorem DecodesWithin.stable (hp : p.Regular verifyCrc) {d : DecodeOp} {stop : Nat}
    {r r' : Reader} {vs : List Value} :
    DecodesWithin p d stop r vs r' → ∀ {op : EncodeOp}, op.mirror verifyCrc = d → op.Distinct →
      r.offset ≤ r.buffer.size → r'.error = none →
      ∃ b, StableAll p op vs b ∧ r.offset + b.size ≤ r'.offset
  | .done d hstop, op, _, _, _, _ => ⟨.empty, .nil op, Nat.le_refl _⟩
  | .failed hlt hv hfail, op, _, _, hr, herr => by
    split at herr
    · next hrecover =>
      -- the rest of the array is skipped, as far as there is one
      refine ⟨.empty, .nil op, ?_⟩
      rw [if_pos hrecover]
      have hbuffer := hv.advances.buffer_eq
      simp only [Reader.skipTo, Reader.setError, hbuffer]
      exact Nat.le_min.2 ⟨Nat.le_of_lt hlt, hr⟩
    · cases hfail.symm.trans herr
  | .idle hlt hv hnone hoff, op, hop, hdistinct, hr, _ => by
    obtain ⟨b, hb, hhead⟩ := hv.stable hp hop hdistinct hr hnone
    refine ⟨_, .cons hb (.nil op), ?_⟩
    rwa [ByteArray.append_empty]
  | .next hlt hv hnone hoff h, op, hop, hdistinct, hr, herr => by
    obtain ⟨b, hb, hhead⟩ := hv.stable hp hop hdistinct hr hnone
    obtain ⟨c, hc, htail⟩ := h.stable hp hop hdistinct (hv.advances.offset_le_size hr) herr
    refine ⟨_, .cons hb hc, ?_⟩
    rw [ByteArray.size_append]
    omega

end

end Decoded

end WireGrammar
