import WireGrammar.Proofs.RoundTrip.Soundness
import WireGrammar.Proofs.Routine.Reach

/-!
# Decoding looks only at what it takes

Everything that decoding does with the buffer goes through `Reader.take` and, for a checksum,
through the window that has just been read.  Only a size array asks how much there is behind: it
skips up to the end of its budget, or of the buffer.  Without one, decoding over another buffer goes
the same way as long as the bytes are the same, and at the first byte that is not there it stops for
good.

* `Bytes.Agree` — a buffer has the bytes of another one over a stretch, as far as it goes.
* `Reader.Replays` — what a read gives over such a buffer: the same, or the error that the buffer
  has ended.
* `Decodes.replays` — decoding without size arrays is replayed.
* `Codec.decodeFrom_local` — so a codec decodes alike wherever it finds the bytes that it takes, and
  notices every cut through them.
-/

set_option autoImplicit false
namespace WireGrammar

/-! ## Buffers -/

namespace Bytes

/-- The buffer `b` has the bytes of `a` from `start` up to `stop`, as far as it goes. -/
def Agree (a b : ByteArray) (start stop : Nat) : Prop :=
  ∀ i n, start ≤ i → i + n ≤ stop → n ≤ b.size - i → b.extract i (i + n) = a.extract i (i + n)

variable {a b : ByteArray} {start stop : Nat}

theorem Agree.mono (h : Agree a b start stop) {start' stop' : Nat} (hstart : start ≤ start')
    (hstop : stop' ≤ stop) : Agree a b start' stop' :=
  fun i n hi hn => h i n (hstart.trans hi) (hn.trans hstop)

theorem agree_of_extract_eq (h : b.extract start stop = a.extract start stop) :
    Agree a b start stop := by
  intro i n hi hn _
  have hlast : min (start + (i + n - start)) stop = i + n := by omega
  have hwindow : ∀ x : ByteArray,
      (x.extract start stop).extract (i - start) (i + n - start) = x.extract i (i + n) := by
    intro x
    rw [ByteArray.extract_extract, Nat.add_sub_cancel' hi, hlast]
  rw [← hwindow b, h, hwindow a]

/-- A buffer that has been cut agrees with what it was. -/
theorem agree_extract (a : ByteArray) (cut start stop : Nat) :
    Agree a (a.extract 0 cut) start stop := by
  intro i n _ _ hfits
  rw [ByteArray.size_extract] at hfits
  rw [ByteArray.extract_extract, Nat.zero_add, Nat.zero_add]
  rcases Nat.eq_zero_or_pos n with rfl | hpos
  · rw [Nat.add_zero, ByteArray.extract_same, ByteArray.extract_eq_empty_iff]
    omega
  · rw [Nat.min_eq_left (by omega)]

end Bytes

/-! ## Reads -/

namespace Reader

/-- The same position in another buffer. -/
def withBuffer (r : Reader) (b : ByteArray) : Reader :=
  { r with buffer := b }

@[simp] theorem error_withBuffer (r : Reader) (b : ByteArray) :
    (r.withBuffer b).error = r.error := rfl

@[simp] theorem offset_withBuffer (r : Reader) (b : ByteArray) :
    (r.withBuffer b).offset = r.offset := rfl

/-- What a read from `r` to `r'` that gives `x` comes to over the buffer `b`: the same, with all
bytes that it takes in `b`, or the error that there are too few of them. -/
inductive Replays {α : Type} (b : ByteArray) (r : Reader) (x : α) (r' : Reader) :
    α → Reader → Prop
  | same (hfits : r.offset < r'.offset → r'.offset ≤ b.size) : Replays b r x r' x (r'.withBuffer b)
  | short {y : α} {s : Reader} (hlt : r.offset < r'.offset) (hsize : b.size < r'.offset)
      (herr : s.error = some .unexpectedEnd) : Replays b r x r' y s

variable {α β : Type} {b : ByteArray} {r r₁ r' s : Reader} {x y : α}

theorem Replays.map (f : α → β) (h : Replays b r x r' y s) : Replays b r (f x) r' (f y) s := by
  rcases h with ⟨hfits⟩ | ⟨hlt, hsize, herr⟩
  · exact .same hfits
  · exact .short hlt hsize herr

theorem Replays.offset_le (h : Replays b r x r' y s) (herr : s.error = none)
    (hlt : r.offset < r'.offset) : r'.offset ≤ b.size := by
  rcases h with ⟨hfits⟩ | ⟨-, -, hend⟩
  · exact hfits hlt
  · cases herr.symm.trans hend

/-- **One read behind another.**  If the first runs out of bytes, nothing is read behind it. -/
theorem Replays.andThen {s₁ : Reader} {x' y' : β} (h : Replays b r x r₁ y s₁)
    (hle : r.offset ≤ r₁.offset) (hle' : r₁.offset ≤ r'.offset)
    (hstop : s₁.error.isSome → s = s₁)
    (hnext : x = y → s₁ = r₁.withBuffer b → Replays b r₁ x' r' y' s) : Replays b r x' r' y' s := by
  rcases h with ⟨hfits⟩ | ⟨hlt, hsize, herr⟩
  · rcases hnext rfl rfl with ⟨hfits'⟩ | ⟨hlt, hsize, herr⟩
    · exact .same (by omega)
    · exact .short (hle.trans_lt hlt) hsize herr
  · rw [hstop (by rw [herr]; rfl)]
    exact .short (hlt.trans_le hle') (hsize.trans_le hle') herr

/-- Where a read has left off, the buffers agree on the rest. -/
theorem Advances.agree {stop : Nat} (h : r.Advances r₁)
    (hb : Bytes.Agree r.buffer b r.offset stop) : Bytes.Agree r₁.buffer b r₁.offset stop := by
  rw [h.buffer_eq]
  exact hb.mono h.offset_le (Nat.le_refl _)

theorem take_of_le {n : Nat} (herr : r.error = none) (hle : n ≤ r.remaining) :
    r.take n = (some (r.buffer.extract r.offset (r.offset + n)),
      { r with offset := r.offset + n }) := by
  simp only [Reader.take, herr, if_pos hle]

theorem take_of_lt {n : Nat} (herr : r.error = none) (hlt : r.remaining < n) :
    r.take n = (none, { r with error := some .unexpectedEnd }) := by
  simp only [Reader.take, herr, if_neg (Nat.not_le_of_lt hlt)]

theorem take_eq_some {n : Nat} {x : ByteArray} (h : r.take n = (some x, r')) :
    r.error = none ∧ x = r.buffer.extract r.offset (r.offset + n) ∧
      r' = { r with offset := r.offset + n } := by
  by_cases herr : r.error = none
  · rcases Nat.lt_or_ge r.remaining n with hlt | hge
    · rw [take_of_lt herr hlt] at h
      cases h
    · rw [take_of_le herr hge] at h
      cases h
      exact ⟨herr, rfl, rfl⟩
  · rw [take_of_error (Option.isSome_iff_ne_none.2 herr)] at h
    cases h

/-- **Bytes that were taken** are taken again, or the buffer ends before them. -/
theorem Replays.take {n : Nat} {x : ByteArray} {y : Option ByteArray}
    (h : r.take n = (some x, r')) (hb : Bytes.Agree r.buffer b r.offset r'.offset)
    (hy : (r.withBuffer b).take n = (y, s)) : Replays b r (some x) r' y s := by
  obtain ⟨herr, rfl, rfl⟩ := take_eq_some h
  have hover : (r.withBuffer b).error = none := by rw [error_withBuffer, herr]
  have hremaining : (r.withBuffer b).remaining = b.size - r.offset := rfl
  rcases Nat.lt_or_ge (r.withBuffer b).remaining n with hlt | hge
  · rw [take_of_lt hover hlt] at hy
    cases hy
    exact .short (by simp only; omega) (by simp only; omega) rfl
  · rw [take_of_le hover hge] at hy
    cases hy
    rw [← hb r.offset n (Nat.le_refl _) (Nat.le_refl _) (hremaining ▸ hge)]
    refine .same fun hlt => ?_
    simp only at hlt ⊢
    omega

/-- What has been read as an integer was taken first. -/
theorem readInt_eq_of_take {k : IntKind} {x : Option ByteArray} (h : r.take k.bytes = (x, r')) :
    r.readInt k = (x.elim 0#k.bits (BigEndian.decode k), r') := by
  rw [Reader.readInt, h]
  cases x <;> rfl

/-- An integer that was read is read again. -/
theorem Replays.readInt {k : IntKind} {x y : BitVec k.bits} (h : r.readInt k = (x, r'))
    (herr : r'.error = none) (hb : Bytes.Agree r.buffer b r.offset r'.offset)
    (hy : (r.withBuffer b).readInt k = (y, s)) : Replays b r x r' y s := by
  rcases ht : r.take k.bytes with ⟨t, r₁⟩
  rcases ht' : (r.withBuffer b).take k.bytes with ⟨t', s₁⟩
  rw [readInt_eq_of_take ht] at h
  rw [readInt_eq_of_take ht'] at hy
  cases h
  cases hy
  obtain ⟨-, bytes, rfl, -⟩ := take_eq_of_error_eq_none ht herr
  exact (Replays.take ht hb ht').map fun t => t.elim 0#k.bits (BigEndian.decode k)

/-- Bytes behind a length that was read are taken again. -/
theorem Replays.counted {k : IntKind} (count : BitVec k.bits → Nat) {n n' : BitVec k.bits}
    {s₁ : Reader} {bytes : ByteArray} {z : Option ByteArray} (hn : r.readInt k = (n, r₁))
    (hx : r₁.take (count n) = (some bytes, r'))
    (hb : Bytes.Agree r.buffer b r.offset r'.offset) (hn' : (r.withBuffer b).readInt k = (n', s₁))
    (hz : s₁.take (count n') = (z, s)) : Replays b r (some bytes) r' z s := by
  obtain ⟨herr, -, hr'⟩ := take_eq_some hx
  have hadv := r.advances_readInt k
  rw [hn] at hadv
  have hle : r₁.offset ≤ r'.offset := by rw [hr']; exact Nat.le_add_right _ _
  refine (Replays.readInt hn herr (hb.mono (Nat.le_refl _) hle) hn').andThen hadv.offset_le hle
    (fun hsome => ?_) ?_
  · rw [take_of_error hsome] at hz
    exact (Prod.mk.inj hz).2.symm
  · rintro rfl rfl
    exact Replays.take hx (hadv.agree hb) hz

theorem take_eq_none_of_error {n : Nat} {x : Option ByteArray} {e : DecodeError}
    (h : r.take n = (x, r')) (herr : r'.error = some e) : x = none := by
  cases x with
  | none => rfl
  | some bytes =>
    obtain ⟨hnone, -, rfl⟩ := take_eq_some h
    cases hnone.symm.trans herr

theorem Replays.readText {x y : String} (h : r.readText = (x, r')) (herr : r'.error = none)
    (hb : Bytes.Agree r.buffer b r.offset r'.offset) (hy : (r.withBuffer b).readText = (y, s)) :
    Replays b r x r' y s := by
  rcases hn : r.readInt .uint16 with ⟨n, r₁⟩
  rcases hx : r₁.take n.toNat with ⟨t, r₂⟩
  rcases hn' : (r.withBuffer b).readInt .uint16 with ⟨n', s₁⟩
  rcases hx' : s₁.take n'.toNat with ⟨t', s₂⟩
  simp only [Reader.readText, hn, hx] at h
  simp only [Reader.readText, hn', hx'] at hy
  cases t with
  | none =>
    cases h
    obtain ⟨-, _, hnone, -⟩ := take_eq_of_error_eq_none hx herr
    cases hnone
  | some bytes =>
    simp only at h
    split at h
    · next text htext =>
      cases h
      rcases Replays.counted BitVec.toNat hn hx hb hn' hx' with ⟨hfits⟩ | ⟨hlt, hsize, herr'⟩
      · simp only [htext] at hy
        cases hy
        exact .same hfits
      · cases take_eq_none_of_error hx' herr'
        cases hy
        exact .short hlt hsize herr'
    · cases h
      cases herr

theorem Replays.readBytes {x y : ByteArray} (h : r.readBytes = (x, r')) (herr : r'.error = none)
    (hb : Bytes.Agree r.buffer b r.offset r'.offset) (hy : (r.withBuffer b).readBytes = (y, s)) :
    Replays b r x r' y s := by
  rcases hn : r.readInt .int32 with ⟨n, r₁⟩
  rcases hx : r₁.take n.toInt.toNat with ⟨t, r₂⟩
  rcases hn' : (r.withBuffer b).readInt .int32 with ⟨n', s₁⟩
  rcases hx' : s₁.take n'.toInt.toNat with ⟨t', s₂⟩
  simp only [Reader.readBytes, hn, hx] at h
  simp only [Reader.readBytes, hn', hx'] at hy
  cases t with
  | none =>
    cases h
    obtain ⟨-, _, hnone, -⟩ := take_eq_of_error_eq_none hx herr
    cases hnone
  | some bytes =>
    cases h
    rcases Replays.counted (fun n => n.toInt.toNat) hn hx hb hn' hx' with
      ⟨hfits⟩ | ⟨hlt, hsize, herr'⟩
    · cases hy
      exact .same hfits
    · cases take_eq_none_of_error hx' herr'
      cases hy
      exact .short hlt hsize herr'

/-- **A primitive that was read** is read again, or the buffer ends before it does. -/
theorem replays_readPrimitive {q : Primitive} (herr : (r.readPrimitive q).2.error = none)
    (hb : Bytes.Agree r.buffer b r.offset (r.readPrimitive q).2.offset) :
    Replays b r (r.readPrimitive q).1 (r.readPrimitive q).2 ((r.withBuffer b).readPrimitive q).1
      ((r.withBuffer b).readPrimitive q).2 := by
  cases q with
  | int k => exact (Replays.readInt rfl herr hb rfl).map (Value.int k)
  | string => exact (Replays.readText rfl herr hb rfl).map Value.text
  | bytes => exact (Replays.readBytes rfl herr hb rfl).map Value.bytes

/-- A slot is compared in the same way over a buffer with the same body. -/
theorem verify_withBuffer {framing : Framing} {signed : Bool}
    {slot : BitVec (IntKind.word signed).bits} {start : Nat}
    (hbody : b.extract start r.offset = r.buffer.extract start r.offset) :
    (r.withBuffer b).verify framing signed slot start =
      (r.verify framing signed slot start).withBuffer b := by
  have hwindow : (r.withBuffer b).window start r.offset = r.window start r.offset := hbody
  by_cases herr : r.error.isSome
  · rw [verify_of_error herr, verify_of_error (by rwa [error_withBuffer])]
  · rw [Option.not_isSome_iff_eq_none] at herr
    cases framing with
    | size =>
      simp only [verify, error_withBuffer, herr, offset_withBuffer]
      rw [apply_ite (Reader.withBuffer · b)]
      rfl
    | crc =>
      simp only [verify, error_withBuffer, herr, offset_withBuffer, hwindow]
      rw [apply_ite (Reader.withBuffer · b)]
      rfl

theorem offset_verify (r : Reader) (framing : Framing) (signed : Bool)
    (slot : BitVec (IntKind.word signed).bits) (start : Nat) :
    (r.verify framing signed slot start).offset = r.offset := by
  by_cases herr : r.error.isSome
  · rw [verify_of_error herr]
  · rw [Option.not_isSome_iff_eq_none] at herr
    cases framing with
    | size =>
      simp only [verify, herr]
      split <;> rfl
    | crc =>
      simp only [verify, herr]
      split <;> rfl

/-- A body that is replayed is compared with the slot alike. -/
theorem Replays.verify (h : Replays b r x r' y s) (hadv : r.Advances r')
    (hb : Bytes.Agree r.buffer b r.offset r'.offset) (framing : Framing) (signed verify : Bool)
    (slot : BitVec (IntKind.word signed).bits) :
    Replays b r x (if verify then r'.verify framing signed slot r.offset else r') y
      (if verify then s.verify framing signed slot r.offset else s) := by
  cases verify with
  | false => exact h
  | true =>
    simp only [if_true]
    rcases h with ⟨hfits⟩ | ⟨hlt, hsize, herr⟩
    · have hle := hadv.offset_le
      have hbody := hb r.offset (r'.offset - r.offset) (Nat.le_refl _) (by omega) (by omega)
      rw [Nat.add_sub_cancel' hle, ← hadv.buffer_eq] at hbody
      rw [verify_withBuffer hbody]
      exact .same (by rwa [offset_verify])
    · rw [verify_of_error (by rw [herr]; rfl) (r := s)]
      exact .short (by rwa [offset_verify]) (by rwa [offset_verify]) herr

end Reader

/-! ## Decoding -/

/-- No size array is ever entered. -/
def Program.Unsized (p : Program) : DecodeOp → Prop :=
  p.Throughout fun op => ∀ element, op ≠ .sizeArray element

section Decoding

variable {p : Program} {b : ByteArray}

open Reader

mutual

-- The run over the other buffer is given, not built: once it has run out of bytes, only the absence
-- of reference cycles says that the rest of it ends, and the induction does not know of that.

/-- **Decoding without size arrays is replayed**: over a buffer with the same bytes it ends in the
same way, unless the buffer ends first. -/
theorem Decodes.replays {op : DecodeOp} {r r' s : Reader} {v w : Value} :
    Decodes p op r v r' → p.Unsized op → r'.error = none →
      Bytes.Agree r.buffer b r.offset r'.offset → Decodes p op (r.withBuffer b) w s →
      Replays b r v r' w s
  | .read q r, _, herr, hb, h' => by
    cases h' with
    | read => exact replays_readPrimitive herr hb
  | .readAlias typeName q r, _, herr, hb, h' => by
    cases h' with
    | readAlias => exact (replays_readPrimitive herr hb).map (Value.named typeName)
  | .call ht h, hop, herr, hb, h' => by
    cases h' with
    | call ht' h' =>
      cases ht.symm.trans ht'
      exact h.replays (hop.enter (.routine ht)) herr hb h'
    | noRoutine _ ht' => cases ht.symm.trans ht'
  | .noRoutine r ht, _, herr, _, _ => absurd herr (r.error_fail_ne_none _)
  | .struct h, hop, herr, hb, h' => by
    cases h' with
    | struct h' =>
      exact (h.replays (fun f hf => hop.enter (.field hf)) herr hb h').map Value.struct
  | @Decodes.framed _ framing signed verify body r start r₁ slot fields hslot h, hop, herr, hb,
      h' => by
    obtain ⟨hnone, hle⟩ := error_eq_none_of_ite_verify herr
    have hb₁ := hb.mono (Nat.le_refl _) hle
    have hstart := h.error_eq_none hnone
    have hadv := r.advances_readInt (.word signed)
    rw [hslot] at hadv
    cases h' with
    | framed _ hslot' h' =>
      refine (Replays.readInt hslot hstart (hb₁.mono (Nat.le_refl _) h.advances.offset_le)
        hslot').andThen hadv.offset_le (h.advances.offset_le.trans hle) (fun hsome => ?_) ?_
      · rw [h'.reader_eq_of_error hsome, verify_of_error hsome, ite_self]
      · rintro rfl rfl
        exact ((h.replays (fun f hf => hop.enter (.body hf)) hnone (hadv.agree hb₁) h').verify
          h.advances (hadv.agree hb₁) framing signed verify slot).map Value.struct
  | @Decodes.lengthArray _ element r start r' count vs hcount h, hop, herr, hb, h' => by
    have hstart := h.error_eq_none herr
    have hadv := r.advances_readInt .int32
    rw [hcount] at hadv
    have hle := h.advances.offset_le
    cases h' with
    | lengthArray hcount' h' =>
      refine (Replays.readInt hcount hstart (hb.mono (Nat.le_refl _) hle) hcount').andThen
        hadv.offset_le hle (fun hsome => h'.reader_eq_of_error hsome) ?_
      rintro rfl rfl
      exact (h.replays (hop.enter (.counted _)) herr (hadv.agree hb) h').map Value.list
  | .noHeader _ _, hop, _, _, _ => absurd rfl (hop.self _)
  | .sizeArray _ _ _, hop, _, _, _ => absurd rfl (hop.self _)
  | .unsupported owner r, _, herr, _, _ => absurd herr (r.error_fail_ne_none _)

theorem DecodesFields.replays {acc fields fields' : List (Field Value)}
    {ops : List (Field DecodeOp)} {r r' s : Reader} :
    DecodesFields p acc ops r fields r' → (∀ f ∈ ops, p.Unsized f.val) → r'.error = none →
      Bytes.Agree r.buffer b r.offset r'.offset →
      DecodesFields p acc ops (r.withBuffer b) fields' s → Replays b r fields r' fields' s
  | .nil acc r, _, _, _, h' => by
    cases h' with
    | nil => exact .same fun hlt => absurd hlt (Nat.lt_irrefl _)
  | .cons hv h, hops, herr, hb, h' => by
    obtain ⟨hop, hops⟩ := List.forall_mem_cons.1 hops
    have hle := h.advances.offset_le
    cases h' with
    | cons hv' h' =>
      refine (hv.replays hop (h.error_eq_none herr) (hb.mono (Nat.le_refl _) hle) hv').andThen
        hv.advances.offset_le hle (fun hsome => h'.reader_eq_of_error hsome) ?_
      rintro rfl rfl
      exact h.replays hops herr (hv.advances.agree hb) h'

theorem DecodesCount.replays {element : DecodeOp} {n : Nat} {r r' s : Reader}
    {vs ws : List Value} :
    DecodesCount p element n r vs r' → p.Unsized element → r'.error = none →
      Bytes.Agree r.buffer b r.offset r'.offset → DecodesCount p element n (r.withBuffer b) ws s →
      Replays b r vs r' ws s
  | .zero element r, _, _, _, h' => by
    cases h' with
    | zero => exact .same fun hlt => absurd hlt (Nat.lt_irrefl _)
  | .failed n hv hfail, _, herr, _, _ => by
    rw [herr] at hfail
    cases hfail
  | .next hv hnone h, hop, herr, hb, h' => by
    have hle := h.advances.offset_le
    have hb₁ := hb.mono (Nat.le_refl _) hle
    cases h' with
    | failed n hv' hfail =>
      refine (hv.replays hop hnone hb₁ hv').andThen hv.advances.offset_le hle (fun _ => rfl) ?_
      rintro - rfl
      rw [error_withBuffer, hnone] at hfail
      cases hfail
    | next hv' hnone' h' =>
      refine (hv.replays hop hnone hb₁ hv').andThen hv.advances.offset_le hle
        (fun hsome => h'.reader_eq_of_error hsome) ?_
      rintro rfl rfl
      exact (h.replays hop herr (hv.advances.agree hb) h').map (List.cons _)

end

/-- Bytes that have been decoded are in the buffer. -/
theorem Decodes.offset_le_size {op : DecodeOp} {r r' : Reader} {v : Value}
    (h : Decodes p op r v r') (hop : p.Unsized op) (herr : r'.error = none)
    (hlt : r.offset < r'.offset) : r'.offset ≤ r.buffer.size := by
  have hself : Bytes.Agree r.buffer r.buffer r.offset r'.offset := fun _ _ _ _ _ => rfl
  exact (h.replays hop herr hself h).offset_le herr hlt

end Decoding

/-- From a type that leads to no size array, none is entered. -/
theorem Ty.Emits.unsized {s : Schema} {verifyCrc : Bool} {p : Program} {t : Ty} {op : DecodeOp}
    (hp : s.emit verifyCrc = .ok p) (h : t.Emits verifyCrc op)
    (ht : ∀ element, ¬ s.Reaches t (.array element .size)) : p.Unsized op := by
  rintro _ hreach element rfl
  obtain ⟨t', htt', ht'⟩ := h.reaches hp hreach
  obtain ⟨u, rfl, -⟩ := ht'.exists_of_sizeArray
  exact ht u htt'

/-! ## Codecs -/

namespace Codec

variable {s : Schema} {verifyCrc : Bool} {c : Codec} {typeName : String} {r r' : Reader}
  {v : Value}

/-- What a codec gives over another buffer, where it gave a value without an error. -/
theorem replays_decodeFrom (hp : s.emit verifyCrc = .ok c.program) (hs : s.Grounded)
    (ht : ∀ element, ¬ s.Reaches (.named typeName) (.array element .size))
    (h : c.decodeFrom typeName r = .ok (v, r')) (herr : r'.error = none) {b : ByteArray}
    (hb : Bytes.Agree r.buffer b r.offset r'.offset) :
    ∃ w r'', c.decodeFrom typeName (r.withBuffer b) = .ok (w, r'') ∧ r.Replays b v r' w r'' := by
  obtain ⟨hroutine, hdecodes⟩ := decodeFrom_eq_ok h
  obtain ⟨w, r'', hdecodes', hrun⟩ := exists_decodeFrom hp hs hroutine (r.withBuffer b)
  exact ⟨w, r'', hrun, hdecodes.replays ((Ty.Emits.named _ _).unsized hp ht) herr hb hdecodes'⟩

/-- **Decoding without size arrays is local, and notices every cut.**  For every codec without a
reference cycle that avoids every array, and every type that leads to no size array: where decoding
from a reader ends without an error, it ends with the same value at the same offset over every
buffer that has the same bytes from the one offset to the other, whatever stands around them.  And
over the same buffer cut anywhere between the two, it ends with the error that the input has
ended. -/
theorem decodeFrom_local (hp : s.emit verifyCrc = .ok c.program) (hs : s.Grounded)
    (ht : ∀ element, ¬ s.Reaches (.named typeName) (.array element .size))
    (h : c.decodeFrom typeName r = .ok (v, r')) (herr : r'.error = none) :
    (∀ b : ByteArray, b.extract r.offset r'.offset = r.buffer.extract r.offset r'.offset →
      c.decodeFrom typeName { r with buffer := b } = .ok (v, { r' with buffer := b })) ∧
    ∀ cut, r.offset ≤ cut → cut < r'.offset →
      ∃ w r'', c.decodeFrom typeName { r with buffer := r.buffer.extract 0 cut } = .ok (w, r'') ∧
        r''.error = some .unexpectedEnd := by
  obtain ⟨-, hdecodes⟩ := decodeFrom_eq_ok h
  have hsize := hdecodes.offset_le_size ((Ty.Emits.named _ _).unsized hp ht) herr
  constructor
  · intro b hb
    obtain ⟨w, r'', hrun, hreplays⟩ :=
      replays_decodeFrom hp hs ht h herr (Bytes.agree_of_extract_eq hb)
    rcases hreplays with ⟨-⟩ | ⟨hlt, hshort, -⟩
    · exact hrun
    · -- the bytes are the same, so there are as many of them
      have hle := hsize hlt
      have hcount := congrArg ByteArray.size hb
      rw [ByteArray.size_extract, ByteArray.size_extract] at hcount
      omega
  · intro cut hcut hlt
    obtain ⟨w, r'', hrun, hreplays⟩ :=
      replays_decodeFrom hp hs ht h herr (Bytes.agree_extract r.buffer cut _ _)
    rcases hreplays with ⟨hfits⟩ | ⟨-, -, hend⟩
    · have hle := hfits (hcut.trans_lt hlt)
      rw [ByteArray.size_extract] at hle
      omega
    · exact ⟨w, r'', hrun, hend⟩

end Codec

namespace Note

theorem page_not_reaches_sizeArray (element : Ty) :
    ¬ schema.Reaches (.named "Page") (.array element .size) := by
  intro h
  have hmem := h.mem_of_closed pageTypes (by simp [pageTypes]) pageTypes_closed
  simp [pageTypes, page] at hmem

/-- A page between other bytes. -/
def surrounded : Reader where
  buffer := ⟨#[9, 9]⟩ ++ pageBytes 0xa3 ++ ⟨#[7, 7, 7]⟩
  offset := 2

theorem decodeFrom_surrounded :
    ∃ r', codec.decodeFrom "Page" surrounded = .ok (pageValue 0xb1c2a1a3, r') ∧
      r'.offset = 23 ∧ r'.error = none := by
  have h : (codec.decodeFrom "Page" surrounded).toOption.map
      (fun x => (x.1, x.2.offset, x.2.error)) = some (pageValue 0xb1c2a1a3, 23, none) := by
    decide +kernel
  cases hrun : codec.decodeFrom "Page" surrounded with
  | error e =>
    rw [hrun] at h
    cases h
  | ok x =>
    rw [hrun] at h
    have hx : (x.1, x.2.offset, x.2.error) = (pageValue 0xb1c2a1a3, 23, none) :=
      Option.some.inj h
    rw [Prod.mk.injEq, Prod.mk.injEq] at hx
    obtain ⟨hv, hoffset, herr⟩ := hx
    exact ⟨x.2, by rw [← hv], hoffset, herr⟩

end Note

/-- The page is found between other bytes as well, and missed when its last byte is cut off. -/
theorem Codec.decodeFrom_local_page :
    ∃ r', Note.codec.decodeFrom "Page" Note.surrounded = .ok (Note.pageValue 0xb1c2a1a3, r') ∧
      r'.error = none ∧
      Note.codec.decodeFrom "Page" ⟨⟨#[0, 1]⟩ ++ Note.pageBytes 0xa3, 2, none⟩ =
        .ok (Note.pageValue 0xb1c2a1a3,
          { r' with buffer := ⟨#[0, 1]⟩ ++ Note.pageBytes 0xa3 }) ∧
      ∃ w r'', Note.codec.decodeFrom "Page" ⟨Note.surrounded.buffer.extract 0 22, 2, none⟩ =
        .ok (w, r'') ∧ r''.error = some .unexpectedEnd := by
  obtain ⟨r', h, hoffset, herr⟩ := Note.decodeFrom_surrounded
  obtain ⟨hlocal, hcut⟩ := decodeFrom_local Note.emit_schema Note.grounded
    Note.page_not_reaches_sizeArray h herr
  refine ⟨r', h, herr, hlocal _ ?_, hcut 22 (by decide) (by omega)⟩
  rw [hoffset]
  decide +kernel

end WireGrammar
