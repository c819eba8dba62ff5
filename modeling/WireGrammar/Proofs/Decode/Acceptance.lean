import WireGrammar.Proofs.Decode.Termination

/-!
# What a decoder accepts

An error on the reader stops everything that comes after it.  Only a size array forgets an error,
and only one that has come up inside it.  So a decoder accepts bytes only if no error was there at
any point outside the size arrays, and if it has come to the end of the bytes.

* `Decodes.reader_eq_of_error` — decoding under an error leaves the reader as it is.
* `Decodes.error_eq_none` — where decoding ends without an error, it has started without one.
* `Decodes.advances` — decoding moves the reader forward, by the rules without bounds as well.
* `Codec.exists_decodes_of_decode` — bytes are accepted where decoding ends behind the last of them
  without an error.
* `Codec.decode_ok_or_error` — all other bytes are refused with an error of the input.
-/

set_option autoImplicit false
namespace WireGrammar

namespace Reader

variable {r : Reader}

/-- A reader that is inside its buffer stays there. -/
theorem Advances.offset_le_size {r' : Reader} (h : r.Advances r')
    (hr : r.offset ≤ r.buffer.size) : r'.offset ≤ r'.buffer.size := by
  rw [h.buffer_eq]
  exact h.inBounds hr

theorem readPrimitive_of_error (h : r.error.isSome) (p : Primitive) :
    (r.readPrimitive p).2 = r := by
  cases p with
  | int k => simp only [readPrimitive, readInt_of_error h]
  | string => simp only [readPrimitive, readText_of_error h]
  | bytes => simp only [readPrimitive, readBytes_of_error h]

theorem fail_of_error (h : r.error.isSome) (e : DecodeError) : r.fail e = r := by
  obtain ⟨e', he'⟩ := Option.isSome_iff_exists.1 h
  rw [fail, he']

theorem verify_of_error (h : r.error.isSome) (framing : Framing) (signed : Bool)
    (slot : BitVec (IntKind.word signed).bits) (start : Nat) :
    r.verify framing signed slot start = r := by
  obtain ⟨e, he⟩ := Option.isSome_iff_exists.1 h
  simp only [verify, he]

theorem error_eq_none_of_verify {framing : Framing} {signed : Bool}
    {slot : BitVec (IntKind.word signed).bits} {start : Nat}
    (h : (r.verify framing signed slot start).error = none) : r.error = none := by
  by_cases hr : r.error.isSome
  · rwa [verify_of_error hr] at h
  · exact Option.not_isSome_iff_eq_none.1 hr

/-- Reading an integer that leaves no error has found its bytes. -/
theorem readInt_eq_of_error_eq_none {k : IntKind} {x : BitVec k.bits} {r' : Reader}
    (h : r.readInt k = (x, r')) (herr : r'.error = none) :
    r.error = none ∧ k.bytes ≤ r.remaining ∧
      x = BigEndian.decode k (r.buffer.extract r.offset (r.offset + k.bytes)) ∧
      r' = { r with offset := r.offset + k.bytes } := by
  rcases r.readInt_cases k with ⟨hnone, hle, hr'⟩ | ⟨-, hsome⟩
  · refine ⟨hnone, hle, ?_, by rw [← hr', h]⟩
    simp only [readInt, take, hnone, if_pos hle] at h
    exact (Prod.mk.inj h).1.symm
  · rw [h, herr] at hsome
    cases hsome

end Reader

variable {p : Program}

/-- Under an error the header of an array says zero. -/
theorem Reader.readInt_eq_of_error {r start : Reader} {k : IntKind} {x : BitVec k.bits}
    (h : r.readInt k = (x, start)) (hr : r.error.isSome) : x = 0#k.bits ∧ start = r := by
  rw [readInt_of_error hr] at h
  cases h
  exact ⟨rfl, rfl⟩

mutual

/-- **Decoding under an error leaves the reader as it is.** -/
theorem Decodes.reader_eq_of_error {op : DecodeOp} {r r' : Reader} {v : Value} :
    Decodes p op r v r' → r.error.isSome → r' = r
  | .read q r, hr => r.readPrimitive_of_error hr q
  | .readAlias typeName q r, hr => r.readPrimitive_of_error hr q
  | .call _ h, hr => h.reader_eq_of_error hr
  | .noRoutine r _, hr => Reader.fail_of_error hr _
  | .struct h, hr => h.reader_eq_of_error hr
  | .framed verify hslot h, hr => by
    have hstart := (Reader.readInt_eq_of_error hslot hr).2
    have heq := (h.reader_eq_of_error (by rwa [hstart])).trans hstart
    rw [heq, Reader.verify_of_error hr, ite_self]
  | .lengthArray hcount h, hr => by
    obtain ⟨hzero, hstart⟩ := Reader.readInt_eq_of_error hcount hr
    rw [hzero] at h
    cases h with
    | zero => exact hstart
  | .noHeader hsize _, hr => (Reader.readInt_eq_of_error hsize hr).2
  | .sizeArray hsize herr _, hr => by
    rw [(Reader.readInt_eq_of_error hsize hr).2] at herr
    rw [herr] at hr
    cases hr
  | .unsupported owner r, hr => Reader.fail_of_error hr _

theorem DecodesFields.reader_eq_of_error {fields fields' : List (Field Value)}
    {ops : List (Field DecodeOp)} {r r' : Reader} :
    DecodesFields p fields ops r fields' r' → r.error.isSome → r' = r
  | .nil fields r, _ => rfl
  | .cons hop h, hr => by
    have heq := hop.reader_eq_of_error hr
    exact (h.reader_eq_of_error (by rwa [heq])).trans heq

end

theorem DecodesCount.reader_eq_of_error {element : DecodeOp} {n : Nat} {r r' : Reader}
    {vs : List Value} (h : DecodesCount p element n r vs r') (hr : r.error.isSome) : r' = r := by
  cases h with
  | zero => rfl
  | failed n hv _ => exact hv.reader_eq_of_error hr
  | next hv herr _ =>
    rw [hv.reader_eq_of_error hr] at herr
    rw [herr] at hr
    cases hr

/-- **What ends without an error has started without one.** -/
theorem Decodes.error_eq_none {op : DecodeOp} {r r' : Reader} {v : Value}
    (h : Decodes p op r v r') (herr : r'.error = none) : r.error = none := by
  by_cases hr : r.error.isSome
  · rwa [h.reader_eq_of_error hr] at herr
  · exact Option.not_isSome_iff_eq_none.1 hr

theorem DecodesFields.error_eq_none {fields fields' : List (Field Value)}
    {ops : List (Field DecodeOp)} {r r' : Reader} (h : DecodesFields p fields ops r fields' r')
    (herr : r'.error = none) : r.error = none := by
  by_cases hr : r.error.isSome
  · rwa [h.reader_eq_of_error hr] at herr
  · exact Option.not_isSome_iff_eq_none.1 hr

theorem Decodes.advances {op : DecodeOp} {r r' : Reader} {v : Value} (h : Decodes p op r v r') :
    r.Advances r' := by
  obtain ⟨n, hn⟩ := h.eventually
  exact op.run_advancing (p.decode_advancing n) r v r' (hn n (Nat.le_refl n))

theorem DecodesFields.advances {fields fields' : List (Field Value)} {ops : List (Field DecodeOp)}
    {r r' : Reader} (h : DecodesFields p fields ops r fields' r') : r.Advances r' := by
  obtain ⟨n, hn⟩ := h.eventually
  exact DecodeOp.runFields_advancing (p.decode_advancing n) ops fields r fields' r'
    (hn n (Nat.le_refl n))

theorem DecodesCount.advances {element : DecodeOp} {n : Nat} {r r' : Reader} {vs : List Value}
    (h : DecodesCount p element n r vs r') : r.Advances r' := by
  obtain ⟨m, hm⟩ := h.eventually
  exact collect_advancing (element.run_advancing (p.decode_advancing m)) n [] r vs r'
    (hm m (Nat.le_refl m) [])

/-! ## Whole inputs -/

namespace Codec

variable {c : Codec} {typeName : String} {b : ByteArray} {v : Value}

theorem complete_eq_ok {r : Reader} (h : complete r = .ok ()) :
    r.error = none ∧ r.remaining = 0 := by
  cases herr : r.error with
  | some e => cases (complete_of_error herr).symm.trans h
  | none =>
    rw [complete_of_none herr] at h
    split at h
    · cases h
    · next hrest => exact ⟨rfl, Nat.eq_zero_of_not_pos hrest⟩

theorem decodeFrom_eq_ok {r r' : Reader} (h : c.decodeFrom typeName r = .ok (v, r')) :
    (c.program.routine? typeName).isSome ∧ Decodes c.program (.call typeName) r v r' := by
  rw [decodeFrom] at h
  split at h
  · cases h
  · next t ht =>
    split at h
    · cases h
    · next result hrun =>
      cases h
      exact ⟨by rw [ht]; rfl, Program.decodes_of_decode _ _ _ _ _ hrun⟩

/-- **Accepted bytes** are decoded up to the last of them, without an error. -/
theorem exists_decodes_of_decode (h : c.decode typeName b = .ok v) :
    (c.program.routine? typeName).isSome ∧
      ∃ r', Decodes c.program (.call typeName) { buffer := b } v r' ∧ r'.error = none ∧
        r'.buffer = b ∧ r'.offset = b.size := by
  rw [decode] at h
  split at h
  · cases h
  · next v' r' hfrom =>
    split at h
    · cases h
    · next hcomplete =>
      cases h
      obtain ⟨hroutine, hdecodes⟩ := decodeFrom_eq_ok hfrom
      obtain ⟨herr, hrest⟩ := complete_eq_ok hcomplete
      have hadv := hdecodes.advances
      have hbuffer : r'.buffer = b := hadv.buffer_eq
      have hle : r'.offset ≤ b.size := hadv.inBounds (Nat.zero_le _)
      rw [Reader.remaining, hbuffer] at hrest
      exact ⟨hroutine, r', hdecodes, herr, hbuffer, by omega⟩

/-- **Bytes are accepted, or refused for an error of the input.** -/
theorem decode_ok_or_error {s : Schema} {verifyCrc : Bool} (hp : s.emit verifyCrc = .ok c.program)
    (hs : s.Grounded) (ht : (c.program.routine? typeName).isSome) (b : ByteArray) :
    (∃ v, c.decode typeName b = .ok v) ∨ ∃ e, c.decode typeName b = .error (.decode e) := by
  obtain ⟨v, r', -, hfrom⟩ := exists_decodeFrom hp hs ht { buffer := b }
  simp only [decode, hfrom]
  cases complete r' with
  | error e => exact .inr ⟨e, rfl⟩
  | ok _ => exact .inl ⟨v, rfl⟩

end Codec

namespace Tree

/-- A tree whose size array promises six bytes that are not there. -/
def cutBytes : ByteArray :=
  ⟨#[0, 0, 0, 9, 0xd2, 0x02, 0xef, 0x8d, 0, 0, 0, 0, 6]⟩

/-- What is read of it: the array counts as empty. -/
def cutValue : Value :=
  .struct [⟨"Mark", .struct [⟨"CRC", .int .uint32 0xd202ef8d⟩, ⟨"v", .int .int8 0⟩]⟩,
    ⟨"Size", .int .int32 9⟩, ⟨"Trees", .list []⟩]

theorem decode_cutBytes :
    ({ program := program } : Codec).decode "Top" cutBytes = .ok cutValue := by
  decide +kernel

end Tree
end WireGrammar
