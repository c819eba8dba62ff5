import WireGrammar.Bytes.Lemmas
import WireGrammar.Proofs.Decode.Acceptance
import WireGrammar.Proofs.Framing.Checksum

/-!
# Inputs whose slot has been verified

A decoder that verifies the slot of a framed struct accepts bytes only if the first four of them
describe all the others.  What stands between the slot and the end does not matter for this: a size
array in the body may forget errors and skip bytes, but the verified window is the whole rest of an
accepted input.

* `Schema.FramedAs` — a declared type begins with a slot of the given framing and signedness.
* `Framing.Describes` — what the slot says is true of the body.
* `Codec.describes_of_decode` — the slot of an accepted input describes the rest of it.
* `Codec.decode_framed_by_size` — so only inputs of exactly the right size are accepted, and no
  accepted input is the beginning of another.
* `Codec.decode_set_of_crc` — and no accepted input stays one when a byte of it changes.
-/

set_option autoImplicit false
namespace WireGrammar

/-- The type `name` is a struct that begins with a slot of the given framing and signedness, or a
chain of names leads to one. -/
inductive Schema.FramedAs (s : Schema) (framing : Framing) (signed : Bool) : String → Prop
  | struct {name : String} {d : TypeDecl} {fields : List (Field Ty)} (hd : s.get? name = some d)
      (ht : d.type =
        .struct (⟨framing.fieldName, .scalar (.int (.word signed))⟩ :: fields)) :
      FramedAs s framing signed name
  | renames {name target : String} {d : TypeDecl} (hd : s.get? name = some d)
      (ht : d.type = .named target) (h : FramedAs s framing signed target) :
      FramedAs s framing signed name

/-- What the slot of a framed struct says is true of the body. -/
def Framing.Describes (signed : Bool) (slot : BitVec (IntKind.word signed).bits)
    (body : ByteArray) : Framing → Prop
  | .size => (IntKind.word signed).toInt slot = body.size
  | .crc => UInt32.ofNat slot.toNat = checksum body

/-- **Verification** leaves no error only where the slot describes the body, and then it changes
nothing. -/
theorem Reader.describes_of_verify {r : Reader} {framing : Framing} {signed : Bool}
    {slot : BitVec (IntKind.word signed).bits} {start : Nat} (hin : r.offset ≤ r.buffer.size)
    (h : (r.verify framing signed slot start).error = none) :
    r.verify framing signed slot start = r ∧
      framing.Describes signed slot (r.window start r.offset) := by
  have herr := error_eq_none_of_verify h
  cases framing with
  | size =>
    have hsize : (r.window start r.offset).size = r.offset - start := by
      rw [window, ByteArray.size_extract, Nat.min_eq_left hin]
    simp only [verify, herr] at h ⊢
    split at h
    · next heq => exact ⟨if_pos heq, by rw [Framing.Describes, heq, hsize]⟩
    · cases h
  | crc =>
    simp only [verify, herr] at h ⊢
    split at h
    · next heq => exact ⟨if_pos heq, heq⟩
    · cases h

/-! ## Routines of framed types -/

theorem framing?_eq_some (owner : String) (framing : Framing) (signed : Bool)
    (fields : List (Field Ty)) :
    framing? owner (⟨framing.fieldName, .scalar (.int (.word signed))⟩ :: fields) =
      .ok (some (framing, signed)) := by
  rw [framing?, Framing.ofName?_fieldName]
  rfl

namespace Schema

variable {s : Schema} {verifyCrc : Bool} {p : Program} {framing : Framing} {signed : Bool}
  {name : String}

theorem FramedAs.isSome_routine? (h : s.FramedAs framing signed name)
    (hp : s.emit verifyCrc = .ok p) : (p.routine? name).isSome := by
  cases h with
  | struct hd ht =>
    obtain ⟨t, hr, -⟩ := s.exists_encodeOp_of_get? hp hd (by simp [ht]) (by simp [ht])
    rw [hr]
    rfl
  | renames hd ht _ =>
    obtain ⟨t, hr, -⟩ := s.exists_encodeOp_of_get? hp hd (by simp [ht]) (by simp [ht])
    rw [hr]
    rfl

/-- **Decoding a framed type is decoding a slot and a body**, behind any number of names. -/
theorem FramedAs.decodes_framed (h : s.FramedAs framing signed name)
    (hp : s.emit verifyCrc = .ok p) {r r' : Reader} {v : Value}
    (hv : Decodes p (.call name) r v r') :
    ∃ body, Decodes p (.framed framing signed (framing.verified verifyCrc) body) r v r' := by
  induction h with
  | @struct name d fields hd ht =>
    obtain ⟨t, hr, he⟩ := s.exists_encodeOp_of_get? hp hd (by simp [ht]) (by simp [ht])
    rw [ht] at he
    have hdecode := s.mirror_of_emit hp hr
    obtain ⟨ops, -, ⟨hnone, -⟩ | ⟨framing', signed', hsome, hop⟩⟩ := Ty.encodeOp_struct_cases he
    · rw [framing?_eq_some] at hnone
      cases hnone
    · rw [framing?_eq_some] at hsome
      cases hsome
      rw [hop, EncodeOp.mirror] at hdecode
      cases hv with
      | call ht' hv =>
        cases hr.symm.trans ht'
        rw [hdecode] at hv
        exact ⟨_, hv⟩
      | noRoutine _ ht' => cases hr.symm.trans ht'
  | @renames name target d hd ht _ ih =>
    obtain ⟨t, hr, he⟩ := s.exists_encodeOp_of_get? hp hd (by simp [ht]) (by simp [ht])
    rw [ht] at he
    have hdecode := s.mirror_of_emit hp hr
    rw [← Except.ok.inj he, EncodeOp.mirror] at hdecode
    cases hv with
    | call ht' hv =>
      cases hr.symm.trans ht'
      rw [hdecode] at hv
      exact ih hv
    | noRoutine _ ht' => cases hr.symm.trans ht'

end Schema

/-- **A verified slot describes all that is read behind it.** -/
theorem Decodes.describes {p : Program} {framing : Framing} {signed : Bool}
    {body : List (Field DecodeOp)} {r r' : Reader} {v : Value}
    (h : Decodes p (.framed framing signed true body) r v r') (herr : r'.error = none) :
    4 ≤ r.remaining ∧
      framing.Describes signed
        (BigEndian.decode (.word signed) (r.buffer.extract r.offset (r.offset + 4)))
        (r.buffer.extract (r.offset + 4) r'.offset) := by
  cases h with
  | @framed _ _ _ _ _ start r₁ slot fields hslot hfields =>
    rw [if_pos rfl] at herr ⊢
    have hstart := hfields.error_eq_none (Reader.error_eq_none_of_verify herr)
    obtain ⟨-, hle, rfl, rfl⟩ := Reader.readInt_eq_of_error_eq_none hslot hstart
    change 4 ≤ r.remaining at hle
    have hadv := hfields.advances
    have hin : r₁.offset ≤ r₁.buffer.size := by
      refine hadv.offset_le_size ?_
      show r.offset + 4 ≤ r.buffer.size
      rw [Reader.remaining] at hle
      omega
    obtain ⟨hsame, hdescribes⟩ := Reader.describes_of_verify hin herr
    rw [Reader.window, hadv.buffer_eq] at hdescribes
    rw [hsame]
    exact ⟨hle, hdescribes⟩

namespace Codec

variable {s : Schema} {verifyCrc : Bool} {c : Codec} {typeName : String} {framing : Framing}
  {signed : Bool} {a b t : ByteArray} {v w : Value}

/-- **The slot of an accepted input describes the rest of it.** -/
theorem describes_of_decode (hp : s.emit verifyCrc = .ok c.program)
    (ht : s.FramedAs framing signed typeName) (hverify : framing.verified verifyCrc = true)
    (h : c.decode typeName b = .ok v) :
    4 ≤ b.size ∧
      framing.Describes signed (BigEndian.decode (.word signed) (b.extract 0 4))
        (b.extract 4 b.size) := by
  obtain ⟨-, r', hdecodes, herr, -, hoffset⟩ := exists_decodes_of_decode h
  obtain ⟨body, hframed⟩ := ht.decodes_framed hp hdecodes
  rw [hverify] at hframed
  have hdescribes := hframed.describes herr
  rw [hoffset] at hdescribes
  simpa [Reader.remaining] using hdescribes

/-! ## Sizes -/

/-- The size of an input is what its first four bytes say, and these four. -/
theorem size_eq_of_decode (hp : s.emit verifyCrc = .ok c.program)
    (ht : s.FramedAs .size signed typeName) (h : c.decode typeName b = .ok v) :
    4 ≤ b.size ∧
      (b.size : Int) =
        4 + (IntKind.word signed).toInt (BigEndian.decode (.word signed) (b.extract 0 4)) := by
  obtain ⟨hle, hslot⟩ := describes_of_decode hp ht rfl h
  rw [Framing.Describes, ByteArray.size_extract] at hslot
  exact ⟨hle, by omega⟩

/-- Two accepted inputs, one of which begins with the other, are the same. -/
theorem eq_empty_of_decode_append (hp : s.emit verifyCrc = .ok c.program)
    (ht : s.FramedAs .size signed typeName) (ha : c.decode typeName a = .ok v)
    (hat : c.decode typeName (a ++ t) = .ok w) : t = .empty := by
  obtain ⟨hle, hsize⟩ := size_eq_of_decode hp ht ha
  obtain ⟨-, hsize'⟩ := size_eq_of_decode hp ht hat
  have hheader : (a ++ t).extract 0 4 = a.extract 0 4 := by
    rw [ByteArray.extract_append, Nat.sub_eq_zero_of_le hle, Nat.zero_sub, ByteArray.extract_same,
      ByteArray.append_empty]
  rw [hheader, ← hsize, ByteArray.size_append] at hsize'
  exact ByteArray.size_eq_zero_iff.1 (by omega)

/-- **Types framed by their size accept only inputs of exactly that size.**  The size is the number
in the first four bytes, in the signedness of the field, and these four.  So an accepted input is
not accepted any more when bytes are added to its end or taken off it. -/
theorem decode_framed_by_size (hp : s.emit verifyCrc = .ok c.program) (hs : s.Grounded)
    (ht : s.FramedAs .size signed typeName) (h : c.decode typeName b = .ok v) :
    (4 ≤ b.size ∧
      (b.size : Int) =
        4 + (IntKind.word signed).toInt (BigEndian.decode (.word signed) (b.extract 0 4))) ∧
    (∀ t, t ≠ .empty → ∃ e, c.decode typeName (b ++ t) = .error (.decode e)) ∧
    ∀ a t, b = a ++ t → t ≠ .empty → ∃ e, c.decode typeName a = .error (.decode e) := by
  have hroutine := ht.isSome_routine? hp
  refine ⟨size_eq_of_decode hp ht h, fun t hne => ?_, fun a t hb hne => ?_⟩
  · rcases decode_ok_or_error hp hs hroutine (b ++ t) with ⟨w, hw⟩ | herr
    · exact absurd (eq_empty_of_decode_append hp ht h hw) hne
    · exact herr
  · rcases decode_ok_or_error hp hs hroutine a with ⟨w, hw⟩ | herr
    · rw [hb] at h
      exact absurd (eq_empty_of_decode_append hp ht hw h) hne
    · exact herr

end Codec

namespace Tree

theorem framedAs_top : schema.FramedAs .size true "Top" :=
  .renames rfl rfl (.struct rfl rfl)

theorem framedAs_mark : schema.FramedAs .crc false "Mark" :=
  .struct rfl rfl

end Tree

namespace Codec

/-- The bytes that the array promises cannot be given later: the size says that it ends here. -/
theorem decode_framed_by_size_tree :
    (∃ e, ({ program := Tree.program } : Codec).decode "Top"
      (Tree.cutBytes ++ ⟨#[0, 0, 0, 9, 0xd2, 0x02]⟩) = .error (.decode e)) ∧
    (Tree.cutBytes.size : Int) = 4 + 9 := by
  obtain ⟨⟨-, hsize⟩, hlonger, -⟩ := decode_framed_by_size
    (c := { program := Tree.program }) Tree.emit_schema Tree.grounded Tree.framedAs_top
    Tree.decode_cutBytes
  exact ⟨hlonger _ (by decide), hsize⟩

end Codec

/-! ## Checksums -/

/-- Four bytes are told by the word they are read as. -/
theorem BigEndian.eq_of_decode_word_eq {signed : Bool} {a a' : ByteArray} (ha : a.size = 4)
    (ha' : a'.size = 4)
    (h : UInt32.ofNat (decode (.word signed) a).toNat =
      UInt32.ofNat (decode (.word signed) a').toNat) : a = a' := by
  have hword : decode (.word signed) a = decode (.word signed) a' := by
    apply BitVec.eq_of_toNat_eq
    have hnat := congrArg UInt32.toNat h
    have hlt : (decode (.word signed) a).toNat < 2 ^ 32 := BitVec.isLt _
    have hlt' : (decode (.word signed) a').toNat < 2 ^ 32 := BitVec.isLt _
    rwa [UInt32.toNat_ofNat_of_lt' hlt, UInt32.toNat_ofNat_of_lt' hlt'] at hnat
  rw [← encode_decode (.word signed) a ha, hword,
    encode_decode (.word signed) a' ha']

namespace Codec

variable {s : Schema} {c : Codec} {typeName : String} {signed : Bool} {b : ByteArray} {v : Value}

/-- **One changed byte is always noticed.**  Whatever the fields of a type framed by its checksum
are, an accepted input is refused when any one byte of it is replaced by another. -/
theorem decode_set_of_crc (hp : s.emit true = .ok c.program) (hs : s.Grounded)
    (ht : s.FramedAs .crc signed typeName) (h : c.decode typeName b = .ok v) {i : Nat}
    (hi : i < b.size) {x : UInt8} (hx : x ≠ b[i]) :
    ∃ e, c.decode typeName (b.set i x) = .error (.decode e) := by
  rcases decode_ok_or_error hp hs (ht.isSome_routine? hp) (b.set i x) with ⟨w, hw⟩ | herr
  · exfalso
    obtain ⟨hle, hslot⟩ := describes_of_decode hp ht rfl h
    obtain ⟨-, hslot'⟩ := describes_of_decode hp ht rfl hw
    rw [Framing.Describes] at hslot hslot'
    rw [Bytes.size_set hi] at hslot'
    rcases Nat.lt_or_ge i 4 with hlt | hge
    · -- the byte is in the slot: the checksum stays, so the slot would have to be the same
      obtain ⟨hin, hget, hset⟩ := Bytes.extract_set_of_mem hi x (Nat.zero_le i) hlt
      rw [Bytes.extract_set_of_not_mem hi x (.inl hlt), ← hslot, hset] at hslot'
      have hfour : (b.extract 0 4).size = 4 := by
        rw [ByteArray.size_extract]
        omega
      have hfour' := (Bytes.size_set hin x).trans hfour
      exact Bytes.set_ne_self hin x (by rwa [hget])
        (BigEndian.eq_of_decode_word_eq hfour' hfour hslot')
    · -- the byte is in the body: the slot stays, so the checksum would have to be the same
      obtain ⟨hin, hget, hset⟩ := Bytes.extract_set_of_mem hi x hge hi
      rw [Bytes.extract_set_of_not_mem hi x (.inr hge), hset] at hslot'
      exact checksum_set_ne hin (by rwa [hget]) (hslot'.symm.trans hslot)
  · exact herr

/-- The value that the checksum guards has changed. -/
theorem decode_set_of_crc_mark :
    ∃ e, ({ program := Tree.program } : Codec).decode "Mark"
      ⟨#[0xd2, 0x02, 0xef, 0x8d, 1]⟩ = .error (.decode e) := by
  have hmark : ({ program := Tree.program } : Codec).decode "Mark"
      ⟨#[0xd2, 0x02, 0xef, 0x8d, 0]⟩ =
        .ok (.struct [⟨"CRC", .int .uint32 0xd202ef8d⟩, ⟨"v", .int .int8 0⟩]) := by
    decide +kernel
  exact decode_set_of_crc Tree.emit_schema Tree.grounded Tree.framedAs_mark hmark
    (show 4 < 5 by decide) (by decide)

end Codec
end WireGrammar
