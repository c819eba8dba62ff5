import WireGrammar.Proofs.RoundTrip.Operation
import WireGrammar.Proofs.Stream.Sending

/-!
# Cutting text off is refusing none that has been cut off

`WireGrammar.Proofs.Encode.Clipped` compares the two policies where both succeed.  They also fail
alike: the one that cuts text off ends as the other does on the value whose text has been cut off
beforehand, with the same bytes, at the same misfit and with the same refusal.

* `Text.LongestPrefix` — what is kept of a text (`Text.longestPrefix_clip`).
* `Output.TakesText` — a step that refused no text.
* `EncodeM.Coincides m m'` — what `m` does where text is cut off, `m'` does where it is refused, and
  neither refuses any.  `EncodeOp.run_coincides` and `Program.encode_coincides` say so of operations
  and routines, on a value and on what is left of it.
* `Codec.encode_truncate` — so it is for every codec, and what it writes can be read.
-/

set_option autoImplicit false
namespace WireGrammar

/-! ## What is kept of a text -/

namespace Text

/-- `t` is the longest initial part of `s` that takes at most `room` bytes.  Both are made of whole
characters, so `t` never ends inside of one. -/
structure LongestPrefix (room : Nat) (s t : String) : Prop where
  isPrefix : t.toList <+: s.toList
  fits : t.utf8ByteSize ≤ room
  longest : ∀ u : String, u.toList <+: s.toList → u.utf8ByteSize ≤ room → u.toList <+: t.toList

theorem longestPrefix_self {room : Nat} {s : String} (h : s.utf8ByteSize ≤ room) :
    LongestPrefix room s s :=
  ⟨List.prefix_rfl, h, fun _ hu _ => hu⟩

/-- Nothing that fits is longer than what is kept. -/
theorem isPrefix_clipChars :
    ∀ {room : Nat} {us cs : List Char}, us <+: cs → (String.ofList us).utf8ByteSize ≤ room →
      us <+: clipChars room cs
  | room, [], cs, _, _ => List.nil_prefix
  | room, u :: us, [], h, _ => absurd (List.prefix_nil.1 h) (List.cons_ne_nil _ _)
  | room, u :: us, c :: cs, h, hle => by
    obtain ⟨rfl, htail⟩ := List.cons_prefix_cons.1 h
    rw [String.ofList_cons, String.utf8ByteSize_append, String.utf8ByteSize_singleton] at hle
    rw [clipChars, if_pos (by omega)]
    exact List.cons_prefix_cons.2 ⟨rfl, isPrefix_clipChars htail (by omega)⟩

/-- **A text is cut off at the last character that fits.** -/
theorem longestPrefix_clip (room : Nat) (s : String) : LongestPrefix room s (clip room s) := by
  rw [clip_eq]
  refine ⟨?_, utf8ByteSize_clipChars_le room s.toList, fun u hu hle => ?_⟩
  · rw [String.toList_ofList]
    exact clipChars_isPrefix room s.toList
  · rw [String.toList_ofList]
    exact isPrefix_clipChars hu (by rwa [String.ofList_toList])

end Text

/-- What is left of a text under the policy that cuts it off. -/
theorem Overflow.longestPrefix_kept (s : String) :
    Text.LongestPrefix Writer.maxTextLength s ((Overflow.truncate.kept s).getD s) := by
  rw [kept]
  split
  · next h => exact Text.longestPrefix_self h
  · exact Text.longestPrefix_clip _ s

/-- A writer that cuts text off writes what is left of it. -/
theorem Writer.putText_of_truncate {w : Writer} (hw : w.overflow = .truncate) (s : String) :
    w.putText s =
      w.append (BigEndian.counted .uint16 ((Overflow.truncate.kept s).getD s).toUTF8) := by
  have hcounted : ∀ t : String, w.putCounted .uint16 t.toUTF8 =
      w.append (BigEndian.counted .uint16 t.toUTF8) := by
    intro t
    simp [putCounted, putNat, putInt, append, BigEndian.counted, ByteArray.append_assoc]
  rw [putText, Overflow.kept]
  split
  · exact hcounted s
  · rw [hw]
    exact hcounted _

/-- Cutting text off does not change what kind of value this is. -/
theorem Value.describe_clip (v : Value) : v.clip.describe = v.describe := by
  cases v <;> rw [clip] <;> rfl

/-! ## Steps -/

/-- The step neither refused a text nor stopped because of one. -/
def Output.TakesText (out : Output) : Prop :=
  ∀ n, out.result ≠ .error (.encode (.stringTooLong n)) ∧ out.refused ≠ some (.stringTooLong n)

namespace Output.TakesText

variable {out out' : Output}

theorem andThen (h : out.TakesText) (h' : out'.TakesText) : (out.andThen out').TakesText := by
  intro n
  rw [Output.andThen]
  split
  · refine ⟨(h' n).1, ?_⟩
    have hrefused := (h n).2
    cases hr : out.refused with
    | none => simpa only [Option.none_or] using (h' n).2
    | some e => simpa only [Option.some_or, hr] using hrefused
  · exact h n

theorem slotted (h : out.TakesText) (s : ByteArray) (measure : ByteArray → BitVec 32) :
    (out.slotted s measure).TakesText := by
  intro n
  rw [Output.slotted]
  split <;> exact h n

theorem finish_ne (h : out.TakesText) (n : Nat) :
    out.finish ≠ .error (.encode (.stringTooLong n)) := by
  obtain ⟨hresult, hrefused⟩ := h n
  obtain ⟨_ | _, bytes, _ | _⟩ := out <;> simp_all [Output.finish]

end Output.TakesText

namespace EncodeM

/-- **What `m` does where text is cut off, `m'` does where it is refused**, and it refuses none. -/
def Coincides (m m' : EncodeM Unit) : Prop :=
  ∃ out : Output, Appends m .truncate out ∧ Appends m' .reject out ∧ out.TakesText

variable {m m' n n' : EncodeM Unit}

/-- A step that does not look at the policy. -/
theorem coincides_of_appends {out : Output} (h : ∀ o, Appends m o out) (hout : out.TakesText) :
    Coincides m m :=
  ⟨out, h .truncate, h .reject, hout⟩

theorem coincides_throw {e : CodecError} (he : ∀ n, e ≠ .encode (.stringTooLong n)) :
    Coincides (throw e) (throw e) :=
  coincides_of_appends (fun _ => appends_throw e) fun n => ⟨by simpa using he n, by simp⟩

theorem Coincides.ne_stringTooLong {e : CodecError} (h : Coincides (throw e) m') (n : Nat) :
    e ≠ .encode (.stringTooLong n) := by
  obtain ⟨out, hlax, -, hout⟩ := h
  have hresult : .error e = out.result :=
    congrArg Prod.fst (hlax { overflow := .truncate } rfl)
  rintro rfl
  exact (hout n).1 hresult.symm

theorem coincides_append (b : ByteArray) :
    Coincides (modify (·.append b)) (modify (·.append b)) :=
  coincides_of_appends (fun _ => appends_append b) fun _ => ⟨by simp, by simp⟩

theorem coincides_pure : Coincides (pure ()) (pure ()) :=
  coincides_of_appends (fun _ => appends_pure) fun _ => ⟨by simp, by simp⟩

theorem Coincides.bind (hm : Coincides m m') (hn : Coincides n n') :
    Coincides (m >>= fun _ => n) (m' >>= fun _ => n') := by
  obtain ⟨out, hlax, hstrict, hout⟩ := hm
  obtain ⟨out', hlax', hstrict', hout'⟩ := hn
  exact ⟨_, hlax.bind hlax', hstrict.bind hstrict', hout.andThen hout'⟩

theorem Coincides.slot {s : ByteArray} (hs : s.size = 4) (hn : Coincides n n')
    (f : Nat → Writer → BitVec 32) (measure : ByteArray → BitVec 32)
    (hf : ∀ (w : Writer) (a b : ByteArray), w.bytes = a ++ b → f a.size w = measure b) :
    Coincides
      (do
        let slot := (← get).size
        modify (·.append s)
        let start := (← get).size
        n
        modify fun w => w.patch slot (f start w))
      (do
        let slot := (← get).size
        modify (·.append s)
        let start := (← get).size
        n'
        modify fun w => w.patch slot (f start w)) := by
  obtain ⟨out, hlax, hstrict, hout⟩ := hn
  exact ⟨_, hlax.slot hs f measure hf, hstrict.slot hs f measure hf, hout.slotted s measure⟩

end EncodeM

open EncodeM

/-! ## Operations -/

/-- A value of the wrong kind is reported in the same words once its text has been cut off. -/
theorem coincides_mismatch (expected : String) (v : Value) :
    Coincides (throw (.mismatch expected v)) (throw (.mismatch expected v.clip)) := by
  rw [CodecError.mismatch, CodecError.mismatch, v.describe_clip]
  exact coincides_throw (by simp)

theorem putText_coincides (s : String) :
    Coincides (modify (·.putText s))
      (modify (·.putText ((Overflow.truncate.kept s).getD s))) := by
  by_cases h : s.utf8ByteSize ≤ Writer.maxTextLength
  · rw [Overflow.kept, if_pos h, Option.getD_some]
    exact coincides_of_appends (fun o => appends_putText_of_le o h) fun _ => ⟨by simp, by simp⟩
  · have hfits := (Overflow.longestPrefix_kept s).fits
    rw [Overflow.kept, if_neg h, Option.getD_some] at hfits ⊢
    exact ⟨_, appends_putText_truncate (Nat.lt_of_not_le h), appends_putText_of_le .reject hfits,
      fun _ => ⟨by simp, by simp⟩⟩

theorem putBytes_coincides (b : ByteArray) :
    Coincides (modify (·.putBytes b)) (modify (·.putBytes b)) := by
  refine coincides_of_appends (fun o => appends_putBytes o b) fun n => ?_
  split
  · exact ⟨by simp, by simp⟩
  · exact ⟨by simp, by simp⟩

theorem putPrimitive_coincides (q : Primitive) (v : Value) :
    Coincides (putPrimitive q v) (putPrimitive q v.clip) := by
  have hmismatch := coincides_mismatch q.name v
  cases v with
  | text s =>
    cases q with
    | string =>
      rw [Value.clip]
      exact putText_coincides s
    | _ =>
      rw [Value.clip] at hmismatch ⊢
      exact hmismatch
  | int k x =>
    rw [Value.clip] at hmismatch ⊢
    cases q with
    | int l =>
      rw [putPrimitive]
      split
      · exact coincides_append _
      · exact hmismatch
    | _ => exact hmismatch
  | bytes b =>
    rw [Value.clip] at hmismatch ⊢
    cases q with
    | bytes => exact putBytes_coincides b
    | _ => exact hmismatch
  | _ =>
    rw [Value.clip] at hmismatch ⊢
    cases q <;> exact hmismatch

/-- The slot of a framed struct holds no text. -/
theorem putPrimitive_int_clip (k : IntKind) (v : Value) :
    putPrimitive (.int k) v.clip = putPrimitive (.int k) v := by
  cases v <;> rw [Value.clip] <;> rfl

theorem putAll_coincides {item item' : Value → EncodeM Unit}
    (h : ∀ v, Coincides (item v) (item' v.clip)) :
    ∀ vs, Coincides (putAll item vs) (putAll item' (Value.clipItems vs))
  | [] => by
    rw [Value.clipItems]
    exact coincides_pure
  | v :: vs => by
    rw [Value.clipItems]
    exact (h v).bind (putAll_coincides h vs)

/-- A step on a struct; what is left of a value is a struct if the value is. -/
theorem coincides_struct {k k' : List (Field Value) → EncodeM Unit}
    (h : ∀ fields, Coincides (k fields) (k' (Value.clipFields fields))) (v : Value) :
    Coincides
      (match v with
        | .struct fields => k fields
        | other => throw (.mismatch "struct" other))
      (match v.clip with
        | .struct fields => k' fields
        | other => throw (.mismatch "struct" other)) := by
  have hmismatch := coincides_mismatch "struct" v
  cases v with
  | struct fields =>
    rw [Value.clip]
    exact h fields
  | _ =>
    rw [Value.clip] at hmismatch ⊢
    exact hmismatch

/-- The same for a step on a list. -/
theorem coincides_list {k k' : List Value → EncodeM Unit}
    (h : ∀ items, Coincides (k items) (k' (Value.clipItems items))) (v : Value) :
    Coincides
      (match v with
        | .list items => k items
        | other => throw (.mismatch "list" other))
      (match v.clip with
        | .list items => k' items
        | other => throw (.mismatch "list" other)) := by
  have hmismatch := coincides_mismatch "list" v
  cases v with
  | list items =>
    rw [Value.clip]
    exact h items
  | _ =>
    rw [Value.clip] at hmismatch ⊢
    exact hmismatch

section Operations

variable {call call' : String → Option Value → EncodeM Unit}

mutual

/-- **An operation that cuts text off does what one that refuses text does** on what is left of the
value, if that is so for the routines that are called. -/
theorem EncodeOp.run_coincides
    (hcall : ∀ name v, Coincides (call name v) (call' name (v.map Value.clip))) :
    ∀ (op : EncodeOp) (v : Option Value),
      Coincides (op.run call v) (op.run call' (v.map Value.clip))
  | .write q, v => by
    rw [run, run, Value.getD_map_clip (Value.clip_zero q)]
    exact putPrimitive_coincides q _
  | .writeAlias typeName q, v => by
    have hzero : (Value.named typeName (.zero q)).clip = .named typeName (.zero q) := by
      rw [Value.clip, Value.clip_zero]
    have hmismatch := coincides_mismatch typeName (v.getD (.named typeName (.zero q)))
    rw [run, run, Value.getD_map_clip hzero]
    cases hv : v.getD (.named typeName (.zero q)) with
    | named found x =>
      simp only [Value.clip]
      split
      · exact putPrimitive_coincides q x
      · exact coincides_throw (by simp)
    | _ =>
      rw [hv, Value.clip] at hmismatch
      rw [Value.clip]
      exact hmismatch
  | .call name, v => by
    rw [run, run]
    exact hcall name v
  | .struct ops, v => by
    rw [run, run, Value.getD_map_clip Value.clip_struct_nil]
    exact coincides_struct (fun fields => runFields_coincides hcall fields ops) _
  | .framed framing signed body, v => by
    rw [run, run, Value.getD_map_clip Value.clip_struct_nil]
    refine coincides_struct (fun fields => ?_) _
    have hbody := runFields_coincides hcall fields body
    simp only [Value.get?_clipFields, Value.getD_map_clip (Value.clip_zero _),
      putPrimitive_int_clip]
    generalize (Fields.get? framing.fieldName fields).getD (.zero (.int (.word signed))) = slot
    rcases putPrimitive_int_cases .reject (.word signed) slot with ⟨e, hput, -⟩ | ⟨x, hput, -⟩
    · have hthrow := putPrimitive_coincides (.int (.word signed)) slot
      rw [hput] at hthrow
      simp only [hput]
      exact ⟨_, appends_get_throw e _, appends_get_throw e _,
        fun n => ⟨by simpa using hthrow.ne_stringTooLong n, by simp⟩⟩
    · simp only [hput]
      exact hbody.slot (BigEndian.size_encode _ _)
        (fun start w => framing.measure (w.bytes.extract start w.size)) framing.measure
        framing.measure_written
  | .lengthArray element, v => by
    rw [run, run, Value.getD_map_clip Value.clip_list_nil]
    refine coincides_list (fun items => ?_) _
    have hitem : ∀ item,
        Coincides (element.run call (some item)) (element.run call' (some item.clip)) :=
      fun item => run_coincides hcall element (some item)
    rw [Value.length_clipItems]
    split
    · exact (coincides_append _).bind (putAll_coincides hitem items)
    · exact coincides_throw (by simp)
  | .sizeArray element, v => by
    rw [run, run, Value.getD_map_clip Value.clip_list_nil]
    refine coincides_list (fun items => ?_) _
    have hitem : ∀ item,
        Coincides (element.run call (some item)) (element.run call' (some item.clip)) :=
      fun item => run_coincides hcall element (some item)
    exact (putAll_coincides hitem items).slot (BigEndian.size_encode .int32 0#32)
      (fun start w => BitVec.ofNat 32 (w.size - start)) (fun b => BitVec.ofNat 32 b.size)
      Writer.size_written
  | .unsupported owner, v => by
    rw [run, run]
    exact coincides_throw (by simp)

theorem EncodeOp.runFields_coincides
    (hcall : ∀ name v, Coincides (call name v) (call' name (v.map Value.clip)))
    (fields : List (Field Value)) :
    ∀ ops : List (Field EncodeOp),
      Coincides (runFields call fields ops) (runFields call' (Value.clipFields fields) ops)
  | [] => by
    rw [runFields, runFields]
    exact coincides_pure
  | ⟨name, op⟩ :: ops => by
    rw [runFields, runFields, Value.get?_clipFields]
    exact (run_coincides hcall op _).bind (runFields_coincides hcall fields ops)

end

end Operations

/-- **Every routine that cuts text off does what one that refuses text does** on what is left of
the value. -/
theorem Program.encode_coincides (p : Program) :
    ∀ (fuel : Nat) (name : String) (v : Option Value),
      Coincides (p.encode fuel name v) (p.encode fuel name (v.map Value.clip))
  | 0, name, v => coincides_throw (by simp)
  | fuel + 1, name, v => by
    rw [encode, encode]
    cases p.routine? name with
    | some r => exact r.encode.run_coincides (p.encode_coincides fuel) v
    | none =>
      refine coincides_throw fun n => ?_
      rw [missing]
      split <;> simp

/-! ## Codecs -/

namespace Codec

variable {c : Codec}

/-- Encoding a value where text is cut off, and what is left of it where text is refused. -/
theorem exists_outputs_clip (c : Codec) (typeName : String) (v : Value) :
    ∃ out, c.Outputs .truncate typeName v out ∧ c.Outputs .reject typeName v.clip out ∧
      out.TakesText := by
  obtain ⟨out, hlax, hstrict, hout⟩ :=
    c.program.encode_coincides (c.callBound * (v.depth + 1)) typeName (some v)
  refine ⟨out, hlax, fun w hw => ?_, hout⟩
  rw [encodeInto, Value.depth_clip]
  exact hstrict w hw

/-- What a codec writes under its own policy, it decodes as what that policy keeps. -/
theorem decode_of_encode {verifyCrc : Bool} {text : String} {compiled : Compiled} {o : Overflow}
    {typeName : String} {v : Value} {b : ByteArray}
    (hcompile : compile verifyCrc text = .ok compiled) (hs : compiled.schema.Grounded)
    (hlink : link compiled.program o = .ok c) (hv : c.encode typeName v = .ok b)
    (hb : b.size ≤ Writer.maxCount) :
    c.decode typeName b = .ok (c.norm typeName (c.overflow.keep v)) := by
  have hsolid : (EncodeOp.call typeName).Solid := by
    rw [EncodeOp.Solid]
    trivial
  have hinverts := inverts_encodeBy hcompile hlink hsolid hv hb
  rw [EncodeOp.mirror, normBy_call] at hinverts
  rw [decode, decodeFrom_of_decodes (emit_eq_of_link hcompile hlink) hs
    (isSome_routine?_of_encode hv) (hinverts _ (faces_whole b))]
  simp only [complete_whole]

/-- **Cutting text off is refusing none that has been cut off beforehand.**  Every text is cut off
at the last character that fits, and is read back as that, whatever stands around it.  A codec that
does so has the same result, bytes or error, as one that refuses long text has on the value with all
its text cut off.  So it never fails because of a text, its bytes are the layout of that value, with
slots that describe what was written and not what was given, and they are decoded as that value. -/
theorem encode_truncate (hc : c.overflow = .truncate) (typeName : String) (v : Value) :
    (∀ s, ∃ t, (Value.text s).clip = .text t ∧ Text.LongestPrefix Writer.maxTextLength s t ∧
      (∀ w : Writer, w.overflow = .truncate →
        w.putText s = w.append (BigEndian.counted .uint16 t.toUTF8)) ∧
      ∀ r : Reader, r.Faces (BigEndian.counted .uint16 t.toUTF8) →
        r.readText = (t, r.skip (BigEndian.counted .uint16 t.toUTF8).size)) ∧
    c.encode typeName v = c.strict.encode typeName v.clip ∧
    (∀ n, c.encode typeName v ≠ .error (.encode (.stringTooLong n))) ∧
    ∀ b, c.encode typeName v = .ok b →
      c.layout .reject typeName v.clip = some b ∧
      ∀ (verifyCrc : Bool) (text : String) (compiled : Compiled),
        compile verifyCrc text = .ok compiled → compiled.schema.Grounded →
        link compiled.program .truncate = .ok c → b.size < 2 ^ 31 →
        c.decode typeName b = .ok (c.norm typeName v.clip) := by
  obtain ⟨out, hlax, hstrict, hout⟩ := c.exists_outputs_clip typeName v
  rw [← hc] at hlax
  have hencode := encode_of_outputs hlax
  have hsame : c.encode typeName v = c.strict.encode typeName v.clip :=
    hencode.trans (encode_of_outputs (c := c.strict) hstrict).symm
  refine ⟨fun s => ?_, hsame, fun n => ?_, fun b hb => ⟨?_, ?_⟩⟩
  · have hkept := Overflow.longestPrefix_kept s
    exact ⟨_, by rw [Value.clip], hkept, fun w hw => w.putText_of_truncate hw s,
      fun r hr => hr.readText hkept.fits⟩
  · rw [hencode]
    exact hout.finish_ne n
  · rw [hsame] at hb
    exact encode_eq_ok.1 hb
  · intro verifyCrc text compiled hcompile hs hlink hsize
    have hmax : b.size ≤ Writer.maxCount := by
      rw [Writer.maxCount]
      omega
    have hdecode := decode_of_encode hcompile hs hlink hb hmax
    rwa [hc] at hdecode

end Codec

namespace Letter

theorem grounded : compiled.schema.Grounded :=
  Schema.grounded_of_rank (fun _ => 0) (by
    simp [compiled, Ty.inlineRefs, Ty.inlineRefsOfFields])

/-- A letter that is too long takes as many bytes as the longest one. -/
theorem exists_encode_long {n : Nat} (hn : Writer.maxTextLength < n) :
    ∃ b, codec.encode "Letter" (value n) = .ok b ∧ b.size ≤ 65541 := by
  have hlong : Writer.maxTextLength < (text n).utf8ByteSize := by rwa [utf8ByteSize_text]
  have hclip : (Text.clip Writer.maxTextLength (text n)).toUTF8.size ≤ 65535 :=
    (Text.longestPrefix_clip Writer.maxTextLength (text n)).fits
  have hslot : ∀ x : BitVec 32, (BigEndian.encode .uint32 x).size = 4 :=
    fun _ => BigEndian.size_encode _ _
  have hlength : IntKind.uint16.bytes = 2 := rfl
  have hencode := Codec.encode_of_outputs (outputs (appends_putText_truncate hlong))
  simp only [Output.finish, Output.slotted, Output.andThen] at hencode
  refine ⟨_, hencode, ?_⟩
  rw [ByteArray.size_append, ByteArray.size_append, BigEndian.size_counted, ByteArray.size_empty,
    hslot, hlength]
  omega

end Letter

theorem Codec.encode_truncate_letter :
    ∃ b, Letter.codec.encode "Letter" (Letter.value 65536) = .ok b ∧
      Letter.codec.strict.encode "Letter" (Letter.value 65536).clip = .ok b ∧
      Letter.codec.decode "Letter" b =
        .ok (Letter.codec.norm "Letter" (Letter.value 65536).clip) := by
  obtain ⟨b, hb, hsize⟩ := Letter.exists_encode_long (n := 65536) (by decide)
  obtain ⟨-, hsame, -, hbytes⟩ := encode_truncate (c := Letter.codec) rfl "Letter"
    (Letter.value 65536)
  refine ⟨b, hb, hsame.symm.trans hb, ?_⟩
  exact (hbytes b hb).2 true Letter.source Letter.compiled Letter.compile_source Letter.grounded
    Letter.link_program (by omega)

end WireGrammar
