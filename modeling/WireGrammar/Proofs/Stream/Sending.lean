import WireGrammar.Proofs.RoundTrip.Shape
import WireGrammar.Proofs.Stream.Exchange

/-!
# What is sent

Sending encodes once more, on a writer that refuses long text, and looks only at what that writer
refused.  So it may differ from encoding in two ways: text that the codec would cut off is refused,
and an encoding that stops half-way is taken for a whole one.

* `Frame.send_of_outputs` — sending, from the output of encoding.
* `Frame.send_of_message` — what has been encoded once is sent as the same bytes, unless the codec
  cuts text off and there is some to cut off.
* `Codec.Obtains` — how messages come about: from a value that encodes, from the zero value, or by
  receiving into either.
* `Frame.send_of_obtained` — every such message can be sent, and as the bytes of its value, unless
  its type has an alternation within reach.
-/

set_option autoImplicit false
namespace WireGrammar

namespace Frame

variable {c : Codec} {typeName : String} {v : Value}

/-- **Sending looks at what was refused, and not at how encoding ended.** -/
theorem send_of_outputs {out : Output} (hout : c.Outputs .reject typeName v out) {s : Stream}
    (hs : s.capacity = none) :
    send { codec := c, typeName := typeName, value := v } s =
      match out.refused with
      | some e => (.error (.encode e), s)
      | none => (.ok (), s.feed out.bytes) := by
  have hrun := hout {} rfl
  cases h : out.refused with
  | some e => simp [send, Message.encodeInto, hrun, Writer.finish, Writer.extend, h]
  | none => simp [send, Message.encodeInto, hrun, Writer.finish, Writer.extend, h, Stream.write, hs]

/-- **Sending a message that was encoded once.**  It appends the very bytes, unless the codec cuts
text off and the value has text that is too long: that is refused, and nothing is appended. -/
theorem send_of_message {m : Message} (hm : c.message typeName v = .ok m) {s : Stream}
    (hs : s.capacity = none) :
    ∃ b, c.encode typeName v = .ok b ∧
      (c.strict.encode typeName v = .ok b ∧ send m s = (.ok (), s.feed b) ∨
        c.overflow = .truncate ∧ ∃ n, Writer.maxTextLength < n ∧
          c.strict.encode typeName v = .error (.encode (.stringTooLong n)) ∧
          send m s = (.error (.encode (.stringTooLong n)), s)) := by
  obtain ⟨rfl, b, hb⟩ := Codec.message_eq_ok hm
  obtain ⟨out, hout, h⟩ := Codec.exists_strict_output hb
  have hstrict : c.strict.encode typeName v = out.finish := Codec.encode_of_outputs hout
  have hsend := send_of_outputs hout hs
  refine ⟨b, hb, ?_⟩
  rcases h with haccepted | ⟨ho, hresult, n, hn, hrefused⟩
  · obtain ⟨-, hrefused, rfl⟩ := Output.accepted_eq_some.1 haccepted
    rw [hstrict, Output.finish_eq_ok, hsend, hrefused]
    exact .inl ⟨haccepted, rfl⟩
  · rw [hstrict, hsend, Output.finish, hresult, hrefused]
    exact .inr ⟨ho, n, hn, rfl, rfl⟩

end Frame

/-! ## Long text -/

namespace Letter

/-- A letter is a text behind its size. -/
def source : String := "Letter = Size:int32 Text:string"

/-- What the grammar of letters compiles to. -/
def compiled : Compiled where
  grammar := {
    decls := [
      ⟨"Letter", .node .sequence [{ Expr.leaf "int32" with label := some "Size" },
        { Expr.leaf "string" with label := some "Text" }]⟩] }
  schema := {
    decls := [⟨"Letter", .struct [⟨"Size", .scalar (.int .int32)⟩, ⟨"Text", .scalar .string⟩]⟩] }
  program := {
    routines := [
      ⟨"Letter", .framed .size true [⟨"Text", .write .string⟩],
        .framed .size true true [⟨"Text", .read .string⟩]⟩]
    skipped := [] }

theorem compile_source : compile true source = .ok compiled :=
  compile_of_parse? (by decide +kernel) (by cbv) rfl

/-- A codec that cuts letters off where they are too long. -/
def codec : Codec := { program := compiled.program, overflow := .truncate }

theorem link_program : Codec.link compiled.program .truncate = .ok codec := rfl

/-- A text of `n` bytes. -/
def text (n : Nat) : String := String.ofList (List.replicate n 'a')

theorem utf8ByteSize_text (n : Nat) : (text n).utf8ByteSize = n := by
  induction n with
  | zero => rfl
  | succ n ih =>
    rw [text] at ih ⊢
    rw [List.replicate_succ', String.ofList_append, String.utf8ByteSize_append, ih]
    rfl

/-- A letter of `n` bytes. -/
def value (n : Nat) : Value := .struct [⟨"Text", .text (text n)⟩]

/-- What encoding a letter adds, from what its text adds. -/
theorem outputs {n : Nat} {o : Overflow} {body : Output}
    (h : EncodeM.Appends (modify (·.putText (text n))) o body) :
    codec.Outputs o "Letter" (value n)
      ((body.andThen {}).slotted (BigEndian.encode .int32 0) Framing.size.measure) :=
  (h.bind EncodeM.appends_pure).slot (BigEndian.size_encode _ _)
    (fun start w => Framing.size.measure (w.bytes.extract start w.size)) Framing.size.measure
    Framing.size.measure_written

/-- A codec that cuts text off encodes every letter. -/
theorem exists_message (n : Nat) :
    ∃ b, codec.encode "Letter" (value n) = .ok b ∧
      codec.message "Letter" (value n) = .ok ⟨codec, "Letter", value n⟩ := by
  have hencode : ∃ b, codec.encode "Letter" (value n) = .ok b := by
    by_cases h : (text n).utf8ByteSize ≤ Writer.maxTextLength
    · exact ⟨_, Codec.encode_of_outputs (outputs (appends_putText_of_le _ h))⟩
    · have hlong := appends_putText_truncate (Nat.lt_of_not_le h)
      exact ⟨_, Codec.encode_of_outputs (outputs hlong)⟩
  obtain ⟨b, hb⟩ := hencode
  refine ⟨b, hb, ?_⟩
  simp only [Codec.message, hb]

/-- Sending refuses a letter that is too long. -/
theorem send_long {n : Nat} (hn : Writer.maxTextLength < n) {s : Stream} (hs : s.capacity = none) :
    Frame.send ⟨codec, "Letter", value n⟩ s = (.error (.encode (.stringTooLong n)), s) := by
  have hlong := appends_putText_reject (Nat.lt_of_lt_of_eq hn (utf8ByteSize_text n).symm)
  rw [utf8ByteSize_text] at hlong
  exact Frame.send_of_outputs (outputs hlong) hs

end Letter

/-- **A message that was encoded once and yet cannot be sent.**  Its text is one byte too long: the
codec cuts it off, but sending refuses it. -/
theorem Frame.send_letter :
    compile true Letter.source = .ok Letter.compiled ∧
    Codec.link Letter.compiled.program .truncate = .ok Letter.codec ∧
    ∃ m b, Letter.codec.message "Letter" (Letter.value 65536) = .ok m ∧
      Letter.codec.encode "Letter" (Letter.value 65536) = .ok b ∧
      send m {} = (.error (.encode (.stringTooLong 65536)), {}) := by
  refine ⟨Letter.compile_source, Letter.link_program, ?_⟩
  obtain ⟨b, hb, hm⟩ := Letter.exists_message 65536
  exact ⟨_, b, hm, hb, Letter.send_long (by decide) rfl⟩

/-- A letter of three bytes goes through as it is, and one that is too long does not. -/
theorem Frame.send_of_message_letter :
    (∃ b, Letter.codec.encode "Letter" (Letter.value 3) = .ok b ∧
      send ⟨Letter.codec, "Letter", Letter.value 3⟩ {} = (.ok (), ({} : Stream).feed b)) ∧
    ∃ n, send ⟨Letter.codec, "Letter", Letter.value 65536⟩ {} =
      (.error (.encode (.stringTooLong n)), {}) := by
  constructor
  · obtain ⟨-, -, hm⟩ := Letter.exists_message 3
    obtain ⟨b, hb, ⟨-, hsend⟩ | ⟨-, n, -, hstrict, -⟩⟩ := send_of_message hm (s := {}) rfl
    · exact ⟨b, hb, hsend⟩
    · cases hstrict
  · obtain ⟨-, -, hm⟩ := Letter.exists_message 65536
    obtain ⟨b, hb, ⟨-, hsend⟩ | ⟨-, n, -, -, hsend⟩⟩ := send_of_message hm (s := {}) rfl
    · cases (Letter.send_long (by decide) rfl).symm.trans hsend
    · exact ⟨n, hsend⟩

/-! ## Messages that are not encoded before they are sent -/

/-- **How a message of a codec comes about.**  Receiving into a message counts whether or not it
succeeds. -/
inductive Codec.Obtains (c : Codec) : Message → Prop
  | message {typeName : String} {v : Value} {m : Message} (h : c.message typeName v = .ok m) :
      Obtains c m
  | empty {typeName : String} {m : Message} (h : c.emptyMessage typeName = .ok m) : Obtains c m
  | received {limit : Nat} {m m' : Message} {s s' : Stream} {result : Except FrameError Unit}
      (hm : Obtains c m) (h : Frame.receive limit m s = (result, m', s')) : Obtains c m'

/-- Receiving leaves a message alone or decodes into it. -/
theorem Frame.receive_message_cases {limit : Nat} {m m' : Message} {s s' : Stream}
    {result : Except FrameError Unit} (h : receive limit m s = (result, m', s')) :
    m' = m ∨ ∃ r, m' = (m.decodeFrom r).1 := by
  rw [receive] at h
  split at h
  · cases h
    exact .inl rfl
  · simp only at h
    split at h
    · cases h
      exact .inl rfl
    · split at h
      · cases h
        exact .inl rfl
      · split at h
        · cases h
          exact .inl rfl
        · cases h
          exact .inr ⟨_, rfl⟩

/-- Decoding into a message leaves it alone or gives it a decoded value. -/
theorem Message.decodeFrom_cases (m : Message) (r : Reader) :
    (m.decodeFrom r).1 = m ∨ ∃ v r', (m.codec.program.routine? m.typeName).isSome ∧
      Decodes m.codec.program (.call m.typeName) r v r' ∧
      (m.decodeFrom r).1 = { m with value := v } := by
  rw [decodeFrom]
  split
  · next v r' h =>
    obtain ⟨ht, hv⟩ := Codec.decodeFrom_eq_ok h
    exact .inr ⟨v, r', ht, hv, rfl⟩
  · exact .inl rfl

namespace Codec

variable {c : Codec} {m : Message}

/-- **The value of a message encodes, or has been decoded from something.**  A zero value counts as
decoded: it is what a reader with an error gives. -/
theorem Obtains.encodes_or_decodes (h : c.Obtains m) :
    m.codec = c ∧ ((∃ b, c.encode m.typeName m.value = .ok b) ∨
      (c.program.routine? m.typeName).isSome ∧
        ∃ r r', Decodes c.program (.call m.typeName) r m.value r') := by
  induction h with
  | message h =>
    obtain ⟨rfl, hb⟩ := message_eq_ok h
    exact ⟨rfl, .inl hb⟩
  | @empty typeName _ h =>
    rw [emptyMessage] at h
    split at h
    · cases h
    · next v hzero =>
      cases h
      obtain ⟨ht, hv⟩ := zero_eq_ok hzero
      have hstopped : ({ error := some .unexpectedEnd } : Reader).error.isSome := rfl
      exact ⟨rfl, .inr ⟨ht, _, _, DecodeOp.decodes_of_zero hv hstopped⟩⟩
  | @received limit m m' s s' result hm h ih =>
    rcases Frame.receive_message_cases h with rfl | ⟨r, rfl⟩
    · exact ih
    · rcases m.decodeFrom_cases r with heq | ⟨v, r', ht, hv, heq⟩
      · rw [heq]
        exact ih
      · obtain ⟨rfl, -⟩ := ih
        rw [heq]
        exact ⟨rfl, .inr ⟨ht, r, r', hv⟩⟩

/-- What the encoding of a value stops at is within reach of its type. -/
theorem reachesAlternation_of_outputs {o : Overflow} {typeName owner : String} {v : Value}
    {out : Output} (hout : c.Outputs o typeName v out)
    (h : out.result = .error (.unsupported owner)) :
    c.program.ReachesAlternation typeName owner := by
  have hstop : (c.encodeInto typeName v { overflow := o }).1 = .error (.unsupported owner) := by
    rw [hout _ rfl, h]
  exact (c.program.encode_raises _ typeName (some v) _ _ hstop).reachesAlternation

end Codec

/-- **Every message can be sent, but maybe not all of it.**  For every codec of a grammar that
refuses long text, and every message of it, however it was obtained: sending appends the bytes of
its value, or else its type has an alternation within reach, the value does not encode because of
it, and what had been written until then is appended. -/
theorem Frame.send_of_obtained {g : Grammar} {schema : Schema} {verifyCrc : Bool} {p : Program}
    {c : Codec} (hresolve : g.resolve = .ok schema) (hemit : schema.emit verifyCrc = .ok p)
    (hlink : Codec.link p .reject = .ok c) {m : Message} (hm : c.Obtains m) {s : Stream}
    (hs : s.capacity = none) :
    ∃ b, send m s = (.ok (), s.feed b) ∧
      (c.encode m.typeName m.value = .ok b ∨
        ∃ owner, c.encode m.typeName m.value = .error (.unsupported owner) ∧
          (c.encodeInto m.typeName m.value {}).2.bytes = b ∧
          p.ReachesAlternation m.typeName owner) := by
  obtain ⟨rfl, ho⟩ := Codec.link_eq_ok hlink
  have hregular : c.program.Regular verifyCrc :=
    ⟨fun _ _ ht => schema.mirror_of_emit hemit ht, distinct_of_resolve hresolve hemit⟩
  obtain ⟨rfl, ⟨b, hb⟩ | ⟨ht, r, r', hv⟩⟩ := hm.encodes_or_decodes
  · exact ⟨b, send_encode ho hb hs, .inl hb⟩
  · obtain ⟨out, hout, hrefused, hresult⟩ :=
      Codec.exists_output_of_decodes hregular (Codec.linked_of_link hlink) ht hv
    have hsend := send_of_outputs hout hs
    rw [hrefused] at hsend
    refine ⟨out.bytes, hsend, ?_⟩
    have hencode : m.codec.encode m.typeName m.value = out.finish :=
      Codec.encode_of_outputs (by rwa [ho])
    cases h : out.result with
    | ok _ =>
      rw [hencode, Output.finish, h, hrefused]
      exact .inl rfl
    | error e =>
      obtain ⟨owner, rfl⟩ := hresult e h
      have hbytes : (m.codec.encodeInto m.typeName m.value {}).2.bytes = out.bytes := by
        rw [hout {} rfl, Writer.extend, ByteArray.empty_append]
      rw [hencode, Output.finish, h]
      exact .inr ⟨owner, rfl, hbytes, Codec.reachesAlternation_of_outputs hout h⟩

namespace Choice

/-- A choice is a tag and one of two integers. -/
def source : String := "Choice = Tag:int8 Body:(int8 | int16)"

/-- What the grammar of choices compiles to. -/
def compiled : Compiled where
  grammar := {
    decls := [
      ⟨"Choice", .node .sequence [{ Expr.leaf "int8" with label := some "Tag" },
        { Expr.node .alternation [.node .sequence [.leaf "int8"], .node .sequence [.leaf "int16"]]
          with label := some "Body" }]⟩] }
  schema := {
    decls := [
      ⟨"Choice", .struct [⟨"Tag", .scalar (.int .int8)⟩,
        ⟨"Body", .polymorphic [.scalar (.int .int8), .scalar (.int .int16)]⟩]⟩] }
  program := {
    routines := [
      ⟨"Choice", .struct [⟨"Tag", .write (.int .int8)⟩, ⟨"Body", .unsupported "Choice"⟩],
        .struct [⟨"Tag", .read (.int .int8)⟩, ⟨"Body", .unsupported "Choice"⟩]⟩]
    skipped := [] }

theorem compile_source : compile true source = .ok compiled :=
  compile_of_parse? (by decide +kernel) (by cbv) rfl

/-- A codec of choices. -/
def codec : Codec := { program := compiled.program }

theorem link_program : Codec.link compiled.program .reject = .ok codec := rfl

/-- A choice of zeros. -/
def zero : Message where
  codec := codec
  typeName := "Choice"
  value := .struct [⟨"Body", .struct []⟩, ⟨"Tag", .int .int8 0⟩]

theorem emptyMessage_eq : codec.emptyMessage "Choice" = .ok zero := rfl

end Choice

/-- **A part of a message that is sent as if it were whole.**  The zero value of a choice does not
encode, since there is no telling which integer is meant; sending it appends the tag and reports
success. -/
theorem Frame.send_choice :
    compile true Choice.source = .ok Choice.compiled ∧
    Codec.link Choice.compiled.program .reject = .ok Choice.codec ∧
    Choice.codec.Obtains Choice.zero ∧
    send Choice.zero {} = (.ok (), ({} : Stream).feed ⟨#[0]⟩) ∧
    Choice.codec.encode Choice.zero.typeName Choice.zero.value = .error (.unsupported "Choice") :=
  ⟨Choice.compile_source, Choice.link_program, .empty Choice.emptyMessage_eq, rfl, rfl⟩

namespace Tree

/-- A tree of zeros. -/
def zero : Message where
  codec := codec
  typeName := "Top"
  value := .struct [⟨"Mark", .struct [⟨"CRC", .int .uint32 0⟩, ⟨"v", .int .int8 0⟩]⟩,
    ⟨"Size", .int .int32 0⟩, ⟨"Trees", .list []⟩]

/-- What is left of a tree that breaks off in its mark. -/
def received : Message where
  codec := codec
  typeName := "Top"
  value := .struct [⟨"Mark", .struct [⟨"CRC", .int .uint32 0⟩, ⟨"v", .int .int8 0⟩]⟩,
    ⟨"Size", .int .int32 2⟩, ⟨"Trees", .list []⟩]

theorem receive_broken :
    Frame.receive 100 zero { bytes := ⟨#[0, 0, 0, 2, 7, 7]⟩ } =
      (.error (.decode .unexpectedEnd), received,
        { bytes := ⟨#[0, 0, 0, 2, 7, 7]⟩, position := 6, calls := 2 }) := rfl

end Tree

/-- What is left of a broken tree is sent as a whole tree; of a choice only a part is sent. -/
theorem Frame.send_of_obtained_broken :
    (∃ b, send Tree.received {} = (.ok (), ({} : Stream).feed b) ∧
      Tree.codec.encode "Top" Tree.received.value = .ok b) ∧
    ∃ owner, Choice.compiled.program.ReachesAlternation "Choice" owner := by
  constructor
  · obtain ⟨-, hresolve, hemit⟩ := compile_eq_ok Tree.compile_text
    have hm : Tree.codec.Obtains Tree.received :=
      .received (.empty (show Tree.codec.emptyMessage "Top" = .ok Tree.zero from rfl))
        Tree.receive_broken
    obtain ⟨b, hsend, hb | ⟨owner, he, -⟩⟩ :=
      send_of_obtained hresolve hemit Tree.link_program hm (s := {}) rfl
    · exact ⟨b, hsend, hb⟩
    · cases he
  · obtain ⟨-, hresolve, hemit⟩ := compile_eq_ok Choice.compile_source
    obtain ⟨b, -, hb | ⟨owner, -, -, hreach⟩⟩ := send_of_obtained hresolve hemit Choice.link_program
      (.empty Choice.emptyMessage_eq) (s := {}) rfl
    · cases hb
    · exact ⟨owner, hreach⟩

end WireGrammar
