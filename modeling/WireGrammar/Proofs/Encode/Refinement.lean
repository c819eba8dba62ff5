import WireGrammar.Proofs.Encode.Depth
import WireGrammar.Proofs.Encode.Layout

/-!
# Encoding writes the layout

Running a routine only ever adds to the end of what has been written, and what it adds does not
depend on what stands there already.  So a step of encoding is described by its `Output`: how it
ends, the bytes it adds, and the first text or byte sequence it had to refuse.

* `EncodeM.Appends m o out` — on every writer with the policy `o`, the step `m` has the output
  `out`.
* `EncodeM.Writes m o spec` — `m` has an output, and what it adds is `spec` if it goes through to
  its end without refusing anything.
* `EncodeOp.run_writes`, `Program.encode_writes` — the routines write the layout of a value.
* `Codec.encodeInto_refines_layout` — so does a codec on any writer; whatever happens, what was
  written before stays as it is.
-/

set_option autoImplicit false
namespace WireGrammar

/-- What a step of encoding does to any writer. -/
structure Output where
  /-- How the step ends. -/
  result : Except CodecError Unit := .ok ()
  /-- What it adds to the bytes written before. -/
  bytes : ByteArray := .empty
  /-- The first text or byte sequence that it had to refuse. -/
  refused : Option EncodeError := none

/-- The writer after a step with the given output. -/
def Writer.extend (w : Writer) (out : Output) : Writer :=
  { w with bytes := w.bytes ++ out.bytes, error := w.error.or out.refused }

namespace Output

/-- The bytes of a step that went through and refused nothing. -/
def accepted (out : Output) : Option ByteArray :=
  match out.result, out.refused with
  | .ok (), none => some out.bytes
  | _, _ => none

/-- One step after the other; the second does not happen if the first stops. -/
def andThen (first second : Output) : Output :=
  match first.result with
  | .ok () =>
    { result := second.result
      bytes := first.bytes ++ second.bytes
      refused := first.refused.or second.refused }
  | .error _ => first

theorem accepted_andThen (first second : Output) :
    (first.andThen second).accepted = (do
      let a ← first.accepted
      let b ← second.accepted
      return a ++ b) := by
  obtain ⟨r₁, b₁, e₁⟩ := first
  obtain ⟨r₂, b₂, e₂⟩ := second
  cases r₁ <;> cases e₁ <;> cases r₂ <;> cases e₂ <;> rfl

theorem accepted_eq_some {out : Output} {b : ByteArray} :
    out.accepted = some b ↔ out.result = .ok () ∧ out.refused = none ∧ out.bytes = b := by
  obtain ⟨_ | _, bytes, _ | _⟩ := out <;> simp [accepted]

/-- What a whole encoding with this output gives. -/
def finish (out : Output) : Except CodecError ByteArray :=
  match out.result, out.refused with
  | .error e, _ => .error e
  | .ok (), some e => .error (.encode e)
  | .ok (), none => .ok out.bytes

theorem finish_eq_ok {out : Output} {b : ByteArray} :
    out.finish = .ok b ↔ out.accepted = some b := by
  obtain ⟨_ | _, bytes, _ | _⟩ := out <;> simp [finish, accepted]

/-- A slot in front of a body: the placeholder `s`, until the body is complete and can be
measured. -/
def slotted (s : ByteArray) (measure : ByteArray → BitVec 32) (body : Output) : Output :=
  match body.result with
  | .ok () => { body with bytes := BigEndian.encode .uint32 (measure body.bytes) ++ body.bytes }
  | .error _ => { body with bytes := s ++ body.bytes }

theorem accepted_slotted (s : ByteArray) (measure : ByteArray → BitVec 32) (body : Output) :
    (body.slotted s measure).accepted = (do
      let b ← body.accepted
      return BigEndian.encode .uint32 (measure b) ++ b) := by
  obtain ⟨_ | _, bytes, _ | _⟩ := body <;> rfl

end Output

/-- Overwriting four bytes changes these four bytes and no others. -/
theorem Writer.patch_append (a s t : ByteArray) (o : Overflow) (e : Option EncodeError)
    (hs : s.size = 4) (x : BitVec 32) :
    ({ bytes := a ++ s ++ t, overflow := o, error := e } : Writer).patch a.size x =
      { bytes := a ++ BigEndian.encode .uint32 x ++ t, overflow := o, error := e } := by
  have h4 : (BigEndian.encode .uint32 x).size = 4 := BigEndian.size_encode _ _
  have hle : a.size + 4 ≤ (a ++ s ++ t).size := by
    simp only [ByteArray.size_append, hs]
    omega
  have hleft : (a ++ s ++ t).extract 0 a.size = a := by
    rw [ByteArray.append_assoc, ByteArray.extract_append_eq_left rfl]
  have hmid : (BigEndian.encode .uint32 x).extract 0 (0 + 4) = BigEndian.encode .uint32 x := by
    have h := ByteArray.extract_zero_size (b := BigEndian.encode .uint32 x)
    rwa [h4] at h
  have hright : (a ++ s ++ t).extract (a.size + 4) (a ++ s ++ t).size = t := by
    refine ByteArray.extract_append_eq_right ?_ ?_
    · rw [ByteArray.size_append, hs]
    · rw [ByteArray.size_append]
  rw [Writer.patch, if_pos hle, ByteArray.copySlice_eq_append, hleft, hmid]
  simp only [ByteArray.size_data, h4]
  rw [show min 4 (4 - 0) = 4 from rfl, hright]

/-- How the slot of a framed struct is worked out on a writer that holds the body `b` behind `a`. -/
theorem Framing.measure_written (framing : Framing) (w : Writer) (a b : ByteArray)
    (h : w.bytes = a ++ b) :
    framing.measure (w.bytes.extract a.size w.size) = framing.measure b := by
  have hsize : w.size = a.size + b.size := by rw [Writer.size, h, ByteArray.size_append]
  rw [h, ByteArray.extract_append_eq_right rfl hsize]

/-- The same for the size in front of an array. -/
theorem Writer.size_written (w : Writer) (a b : ByteArray) (h : w.bytes = a ++ b) :
    BitVec.ofNat 32 (w.size - a.size) = BitVec.ofNat 32 b.size := by
  simp [Writer.size, h]

namespace EncodeM

/-- On every writer with the policy `o` the step `m` ends and writes as `out` says. -/
def Appends (m : EncodeM Unit) (o : Overflow) (out : Output) : Prop :=
  ∀ w : Writer, w.overflow = o → exec m w = (out.result, w.extend out)

/-- The step `m` adds something to what has been written, and adds `spec` if it goes through and
refuses nothing. -/
def Writes (m : EncodeM Unit) (o : Overflow) (spec : Option ByteArray) : Prop :=
  ∃ out, Appends m o out ∧ out.accepted = spec

section Appends

variable {m n : EncodeM Unit} {o : Overflow} {out out' : Output}

theorem appends_pure : Appends (pure ()) o {} := by
  intro w _
  simp [Writer.extend]

theorem appends_throw (e : CodecError) : Appends (throw e) o { result := .error e } := by
  intro w _
  simp [Writer.extend]

theorem appends_append (b : ByteArray) : Appends (modify (·.append b)) o { bytes := b } := by
  intro w _
  simp [Writer.extend, Writer.append]

theorem appends_fail (e : EncodeError) : Appends (modify (·.fail e)) o { refused := some e } := by
  rintro ⟨bytes, overflow, error⟩ _
  cases error <;> simp [Writer.extend, Writer.fail]

/-- **One step after the other** adds the one output after the other. -/
theorem Appends.bind (hm : Appends m o out) (hn : Appends n o out') :
    Appends (m >>= fun _ => n) o (out.andThen out') := by
  intro w hw
  rw [exec_bind, hm w hw]
  cases h : out.result with
  | error e => simp [Output.andThen, h]
  | ok _ =>
    have hw' : (w.extend out).overflow = o := hw
    show exec n (w.extend out) = _
    rw [hn _ hw']
    simp [Output.andThen, h, Writer.extend, ByteArray.append_assoc, Option.or_assoc]

/-- A step on a writer may look at the policy first. -/
theorem Appends.congr {f g : Writer → Writer} (hfg : ∀ w, w.overflow = o → f w = g w)
    (hg : Appends (modify g) o out) : Appends (modify f) o out := by
  intro w hw
  rw [← hg w hw, exec_modify, exec_modify, hfg w hw]

/-- A step that stops before it writes anything may look at the writer first. -/
theorem appends_get_throw {β : Type} (e : CodecError) (k : Writer → β → EncodeM Unit) :
    Appends (get >>= fun w => throw e >>= k w) o { result := .error e } := by
  intro w _
  simp [exec_bind, Writer.extend]

/-- **A slot that is filled afterwards.**  Four bytes `s` are written as a placeholder, then a
body, and at last the slot is overwritten with what `measure` says of the body.  `f` is how that is
worked out on the writer, from the offset at which the body starts. -/
theorem Appends.slot {s : ByteArray} (hs : s.size = 4) (hn : Appends n o out)
    (f : Nat → Writer → BitVec 32) (measure : ByteArray → BitVec 32)
    (hf : ∀ (w : Writer) (a b : ByteArray), w.bytes = a ++ b → f a.size w = measure b) :
    Appends (do
      let slot := (← get).size
      modify (·.append s)
      let start := (← get).size
      n
      modify fun w => w.patch slot (f start w)) o (out.slotted s measure) := by
  intro w hw
  have hw' : (w.append s).overflow = o := hw
  cases h : out.result with
  | error e =>
    -- the placeholder and what the body has written stay
    simp only [exec_bind, exec_get, exec_modify, hn _ hw', h]
    simp [Output.slotted, h, Writer.extend, Writer.append, ByteArray.append_assoc]
  | ok _ =>
    have hstart : (w.append s).size = (w.bytes ++ s).size := rfl
    have hmeasure := hf ((w.append s).extend out) (w.bytes ++ s) out.bytes rfl
    simp only [exec_bind, exec_get, exec_modify, hn _ hw', h, hstart, hmeasure]
    simp only [Output.slotted, h, Writer.extend, Writer.append, Writer.size]
    rw [Writer.patch_append _ _ _ _ _ hs, ByteArray.append_assoc]

end Appends

variable {m n : EncodeM Unit} {o : Overflow} {spec spec' : Option ByteArray}

theorem writes_pure : Writes (pure ()) o (some .empty) :=
  ⟨_, appends_pure, rfl⟩

theorem writes_throw (e : CodecError) : Writes (throw e) o none :=
  ⟨_, appends_throw e, rfl⟩

theorem writes_append (b : ByteArray) : Writes (modify (·.append b)) o (some b) :=
  ⟨_, appends_append b, rfl⟩

/-- **One step after the other** writes the one layout after the other. -/
theorem Writes.bind (hm : Writes m o spec) (hn : Writes n o spec') :
    Writes (m >>= fun _ => n) o (do
      let a ← spec
      let b ← spec'
      return a ++ b) := by
  obtain ⟨out, hm, rfl⟩ := hm
  obtain ⟨out', hn, rfl⟩ := hn
  exact ⟨_, hm.bind hn, out.accepted_andThen out'⟩

/-- A slot in front of a body writes the measure of the body and its layout. -/
theorem Writes.slot {s : ByteArray} (hs : s.size = 4) (hn : Writes n o spec)
    (f : Nat → Writer → BitVec 32) (measure : ByteArray → BitVec 32)
    (hf : ∀ (w : Writer) (a b : ByteArray), w.bytes = a ++ b → f a.size w = measure b) :
    Writes (do
      let slot := (← get).size
      modify (·.append s)
      let start := (← get).size
      n
      modify fun w => w.patch slot (f start w)) o (do
      let b ← spec
      return BigEndian.encode .uint32 (measure b) ++ b) := by
  obtain ⟨out, hn, rfl⟩ := hn
  exact ⟨_, hn.slot hs f measure hf, out.accepted_slotted s measure⟩

end EncodeM

/-! ## Primitives -/

open EncodeM

theorem appends_putCounted (o : Overflow) (k : IntKind) (b : ByteArray) :
    Appends (modify (·.putCounted k b)) o { bytes := BigEndian.counted k b } := by
  refine Appends.congr (fun w _ => ?_) (appends_append (BigEndian.counted k b))
  simp [Writer.putCounted, Writer.putNat, Writer.putInt, Writer.append, BigEndian.counted,
    ByteArray.append_assoc]

theorem appends_putText_of_le (o : Overflow) {s : String}
    (h : s.utf8ByteSize ≤ Writer.maxTextLength) :
    Appends (modify (·.putText s)) o { bytes := BigEndian.counted .uint16 s.toUTF8 } := by
  refine Appends.congr (fun w _ => ?_) (appends_putCounted o .uint16 s.toUTF8)
  simp [Writer.putText, h]

theorem appends_putText_reject {s : String} (h : Writer.maxTextLength < s.utf8ByteSize) :
    Appends (modify (·.putText s)) .reject { refused := some (.stringTooLong s.utf8ByteSize) } := by
  refine Appends.congr (fun w hw => ?_) (appends_fail (.stringTooLong s.utf8ByteSize))
  simp [Writer.putText, Nat.not_le.2 h, hw]

theorem appends_putText_truncate {s : String} (h : Writer.maxTextLength < s.utf8ByteSize) :
    Appends (modify (·.putText s)) .truncate
      { bytes := BigEndian.counted .uint16 (Text.clip Writer.maxTextLength s).toUTF8 } := by
  refine Appends.congr (fun w hw => ?_) (appends_putCounted .truncate .uint16 _)
  simp [Writer.putText, Nat.not_le.2 h, hw]

theorem writes_putInt (o : Overflow) (k : IntKind) (x : BitVec k.bits) :
    Writes (modify (·.putInt k x)) o (some (BigEndian.encode k x)) :=
  writes_append _

theorem writes_putText (o : Overflow) (s : String) :
    Writes (modify (·.putText s)) o
      ((o.kept s).map fun t => BigEndian.counted .uint16 t.toUTF8) := by
  by_cases h : s.utf8ByteSize ≤ Writer.maxTextLength
  · exact ⟨_, appends_putText_of_le o h, by simp [Overflow.kept, h, Output.accepted]⟩
  · have hlt := Nat.lt_of_not_le h
    cases o with
    | reject =>
      exact ⟨_, appends_putText_reject hlt, by simp [Overflow.kept, h, Output.accepted]⟩
    | truncate =>
      exact ⟨_, appends_putText_truncate hlt, by simp [Overflow.kept, h, Output.accepted]⟩

/-- What writing a byte sequence does, under every policy. -/
theorem appends_putBytes (o : Overflow) (b : ByteArray) :
    Appends (modify (·.putBytes b)) o
      (if b.size ≤ Writer.maxCount then { bytes := BigEndian.counted .int32 b }
        else { refused := some (.bytesTooLong b.size) }) := by
  unfold Writer.putBytes
  by_cases h : b.size ≤ Writer.maxCount
  · simpa [h] using appends_putCounted o .int32 b
  · simpa [h] using appends_fail (.bytesTooLong b.size)

theorem writes_putBytes (o : Overflow) (b : ByteArray) :
    Writes (modify (·.putBytes b)) o
      (if b.size ≤ Writer.maxCount then some (BigEndian.counted .int32 b) else none) := by
  refine ⟨_, appends_putBytes o b, ?_⟩
  by_cases h : b.size ≤ Writer.maxCount <;> simp [h, Output.accepted]

/-- **A primitive is written as its layout.** -/
theorem putPrimitive_writes (o : Overflow) (p : Primitive) (v : Value) :
    Writes (putPrimitive p v) o (p.layout o v) := by
  fun_cases Primitive.layout o p v with
  | case1 k x => simpa [putPrimitive] using writes_putInt o k x
  | case2 k l x h => simpa [putPrimitive, h] using writes_throw _
  | case3 s => exact writes_putText o s
  | case4 b h => simpa [putPrimitive, h] using writes_putBytes o b
  | case5 b h => simpa [putPrimitive, h] using writes_putBytes o b
  | case6 p v hint htext hbytes =>
    rw [putPrimitive.eq_4 _ _ hint htext hbytes]
    exact writes_throw _

/-- Writing an integer either stops at once or adds the bytes of the integer. -/
theorem putPrimitive_int_cases (o : Overflow) (k : IntKind) (v : Value) :
    (∃ e, putPrimitive (.int k) v = throw e ∧ (Primitive.int k).layout o v = none) ∨
      ∃ x, putPrimitive (.int k) v = modify (·.append (BigEndian.encode k x)) ∧
        (Primitive.int k).layout o v = some (BigEndian.encode k x) := by
  cases v with
  | int l x =>
    by_cases h : l = k
    · subst h
      exact .inr ⟨x, by simp [putPrimitive, Writer.putInt], by simp [Primitive.layout]⟩
    · refine .inl ⟨.mismatch (Primitive.int k).name (.int l x), ?_, ?_⟩
      · rw [putPrimitive, dif_neg h]
      · rw [Primitive.layout, dif_neg h]
  | _ => exact .inl ⟨_, rfl, rfl⟩

/-! ## Operations -/

section Operations

variable {o : Overflow} {call : String → Option Value → EncodeM Unit}
  {lay : String → Option Value → Option ByteArray}

theorem putAll_writes {item : Value → EncodeM Unit} {spec : Value → Option ByteArray}
    (h : ∀ v, Writes (item v) o (spec v)) : ∀ vs, Writes (putAll item vs) o (layoutAll spec vs)
  | [] => writes_pure
  | v :: vs => (h v).bind (putAll_writes h vs)

mutual

/-- **An operation writes the layout of its value**, if the routines that it calls do. -/
theorem EncodeOp.run_writes (hcall : ∀ name v, Writes (call name v) o (lay name v)) :
    ∀ (op : EncodeOp) (v : Option Value), Writes (op.run call v) o (op.layout o lay v)
  | .write p, v => by
    rw [run, layout]
    exact putPrimitive_writes o p _
  | .writeAlias typeName p, v => by
    rw [run, layout]
    cases v.getD (.named typeName (.zero p)) with
    | named found x =>
      by_cases h : found = typeName
      · simpa [h] using putPrimitive_writes o p x
      · simpa [h] using writes_throw _
    | _ => exact writes_throw _
  | .call name, v => by
    rw [run, layout]
    exact hcall name v
  | .struct ops, v => by
    rw [run, layout]
    cases v.getD (.struct []) with
    | struct fields => exact runFields_writes hcall fields ops
    | _ => exact writes_throw _
  | .framed framing signed body, v => by
    rw [run, layout]
    cases v.getD (.struct []) with
    | struct fields =>
      have hbody := runFields_writes hcall fields body
      rcases putPrimitive_int_cases o (.word signed)
        ((Fields.get? framing.fieldName fields).getD (.zero (.int (.word signed))))
        with ⟨e, hput, hlay⟩ | ⟨x, hput, hlay⟩
      · simp only [hput, hlay]
        exact ⟨_, appends_get_throw e _, rfl⟩
      · simp only [hput, hlay]
        exact Writes.slot (BigEndian.size_encode _ _) hbody
          (fun start w => framing.measure (w.bytes.extract start w.size)) framing.measure
          framing.measure_written
    | _ => exact writes_throw _
  | .lengthArray element, v => by
    rw [run, layout]
    cases v.getD (.list []) with
    | list items =>
      have hitems := putAll_writes (fun item => run_writes hcall element (some item)) items
      by_cases h : items.length ≤ Writer.maxCount
      · simp only [if_pos h]
        exact (writes_putInt o .int32 (BitVec.ofNat 32 items.length)).bind hitems
      · simp only [if_neg h]
        exact writes_throw _
    | _ => exact writes_throw _
  | .sizeArray element, v => by
    rw [run, layout]
    cases v.getD (.list []) with
    | list items =>
      have hitems := putAll_writes (fun item => run_writes hcall element (some item)) items
      exact Writes.slot (BigEndian.size_encode .int32 0#32) hitems
        (fun start w => BitVec.ofNat 32 (w.size - start)) (fun b => BitVec.ofNat 32 b.size)
        Writer.size_written
    | _ => exact writes_throw _
  | .unsupported owner, v => by
    rw [run, layout]
    exact writes_throw _

theorem EncodeOp.runFields_writes (hcall : ∀ name v, Writes (call name v) o (lay name v))
    (fields : List (Field Value)) :
    ∀ ops : List (Field EncodeOp),
      Writes (runFields call fields ops) o (layoutFields o lay fields ops)
  | [] => by
    rw [runFields, layoutFields]
    exact writes_pure
  | ⟨name, op⟩ :: ops => by
    rw [runFields, layoutFields]
    exact (run_writes hcall op _).bind (runFields_writes hcall fields ops)

end

end Operations

/-! ## Programs -/

/-- **Every routine writes the layout of its value**, on every writer. -/
theorem Program.encode_writes (p : Program) (o : Overflow) :
    ∀ (fuel : Nat) (name : String) (v : Option Value),
      Writes (p.encode fuel name v) o (p.layout o fuel name v)
  | 0, name, v => writes_throw _
  | fuel + 1, name, v => by
    rw [encode, layout]
    cases p.routine? name with
    | none => exact writes_throw _
    | some r => exact r.encode.run_writes (p.encode_writes o fuel) v

/-! ## Codecs -/

namespace Codec

/-- Encoding a value as the type `typeName` has the output `out` under the policy `o`. -/
def Outputs (c : Codec) (o : Overflow) (typeName : String) (v : Value) (out : Output) : Prop :=
  ∀ w : Writer, w.overflow = o → c.encodeInto typeName v w = (out.result, w.extend out)

/-- What encoding does to a writer, whatever is written and whatever it starts from. -/
theorem exists_encodeInto_eq (c : Codec) (o : Overflow) (typeName : String) (v : Value) :
    ∃ out : Output, out.accepted = c.layout o typeName v ∧ c.Outputs o typeName v out := by
  obtain ⟨out, hout, hspec⟩ :=
    c.program.encode_writes o (c.callBound * (v.depth + 1)) typeName (some v)
  exact ⟨out, hspec, hout⟩

/-- Encoding a whole value is told from its output. -/
theorem encode_of_outputs {c : Codec} {typeName : String} {v : Value} {out : Output}
    (h : c.Outputs c.overflow typeName v out) : c.encode typeName v = out.finish := by
  rw [encode, h _ rfl]
  obtain ⟨_ | _, bytes, _ | _⟩ := out <;>
    simp [Output.finish, Writer.finish, Writer.extend, Except.mapError]

/-- **The bytes of a value are its layout.** -/
theorem encode_eq_ok {c : Codec} {typeName : String} {v : Value} {b : ByteArray} :
    c.encode typeName v = .ok b ↔ c.layout c.overflow typeName v = some b := by
  obtain ⟨out, hspec, hout⟩ := c.exists_encodeInto_eq c.overflow typeName v
  rw [encode_of_outputs hout, Output.finish_eq_ok, hspec]

/-- A writer that has taken a value that encodes can be finished. -/
theorem finish_encodeInto {c : Codec} {typeName : String} {v : Value} {b : ByteArray}
    (h : c.encode typeName v = .ok b) :
    (c.encodeInto typeName v { overflow := c.overflow }).2.finish = .ok b := by
  obtain ⟨out, hspec, hrun⟩ := c.exists_encodeInto_eq c.overflow typeName v
  obtain ⟨-, hrefused, rfl⟩ := Output.accepted_eq_some.1 (hspec.trans (encode_eq_ok.1 h))
  rw [hrun _ rfl]
  simp [Writer.finish, Writer.extend, hrefused]

/-- Did encoding refuse some text or byte sequence?  An error that the writer had before would hide
a new one, so this looks at the same writer without it. -/
def Refuses (c : Codec) (typeName : String) (v : Value) (w : Writer) : Prop :=
  (c.encodeInto typeName v { w with error := none }).2.error ≠ none

/-- **Encoding refines the layout.**  On a writer that holds any bytes, encoding that goes through
and refuses nothing adds exactly the layout of the value and changes nothing else; and it does go
through if there is a layout.  In every case, also when it stops half-way, the bytes written before,
the policy and an earlier error stay, and it never stops for want of calls. -/
theorem encodeInto_refines_layout {s : Schema} {verifyCrc : Bool} {c : Codec}
    (hp : s.emit verifyCrc = .ok c.program) (hs : s.Grounded) (typeName : String) (v : Value)
    (w : Writer) :
    ((c.encodeInto typeName v w).1 = .ok () → ¬ c.Refuses typeName v w →
      ∃ b, c.layout w.overflow typeName v = some b ∧
        (c.encodeInto typeName v w).2 = { w with bytes := w.bytes ++ b }) ∧
    (∀ b, c.layout w.overflow typeName v = some b →
      c.encodeInto typeName v w = (.ok (), { w with bytes := w.bytes ++ b })) ∧
    (∃ t, (c.encodeInto typeName v w).2.bytes = w.bytes ++ t) ∧
    (c.encodeInto typeName v w).2.overflow = w.overflow ∧
    (w.error.isSome → (c.encodeInto typeName v w).2.error = w.error) ∧
    ∀ name, (c.encodeInto typeName v w).1 ≠ .error (.unbounded name) := by
  obtain ⟨out, hspec, hrun⟩ := c.exists_encodeInto_eq w.overflow typeName v
  have hw := hrun w rfl
  refine ⟨fun hok href => ?_, fun b hb => ?_, ?_, ?_, fun herr => ?_, fun name => ?_⟩
  · rw [Refuses, not_not, hrun { w with error := none } rfl] at href
    have hrefused : out.refused = none := by simpa [Writer.extend] using href
    rw [hw] at hok ⊢
    refine ⟨out.bytes, ?_, ?_⟩
    · rw [← hspec]
      exact Output.accepted_eq_some.2 ⟨hok, hrefused, rfl⟩
    · simp [Writer.extend, hrefused]
  · obtain ⟨hok, hrefused, rfl⟩ := Output.accepted_eq_some.1 (hspec.trans hb)
    rw [hw, hok]
    simp [Writer.extend, hrefused]
  · rw [hw]
    exact ⟨out.bytes, rfl⟩
  · rw [hw]
    rfl
  · obtain ⟨e, he⟩ := Option.isSome_iff_exists.1 herr
    rw [hw]
    simp [Writer.extend, he]
  · exact c.encodeInto_ne_unbounded (hs.program hp) typeName v w name

end Codec

namespace Tree

/-- A codec for trees. -/
def codec : Codec := { program := program }

/-- A tree with two trees in it, of which most is missing, and a field that trees do not have. -/
def value : Value :=
  .struct [⟨"Extra", .text "dropped"⟩, ⟨"Trees", .list [.struct [], .struct []]⟩]

end Tree

theorem Codec.encodeInto_refines_layout_tree :
    ∃ b, Tree.codec.layout .reject "Top" Tree.value = some b ∧
      (Tree.codec.encodeInto "Top" Tree.value { bytes := ⟨#[7]⟩ }).2 = { bytes := ⟨#[7]⟩ ++ b } :=
  (encodeInto_refines_layout (c := Tree.codec) Tree.emit_schema Tree.grounded "Top" Tree.value
    { bytes := ⟨#[7]⟩ }).1 (by decide +kernel) (by rw [Refuses]; decide +kernel)

end WireGrammar
