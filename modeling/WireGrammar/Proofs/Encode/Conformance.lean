import WireGrammar.Proofs.Encode.SizeSlots
import WireGrammar.Proofs.Routine.Linked

/-!
# Which values encode

Encoding fails in two ways.  Where a value is not of its type it stops at once; a text or byte
sequence that is too long is only noted, and looked at when everything has been written.  So what a
value is comes before how long its parts are, wherever they stand.

* `Payload` — a text or byte sequence that is written behind its length; `Misfit` — how a value
  fails to be of a type.
* `Judges p op v x` — the verdict `x` on `v` as a value of the type that `op` encodes: its payloads
  in the order of the wire, or the first misfit in that order.
* `Codec.Conforms`, `Codec.Misfits` — the same for a declared type.
* `Output.Reflects` — a step of encoding ends as the verdict says.  `EncodeOp.run_judged` and
  `Program.encode_judged` say so of operations and routines.
* `Codec.encode_of_misfits`, `Codec.encode_of_conforms` — so a codec reports the misfit, or the
  first payload that is too long, or nothing.
* `Codec.encode_iff_conforms` — a codec encodes exactly the values that conform and whose payloads
  all fit, and what it reports otherwise.
* `Codec.encode_either` — the number of items of a size array has no bound, and an alternation that
  is declared is no type to encode as.
-/

set_option autoImplicit false
namespace WireGrammar

/-- A text or byte sequence that goes over the wire behind its length. -/
inductive Payload where
  | text (s : String)
  | bytes (b : ByteArray)

namespace Payload

/-- How many bytes the payload has. -/
def size : Payload → Nat
  | .text s => s.utf8ByteSize
  | .bytes b => b.size

/-- The largest size that the length in front of the payload can say. -/
def limit : Payload → Nat
  | .text _ => Writer.maxTextLength
  | .bytes _ => Writer.maxCount

/-- What is reported of a payload that is too long. -/
def tooLong : Payload → EncodeError
  | .text s => .stringTooLong s.utf8ByteSize
  | .bytes b => .bytesTooLong b.size

/-- The payload fits behind its length. -/
def Fits (x : Payload) : Prop := x.size ≤ x.limit

instance (x : Payload) : Decidable x.Fits := inferInstanceAs (Decidable (_ ≤ _))

/-- What is reported of the first payload that is too long. -/
def firstTooLong (payloads : List Payload) : Option EncodeError :=
  (payloads.find? fun x => ¬ x.Fits).map tooLong

theorem firstTooLong_append (xs ys : List Payload) :
    firstTooLong (xs ++ ys) = (firstTooLong xs).or (firstTooLong ys) := by
  rw [firstTooLong, List.find?_append, Option.map_or, firstTooLong, firstTooLong]

theorem firstTooLong_eq_none {payloads : List Payload} :
    firstTooLong payloads = none ↔ ∀ x ∈ payloads, x.Fits := by
  simp [firstTooLong]

theorem firstTooLong_singleton (x : Payload) :
    firstTooLong [x] = if x.Fits then none else some x.tooLong := by
  by_cases h : x.Fits <;> simp [firstTooLong, h]

theorem firstTooLong_of_append {before after : List Payload} {x : Payload}
    (hbefore : ∀ y ∈ before, y.Fits) (hx : ¬ x.Fits) :
    firstTooLong (before ++ x :: after) = some x.tooLong := by
  rw [firstTooLong_append, firstTooLong_eq_none.2 hbefore, Option.none_or, firstTooLong,
    List.find?_cons_of_pos (by simpa using hx), Option.map_some]

end Payload

/-- How a value fails to be of a type. -/
inductive Misfit where
  /-- The value `found` stands where something else is expected. -/
  | mismatch (expected : String) (found : Value)
  /-- An alternation in the declaration `owner`, of which there are no values. -/
  | alternation (owner : String)
  /-- An array whose length is counted has too many items. -/
  | tooMany (count : Nat)

/-- What is reported of a misfit. -/
def Misfit.error : Misfit → CodecError
  | .mismatch expected found => .valueMismatch expected found.describe
  | .alternation owner => .unsupported owner
  | .tooMany count => .encode (.bytesTooLong count)

/-- The payloads of a value in the order of the wire, or its first misfit. -/
abbrev Verdict := Except Misfit (List Payload)

/-- The verdict on a value as a primitive: it must be of the very kind. -/
def Primitive.judge : Primitive → Value → Verdict
  | .int k, .int l x => if l = k then .ok [] else .error (.mismatch k.name (.int l x))
  | .string, .text s => .ok [.text s]
  | .bytes, .bytes b => .ok [.bytes b]
  | q, v => .error (.mismatch q.name v)

/-- The fields of a struct as its type lists them, with what is given for each. -/
def fieldParts (fields : List (Field Value)) (ops : List (Field EncodeOp)) :
    List (EncodeOp × Option Value) :=
  ops.map fun f => (f.val, Fields.get? f.name fields)

/-- The items of a list. -/
def itemParts (element : EncodeOp) (items : List Value) : List (EncodeOp × Option Value) :=
  items.map fun v => (element, some v)

mutual

/-- The verdict on a value.  No value (`none`) stands for the zero value of the type: that is what
takes the place of a missing field.  Only a counted array limits the number of its items. -/
inductive Judges (p : Program) : EncodeOp → Option Value → Verdict → Prop
  | write (q : Primitive) (v : Option Value) : Judges p (.write q) v (q.judge (v.getD (.zero q)))
  | alias {typeName : String} {q : Primitive} {v : Option Value} {x : Value}
      (hv : v.getD (.named typeName (.zero q)) = .named typeName x) :
      Judges p (.writeAlias typeName q) v (q.judge x)
  | notAlias {typeName : String} {q : Primitive} {v : Option Value}
      (hv : ∀ x, v.getD (.named typeName (.zero q)) ≠ .named typeName x) :
      Judges p (.writeAlias typeName q) v
        (.error (.mismatch typeName (v.getD (.named typeName (.zero q)))))
  | call {name : String} {t : Routine} {v : Option Value} {x : Verdict}
      (ht : p.routine? name = some t) (h : Judges p t.encode v x) : Judges p (.call name) v x
  | struct {ops : List (Field EncodeOp)} {v : Option Value} {fields : List (Field Value)}
      {x : Verdict} (hv : (v.getD (.struct [])).asStruct? = some fields)
      (h : JudgesAll p (fieldParts fields ops) x) : Judges p (.struct ops) v x
  | notStruct {ops : List (Field EncodeOp)} {v : Option Value}
      (hv : (v.getD (.struct [])).asStruct? = none) :
      Judges p (.struct ops) v (.error (.mismatch "struct" (v.getD (.struct []))))
  | framed {framing : Framing} {signed : Bool} {body : List (Field EncodeOp)} {v : Option Value}
      {fields : List (Field Value)} {x : Verdict}
      (hv : (v.getD (.struct [])).asStruct? = some fields)
      (h : JudgesAll p
        (fieldParts fields (⟨framing.fieldName, .write (.int (.word signed))⟩ :: body)) x) :
      Judges p (.framed framing signed body) v x
  | notFramed {framing : Framing} {signed : Bool} {body : List (Field EncodeOp)} {v : Option Value}
      (hv : (v.getD (.struct [])).asStruct? = none) :
      Judges p (.framed framing signed body) v (.error (.mismatch "struct" (v.getD (.struct []))))
  | lengthArray {element : EncodeOp} {v : Option Value} {items : List Value} {x : Verdict}
      (hv : (v.getD (.list [])).asList? = some items) (hcount : items.length ≤ Writer.maxCount)
      (h : JudgesAll p (itemParts element items) x) : Judges p (.lengthArray element) v x
  | tooMany {element : EncodeOp} {v : Option Value} {items : List Value}
      (hv : (v.getD (.list [])).asList? = some items) (hcount : Writer.maxCount < items.length) :
      Judges p (.lengthArray element) v (.error (.tooMany items.length))
  | notCounted {element : EncodeOp} {v : Option Value} (hv : (v.getD (.list [])).asList? = none) :
      Judges p (.lengthArray element) v (.error (.mismatch "list" (v.getD (.list []))))
  | sizeArray {element : EncodeOp} {v : Option Value} {items : List Value} {x : Verdict}
      (hv : (v.getD (.list [])).asList? = some items)
      (h : JudgesAll p (itemParts element items) x) : Judges p (.sizeArray element) v x
  | notSized {element : EncodeOp} {v : Option Value} (hv : (v.getD (.list [])).asList? = none) :
      Judges p (.sizeArray element) v (.error (.mismatch "list" (v.getD (.list []))))
  | unsupported (owner : String) (v : Option Value) :
      Judges p (.unsupported owner) v (.error (.alternation owner))

/-- The verdict on the parts of a value in the order of the wire; the first misfit decides. -/
inductive JudgesAll (p : Program) : List (EncodeOp × Option Value) → Verdict → Prop
  | nil : JudgesAll p [] (.ok [])
  | cons {op : EncodeOp} {v : Option Value} {payloads : List Payload}
      {parts : List (EncodeOp × Option Value)} {x : Verdict} (hv : Judges p op v (.ok payloads))
      (h : JudgesAll p parts x) : JudgesAll p ((op, v) :: parts) (x.map (payloads ++ ·))
  | stop {op : EncodeOp} {v : Option Value} {m : Misfit} (parts : List (EncodeOp × Option Value))
      (hv : Judges p op v (.error m)) : JudgesAll p ((op, v) :: parts) (.error m)

end

namespace Codec

/-- The value is of the type `typeName` and has these payloads, in the order of the wire. -/
def Conforms (c : Codec) (typeName : String) (v : Value) (payloads : List Payload) : Prop :=
  Judges c.program (.call typeName) (some v) (.ok payloads)

/-- The value is not of the type `typeName`, and this is its first misfit in the order of the
wire. -/
def Misfits (c : Codec) (typeName : String) (v : Value) (m : Misfit) : Prop :=
  Judges c.program (.call typeName) (some v) (.error m)

end Codec

theorem Verdict.map_nil_append (x : Verdict) : x.map ([] ++ ·) = x := by
  cases x <;> rfl

/-- A part without payloads changes nothing about the verdict on the others. -/
theorem JudgesAll.cons_empty {p : Program} {op : EncodeOp} {v : Option Value}
    {parts : List (EncodeOp × Option Value)} {x : Verdict} (hv : Judges p op v (.ok []))
    (h : JudgesAll p parts x) : JudgesAll p ((op, v) :: parts) x := by
  have hcons := JudgesAll.cons hv h
  rwa [Verdict.map_nil_append] at hcons

/-- The verdict on a single part. -/
theorem JudgesAll.last {p : Program} {op : EncodeOp} {v : Option Value} {x : Verdict}
    (hv : Judges p op v x) : JudgesAll p [(op, v)] x := by
  cases x with
  | error m => exact .stop [] hv
  | ok payloads =>
    have hcons := JudgesAll.cons hv .nil
    rwa [Except.map, List.append_nil] at hcons

theorem Value.asStruct?_eq_none {v : Value} (h : ∀ fields, v ≠ .struct fields) :
    v.asStruct? = none := by
  cases v with
  | struct fields => exact absurd rfl (h fields)
  | _ => rfl

theorem Value.asList?_eq_none {v : Value} (h : ∀ items, v ≠ .list items) : v.asList? = none := by
  cases v with
  | list items => exact absurd rfl (h items)
  | _ => rfl

/-! ## There is one verdict -/

section Unique

variable {p : Program}

mutual

/-- **A value has at most one verdict.** -/
theorem Judges.unique {op : EncodeOp} {v : Option Value} {x y : Verdict} :
    Judges p op v x → Judges p op v y → x = y
  | .write q v, .write _ _ => rfl
  | .alias hv, .alias hv' => by
    cases hv.symm.trans hv'
    rfl
  | .alias hv, .notAlias hv' => absurd hv (hv' _)
  | .notAlias hv, .alias hv' => absurd hv' (hv _)
  | .notAlias _, .notAlias _ => rfl
  | .call ht h, .call ht' h' => by
    cases ht.symm.trans ht'
    exact h.unique h'
  | .struct hv h, .struct hv' h' => by
    cases hv.symm.trans hv'
    exact h.unique h'
  | .struct hv _, .notStruct hv' => nomatch hv.symm.trans hv'
  | .notStruct hv, .struct hv' _ => nomatch hv.symm.trans hv'
  | .notStruct _, .notStruct _ => rfl
  | .framed hv h, .framed hv' h' => by
    cases hv.symm.trans hv'
    exact h.unique h'
  | .framed hv _, .notFramed hv' => nomatch hv.symm.trans hv'
  | .notFramed hv, .framed hv' _ => nomatch hv.symm.trans hv'
  | .notFramed _, .notFramed _ => rfl
  | .lengthArray hv _ h, .lengthArray hv' _ h' => by
    cases hv.symm.trans hv'
    exact h.unique h'
  | .lengthArray hv hle _, .tooMany hv' hlt => by
    cases hv.symm.trans hv'
    exact absurd hle (Nat.not_le.2 hlt)
  | .lengthArray hv _ _, .notCounted hv' => nomatch hv.symm.trans hv'
  | .tooMany hv hlt, .lengthArray hv' hle _ => by
    cases hv.symm.trans hv'
    exact absurd hle (Nat.not_le.2 hlt)
  | .tooMany hv _, .tooMany hv' _ => by
    cases hv.symm.trans hv'
    rfl
  | .tooMany hv _, .notCounted hv' => nomatch hv.symm.trans hv'
  | .notCounted hv, .lengthArray hv' _ _ => nomatch hv.symm.trans hv'
  | .notCounted hv, .tooMany hv' _ => nomatch hv.symm.trans hv'
  | .notCounted _, .notCounted _ => rfl
  | .sizeArray hv h, .sizeArray hv' h' => by
    cases hv.symm.trans hv'
    exact h.unique h'
  | .sizeArray hv _, .notSized hv' => nomatch hv.symm.trans hv'
  | .notSized hv, .sizeArray hv' _ => nomatch hv.symm.trans hv'
  | .notSized _, .notSized _ => rfl
  | .unsupported _ _, .unsupported _ _ => rfl

theorem JudgesAll.unique {parts : List (EncodeOp × Option Value)} {x y : Verdict} :
    JudgesAll p parts x → JudgesAll p parts y → x = y
  | .nil, .nil => rfl
  | .cons hv h, .cons hv' h' => by
    cases hv.unique hv'
    rw [h.unique h']
  | .cons hv _, .stop _ hv' => nomatch hv.unique hv'
  | .stop _ hv, .cons hv' _ => nomatch hv.unique hv'
  | .stop _ hv, .stop _ hv' => congrArg _ (Except.error.inj (hv.unique hv'))

end

end Unique

/-- There is a verdict as a declared type only if the type has a routine. -/
theorem Judges.isSome_routine? {p : Program} {name : String} {v : Option Value} {x : Verdict}
    (h : Judges p (.call name) v x) : (p.routine? name).isSome := by
  cases h with
  | call ht _ =>
    rw [ht]
    rfl

/-! ## Encoding ends as the verdict says -/

namespace Output

/-- A step that ends as the verdict says: it stops with the misfit, or goes to its end and refuses
the first payload that is too long. -/
def Reflects (out : Output) : Verdict → Prop
  | .ok payloads => out.result = .ok () ∧ out.refused = Payload.firstTooLong payloads
  | .error m => out.result = .error m.error

variable {first second : Output} {payloads : List Payload} {x : Verdict} {m : Misfit}

theorem Reflects.andThen (h : first.Reflects (.ok payloads)) (h' : second.Reflects x) :
    (first.andThen second).Reflects (x.map (payloads ++ ·)) := by
  obtain ⟨hresult, hrefused⟩ := h
  cases x with
  | ok others =>
    obtain ⟨hresult', hrefused'⟩ := h'
    simp only [Except.map, Reflects, Output.andThen, hresult, hresult', hrefused, hrefused',
      Payload.firstTooLong_append, and_self]
  | error m =>
    have hresult' : second.result = .error m.error := h'
    simp only [Except.map, Reflects, Output.andThen, hresult, hresult']

theorem Reflects.stop (h : first.Reflects (.error m)) :
    (first.andThen second).Reflects (.error m) := by
  have hresult : first.result = .error m.error := h
  simp only [Reflects, Output.andThen, hresult]

theorem Reflects.slotted (h : first.Reflects x) (s : ByteArray)
    (measure : ByteArray → BitVec 32) : (first.slotted s measure).Reflects x := by
  cases x with
  | ok payloads =>
    obtain ⟨hresult, hrefused⟩ := h
    simp only [Reflects, Output.slotted, hresult, hrefused, and_self]
  | error m =>
    have hresult : first.result = .error m.error := h
    simp only [Reflects, Output.slotted, hresult]

theorem finish_of_reflects (h : first.Reflects (.ok payloads)) :
    first.finish =
      match Payload.firstTooLong payloads with
      | some e => .error (.encode e)
      | none => .ok first.bytes := by
  obtain ⟨hresult, hrefused⟩ := h
  rw [finish, hresult, hrefused]
  cases Payload.firstTooLong payloads <;> rfl

end Output

/-- An error that lies in the routines and not in the value. -/
inductive CodecError.OfRoutines : CodecError → Prop
  | unbounded (name : String) : OfRoutines (.unbounded name)
  | unknownType (name : String) : OfRoutines (.unknownType name)
  | noRoutine (name : String) : OfRoutines (.noRoutine name)

namespace EncodeM

/-- A step that refuses long text ends as one of the given verdicts says, unless a routine is at
fault. -/
def Judged (m : EncodeM Unit) (J : Verdict → Prop) : Prop :=
  ∃ out, Appends m .reject out ∧
    ((∃ x, J x ∧ out.Reflects x) ∨ ∃ e, CodecError.OfRoutines e ∧ out.result = .error e)

variable {m n : EncodeM Unit} {J J' K : Verdict → Prop}

theorem Judged.mono (h : Judged m J) (hJ : ∀ x, J x → K x) : Judged m K := by
  obtain ⟨out, hout, ⟨x, hx, hreflects⟩ | hfault⟩ := h
  · exact ⟨out, hout, .inl ⟨x, hJ x hx, hreflects⟩⟩
  · exact ⟨out, hout, .inr hfault⟩

theorem judged_throw {v : Misfit} (h : J (.error v)) : Judged (throw v.error) J :=
  ⟨_, appends_throw _, .inl ⟨_, h, rfl⟩⟩

theorem judged_fault {e : CodecError} (h : e.OfRoutines) : Judged (throw e) J :=
  ⟨_, appends_throw _, .inr ⟨e, h, rfl⟩⟩

/-- **One step after the other**: the verdict on the first counts if it is a misfit. -/
theorem Judged.bind (hm : Judged m J) (hn : Judged n J')
    (hcons : ∀ payloads x, J (.ok payloads) → J' x → K (x.map (payloads ++ ·)))
    (hstop : ∀ v, J (.error v) → K (.error v)) : Judged (m >>= fun _ => n) K := by
  obtain ⟨out, hout, hm⟩ := hm
  obtain ⟨out', hout', hn⟩ := hn
  refine ⟨_, hout.bind hout', ?_⟩
  rcases hm with ⟨x, hx, hreflects⟩ | ⟨e, he, hresult⟩
  · cases x with
    | error v => exact .inl ⟨_, hstop v hx, hreflects.stop⟩
    | ok payloads =>
      rcases hn with ⟨y, hy, hreflects'⟩ | ⟨e, he, hresult'⟩
      · exact .inl ⟨_, hcons payloads y hx hy, hreflects.andThen hreflects'⟩
      · refine .inr ⟨e, he, ?_⟩
        simp only [Output.andThen, hreflects.1, hresult']
  · refine .inr ⟨e, he, ?_⟩
    simp only [Output.andThen, hresult]

/-- Bytes in front of a body change nothing about the verdict on the body. -/
theorem Judged.after (hn : Judged n J) (b : ByteArray) :
    Judged (modify (·.append b) >>= fun _ => n) J := by
  have hb : Judged (modify (·.append b)) (· = .ok []) :=
    ⟨_, appends_append b, .inl ⟨_, rfl, rfl, rfl⟩⟩
  refine hb.bind hn (fun payloads x h hx => ?_) fun _ h => nomatch h
  cases h
  rwa [Verdict.map_nil_append]

/-- A slot in front of a body changes nothing about the verdict on the body. -/
theorem Judged.slot {s : ByteArray} (hs : s.size = 4) (hn : Judged n J)
    (f : Nat → Writer → BitVec 32) (measure : ByteArray → BitVec 32)
    (hf : ∀ (w : Writer) (a b : ByteArray), w.bytes = a ++ b → f a.size w = measure b) :
    Judged (do
      let slot := (← get).size
      modify (·.append s)
      let start := (← get).size
      n
      modify fun w => w.patch slot (f start w)) J := by
  obtain ⟨out, hout, hn⟩ := hn
  refine ⟨_, hout.slot hs f measure hf, ?_⟩
  rcases hn with ⟨x, hx, hreflects⟩ | ⟨e, he, hresult⟩
  · exact .inl ⟨x, hx, hreflects.slotted s measure⟩
  · refine .inr ⟨e, he, ?_⟩
    simp only [Output.slotted, hresult]

end EncodeM

open EncodeM

theorem putText_judged (s : String) : Judged (modify (·.putText s)) (· = .ok [.text s]) := by
  by_cases h : s.utf8ByteSize ≤ Writer.maxTextLength
  · refine ⟨_, appends_putText_of_le .reject h, .inl ⟨_, rfl, rfl, ?_⟩⟩
    rw [Payload.firstTooLong_singleton, if_pos (show (Payload.text s).Fits from h)]
  · refine ⟨_, appends_putText_reject (Nat.lt_of_not_le h), .inl ⟨_, rfl, rfl, ?_⟩⟩
    rw [Payload.firstTooLong_singleton, if_neg (show ¬ (Payload.text s).Fits from h),
      Payload.tooLong]

theorem putBytes_judged (b : ByteArray) : Judged (modify (·.putBytes b)) (· = .ok [.bytes b]) := by
  refine ⟨_, appends_putBytes .reject b, .inl ⟨_, rfl, ?_⟩⟩
  by_cases h : b.size ≤ Writer.maxCount
  · rw [if_pos h]
    refine ⟨rfl, ?_⟩
    rw [Payload.firstTooLong_singleton, if_pos (show (Payload.bytes b).Fits from h)]
  · rw [if_neg h]
    refine ⟨rfl, ?_⟩
    rw [Payload.firstTooLong_singleton, if_neg (show ¬ (Payload.bytes b).Fits from h),
      Payload.tooLong]

/-- Writing an integer either stops with its misfit or adds the bytes of the integer. -/
theorem putPrimitive_int_judge (k : IntKind) (v : Value) :
    (∃ m, (Primitive.int k).judge v = .error m ∧ putPrimitive (.int k) v = throw m.error) ∨
      ∃ x, (Primitive.int k).judge v = .ok [] ∧
        putPrimitive (.int k) v = modify (·.append (BigEndian.encode k x)) := by
  cases v with
  | int l x =>
    by_cases h : l = k
    · subst h
      exact .inr ⟨x, by simp [Primitive.judge], by simp [putPrimitive, Writer.putInt]⟩
    · refine .inl ⟨.mismatch k.name (.int l x), ?_, ?_⟩
      · rw [Primitive.judge, if_neg h]
      · rw [putPrimitive, dif_neg h]
        rfl
  | _ => exact .inl ⟨_, rfl, rfl⟩

/-- **Writing a primitive ends as the verdict on it says.** -/
theorem putPrimitive_judged (q : Primitive) (v : Value) :
    Judged (putPrimitive q v) (· = q.judge v) := by
  cases q with
  | int k =>
    rcases putPrimitive_int_judge k v with ⟨m, hjudge, hput⟩ | ⟨x, hjudge, hput⟩
    · rw [hjudge, hput]
      exact judged_throw rfl
    · rw [hjudge, hput]
      exact ⟨_, appends_append _, .inl ⟨_, rfl, rfl, rfl⟩⟩
  | string =>
    cases v with
    | text s => exact putText_judged s
    | _ => exact judged_throw (v := .mismatch Primitive.string.name _) rfl
  | bytes =>
    cases v with
    | bytes b => exact putBytes_judged b
    | _ => exact judged_throw (v := .mismatch Primitive.bytes.name _) rfl

section Operations

variable {p : Program} {call : String → Option Value → EncodeM Unit}

theorem putAll_judged {element : EncodeOp}
    (h : ∀ v, Judged (element.run call (some v)) (Judges p element (some v))) :
    ∀ items, Judged (putAll (fun v => element.run call (some v)) items)
      (JudgesAll p (itemParts element items))
  | [] => ⟨_, appends_pure, .inl ⟨_, .nil, rfl, rfl⟩⟩
  | v :: vs => (h v).bind (putAll_judged h vs) (fun _ _ => .cons) fun _ => .stop _

mutual

/-- **An operation ends as the verdict on its value says**, if the routines that it calls do. -/
theorem EncodeOp.run_judged (hcall : ∀ name v, Judged (call name v) (Judges p (.call name) v)) :
    ∀ (op : EncodeOp) (v : Option Value), Judged (op.run call v) (Judges p op v)
  | .write q, v => by
    rw [run]
    refine (putPrimitive_judged q _).mono ?_
    rintro _ rfl
    exact .write q v
  | .writeAlias typeName q, v => by
    rw [run]
    have hmismatch : (∀ x, v.getD (.named typeName (.zero q)) ≠ .named typeName x) →
        Judged (throw (.mismatch typeName (v.getD (.named typeName (.zero q)))))
          (Judges p (.writeAlias typeName q) v) :=
      fun hv => judged_throw (v := .mismatch typeName _) (.notAlias hv)
    split
    · next found x hv =>
      split
      · next hname =>
        refine (putPrimitive_judged q x).mono ?_
        rintro _ rfl
        exact .alias (by rw [hv, hname])
      · next hname =>
        rw [hv] at hmismatch
        exact hmismatch fun y hy => hname (by cases hy; rfl)
    · next hother => exact hmismatch (hother typeName)
  | .call name, v => by
    rw [run]
    exact hcall name v
  | .struct ops, v => by
    rw [run]
    split
    · next fields hv =>
      exact (runFields_judged hcall fields ops).mono fun _ => .struct (by rw [hv]; rfl)
    · next hother =>
      exact judged_throw (v := .mismatch "struct" _) (.notStruct (Value.asStruct?_eq_none hother))
  | .framed framing signed body, v => by
    rw [run]
    split
    · next fields hv =>
      have hbody := runFields_judged hcall fields body
      have hslot := Judges.write (p := p) (.int (.word signed))
        (Fields.get? framing.fieldName fields)
      have hframed : ∀ x, JudgesAll p (fieldParts fields
          (⟨framing.fieldName, .write (.int (.word signed))⟩ :: body)) x →
          Judges p (.framed framing signed body) v x :=
        fun _ => .framed (by rw [hv]; rfl)
      rcases putPrimitive_int_judge (.word signed)
        ((Fields.get? framing.fieldName fields).getD (.zero (.int (.word signed))))
        with ⟨m, hjudge, hput⟩ | ⟨x, hjudge, hput⟩
      · rw [hjudge] at hslot
        simp only [hput]
        exact ⟨_, appends_get_throw m.error _, .inl ⟨_, hframed _ (.stop _ hslot), rfl⟩⟩
      · rw [hjudge] at hslot
        simp only [hput]
        have hslotted := hbody.slot (BigEndian.size_encode (.word signed) x)
          (fun start w => framing.measure (w.bytes.extract start w.size)) framing.measure
          framing.measure_written
        exact hslotted.mono fun y hy => hframed y (.cons_empty hslot hy)
    · next hother =>
      exact judged_throw (v := .mismatch "struct" _) (.notFramed (Value.asStruct?_eq_none hother))
  | .lengthArray element, v => by
    rw [run]
    split
    · next items hv =>
      have hitems := putAll_judged (fun item => run_judged hcall element (some item)) items
      have hlist : (v.getD (.list [])).asList? = some items := by rw [hv]; rfl
      split
      · next hcount => exact (hitems.after _).mono fun _ => .lengthArray hlist hcount
      · next hcount =>
        exact judged_throw (v := .tooMany items.length) (.tooMany hlist (Nat.lt_of_not_le hcount))
    · next hother =>
      exact judged_throw (v := .mismatch "list" _) (.notCounted (Value.asList?_eq_none hother))
  | .sizeArray element, v => by
    rw [run]
    split
    · next items hv =>
      have hitems := putAll_judged (fun item => run_judged hcall element (some item)) items
      have hslotted := hitems.slot (BigEndian.size_encode .int32 0#32)
        (fun start w => BitVec.ofNat 32 (w.size - start)) (fun b => BitVec.ofNat 32 b.size)
        Writer.size_written
      exact hslotted.mono fun _ => .sizeArray (by rw [hv]; rfl)
    · next hother =>
      exact judged_throw (v := .mismatch "list" _) (.notSized (Value.asList?_eq_none hother))
  | .unsupported owner, v => by
    rw [run]
    exact judged_throw (v := .alternation owner) (.unsupported owner v)

theorem EncodeOp.runFields_judged
    (hcall : ∀ name v, Judged (call name v) (Judges p (.call name) v))
    (fields : List (Field Value)) :
    ∀ ops : List (Field EncodeOp),
      Judged (runFields call fields ops) (JudgesAll p (fieldParts fields ops))
  | [] => by
    rw [runFields]
    exact ⟨_, appends_pure, .inl ⟨_, .nil, rfl, rfl⟩⟩
  | ⟨name, op⟩ :: ops => by
    rw [runFields]
    exact (run_judged hcall op _).bind (runFields_judged hcall fields ops) (fun _ _ => .cons)
      fun _ => .stop _

end

end Operations

/-- **Every routine ends as the verdict on its value says**, unless a routine is at fault. -/
theorem Program.encode_judged (p : Program) :
    ∀ (fuel : Nat) (name : String) (v : Option Value),
      Judged (p.encode fuel name v) (Judges p (.call name) v)
  | 0, name, v => judged_fault (.unbounded name)
  | fuel + 1, name, v => by
    rw [encode]
    split
    · next r hr => exact (r.encode.run_judged (p.encode_judged fuel) v).mono fun _ => .call hr
    · refine judged_fault ?_
      rw [missing]
      split
      · exact .noRoutine name
      · exact .unknownType name

/-! ## Codecs -/

namespace Codec

variable {p : Program} {c : Codec} {typeName : String}

/-- **There is a verdict, and encoding ends as it says.**  No routine is at fault in a linked
program without a cycle of calls outside arrays. -/
theorem exists_judges (hp : p.Grounded) (hlink : link p .reject = .ok c)
    (ht : (p.routine? typeName).isSome) (v : Value) :
    ∃ (x : Verdict) (out : Output), Judges c.program (.call typeName) (some v) x ∧ out.Reflects x ∧
      c.encode typeName v = out.finish := by
  obtain ⟨rfl, ho⟩ := link_eq_ok hlink
  obtain ⟨out, hout, h⟩ :=
    c.program.encode_judged (c.callBound * (v.depth + 1)) typeName (some v)
  have houtputs : c.Outputs c.overflow typeName v out := by
    rw [ho]
    exact hout
  rcases h with ⟨x, hx, hreflects⟩ | ⟨e, he, hresult⟩
  · exact ⟨x, out, hx, hreflects, encode_of_outputs houtputs⟩
  · have hstops : (c.encodeInto typeName v { overflow := c.overflow }).1 = .error e := by
      rw [houtputs _ rfl, hresult]
    have hmissing := (linked_of_link hlink).ne_missing ht
      (c.program.encode_raises _ typeName (some v) _ e hstops)
    cases he with
    | unbounded name => exact absurd hstops (c.encodeInto_ne_unbounded hp typeName v _ name)
    | unknownType name => exact absurd rfl (hmissing name).1
    | noRoutine name => exact absurd rfl (hmissing name).2

/-- A type without a routine is reported as such, whatever the value is. -/
theorem encode_of_routine?_eq_none (ht : c.program.routine? typeName = none) (v : Value) :
    c.encode typeName v = .error (c.program.missing typeName) := by
  have hne : c.callBound * (v.depth + 1) ≠ 0 :=
    Nat.mul_ne_zero (Nat.succ_ne_zero _) (Nat.succ_ne_zero _)
  obtain ⟨fuel, hfuel⟩ := Nat.exists_eq_succ_of_ne_zero hne
  rw [encode, encodeInto, hfuel, Program.encode, ht]
  rfl

/-- **A value that does not conform** is reported by its first misfit. -/
theorem encode_of_misfits (hp : p.Grounded) (hlink : link p .reject = .ok c) {v : Value}
    {m : Misfit} (hm : c.Misfits typeName v m) : c.encode typeName v = .error m.error := by
  have ht := hm.isSome_routine?
  rw [(link_eq_ok hlink).1] at ht
  obtain ⟨x, out, hx, hreflects, hencode⟩ := exists_judges hp hlink ht v
  cases hx.unique hm
  have hresult : out.result = .error m.error := hreflects
  rw [hencode, Output.finish, hresult]

/-- **A value that conforms** is encoded, unless one of its payloads is too long. -/
theorem encode_of_conforms (hp : p.Grounded) (hlink : link p .reject = .ok c) {v : Value}
    {payloads : List Payload} (h : c.Conforms typeName v payloads) :
    ∃ b, c.encode typeName v =
      match Payload.firstTooLong payloads with
      | some e => .error (.encode e)
      | none => .ok b := by
  have ht := h.isSome_routine?
  rw [(link_eq_ok hlink).1] at ht
  obtain ⟨x, out, hx, hreflects, hencode⟩ := exists_judges hp hlink ht v
  cases hx.unique h
  exact ⟨out.bytes, hencode.trans (Output.finish_of_reflects hreflects)⟩

/-- A value that conforms is encoded where all its payloads fit. -/
theorem encode_of_fits (hp : p.Grounded) (hlink : link p .reject = .ok c) {v : Value}
    {payloads : List Payload} (h : c.Conforms typeName v payloads)
    (hfits : ∀ x ∈ payloads, x.Fits) : ∃ b, c.encode typeName v = .ok b := by
  obtain ⟨b, hb⟩ := encode_of_conforms hp hlink h
  rw [Payload.firstTooLong_eq_none.2 hfits] at hb
  exact ⟨b, hb⟩

/-- **Encoding accepts exactly the values that conform and whose payloads fit.**  A type without a
routine is reported as such.  For any other, a value that does not conform is reported by its first
misfit in the order of the wire, whatever else is too long; of a value that conforms, the first
payload that is too long is reported. -/
theorem encode_iff_conforms (hp : p.Grounded) (hlink : link p .reject = .ok c) (v : Value) :
    ((∃ b, c.encode typeName v = .ok b) ↔
      ∃ payloads, c.Conforms typeName v payloads ∧ ∀ x ∈ payloads, x.Fits) ∧
    (p.routine? typeName = none → c.encode typeName v = .error (p.missing typeName)) ∧
    ((p.routine? typeName).isSome → (∀ payloads, ¬ c.Conforms typeName v payloads) →
      ∃ m, c.Misfits typeName v m) ∧
    (∀ m, c.Misfits typeName v m → c.encode typeName v = .error m.error) ∧
    ∀ before x after, c.Conforms typeName v (before ++ x :: after) → (∀ y ∈ before, y.Fits) →
      ¬ x.Fits → c.encode typeName v = .error (.encode x.tooLong) := by
  have hmissing : p.routine? typeName = none →
      c.encode typeName v = .error (p.missing typeName) := by
    rw [← (link_eq_ok hlink).1]
    exact fun ht => encode_of_routine?_eq_none ht v
  refine ⟨⟨?_, ?_⟩, hmissing, ?_, fun m hm => encode_of_misfits hp hlink hm, ?_⟩
  · rintro ⟨b, hb⟩
    by_cases ht : (p.routine? typeName).isSome
    · obtain ⟨verdict, -, hverdict, -⟩ := exists_judges hp hlink ht v
      cases verdict with
      | error m => cases (encode_of_misfits hp hlink hverdict).symm.trans hb
      | ok payloads =>
        refine ⟨payloads, hverdict, Payload.firstTooLong_eq_none.1 ?_⟩
        obtain ⟨b', hb'⟩ := encode_of_conforms hp hlink hverdict
        cases hlong : Payload.firstTooLong payloads with
        | none => rfl
        | some e =>
          rw [hlong] at hb'
          cases hb'.symm.trans hb
    · cases (hmissing (Option.not_isSome_iff_eq_none.1 ht)).symm.trans hb
  · rintro ⟨payloads, hpayloads, hfits⟩
    exact encode_of_fits hp hlink hpayloads hfits
  · intro ht hnot
    obtain ⟨verdict, -, hverdict, -⟩ := exists_judges hp hlink ht v
    cases verdict with
    | error m => exact ⟨m, hverdict⟩
    | ok payloads => exact absurd hverdict (hnot payloads)
  · intro before x after hpayloads hbefore hx
    obtain ⟨b, hb⟩ := encode_of_conforms hp hlink hpayloads
    rwa [Payload.firstTooLong_of_append hbefore hx] at hb

end Codec

namespace Pair

theorem grounded : compiled.program.Grounded := by
  have hs : compiled.schema.Grounded := Schema.grounded_of_rank (fun _ => 0) (by
    simp [compiled, Ty.inlineRefs, Ty.inlineRefsOfFields])
  exact hs.program (show compiled.schema.emit true = .ok compiled.program from rfl)

/-- A first sequence of `n` bytes, and what stands in place of the second. -/
def valueWith (n : Nat) (second : Value) : Value :=
  .struct [⟨"A", .bytes (zeros n)⟩, ⟨"B", second⟩]

/-- The verdict on the second sequence decides. -/
theorem judges_valueWith (n : Nat) (second : Value) :
    Judges codec.program (.call "Pair") (some (valueWith n second))
      ((Primitive.bytes.judge second).map ([.bytes (zeros n)] ++ ·)) := by
  have hsecond := JudgesAll.last (Judges.write (p := codec.program) .bytes (some second))
  exact .call rfl (.framed rfl (.cons_empty (.write _ _) (.cons (.write _ _) hsecond)))

end Pair

/-- What is not a byte sequence is reported, although one that is too long comes before it. -/
theorem Codec.encode_iff_conforms_pair :
    Pair.codec.encode "Pair" (Pair.valueWith 2147483648 (.text "")) =
      .error (.valueMismatch "bytes" "string") ∧
    Pair.codec.encode "Pair" (Pair.valueWith 2147483648 (.bytes .empty)) =
      .error (.encode (.bytesTooLong 2147483648)) := by
  have h := @encode_iff_conforms _ _ "Pair" Pair.grounded Pair.link_program
  have hmisfits : Pair.codec.Misfits "Pair" (Pair.valueWith 2147483648 (.text ""))
      (.mismatch "bytes" (.text "")) := Pair.judges_valueWith _ _
  have hconforms : Pair.codec.Conforms "Pair" (Pair.valueWith 2147483648 (.bytes .empty))
      ([] ++ [.bytes (Pair.zeros 2147483648), .bytes .empty]) := Pair.judges_valueWith _ _
  have hfits : ¬ (Payload.bytes (Pair.zeros 2147483648)).Fits := by
    rw [Payload.Fits, Payload.size, Pair.size_zeros]
    decide
  refine ⟨(h _).2.2.2.1 _ hmisfits, ?_⟩
  have herror := (h _).2.2.2.2 _ _ _ hconforms (List.forall_mem_nil _) hfits
  rwa [Payload.tooLong, Pair.size_zeros] at herror

/-! ## Lists without a bound, and alternations -/

namespace Either

/-- Numbers behind the size of all of them, and a choice of numbers. -/
def source : String := "Items = \x7bint16\x7d; Either = int8 | int16"

/-- What the grammar compiles to: the choice has no routine. -/
def compiled : Compiled where
  grammar := {
    decls := [
      ⟨"Items", .node .sequence [.node .sizeArray [.leaf "int16"]]⟩,
      ⟨"Either", .node .alternation [.node .sequence [.leaf "int8"],
        .node .sequence [.leaf "int16"]]⟩] }
  schema := {
    decls := [
      ⟨"Items", .array (.scalar (.int .int16)) .size⟩,
      ⟨"Either", .polymorphic [.scalar (.int .int8), .scalar (.int .int16)]⟩] }
  program := {
    routines := [
      ⟨"Items", .sizeArray (.write (.int .int16)), .sizeArray (.read (.int .int16))⟩]
    skipped := ["Either"] }

theorem compile_source : compile true source = .ok compiled :=
  compile_of_parse? (by decide +kernel) (by cbv) rfl

/-- A codec for numbers. -/
def codec : Codec := { program := compiled.program }

theorem link_program : Codec.link compiled.program .reject = .ok codec := rfl

theorem grounded : compiled.program.Grounded := by
  have hs : compiled.schema.Grounded := Schema.grounded_of_rank (fun _ => 0) (by
    simp [compiled, Ty.inlineRefs])
  exact hs.program (show compiled.schema.emit true = .ok compiled.program from rfl)

/-- A number, `n` times. -/
def numbers (n : Nat) : List Value := List.replicate n (.int .int16 0)

theorem judgesAll_numbers (n : Nat) :
    JudgesAll codec.program (itemParts (.write (.int .int16)) (numbers n)) (.ok []) := by
  induction n with
  | zero => exact .nil
  | succ n ih => exact .cons_empty (.write _ _) ih

/-- A list of numbers conforms, however long it is. -/
theorem conforms_numbers (n : Nat) : codec.Conforms "Items" (.list (numbers n)) [] :=
  .call rfl (.sizeArray rfl (judgesAll_numbers n))

end Either

/-- **More items than a count could say, and a choice.**  A size array writes no count, and no count
of its items is checked.  A choice that is declared has no routine, and is reported otherwise than
an alternation inside a type. -/
theorem Codec.encode_either :
    compile true Either.source = .ok Either.compiled ∧
    Codec.link Either.compiled.program .reject = .ok Either.codec ∧
    (Either.numbers 2147483648).length = Writer.maxCount + 1 ∧
    (∃ b, Either.codec.encode "Items" (.list (Either.numbers 2147483648)) = .ok b) ∧
    Either.codec.encode "Either" (.int .int8 1) = .error (.noRoutine "Either") := by
  have hmany := Either.conforms_numbers 2147483648
  refine ⟨Either.compile_source, Either.link_program, List.length_replicate, ?_, ?_⟩
  · exact encode_of_fits Either.grounded Either.link_program hmany (List.forall_mem_nil _)
  · exact encode_of_routine?_eq_none rfl _

end WireGrammar
