import WireGrammar.Proofs.Encode.Refinement

/-!
# Two policies for long text

A codec may cut text off that is too long, or refuse it.  Both write the same bytes until they meet
such a text.  Refusing it does not stop the encoding: it goes on to its end without the text, and
only then says what it refused.

* `Output.Tightens` — how the output of a step that refuses compares with the one that cuts off.
* `EncodeM.Compares` — the two outputs of a step compare in this way; `EncodeOp.run_compares` and
  `Program.encode_compares` say so of operations and routines.
* `Codec.exists_strict_output` — what refusing makes of a value that encodes under the policy of a
  codec.
-/

set_option autoImplicit false
namespace WireGrammar

/-! ## Outputs -/

namespace Output

/-- The step went to its end, but on the way it refused a text that is too long. -/
def RefusesText (out : Output) : Prop :=
  out.result = .ok () ∧ ∃ n, Writer.maxTextLength < n ∧ out.refused = some (.stringTooLong n)

/-- Where `lax` accepts some bytes, `strict` accepts the same, or refuses a text. -/
def Tightens (strict lax : Output) : Prop :=
  ∀ b, lax.accepted = some b → strict.accepted = some b ∨ strict.RefusesText

theorem Tightens.refl (out : Output) : out.Tightens out :=
  fun _ h => .inl h

/-- A step after a refused text changes nothing about that, if it goes to its end. -/
theorem RefusesText.andThen {first second : Output} (h : first.RefusesText)
    (hsecond : second.result = .ok ()) : (first.andThen second).RefusesText := by
  obtain ⟨hresult, n, hn, hrefused⟩ := h
  refine ⟨?_, n, hn, ?_⟩
  · simp only [Output.andThen, hresult, hsecond]
  · simp only [Output.andThen, hresult, hrefused, Option.some_or]

theorem RefusesText.after {first second : Output} {a : ByteArray} (hfirst : first.accepted = some a)
    (h : second.RefusesText) : (first.andThen second).RefusesText := by
  obtain ⟨hresult, hrefused, -⟩ := accepted_eq_some.1 hfirst
  obtain ⟨hresult', n, hn, hrefused'⟩ := h
  refine ⟨?_, n, hn, ?_⟩
  · simp only [Output.andThen, hresult, hresult']
  · simp only [Output.andThen, hresult, hrefused, hrefused', Option.none_or]

theorem Tightens.andThen {strict lax strict' lax' : Output} (h : strict.Tightens lax)
    (h' : strict'.Tightens lax') : (strict.andThen strict').Tightens (lax.andThen lax') := by
  intro b hb
  rw [accepted_andThen] at hb
  obtain ⟨a, ha, hb⟩ := Option.bind_eq_some_iff.1 hb
  obtain ⟨a', ha', hb⟩ := Option.bind_eq_some_iff.1 hb
  rcases h a ha with hstrict | hstrict
  · rcases h' a' ha' with hstrict' | hstrict'
    · left
      rw [accepted_andThen, hstrict, hstrict']
      exact hb
    · exact .inr (.after hstrict hstrict')
  · have hresult' : strict'.result = .ok () := by
      rcases h' a' ha' with hstrict' | hstrict'
      · exact (accepted_eq_some.1 hstrict').1
      · exact hstrict'.1
    exact .inr (hstrict.andThen hresult')

theorem Tightens.slotted {strict lax : Output} (h : strict.Tightens lax) (s : ByteArray)
    (measure : ByteArray → BitVec 32) :
    (strict.slotted s measure).Tightens (lax.slotted s measure) := by
  intro b hb
  rw [accepted_slotted] at hb
  obtain ⟨a, ha, hb⟩ := Option.bind_eq_some_iff.1 hb
  rcases h a ha with hstrict | ⟨hresult, n, hn, hrefused⟩
  · left
    rw [accepted_slotted, hstrict]
    exact hb
  · right
    refine ⟨?_, n, hn, ?_⟩
    · simp only [Output.slotted, hresult]
    · simp only [Output.slotted, hresult, hrefused]

end Output

/-! ## Steps -/

namespace EncodeM

/-- Under the one policy the step accepts what it accepts under the other, or refuses a text. -/
def Compares (m : EncodeM Unit) : Prop :=
  ∃ strict lax : Output, Appends m .reject strict ∧ Appends m .truncate lax ∧ strict.Tightens lax

variable {m n : EncodeM Unit}

/-- A step that does not look at the policy. -/
theorem compares_of_appends {out : Output} (h : ∀ o, Appends m o out) : Compares m :=
  ⟨out, out, h .reject, h .truncate, .refl out⟩

theorem compares_throw (e : CodecError) : Compares (throw e) :=
  compares_of_appends fun _ => appends_throw e

theorem Compares.bind (hm : Compares m) (hn : Compares n) : Compares (m >>= fun _ => n) := by
  obtain ⟨strict, lax, hstrict, hlax, h⟩ := hm
  obtain ⟨strict', lax', hstrict', hlax', h'⟩ := hn
  exact ⟨_, _, hstrict.bind hstrict', hlax.bind hlax', h.andThen h'⟩

theorem Compares.slot {s : ByteArray} (hs : s.size = 4) (hn : Compares n)
    (f : Nat → Writer → BitVec 32) (measure : ByteArray → BitVec 32)
    (hf : ∀ (w : Writer) (a b : ByteArray), w.bytes = a ++ b → f a.size w = measure b) :
    Compares (do
      let slot := (← get).size
      modify (·.append s)
      let start := (← get).size
      n
      modify fun w => w.patch slot (f start w)) := by
  obtain ⟨strict, lax, hstrict, hlax, h⟩ := hn
  exact ⟨_, _, hstrict.slot hs f measure hf, hlax.slot hs f measure hf, h.slotted s measure⟩

end EncodeM

open EncodeM

/-! ## Operations -/

theorem putText_compares (s : String) : Compares (modify (·.putText s)) := by
  by_cases h : s.utf8ByteSize ≤ Writer.maxTextLength
  · exact compares_of_appends fun o => appends_putText_of_le o h
  · have hlt := Nat.lt_of_not_le h
    refine ⟨_, _, appends_putText_reject hlt, appends_putText_truncate hlt, fun _ _ => .inr ?_⟩
    exact ⟨rfl, s.utf8ByteSize, hlt, rfl⟩

theorem putPrimitive_compares (p : Primitive) (v : Value) : Compares (putPrimitive p v) := by
  unfold putPrimitive
  split
  · split
    · exact compares_of_appends fun _ => appends_append _
    · exact compares_throw _
  · exact putText_compares _
  · exact compares_of_appends fun o => appends_putBytes o _
  · exact compares_throw _

theorem putAll_compares {item : Value → EncodeM Unit} (h : ∀ v, Compares (item v)) :
    ∀ vs, Compares (putAll item vs)
  | [] => compares_of_appends fun _ => appends_pure
  | v :: vs => (h v).bind (putAll_compares h vs)

section Operations

variable {call : String → Option Value → EncodeM Unit}

mutual

/-- **An operation compares under the two policies**, if the routines that it calls do. -/
theorem EncodeOp.run_compares (hcall : ∀ name v, Compares (call name v)) :
    ∀ (op : EncodeOp) (v : Option Value), Compares (op.run call v)
  | .write p, v => by
    rw [run]
    exact putPrimitive_compares p _
  | .writeAlias typeName p, v => by
    rw [run]
    split
    · split
      · exact putPrimitive_compares p _
      · exact compares_throw _
    · exact compares_throw _
  | .call name, v => by
    rw [run]
    exact hcall name v
  | .struct ops, v => by
    rw [run]
    split
    · exact runFields_compares hcall _ ops
    · exact compares_throw _
  | .framed framing signed body, v => by
    rw [run]
    split
    · next fields _ =>
      have hbody := runFields_compares hcall fields body
      rcases putPrimitive_int_cases .reject (.word signed)
        ((Fields.get? framing.fieldName fields).getD (.zero (.int (.word signed))))
        with ⟨e, hput, -⟩ | ⟨x, hput, -⟩
      · simp only [hput]
        exact compares_of_appends fun _ => appends_get_throw e _
      · simp only [hput]
        exact hbody.slot (BigEndian.size_encode _ _)
          (fun start w => framing.measure (w.bytes.extract start w.size)) framing.measure
          framing.measure_written
    · exact compares_throw _
  | .lengthArray element, v => by
    rw [run]
    split
    · next items _ =>
      have hitems := putAll_compares (fun item => run_compares hcall element (some item)) items
      split
      · exact (compares_of_appends fun _ => appends_append _).bind hitems
      · exact compares_throw _
    · exact compares_throw _
  | .sizeArray element, v => by
    rw [run]
    split
    · next items _ =>
      have hitems := putAll_compares (fun item => run_compares hcall element (some item)) items
      exact hitems.slot (BigEndian.size_encode .int32 0#32)
        (fun start w => BitVec.ofNat 32 (w.size - start)) (fun b => BitVec.ofNat 32 b.size)
        Writer.size_written
    · exact compares_throw _
  | .unsupported owner, v => by
    rw [run]
    exact compares_throw _

theorem EncodeOp.runFields_compares (hcall : ∀ name v, Compares (call name v))
    (fields : List (Field Value)) :
    ∀ ops : List (Field EncodeOp), Compares (runFields call fields ops)
  | [] => by
    rw [runFields]
    exact compares_of_appends fun _ => appends_pure
  | ⟨name, op⟩ :: ops => by
    rw [runFields]
    exact (run_compares hcall op _).bind (runFields_compares hcall fields ops)

end

end Operations

/-- **Every routine compares under the two policies.** -/
theorem Program.encode_compares (p : Program) :
    ∀ (fuel : Nat) (name : String) (v : Option Value), Compares (p.encode fuel name v)
  | 0, name, v => compares_throw _
  | fuel + 1, name, v => by
    rw [encode]
    split
    · next r _ => exact r.encode.run_compares (p.encode_compares fuel) v
    · exact compares_throw _

/-! ## Codecs -/

namespace Codec

/-- The same codec, but one that refuses long text. -/
def strict (c : Codec) : Codec := { c with overflow := .reject }

variable {c : Codec} {typeName : String} {v : Value}

/-- **What refusing long text makes of a value that encodes.**  It gives the same bytes, or the
codec cuts text off and there is some to refuse. -/
theorem exists_strict_output {b : ByteArray} (h : c.encode typeName v = .ok b) :
    ∃ out, c.Outputs .reject typeName v out ∧
      (out.accepted = some b ∨ c.overflow = .truncate ∧ out.RefusesText) := by
  obtain ⟨strict, lax, hstrict, hlax, htightens⟩ :=
    c.program.encode_compares (c.callBound * (v.depth + 1)) typeName (some v)
  refine ⟨strict, hstrict, ?_⟩
  cases ho : c.overflow with
  | reject =>
    rw [← ho] at hstrict
    rw [encode_of_outputs hstrict] at h
    exact .inl (Output.finish_eq_ok.1 h)
  | truncate =>
    rw [← ho] at hlax
    rw [encode_of_outputs hlax] at h
    exact (htightens b (Output.finish_eq_ok.1 h)).imp_right fun h => ⟨rfl, h⟩

end Codec
end WireGrammar
