import WireGrammar.Proofs.Decode.Inert
import WireGrammar.Proofs.Encode.Errors
import WireGrammar.Proofs.Routine.References

/-!
# Linked programs never miss a routine

Linking looks at the encode operations only, and only at the routines themselves.  That is enough:
the decode operations make the same calls, and running a routine never leaves the routines that are
reached by calls.

* `Program.Linked` — every call of every routine finds a routine, also after any number of calls
  (`Program.Linked.isSome_routine?`).
* `Decodes.faultless` — decoding in a linked program leaves no fault of a routine on the reader.
* `Codec.link_sound_complete` — what linking checks, and what it rules out.
-/

set_option autoImplicit false
namespace WireGrammar

/-! ## Linked programs -/

namespace Program

variable {p : Program}

/-- Every call of every routine finds a routine. -/
def Linked (p : Program) : Prop :=
  ∀ a b, p.Calls a b → (p.routine? b).isSome

/-- **Calls never leave the routines of a linked program.** -/
theorem Linked.isSome_routine? (hp : p.Linked) {a b : String} (ha : (p.routine? a).isSome)
    (hab : Relation.ReflTransGen p.Calls a b) : (p.routine? b).isSome := by
  cases hab with
  | refl => exact ha
  | tail _ hb => exact hp _ _ hb

/-- Encoding in a linked program never stops for want of a routine. -/
theorem Linked.ne_missing (hp : p.Linked) {name : String} (ht : (p.routine? name).isSome)
    {e : CodecError} (he : p.StopsWith name e) (n : String) :
    e ≠ .unknownType n ∧ e ≠ .noRoutine n := by
  cases he with
  | ofValue he => cases he <;> constructor <;> intro h <;> cases h
  | unbounded => constructor <;> intro h <;> cases h
  | missing hn hr =>
    have hsome := hp.isSome_routine? ht hn
    rw [hr] at hsome
    cases hsome
  | unsupported => constructor <;> intro h <;> cases h

end Program

/-! ## Faults on the reader -/

mutual

/-- The names that an operation calls, from left to right. -/
def DecodeOp.calls : DecodeOp → List String
  | .call name => [name]
  | .struct ops => callsOfFields ops
  | .framed _ _ _ body => callsOfFields body
  | .lengthArray element | .sizeArray element => element.calls
  | .read _ | .readAlias .. | .unsupported _ => []

/-- The names that the operations of fields call. -/
def DecodeOp.callsOfFields : List (Field DecodeOp) → List String
  | [] => []
  | ⟨_, op⟩ :: ops => op.calls ++ callsOfFields ops

end

mutual

/-- **The two trees of a routine make the same calls**, in the same order. -/
theorem EncodeOp.calls_mirror (verifyCrc : Bool) :
    ∀ op : EncodeOp, (op.mirror verifyCrc).calls = op.calls
  | .struct ops => by rw [mirror, calls, DecodeOp.calls, callsOfFields_mirrorFields]
  | .framed framing signed body => by
    rw [mirror, calls, DecodeOp.calls, callsOfFields_mirrorFields]
  | .lengthArray element => by rw [mirror, calls, DecodeOp.calls, calls_mirror]
  | .sizeArray element => by rw [mirror, calls, DecodeOp.calls, calls_mirror]
  | .write _ | .writeAlias .. | .call _ | .unsupported _ => by
    simp only [mirror, calls, DecodeOp.calls]

theorem EncodeOp.callsOfFields_mirrorFields (verifyCrc : Bool) :
    ∀ ops : List (Field EncodeOp),
      DecodeOp.callsOfFields (mirrorFields verifyCrc ops) = callsOfFields ops
  | [] => by rw [mirrorFields, callsOfFields, DecodeOp.callsOfFields]
  | ⟨name, op⟩ :: ops => by
    rw [mirrorFields, callsOfFields, DecodeOp.callsOfFields, calls_mirror,
      callsOfFields_mirrorFields]

end

namespace Reader

/-- A fault of a routine that is on the later reader was on the earlier one. -/
def Faultless (r r' : Reader) : Prop :=
  ∀ reason, r'.error = some (.codec reason) → r.error = some (.codec reason)

theorem Faultless.refl (r : Reader) : r.Faultless r :=
  fun _ h => h

theorem Faultless.trans {r r' r'' : Reader} (h : r.Faultless r') (h' : r'.Faultless r'') :
    r.Faultless r'' :=
  fun reason he => h reason (h' reason he)

/-- Errors of the input are no faults. -/
theorem faultless_of_error_eq {r r' : Reader} {e : DecodeError} (h : r'.error = some e)
    (he : ∀ reason, e ≠ .codec reason) : r.Faultless r' := by
  intro reason hr
  cases h.symm.trans hr
  exact absurd rfl (he reason)

theorem faultless_take (r : Reader) (n : Nat) : r.Faultless (r.take n).2 := by
  unfold take
  split
  · exact .refl r
  · split
    · exact fun _ h => h
    · exact faultless_of_error_eq rfl fun _ h => by cases h

theorem faultless_readInt (r : Reader) (k : IntKind) : r.Faultless (r.readInt k).2 := by
  have h := r.faultless_take k.bytes
  rw [readInt]
  split
  · next b r' heq => rwa [heq] at h
  · next r' heq => rwa [heq] at h

theorem faultless_readPrimitive (r : Reader) (p : Primitive) :
    r.Faultless (r.readPrimitive p).2 := by
  cases p with
  | int k => exact r.faultless_readInt k
  | string =>
    have h := r.faultless_readInt .uint16
    rw [readPrimitive, readText]
    generalize r.readInt .uint16 = x at h
    have h' := h.trans (x.2.faultless_take x.1.toNat)
    simp only
    split
    · next r' heq => rwa [heq] at h'
    · next b r' heq =>
      rw [heq] at h'
      split
      · exact h'
      · exact faultless_of_error_eq rfl fun _ h => by cases h
  | bytes =>
    have h := r.faultless_readInt .int32
    rw [readPrimitive, readBytes]
    generalize r.readInt .int32 = x at h
    have h' := h.trans (x.2.faultless_take x.1.toInt.toNat)
    simp only
    split
    · next r' heq => rwa [heq] at h'
    · next b r' heq => rwa [heq] at h'

theorem faultless_verify (r : Reader) (framing : Framing) (signed : Bool)
    (slot : BitVec (IntKind.word signed).bits) (start : Nat) :
    r.Faultless (r.verify framing signed slot start) := by
  unfold verify
  split
  · exact .refl r
  · simp only
    split
    · exact .refl r
    · exact faultless_of_error_eq rfl fun _ h => by cases h
  · simp only
    split
    · exact .refl r
    · exact faultless_of_error_eq rfl fun _ h => by cases h

theorem faultless_fail (r : Reader) {e : DecodeError} (he : ∀ reason, e ≠ .codec reason) :
    r.Faultless (r.fail e) := by
  unfold fail
  split
  · exact .refl r
  · exact faultless_of_error_eq rfl he

end Reader

section Faults

/-- Every call that decoding makes finds a routine. -/
def Program.DecodeLinked (p : Program) : Prop :=
  ∀ name t, p.routine? name = some t → ∀ n ∈ t.decode.calls, (p.routine? n).isSome

variable {p : Program}

mutual

/-- **Decoding leaves no fault of a routine on the reader**, where every call finds a routine. -/
theorem Decodes.faultless (hp : p.DecodeLinked) {op : DecodeOp} {r r' : Reader} {v : Value} :
    Decodes p op r v r' → (∀ n ∈ op.calls, (p.routine? n).isSome) → r.Faultless r'
  | .read q r, _ => r.faultless_readPrimitive q
  | .readAlias typeName q r, _ => r.faultless_readPrimitive q
  | .call ht h, _ => h.faultless hp (hp _ _ ht)
  | @Decodes.noRoutine _ name r ht, hcalls => by
    have hsome := hcalls name (by simp [DecodeOp.calls])
    rw [ht] at hsome
    cases hsome
  | .struct h, hcalls => by
    rw [DecodeOp.calls] at hcalls
    exact h.faultless hp hcalls
  | @Decodes.framed _ framing signed verify _ r start r' slot _ hslot h, hcalls => by
    rw [DecodeOp.calls] at hcalls
    have hstart := r.faultless_readInt (.word signed)
    rw [hslot] at hstart
    have hbody := hstart.trans (h.faultless hp hcalls)
    cases verify with
    | false => exact hbody
    | true => exact hbody.trans (r'.faultless_verify framing signed slot start.offset)
  | @Decodes.lengthArray _ _ r start _ _ _ hcount h, hcalls => by
    rw [DecodeOp.calls] at hcalls
    have hstart := r.faultless_readInt .int32
    rw [hcount] at hstart
    exact hstart.trans (h.faultless hp hcalls)
  | @Decodes.noHeader _ _ r start _ hsize _, _ => by
    have hstart := r.faultless_readInt .int32
    rwa [hsize] at hstart
  | @Decodes.sizeArray _ _ r start _ _ _ hsize _ h, hcalls => by
    rw [DecodeOp.calls] at hcalls
    have hstart := r.faultless_readInt .int32
    rw [hsize] at hstart
    exact hstart.trans (h.faultless hp hcalls)
  | .unsupported owner r, _ => r.faultless_fail fun _ h => by cases h

theorem DecodesFields.faultless (hp : p.DecodeLinked) {ops : List (Field DecodeOp)}
    {fields fields' : List (Field Value)} {r r' : Reader} :
    DecodesFields p fields ops r fields' r' →
      (∀ n ∈ DecodeOp.callsOfFields ops, (p.routine? n).isSome) → r.Faultless r'
  | .nil fields r, _ => .refl r
  | .cons hop h, hcalls => by
    rw [DecodeOp.callsOfFields] at hcalls
    exact (hop.faultless hp fun n hn => hcalls n (List.mem_append_left _ hn)).trans
      (h.faultless hp fun n hn => hcalls n (List.mem_append_right _ hn))

theorem DecodesCount.faultless (hp : p.DecodeLinked) {element : DecodeOp} {n : Nat}
    {r r' : Reader} {vs : List Value} :
    DecodesCount p element n r vs r' → (∀ n ∈ element.calls, (p.routine? n).isSome) →
      r.Faultless r'
  | .zero element r, _ => .refl r
  | .failed n hv _, hcalls => hv.faultless hp hcalls
  | .next hv _ h, hcalls => (hv.faultless hp hcalls).trans (h.faultless hp hcalls)

theorem DecodesWithin.faultless (hp : p.DecodeLinked) {element : DecodeOp} {stop : Nat}
    {r r' : Reader} {vs : List Value} :
    DecodesWithin p element stop r vs r' → (∀ n ∈ element.calls, (p.routine? n).isSome) →
      r.Faultless r'
  | .done element _, _ => .refl r
  | .failed _ hv _, hcalls => by
    split
    · exact fun _ h => by cases h
    · exact hv.faultless hp hcalls
  | .idle _ hv _ _, hcalls => hv.faultless hp hcalls
  | .next _ hv _ _ h, hcalls => (hv.faultless hp hcalls).trans (h.faultless hp hcalls)

end

end Faults

/-! ## Codecs -/

namespace Codec

variable {s : Schema} {verifyCrc : Bool} {p : Program} {o : Overflow} {c : Codec}

/-- A linked codec runs a linked program. -/
theorem linked_of_link (h : link p o = .ok c) : p.Linked := by
  intro a b hab
  obtain ⟨r, hr, hb⟩ := hab
  rw [link_eq] at h
  split at h
  · next hnone =>
    have hmem : b ∈ p.routines.flatMap (·.encode.calls) :=
      List.mem_flatMap.2 ⟨r, List.mem_of_find?_eq_some hr, hb⟩
    simpa [Option.isSome_iff_ne_none] using List.find?_eq_none.1 hnone b hmem
  · cases h

/-- **Linking succeeds** exactly if every reference is to a type that has a routine. -/
theorem exists_link_iff (hp : s.emit verifyCrc = .ok p) (o : Overflow) :
    (∃ c, link p o = .ok c) ↔ ∀ name ∈ s.refs, s.Codes name := by
  rw [link_eq, Schema.calls_of_emit hp]
  constructor
  · rintro ⟨c, hc⟩ name hname
    split at hc
    · next hnone =>
      rw [← Schema.isSome_routine?_iff hp]
      simpa [Option.isSome_iff_ne_none] using List.find?_eq_none.1 hnone name hname
    · cases hc
  · intro h
    have hnone : s.refs.find? (fun name => (p.routine? name).isNone) = none :=
      List.find?_eq_none.2 fun name hname => by
        simpa [Option.isSome_iff_ne_none] using (Schema.isSome_routine?_iff hp).2 (h name hname)
    rw [hnone]
    exact ⟨_, rfl⟩

/-- **The error of linking** names the first reference that is not to a type with a routine, and
tells an alternation from a name that is not declared. -/
theorem exists_of_link_eq_error (hp : s.emit verifyCrc = .ok p) {e : CodecError}
    (h : link p o = .error e) :
    ∃ before name after, s.refs = before ++ name :: after ∧ (∀ n ∈ before, s.Codes n) ∧
      ¬ s.Codes name ∧
      (s.Alternates name ∧ e = .noRoutine name ∨ ¬ s.Alternates name ∧ e = .unknownType name) := by
  rw [link_eq, Schema.calls_of_emit hp] at h
  split at h
  · cases h
  · next name hname =>
    cases h
    obtain ⟨hnone, before, after, hrefs, hbefore⟩ := List.find?_eq_some_iff_append.1 hname
    refine ⟨before, name, after, hrefs, fun n hn => ?_, fun hcodes => ?_, ?_⟩
    · rw [← Schema.isSome_routine?_iff hp]
      simpa using hbefore n hn
    · rw [← Schema.isSome_routine?_iff hp] at hcodes
      rw [Option.isNone_iff_eq_none.1 hnone] at hcodes
      cases hcodes
    · rw [← Schema.mem_skipped_iff hp, Program.missing]
      by_cases hskipped : name ∈ p.skipped
      · exact .inl ⟨hskipped, if_pos (List.contains_iff_mem.2 hskipped)⟩
      · exact .inr ⟨hskipped, if_neg (mt List.contains_iff_mem.1 hskipped)⟩

/-- Decoding makes the calls that were checked for encoding. -/
theorem decodeLinked_of_link (hp : s.emit verifyCrc = .ok p) (h : link p o = .ok c) :
    p.DecodeLinked := by
  intro name t ht n hn
  rw [s.mirror_of_emit hp ht, EncodeOp.calls_mirror] at hn
  exact linked_of_link h name n ⟨t, ht, hn⟩

/-- **Linking is sound and complete.**  It succeeds exactly if every reference of a declared type is
to a declared type that is not an alternation, and fails with the first reference that is not.
After it no routine is ever missing: not for encoding a value, not for decoding on any reader, which
gets no fault of a routine that it did not have, and not for a zero value. -/
theorem link_sound_complete (hp : s.emit verifyCrc = .ok p) (o : Overflow) :
    ((∃ c, link p o = .ok c) ↔ ∀ name ∈ s.refs, s.Codes name) ∧
    (∀ e, link p o = .error e →
      ∃ before name after, s.refs = before ++ name :: after ∧ (∀ n ∈ before, s.Codes n) ∧
        ¬ s.Codes name ∧
        (s.Alternates name ∧ e = .noRoutine name ∨
          ¬ s.Alternates name ∧ e = .unknownType name)) ∧
    ∀ c, link p o = .ok c → s.Grounded → ∀ typeName, (p.routine? typeName).isSome →
      (∀ v w n, (c.encodeInto typeName v w).1 ≠ .error (.unknownType n) ∧
        (c.encodeInto typeName v w).1 ≠ .error (.noRoutine n)) ∧
      (∀ r, ∃ v r', c.decodeFrom typeName r = .ok (v, r') ∧
        ∀ reason, r'.error = some (.codec reason) → r.error = some (.codec reason)) ∧
      ∃ v, c.zero typeName = .ok v := by
  refine ⟨exists_link_iff hp o, fun e => exists_of_link_eq_error hp, ?_⟩
  intro c hc hs typeName ht
  obtain ⟨rfl, -⟩ := link_eq_ok hc
  refine ⟨fun v w n => ?_, fun r => ?_, exists_zero hp hs ht⟩
  · have hne : ∀ e, (c.encodeInto typeName v w).1 = .error e →
        e ≠ .unknownType n ∧ e ≠ .noRoutine n := fun e he =>
      (linked_of_link hc).ne_missing ht (c.program.encode_raises _ typeName (some v) w e he) n
    exact ⟨fun h => (hne _ h).1 rfl, fun h => (hne _ h).2 rfl⟩
  · obtain ⟨v, r', hv, hdecode⟩ := exists_decodeFrom hp hs ht r
    refine ⟨v, r', hdecode, hv.faultless (decodeLinked_of_link hp hc) fun n hn => ?_⟩
    rw [DecodeOp.calls, List.mem_singleton] at hn
    rwa [hn]

end Codec

namespace Tree

/-- Trees beside a type that refers to an alternation, and then to nothing. -/
def unlinked : Schema where
  decls := schema.decls ++ [
    ⟨"Pick", .polymorphic [.scalar (.int .int8), .named "Lost"]⟩,
    ⟨"Basket", .struct [⟨"Tree", .named "Tree"⟩, ⟨"Pick", .named "Pick"⟩,
      ⟨"Gone", .named "Gone"⟩]⟩]

/-- The routines of trees and baskets. -/
def unlinkedProgram : Program where
  routines := program.routines ++ [
    ⟨"Basket", .struct [⟨"Tree", .call "Tree"⟩, ⟨"Pick", .call "Pick"⟩, ⟨"Gone", .call "Gone"⟩],
      .struct [⟨"Tree", .call "Tree"⟩, ⟨"Pick", .call "Pick"⟩, ⟨"Gone", .call "Gone"⟩]⟩]
  skipped := ["Pick"]

theorem emit_unlinked : unlinked.emit true = .ok unlinkedProgram := rfl

end Tree

/-- No routine is missing for trees; for baskets, one is missing for the alternation in them. -/
theorem Codec.link_sound_complete_tree :
    (∀ name ∈ Tree.schema.refs, Tree.schema.Codes name) ∧
    (∀ v w n, (({ program := Tree.program } : Codec).encodeInto "Top" v w).1 ≠
      .error (.noRoutine n)) ∧
    link Tree.unlinkedProgram .reject = .error (.noRoutine "Pick") ∧
    ∃ before after, Tree.unlinked.refs = before ++ "Pick" :: after ∧
      ∀ n ∈ before, Tree.unlinked.Codes n := by
  obtain ⟨hrefs, -, hlinked⟩ := link_sound_complete Tree.emit_schema .reject
  obtain ⟨-, hunlinked, -⟩ := link_sound_complete Tree.emit_unlinked .reject
  have htop := hlinked _ rfl Tree.grounded "Top" rfl
  refine ⟨hrefs.1 ⟨_, rfl⟩, fun v w n => (htop.1 v w n).2, rfl, ?_⟩
  obtain ⟨before, name, after, hname, hbefore, -, ⟨-, he⟩ | ⟨-, he⟩⟩ := hunlinked _ rfl
  · cases he
    exact ⟨before, after, hname, hbefore⟩
  · cases he

end WireGrammar
