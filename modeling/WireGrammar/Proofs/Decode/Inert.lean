import WireGrammar.Proofs.Decode.Acceptance

/-!
# Decoding under an error

Once an error is on the reader, decoding still runs to its end, but nothing of it touches the
reader: every read gives zero, every array is empty, no slot is compared and no error is added.
What comes out is the zero value of the type, which is worked out elsewhere without any reader.

* `DecodeOp.run_of_error`, `Program.decode_of_error` — decoding and making zero values agree call by
  call, so they even run out of calls together.
* `DecodeOp.zero_unique` — a zero value does not depend on how many calls it was allowed.
* `DecodeOp.fields?` — the fields of a struct, its slot among them.
* `DecodeOp.zeroFields_of_error` — behind a field that leaves an error only zero values are filled
  in.
* `Codec.decodeFrom_of_error` — both facts for a codec.
-/

set_option autoImplicit false
namespace WireGrammar

open DecodeM

theorem Reader.readPrimitive_eq_of_error {r : Reader} (h : r.error.isSome) (p : Primitive) :
    r.readPrimitive p = (.zero p, r) := by
  cases p with
  | int k => simp only [readPrimitive, readInt_of_error h, Value.zero]
  | string => simp only [readPrimitive, readText_of_error h, Value.zero]
  | bytes => simp only [readPrimitive, readBytes_of_error h, Value.zero]

/-! ## Operations -/

section Operations

variable {call : String → DecodeM Value} {zero : String → Option Value} {r : Reader}

mutual

/-- **Decoding under an error is making the zero value**, if it is so for the routines that are
called. -/
theorem DecodeOp.run_of_error (hr : r.error.isSome)
    (hcall : ∀ name, (call name).run r = (zero name).map fun v => (v, r)) :
    ∀ op : DecodeOp, (op.run call).run r = (op.zero zero).map fun v => (v, r)
  | .read p => by
    rw [run, DecodeOp.zero, run_modifyGet, Reader.readPrimitive_eq_of_error hr]
    rfl
  | .readAlias typeName p => by
    rw [run, DecodeOp.zero, StateT.run_bind, run_modifyGet, Reader.readPrimitive_eq_of_error hr]
    rfl
  | .call name => by
    rw [run, DecodeOp.zero]
    exact hcall name
  | .struct ops => by
    rw [run, DecodeOp.zero, StateT.run_bind, runFields_of_error hr hcall ops []]
    cases zeroFields zero [] ops <;> rfl
  | .framed framing signed verify body => by
    rw [run, DecodeOp.zero, StateT.run_bind, run_modifyGet, Reader.readInt_of_error hr]
    simp only [Option.bind_eq_bind, Option.bind_some, StateT.run_bind, run_get]
    rw [runFields_of_error hr hcall body, Value.zero]
    cases zeroFields zero [⟨framing.fieldName, .int (.word signed) 0#_⟩] body with
    | none => rfl
    | some fields =>
      cases verify with
      | false => rfl
      | true =>
        show some (Value.struct fields, r.verify framing signed 0#_ r.offset) = _
        rw [Reader.verify_of_error hr]
        rfl
  | .lengthArray element => by
    rw [run, DecodeOp.zero, StateT.run_bind, run_modifyGet, Reader.readInt_of_error hr]
    rfl
  | .sizeArray element => by
    rw [run, DecodeOp.zero, StateT.run_bind, run_modifyGet, Reader.readInt_of_error hr]
    simp only [Option.bind_eq_bind, Option.bind_some, StateT.run_bind, run_get, if_pos hr]
    rfl
  | .unsupported owner => by
    rw [run, DecodeOp.zero]
    show some (Value.struct [], r.fail (.unsupported owner)) = _
    rw [Reader.fail_of_error hr]
    rfl

theorem DecodeOp.runFields_of_error (hr : r.error.isSome)
    (hcall : ∀ name, (call name).run r = (zero name).map fun v => (v, r)) :
    ∀ (ops : List (Field DecodeOp)) (fields : List (Field Value)),
      (runFields call fields ops).run r = (zeroFields zero fields ops).map fun fs => (fs, r)
  | [], fields => by
    rw [runFields, zeroFields]
    rfl
  | ⟨name, op⟩ :: ops, fields => by
    rw [runFields, zeroFields, StateT.run_bind, run_of_error hr hcall op]
    cases op.zero zero with
    | none => rfl
    | some v => exact runFields_of_error hr hcall ops (Fields.insert name v fields)

end

end Operations

/-- **A routine under an error makes the zero value of its type** and leaves the reader as it is. -/
theorem Program.decode_of_error (p : Program) {r : Reader} (hr : r.error.isSome) :
    ∀ (fuel : Nat) (name : String),
      (p.decode fuel name).run r = (p.zero fuel name).map fun v => (v, r)
  | 0, name => rfl
  | fuel + 1, name => by
    rw [decode, zero]
    cases p.routine? name with
    | some t => exact t.decode.run_of_error hr (p.decode_of_error hr fuel)
    | none =>
      show some (Value.struct [], r.fail _) = _
      rw [Reader.fail_of_error hr]
      rfl

/-- What a zero value says about decoding: some reader decodes it. -/
theorem DecodeOp.decodes_of_zero {p : Program} {op : DecodeOp} {fuel : Nat} {v : Value}
    (h : op.zero (p.zero fuel) = some v) {r : Reader} (hr : r.error.isSome) :
    Decodes p op r v r := by
  refine op.decodes_of_run (p.decode_advancing fuel) (p.decodes_of_decode fuel) r v r ?_
  rw [op.run_of_error hr (p.decode_of_error hr fuel), h]
  rfl

/-- **A zero value does not depend on the number of calls** that were allowed to make it. -/
theorem DecodeOp.zero_unique {p : Program} {op : DecodeOp} {m n : Nat} {u v : Value}
    (hu : op.zero (p.zero m) = some u) (hv : op.zero (p.zero n) = some v) : u = v := by
  have hr : ({ error := some .unexpectedEnd } : Reader).error.isSome := rfl
  exact ((decodes_of_zero hu hr).unique (decodes_of_zero hv hr)).1

/-! ## The fields of a struct -/

/-- The fields that decoding a struct fills in, in this order; a framed struct begins with its
slot. -/
def DecodeOp.fields? : DecodeOp → Option (List (Field DecodeOp))
  | .struct ops => some ops
  | .framed framing signed _ body =>
    some (⟨framing.fieldName, .read (.int (.word signed))⟩ :: body)
  | _ => none

section Fields

variable {call : String → DecodeM Value} {zero : String → Option Value}

theorem DecodeOp.runFields_append (ops' : List (Field DecodeOp)) :
    ∀ (ops : List (Field DecodeOp)) (fields : List (Field Value)),
      runFields call fields (ops ++ ops') =
        runFields call fields ops >>= fun fs => runFields call fs ops'
  | [], fields => by rw [List.nil_append, runFields, pure_bind]
  | ⟨name, op⟩ :: ops, fields => by
    rw [List.cons_append, runFields, runFields, bind_assoc]
    exact bind_congr fun v => runFields_append ops' ops _

/-- A struct is decoded field by field.  What a framed struct does after its last field, comparing
the slot, it does not do under an error. -/
theorem DecodeOp.exists_runFields_of_run {op : DecodeOp} {ops : List (Field DecodeOp)}
    (hops : op.fields? = some ops) {r r' : Reader} {v : Value}
    (h : (op.run call).run r = some (v, r')) :
    ∃ fields r₁, (runFields call [] ops).run r = some (fields, r₁) ∧ v = .struct fields ∧
      (r₁.error.isSome → r' = r₁) := by
  cases op with
  | struct _ =>
    cases hops
    rw [run] at h
    obtain ⟨fields, r₁, hfields, h⟩ := run_bind_eq_some.1 h
    cases h
    exact ⟨fields, _, hfields, rfl, fun _ => rfl⟩
  | framed framing signed verify body =>
    cases hops
    rw [run] at h
    obtain ⟨slot, start, hslot, h⟩ := run_bind_eq_some.1 h
    obtain ⟨_, _, hget, h⟩ := run_bind_eq_some.1 h
    cases hget
    obtain ⟨fields, r₁, hfields, h⟩ := run_bind_eq_some.1 h
    refine ⟨fields, r₁, ?_, ?_⟩
    · rw [run_modifyGet, Option.some.injEq] at hslot
      rw [runFields, run]
      refine run_bind_eq_some.2 ⟨.int (.word signed) slot, start, ?_, hfields⟩
      rw [run_modifyGet, Reader.readPrimitive, hslot]
    · cases verify with
      | false =>
        cases h
        exact ⟨rfl, fun _ => rfl⟩
      | true =>
        cases h
        exact ⟨rfl, fun herr => Reader.verify_of_error herr _ _ _ _⟩
  | _ => cases hops

theorem DecodeOp.get?_zeroFields_of_notMem {key : String} :
    ∀ {ops : List (Field DecodeOp)} {fields fields' : List (Field Value)},
      zeroFields zero fields ops = some fields' → key ∉ ops.map (·.name) →
      Fields.get? key fields' = Fields.get? key fields
  | [], fields, fields', h, _ => by
    rw [zeroFields] at h
    cases h
    rfl
  | ⟨name, op⟩ :: ops, fields, fields', h, hkey => by
    rw [zeroFields] at h
    obtain ⟨v, -, h⟩ := Option.bind_eq_some_iff.1 h
    rw [List.map_cons, List.mem_cons, not_or] at hkey
    rw [get?_zeroFields_of_notMem h hkey.2, Fields.get?_insert, if_neg (Ne.symm hkey.1)]

/-- Among zero values a field holds the zero value of its own operation; of several fields with one
name the last one counts. -/
theorem DecodeOp.exists_zero_of_zeroFields {g : Field DecodeOp} {later : List (Field DecodeOp)}
    (hlater : g.name ∉ later.map (·.name)) :
    ∀ {middle : List (Field DecodeOp)} {fields fields' : List (Field Value)},
      zeroFields zero fields (middle ++ g :: later) = some fields' →
      ∃ u, g.val.zero zero = some u ∧ Fields.get? g.name fields' = some u
  | [], fields, fields', h => by
    obtain ⟨name, op⟩ := g
    rw [List.nil_append, zeroFields] at h
    obtain ⟨u, hu, h⟩ := Option.bind_eq_some_iff.1 h
    refine ⟨u, hu, ?_⟩
    rw [get?_zeroFields_of_notMem h hlater, Fields.get?_insert, if_pos rfl]
  | ⟨name, op⟩ :: middle, fields, fields', h => by
    rw [List.cons_append, zeroFields] at h
    obtain ⟨v, -, h⟩ := Option.bind_eq_some_iff.1 h
    exact exists_zero_of_zeroFields hlater h

end Fields

/-- **Behind a field that leaves an error only zero values are filled in**, onto the fields that
have been read. -/
theorem DecodeOp.zeroFields_of_error {p : Program} {fuel : Nat}
    {before after : List (Field DecodeOp)} {f : Field DecodeOp} {r r₁ r' : Reader}
    {seen fields : List (Field Value)}
    (hseen : (runFields (p.decode fuel) [] (before ++ [f])).run r = some (seen, r₁))
    (herr : r₁.error.isSome)
    (h : (runFields (p.decode fuel) [] (before ++ f :: after)).run r = some (fields, r')) :
    r' = r₁ ∧ zeroFields (p.zero fuel) seen after = some fields := by
  rw [List.append_cons, runFields_append] at h
  obtain ⟨_, _, hseen', h⟩ := run_bind_eq_some.1 h
  cases hseen.symm.trans hseen'
  rw [runFields_of_error herr (p.decode_of_error herr fuel)] at h
  obtain ⟨_, hzero, heq⟩ := Option.map_eq_some_iff.1 h
  cases heq
  exact ⟨rfl, hzero⟩

/-! ## Codecs -/

namespace Codec

variable {s : Schema} {verifyCrc : Bool} {c : Codec}

/-- The zero value that a codec gives is the one that the routine of the type makes. -/
theorem zero_eq_ok {typeName : String} {v : Value} (h : c.zero typeName = .ok v) :
    (c.program.routine? typeName).isSome ∧
      (DecodeOp.call typeName).zero (c.program.zero c.callBound) = some v := by
  rw [DecodeOp.zero]
  rw [zero] at h
  split at h
  · cases h
  · next t ht =>
    split at h
    · cases h
    · next v' hv =>
      cases h
      exact ⟨by rw [ht]; rfl, hv⟩

/-- Every operation has a zero value with the calls that a codec allows for. -/
theorem exists_zero_op (hp : s.emit verifyCrc = .ok c.program) (hs : s.Grounded) (op : DecodeOp) :
    ∃ v, op.zero (c.program.zero c.callBound) = some v := by
  obtain ⟨rank, hrank⟩ := hs.exists_decodeRank hp
  exact op.exists_zero fun name _ =>
    hrank.exists_zero c.callBound name (Nat.lt_succ_of_le (hrank.le name))

/-- **Decoding under an error gives the zero value and changes nothing.**  For every type with a
routine and every reader with an error, wherever it stands.  Hence, when a field of a struct leaves
an error on the reader, the reader stays as it is from there on, and every field behind it holds the
zero value of its type. -/
theorem decodeFrom_of_error (hp : s.emit verifyCrc = .ok c.program) (hs : s.Grounded) :
    (∀ typeName, (c.program.routine? typeName).isSome → ∀ r : Reader, r.error.isSome →
      ∃ v, c.zero typeName = .ok v ∧ c.decodeFrom typeName r = .ok (v, r)) ∧
    ∀ (op : DecodeOp) (before after : List (Field DecodeOp)) (f : Field DecodeOp),
      op.fields? = some (before ++ f :: after) →
      ∀ (fuel : Nat) (r r₁ r' : Reader) (seen : List (Field Value)) (v : Value),
        (DecodeOp.runFields (c.program.decode fuel) [] (before ++ [f])).run r = some (seen, r₁) →
        r₁.error.isSome → (op.run (c.program.decode fuel)).run r = some (v, r') →
        r' = r₁ ∧ ∀ (middle later : List (Field DecodeOp)) (g : Field DecodeOp),
          after = middle ++ g :: later → g.name ∉ later.map (·.name) →
          ∃ u, g.val.zero (c.program.zero c.callBound) = some u ∧ v.field? g.name = some u := by
  constructor
  · intro typeName ht r hr
    obtain ⟨v, hv⟩ := exists_zero hp hs ht
    have hdecodes := DecodeOp.decodes_of_zero (zero_eq_ok hv).2 hr
    exact ⟨v, hv, decodeFrom_of_decodes hp hs ht hdecodes⟩
  · intro op before after f hops fuel r r₁ r' seen v hseen herr hv
    obtain ⟨fields, r₂, hfields, rfl, hreader⟩ := DecodeOp.exists_runFields_of_run hops hv
    obtain ⟨rfl, hzero⟩ := DecodeOp.zeroFields_of_error hseen herr hfields
    refine ⟨hreader herr, fun middle later g hafter hlater => ?_⟩
    rw [hafter] at hzero
    obtain ⟨u, hu, hget⟩ := DecodeOp.exists_zero_of_zeroFields hlater hzero
    obtain ⟨u', hu'⟩ := exists_zero_op hp hs g.val
    cases DecodeOp.zero_unique hu hu'
    exact ⟨u, hu', hget⟩

end Codec

namespace Tree

/-- How a tree is decoded. -/
def decodeOp : DecodeOp :=
  .framed .size true true [⟨"Mark", .call "Mark"⟩, ⟨"Trees", .sizeArray (.call "Tree")⟩]

/-- A reader that was stopped by bad text in front of a byte. -/
def stopped : Reader := { buffer := ⟨#[7, 7]⟩, offset := 1, error := some .invalidUtf8 }

/-- A tree that breaks off in its mark. -/
def broken : Reader := { buffer := ⟨#[0, 0, 0, 9, 1, 2]⟩ }

end Tree

/-- Nothing is read of a tree under an error, and nothing of its trees behind a mark that breaks
off. -/
theorem Codec.decodeFrom_of_error_tree :
    (∃ v, ({ program := Tree.program } : Codec).zero "Top" = .ok v ∧
      ({ program := Tree.program } : Codec).decodeFrom "Top" Tree.stopped =
        .ok (v, Tree.stopped)) ∧
    ∃ v r', (Tree.decodeOp.run (Tree.program.decode 2)).run Tree.broken = some (v, r') ∧
      r'.error = some .unexpectedEnd ∧ v.field? "Trees" = some (.list []) := by
  obtain ⟨hdecode, hlater⟩ := decodeFrom_of_error (c := { program := Tree.program })
    Tree.emit_schema Tree.grounded
  refine ⟨hdecode "Top" rfl Tree.stopped rfl, _, _, rfl, ?_⟩
  obtain ⟨hreader, hzero⟩ := hlater Tree.decodeOp
    [⟨"Size", .read (.int .int32)⟩] [⟨"Trees", .sizeArray (.call "Tree")⟩] ⟨"Mark", .call "Mark"⟩
    rfl 2 Tree.broken _ _ _ _ rfl rfl rfl
  obtain ⟨u, hu, hfield⟩ := hzero [] [] _ rfl List.not_mem_nil
  rw [hfield, hreader]
  exact ⟨rfl, hu.symm⟩

end WireGrammar
