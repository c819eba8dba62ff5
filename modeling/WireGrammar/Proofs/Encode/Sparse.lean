import WireGrammar.Proofs.Decode.Inert
import WireGrammar.Proofs.Encode.Depth
import WireGrammar.Proofs.Grammar.Distinct
import WireGrammar.Proofs.RoundTrip.Codec
import WireGrammar.Proofs.RoundTrip.Soundness

/-!
# Missing fields

A missing field is encoded as if it were zero.  The encoder never makes a zero value for that: it
goes on without a value, and where the field is a struct, all fields of that struct are missing in
turn.  The decoder does make zero values, complete ones.  The two meet here: nothing changes when a
missing field is filled in with what the decoder would make.

* `EncodeOp.fields?` — the fields of a struct, its slot among them; a struct depends on nothing else
  of a value (`EncodeOp.run_congr`).
* `EncodeOp.run_zero`, `Program.encode_zero` — encoding without a value is encoding the zero value,
  with any number of calls.
* `Program.encode_eq_of_lt` — with enough calls, how many are allowed makes no difference.  Filling
  in makes a value deeper, so a codec allows for another number of them.
* `Codec.Fills` — a value and the same value with one missing field filled in, at any depth.
* `Codec.encode_of_fills` — both encode alike.
-/

set_option autoImplicit false
namespace WireGrammar

/-! ## Enough calls -/

theorem putAll_congr {item item' : Value → EncodeM Unit} :
    ∀ {vs : List Value}, (∀ v ∈ vs, item v = item' v) → putAll item vs = putAll item' vs
  | [], _ => rfl
  | v :: vs, h => by
    rw [putAll, putAll, h v List.mem_cons_self,
      putAll_congr fun w hw => h w (List.mem_cons_of_mem _ hw)]

section Calls

variable {call call' : String → Option Value → EncodeM Unit}

mutual

/-- **An operation depends only on the calls that it can make**: outside arrays on values that are
not deeper, and in arrays on values that are less deep. -/
theorem EncodeOp.run_eq_of_calls :
    ∀ (op : EncodeOp) (v : Option Value),
      (∀ name ∈ op.inlineCalls, ∀ u, Value.depth? u ≤ Value.depth? v →
        call name u = call' name u) →
      (∀ name u, Value.depth? u < Value.depth? v → call name u = call' name u) →
      op.run call v = op.run call' v
  | .write q, v, _, _ => by rw [run, run]
  | .writeAlias typeName q, v, _, _ => by rw [run, run]
  | .call name, v, hinline, _ => by
    rw [run, run]
    exact hinline name (by simp [inlineCalls]) v (Nat.le_refl _)
  | .struct ops, v, hinline, hdeep => by
    rw [inlineCalls] at hinline
    rw [run, run]
    split
    · next fields hv =>
      exact runFields_eq_of_calls ops fields v (Value.depth?_field_le hv) hinline hdeep
    · rfl
  | .framed framing signed body, v, hinline, hdeep => by
    rw [inlineCalls] at hinline
    rw [run, run]
    split
    · next fields hv =>
      rw [runFields_eq_of_calls body fields v (Value.depth?_field_le hv) hinline hdeep]
    · rfl
  | .lengthArray element, v, _, hdeep => by
    rw [run, run]
    split
    · next items hv =>
      rw [putAll_congr fun item hi => run_eq_of_calls element (some item)
        (fun name _ u hu => hdeep name u (Nat.lt_of_le_of_lt hu (Value.depth_item_lt hv hi)))
        (fun name u hu => hdeep name u (Nat.lt_trans hu (Value.depth_item_lt hv hi)))]
    · rfl
  | .sizeArray element, v, _, hdeep => by
    rw [run, run]
    split
    · next items hv =>
      rw [putAll_congr fun item hi => run_eq_of_calls element (some item)
        (fun name _ u hu => hdeep name u (Nat.lt_of_le_of_lt hu (Value.depth_item_lt hv hi)))
        (fun name u hu => hdeep name u (Nat.lt_trans hu (Value.depth_item_lt hv hi)))]
    · rfl
  | .unsupported owner, v, _, _ => by rw [run, run]

theorem EncodeOp.runFields_eq_of_calls :
    ∀ (ops : List (Field EncodeOp)) (fields : List (Field Value)) (v : Option Value),
      (∀ name, Value.depth? (Fields.get? name fields) ≤ Value.depth? v) →
      (∀ name ∈ inlineCallsOfFields ops, ∀ u, Value.depth? u ≤ Value.depth? v →
        call name u = call' name u) →
      (∀ name u, Value.depth? u < Value.depth? v → call name u = call' name u) →
      runFields call fields ops = runFields call' fields ops
  | [], fields, v, _, _, _ => by rw [runFields, runFields]
  | ⟨name, op⟩ :: ops, fields, v, hfields, hinline, hdeep => by
    rw [inlineCallsOfFields] at hinline
    have hle := hfields name
    have hop := run_eq_of_calls op (Fields.get? name fields)
      (fun n hn u hu => hinline n (List.mem_append_left _ hn) u (hu.trans hle))
      (fun n u hu => hdeep n u (hu.trans_le hle))
    have hops := runFields_eq_of_calls ops fields v hfields
      (fun n hn => hinline n (List.mem_append_right _ hn)) hdeep
    rw [runFields, runFields, hop, hops]

end

end Calls

/-- **With enough calls, their number makes no difference.**  What is enough, and why, is as in
`Program.encode_settles`. -/
theorem Program.encode_eq_of_lt {p : Program} {rank : String → Nat}
    (hle : ∀ a, rank a ≤ p.routines.length) (hlt : ∀ a b, p.Inlines a b → rank b < rank a) :
    ∀ {m n : Nat} {name : String} {v : Option Value},
      (p.routines.length + 1) * Value.depth? v + rank name < m →
      (p.routines.length + 1) * Value.depth? v + rank name < n →
      p.encode m name v = p.encode n name v
  | 0, n, name, v, hm, _ => absurd hm (Nat.not_lt_zero _)
  | m + 1, 0, name, v, _, hn => absurd hn (Nat.not_lt_zero _)
  | m + 1, n + 1, name, v, hm, hn => by
    rw [encode, encode]
    cases hr : p.routine? name with
    | none => rfl
    | some r =>
      refine r.encode.run_eq_of_calls v (fun b hb u hu => ?_) (fun b u hu => ?_)
      · have hrank := hlt name b ⟨r, hr, hb⟩
        have hmul := Nat.mul_le_mul_left (p.routines.length + 1) hu
        exact encode_eq_of_lt hle hlt (by omega) (by omega)
      · have hrank := hle b
        have hmul := Nat.mul_le_mul_left (p.routines.length + 1) (Nat.succ_le_of_lt hu)
        rw [Nat.mul_succ] at hmul
        exact encode_eq_of_lt hle hlt (by omega) (by omega)

/-- Two values that encode alike with any number of calls do so with those that a codec allows
for. -/
theorem Codec.encodeInto_congr {c : Codec} (hc : c.program.Grounded) {typeName : String}
    {v v' : Value}
    (h : ∀ fuel, c.program.encode fuel typeName (some v) = c.program.encode fuel typeName (some v'))
    (w : Writer) : c.encodeInto typeName v w = c.encodeInto typeName v' w := by
  obtain ⟨rank, hle, hlt⟩ := hc.exists_rank
  have henough : ∀ (u : Value) (n : Nat), c.callBound * (u.depth + 1) ≤ n →
      c.program.encode (c.callBound * (u.depth + 1)) typeName (some u) =
        c.program.encode n typeName (some u) := by
    intro u n hn
    have hrank := hle typeName
    rw [callBound, Nat.mul_succ] at hn ⊢
    refine Program.encode_eq_of_lt hle hlt ?_ ?_
    · rw [Value.depth?]
      omega
    · rw [Value.depth?]
      omega
  rw [encodeInto, encodeInto, henough v _ (Nat.le_max_left _ _), h,
    ← henough v' _ (Nat.le_max_right _ _)]

/-! ## The fields of a struct -/

namespace EncodeOp

variable {call : String → Option Value → EncodeM Unit}

/-- The fields that encoding a struct writes, in this order; a framed struct begins with its
slot. -/
def fields? : EncodeOp → Option (List (Field EncodeOp))
  | .struct ops => some ops
  | .framed framing signed body =>
    some (⟨framing.fieldName, .write (.int (.word signed))⟩ :: body)
  | _ => none

theorem fields?_mirror (verifyCrc : Bool) (op : EncodeOp) :
    (op.mirror verifyCrc).fields? = op.fields?.map (mirrorFields verifyCrc) := by
  cases op <;> rw [mirror] <;> rfl

theorem mirrorFields_eq_map (verifyCrc : Bool) (ops : List (Field EncodeOp)) :
    mirrorFields verifyCrc ops = ops.map fun f => ⟨f.name, f.val.mirror verifyCrc⟩ := by
  induction ops with
  | nil => rw [mirrorFields, List.map_nil]
  | cons f ops ih => rw [mirrorFields, List.map_cons, ih]

theorem DistinctFields.of_mem {f : Field EncodeOp} :
    ∀ {ops : List (Field EncodeOp)}, DistinctFields ops → f ∈ ops → f.val.Distinct
  | ⟨_, op⟩ :: ops, h, hf => by
    rw [DistinctFields] at h
    rcases List.mem_cons.1 hf with rfl | hf
    · exact h.1
    · exact of_mem h.2 hf

/-- In a struct of a distinct operation no two fields share a name, its slot included. -/
theorem Distinct.of_fields? {op : EncodeOp} {ops : List (Field EncodeOp)} (h : op.Distinct)
    (hops : op.fields? = some ops) : (ops.map (·.name)).Nodup ∧ DistinctFields ops := by
  cases op with
  | struct =>
    cases hops
    rwa [Distinct] at h
  | framed =>
    cases hops
    rw [Distinct] at h
    rw [DistinctFields, Distinct]
    exact ⟨h.1, trivial, h.2⟩
  | _ => cases hops

/-- Two fields of one name are the same field. -/
theorem eq_of_name_eq {ops : List (Field EncodeOp)} (h : (ops.map (·.name)).Nodup)
    {f g : Field EncodeOp} (hf : f ∈ ops) (hg : g ∈ ops) (hname : f.name = g.name) : f = g :=
  List.inj_on_of_nodup_map h hf hg hname

theorem runFields_congr {fields fields' : List (Field Value)} :
    ∀ {ops : List (Field EncodeOp)},
      (∀ f ∈ ops, f.val.run call (Fields.get? f.name fields) =
        f.val.run call (Fields.get? f.name fields')) →
      runFields call fields ops = runFields call fields' ops
  | [], _ => by rw [runFields, runFields]
  | ⟨name, op⟩ :: ops, h => by
    have hop := h ⟨name, op⟩ List.mem_cons_self
    rw [runFields, runFields, hop, runFields_congr fun f hf => h f (List.mem_cons_of_mem _ hf)]

/-- **A struct depends only on its fields**, its slot among them. -/
theorem run_congr {op : EncodeOp} {ops : List (Field EncodeOp)} (hops : op.fields? = some ops)
    {fields fields' : List (Field Value)}
    (h : ∀ f ∈ ops, f.val.run call (Fields.get? f.name fields) =
      f.val.run call (Fields.get? f.name fields')) :
    op.run call (some (.struct fields)) = op.run call (some (.struct fields')) := by
  cases op with
  | struct =>
    cases hops
    rw [run, run]
    exact runFields_congr h
  | framed framing signed body =>
    cases hops
    have hslot := h _ List.mem_cons_self
    rw [run, run] at hslot
    have hbody := runFields_congr fun f hf => h f (List.mem_cons_of_mem _ hf)
    rw [run, run]
    simp only [Option.getD_some, hbody]
    rw [hslot]
  | _ => cases hops

/-- Where a struct is missing, all its fields are. -/
theorem run_none_of_fields? {op : EncodeOp} {ops : List (Field EncodeOp)}
    (hops : op.fields? = some ops) : op.run call none = op.run call (some (.struct [])) := by
  cases op with
  | struct => rw [run, run]; rfl
  | framed => rw [run, run]; rfl
  | _ => cases hops

end EncodeOp

/-- The zero value of a struct is made of the zero values of its fields. -/
theorem DecodeOp.zero_of_fields? {op : DecodeOp} {ops : List (Field DecodeOp)}
    (hops : op.fields? = some ops) (call : String → Option Value) :
    op.zero call = (zeroFields call [] ops).map .struct := by
  cases op with
  | struct =>
    cases hops
    rw [zero]
  | framed =>
    cases hops
    rw [zero, zeroFields, zero]
    rfl
  | _ => cases hops

/-- Among the zero values of fields with different names each has that of its own operation. -/
theorem DecodeOp.exists_zero_of_mem {zero : String → Option Value} {ops : List (Field DecodeOp)}
    {fields : List (Field Value)} (h : zeroFields zero [] ops = some fields)
    (hnodup : (ops.map (·.name)).Nodup) {f : Field DecodeOp} (hf : f ∈ ops) :
    ∃ z, f.val.zero zero = some z ∧ Fields.get? f.name fields = some z := by
  obtain ⟨before, after, rfl⟩ := List.append_of_mem hf
  refine exists_zero_of_zeroFields ?_ h
  rw [List.map_append, List.map_cons] at hnodup
  exact (List.nodup_cons.1 (List.nodup_append.1 hnodup).2.1).1

/-! ## Zero values -/

section Zero

variable {call : String → Option Value → EncodeM Unit} {zero : String → Option Value}
  {verifyCrc : Bool}

/-- A struct without a value is encoded as its zero value, if its fields are. -/
theorem EncodeOp.run_zero_of_fields? {op : EncodeOp} {ops : List (Field EncodeOp)}
    (hops : op.fields? = some ops) (hnodup : (ops.map (·.name)).Nodup)
    (hfields : ∀ f ∈ ops, ∀ z, (f.val.mirror verifyCrc).zero zero = some z →
      f.val.run call none = f.val.run call (some z))
    {z : Value} (hz : (op.mirror verifyCrc).zero zero = some z) :
    op.run call none = op.run call (some z) := by
  have hmirror : (op.mirror verifyCrc).fields? = some (mirrorFields verifyCrc ops) := by
    rw [fields?_mirror, hops, Option.map_some]
  rw [DecodeOp.zero_of_fields? hmirror] at hz
  obtain ⟨fields, hzeros, rfl⟩ := Option.map_eq_some_iff.1 hz
  rw [mirrorFields_eq_map] at hzeros
  rw [run_none_of_fields? hops]
  refine run_congr hops fun f hf => ?_
  obtain ⟨u, hu, hget⟩ := DecodeOp.exists_zero_of_mem hzeros
    (by simpa [Function.comp_def] using hnodup) (List.mem_map_of_mem hf)
  rw [show Fields.get? f.name [] = (none : Option Value) from rfl]
  rw [hget]
  exact hfields f hf u hu

theorem EncodeOp.run_zero_write {q : Primitive} {z : Value}
    (hz : ((write q).mirror verifyCrc).zero zero = some z) :
    (write q).run call none = (write q).run call (some z) := by
  rw [mirror, DecodeOp.zero] at hz
  cases hz
  rw [run, run]
  rfl

mutual

/-- **Encoding without a value is encoding the zero value**, if it is so for the routines that are
called. -/
theorem EncodeOp.run_zero
    (hcall : ∀ name z, zero name = some z → call name none = call name (some z)) :
    ∀ {op : EncodeOp} {z : Value}, op.Distinct → (op.mirror verifyCrc).zero zero = some z →
      op.run call none = op.run call (some z)
  | .write q, z, _, hz => run_zero_write hz
  | .writeAlias typeName q, z, _, hz => by
    rw [mirror, DecodeOp.zero] at hz
    cases hz
    rw [run, run]
    rfl
  | .call name, z, _, hz => by
    rw [mirror, DecodeOp.zero] at hz
    rw [run, run]
    exact hcall name z hz
  | .struct ops, z, hdistinct, hz => by
    obtain ⟨hnodup, hops⟩ := hdistinct.of_fields? rfl
    exact run_zero_of_fields? rfl hnodup (run_zero_of_mem hcall hops) hz
  | .framed framing signed body, z, hdistinct, hz => by
    have hnodup := (hdistinct.of_fields? rfl).1
    rw [Distinct] at hdistinct
    exact run_zero_of_fields? rfl hnodup (List.forall_mem_cons.2
      ⟨fun _ => run_zero_write, run_zero_of_mem hcall hdistinct.2⟩) hz
  | .lengthArray element, z, _, hz => by
    rw [mirror, DecodeOp.zero] at hz
    cases hz
    rw [run, run]
    rfl
  | .sizeArray element, z, _, hz => by
    rw [mirror, DecodeOp.zero] at hz
    cases hz
    rw [run, run]
    rfl
  | .unsupported owner, z, _, _ => by rw [run, run]

theorem EncodeOp.run_zero_of_mem
    (hcall : ∀ name z, zero name = some z → call name none = call name (some z)) :
    ∀ {ops : List (Field EncodeOp)}, DistinctFields ops → ∀ f ∈ ops, ∀ z,
      (f.val.mirror verifyCrc).zero zero = some z → f.val.run call none = f.val.run call (some z)
  | [], _, f, hf, _, _ => absurd hf List.not_mem_nil
  | ⟨name, op⟩ :: ops, hdistinct, f, hf, z, hz => by
    rw [DistinctFields] at hdistinct
    rcases List.mem_cons.1 hf with rfl | hf
    · exact run_zero hcall hdistinct.1 hz
    · exact run_zero_of_mem hcall hdistinct.2 f hf z hz

end

end Zero

/-- **A routine without a value encodes the zero value of its type**, with any number of calls. -/
theorem Program.encode_zero {p : Program} {verifyCrc : Bool} (hp : p.Regular verifyCrc) :
    ∀ {fuel n : Nat} {name : String} {z : Value}, p.zero n name = some z →
      p.encode fuel name none = p.encode fuel name (some z)
  | 0, n, name, z, _ => rfl
  | fuel + 1, 0, name, z, hz => by cases hz
  | fuel + 1, n + 1, name, z, hz => by
    rw [zero] at hz
    rw [encode, encode]
    cases hr : p.routine? name with
    | none => rfl
    | some r =>
      simp only [hr, hp.mirror name r hr] at hz
      exact EncodeOp.run_zero (fun a u hu => encode_zero hp hu) (hp.distinct name r hr) hz

/-! ## Filling in a field -/

/-- `c.Fills op v v'`: the values agree but for one place, where `v` has a struct in which a
declared field is missing and `v'` has it as the zero value of its operation.  The place is the
value itself or any struct in it that decoding with `op` would reach. -/
inductive Codec.Fills (c : Codec) : DecodeOp → Value → Value → Prop
  | here {op : DecodeOp} {ops : List (Field DecodeOp)} {f : Field DecodeOp}
      {fields : List (Field Value)} {z : Value} (hops : op.fields? = some ops) (hf : f ∈ ops)
      (hmissing : Fields.get? f.name fields = none)
      (hz : f.val.zero (c.program.zero c.callBound) = some z) :
      c.Fills op (.struct fields) (.struct (Fields.insert f.name z fields))
  | field {op : DecodeOp} {ops : List (Field DecodeOp)} {f : Field DecodeOp}
      {fields : List (Field Value)} {v v' : Value} (hops : op.fields? = some ops) (hf : f ∈ ops)
      (hget : Fields.get? f.name fields = some v) (hfill : c.Fills f.val v v') :
      c.Fills op (.struct fields) (.struct (Fields.insert f.name v' fields))
  | lengthItem {element : DecodeOp} {v v' : Value} (before after : List Value)
      (hfill : c.Fills element v v') :
      c.Fills (.lengthArray element) (.list (before ++ v :: after)) (.list (before ++ v' :: after))
  | sizeItem {element : DecodeOp} {v v' : Value} (before after : List Value)
      (hfill : c.Fills element v v') :
      c.Fills (.sizeArray element) (.list (before ++ v :: after)) (.list (before ++ v' :: after))
  | call {name : String} {r : Routine} {v v' : Value} (hr : c.program.routine? name = some r)
      (hfill : c.Fills r.decode v v') : c.Fills (.call name) v v'

theorem putAll_congr_item (item : Value → EncodeM Unit) {v v' : Value} (h : item v = item v')
    (after : List Value) :
    ∀ before : List Value, putAll item (before ++ v :: after) = putAll item (before ++ v' :: after)
  | [] => by rw [List.nil_append, List.nil_append, putAll, putAll, h]
  | u :: before => by
    rw [List.cons_append, List.cons_append, putAll, putAll, putAll_congr_item item h after before]

namespace EncodeOp

variable {call : String → Option Value → EncodeM Unit} {verifyCrc : Bool}

/-- The fields of a mirror image are the mirror images of the fields. -/
theorem exists_of_fields?_mirror {op : EncodeOp} {ds : List (Field DecodeOp)}
    (h : (op.mirror verifyCrc).fields? = some ds) {d : Field DecodeOp} (hd : d ∈ ds) :
    ∃ ops, op.fields? = some ops ∧ ∃ f ∈ ops, f.name = d.name ∧ f.val.mirror verifyCrc = d.val := by
  rw [fields?_mirror] at h
  obtain ⟨ops, hops, rfl⟩ := Option.map_eq_some_iff.1 h
  rw [mirrorFields_eq_map] at hd
  obtain ⟨f, hf, rfl⟩ := List.mem_map.1 hd
  exact ⟨ops, hops, f, hf, rfl, rfl⟩

/-- A struct is encoded alike with another value in one field, if that field is. -/
theorem run_insert {op : EncodeOp} {ops : List (Field EncodeOp)} (hops : op.fields? = some ops)
    (hnodup : (ops.map (·.name)).Nodup) {f : Field EncodeOp} (hf : f ∈ ops)
    {fields : List (Field Value)} {v : Value}
    (h : f.val.run call (Fields.get? f.name fields) = f.val.run call (some v)) :
    op.run call (some (.struct fields)) =
      op.run call (some (.struct (Fields.insert f.name v fields))) := by
  refine run_congr hops fun g hg => ?_
  rw [Fields.get?_insert]
  by_cases hname : f.name = g.name
  · obtain rfl := eq_of_name_eq hnodup hf hg hname
    rw [if_pos rfl, h]
  · rw [if_neg hname]

end EncodeOp

/-- **Filling in a missing field changes nothing**, with any number of calls. -/
theorem Codec.Fills.run_eq {c : Codec} {verifyCrc : Bool} (hp : c.program.Regular verifyCrc)
    {d : DecodeOp} {v v' : Value} (h : c.Fills d v v') :
    ∀ {op : EncodeOp}, op.mirror verifyCrc = d → op.Distinct → ∀ fuel,
      op.run (c.program.encode fuel) (some v) = op.run (c.program.encode fuel) (some v') := by
  induction h with
  | here hds hd hmissing hz =>
    rintro op rfl hdistinct fuel
    obtain ⟨ops, hops, f, hf, hname, hmirror⟩ := EncodeOp.exists_of_fields?_mirror hds hd
    obtain ⟨hnodup, hall⟩ := hdistinct.of_fields? hops
    rw [← hname] at hmissing ⊢
    rw [← hmirror] at hz
    refine EncodeOp.run_insert hops hnodup hf ?_
    rw [hmissing]
    exact EncodeOp.run_zero (fun _ _ => Program.encode_zero hp) (hall.of_mem hf) hz
  | field hds hd hget _ ih =>
    rintro op rfl hdistinct fuel
    obtain ⟨ops, hops, f, hf, hname, hmirror⟩ := EncodeOp.exists_of_fields?_mirror hds hd
    obtain ⟨hnodup, hall⟩ := hdistinct.of_fields? hops
    rw [← hname] at hget ⊢
    refine EncodeOp.run_insert hops hnodup hf ?_
    rw [hget]
    exact ih hmirror (hall.of_mem hf) fuel
  | lengthItem before after _ ih =>
    intro op hmirror hdistinct fuel
    obtain ⟨element, rfl, helement⟩ := EncodeOp.exists_of_mirror_eq_lengthArray hmirror
    rw [EncodeOp.Distinct] at hdistinct
    have hitems := putAll_congr_item (fun u => element.run (c.program.encode fuel) (some u))
      (ih helement hdistinct fuel) after before
    rw [EncodeOp.run, EncodeOp.run]
    simp only [Option.getD_some, List.length_append, List.length_cons, hitems]
  | sizeItem before after _ ih =>
    intro op hmirror hdistinct fuel
    obtain ⟨element, rfl, helement⟩ := EncodeOp.exists_of_mirror_eq_sizeArray hmirror
    rw [EncodeOp.Distinct] at hdistinct
    have hitems := putAll_congr_item (fun u => element.run (c.program.encode fuel) (some u))
      (ih helement hdistinct fuel) after before
    rw [EncodeOp.run, EncodeOp.run]
    simp only [Option.getD_some, hitems]
  | @call name r v v' hr _ ih =>
    intro op hmirror _ fuel
    obtain rfl := EncodeOp.eq_of_mirror_eq_call hmirror
    rw [EncodeOp.run, EncodeOp.run]
    cases fuel with
    | zero => rfl
    | succ fuel =>
      rw [Program.encode, Program.encode]
      simp only [hr]
      exact ih (hp.mirror name r hr).symm (hp.distinct name r hr) fuel

/-! ## Struct types -/

/-- Does the operation decode a struct, be it by way of routines of other types? -/
inductive Program.IsStruct (p : Program) : DecodeOp → Prop
  | fields {op : DecodeOp} {ops : List (Field DecodeOp)} (hops : op.fields? = some ops) :
      p.IsStruct op
  | call {name : String} {r : Routine} (hr : p.routine? name = some r)
      (hstruct : p.IsStruct r.decode) : p.IsStruct (.call name)

/-- Where a struct is missing, all its fields are, with any number of calls. -/
theorem Program.IsStruct.run_none {p : Program} {verifyCrc : Bool} (hp : p.Regular verifyCrc)
    {d : DecodeOp} (h : p.IsStruct d) :
    ∀ {op : EncodeOp}, op.mirror verifyCrc = d → ∀ fuel,
      op.run (p.encode fuel) none = op.run (p.encode fuel) (some (.struct [])) := by
  induction h with
  | fields hds =>
    rintro op rfl fuel
    rw [EncodeOp.fields?_mirror] at hds
    obtain ⟨ops, hops, -⟩ := Option.map_eq_some_iff.1 hds
    exact EncodeOp.run_none_of_fields? hops
  | @call name r hr _ ih =>
    intro op hmirror fuel
    obtain rfl := EncodeOp.eq_of_mirror_eq_call hmirror
    rw [EncodeOp.run, EncodeOp.run]
    cases fuel with
    | zero => rfl
    | succ fuel =>
      rw [encode, encode]
      simp only [hr]
      exact ih (hp.mirror name r hr).symm fuel

/-! ## Codecs -/

namespace Codec

variable {c : Codec}

theorem encode_congr (hc : c.program.Grounded) {typeName : String} {v v' : Value}
    (h : ∀ fuel, (EncodeOp.call typeName).run (c.program.encode fuel) (some v) =
      (EncodeOp.call typeName).run (c.program.encode fuel) (some v')) :
    c.encode typeName v = c.encode typeName v' := by
  simp only [EncodeOp.run] at h
  rw [encode, encode, encodeInto_congr hc h]

/-- **Sparse and dense structs encode alike.**  For every codec of a grammar without a reference
cycle that avoids every array: each operation has a zero value, and filling in a missing field with
that of the field, in the value itself or in any struct in it, gives the same bytes or the same
error.  So the zero value of a struct type is encoded as the struct without any fields. -/
theorem encode_of_fills {g : Grammar} {s : Schema} {verifyCrc : Bool} {p : Program} {o : Overflow}
    (hresolve : g.resolve = .ok s) (hemit : s.emit verifyCrc = .ok p) (hs : s.Grounded)
    (hlink : link p o = .ok c) :
    (∀ op : DecodeOp, ∃ z, op.zero (c.program.zero c.callBound) = some z) ∧
    (∀ typeName v v', c.Fills (.call typeName) v v' →
      c.encode typeName v = c.encode typeName v') ∧
    ∀ typeName, c.program.IsStruct (.call typeName) →
      ∃ z, c.zero typeName = .ok z ∧ c.encode typeName z = c.encode typeName (.struct []) := by
  have hground := hs.program hemit
  have hdistinct := distinct_of_resolve hresolve hemit
  obtain ⟨rfl, -⟩ := link_eq_ok hlink
  have hp : c.program.Regular verifyCrc := ⟨fun name r hr => s.mirror_of_emit hemit hr, hdistinct⟩
  have hcall : ∀ name, (EncodeOp.call name).mirror verifyCrc = .call name := by
    intro name
    rw [EncodeOp.mirror]
  refine ⟨exists_zero_op hemit hs, fun typeName v v' hfill => ?_, fun typeName hstruct => ?_⟩
  · have hdistinct : (EncodeOp.call typeName).Distinct := by
      rw [EncodeOp.Distinct]
      trivial
    exact encode_congr hground (hfill.run_eq hp (hcall typeName) hdistinct)
  · have hroutine : (c.program.routine? typeName).isSome := by
      cases hstruct with
      | fields hops => cases hops
      | call hr => rw [hr]; rfl
    obtain ⟨z, hz⟩ := exists_zero hemit hs hroutine
    refine ⟨z, hz, encode_congr hground fun fuel => ?_⟩
    rw [← hstruct.run_none hp (hcall typeName) fuel, EncodeOp.run, EncodeOp.run]
    obtain ⟨-, hzero⟩ := zero_eq_ok hz
    rw [DecodeOp.zero] at hzero
    exact (Program.encode_zero hp hzero).symm

end Codec

namespace Tree

/-- The zero value of a mark. -/
def mark : Value := .struct [⟨"CRC", .int .uint32 0⟩, ⟨"v", .int .int8 0⟩]

/-- The tree with the mark of its second tree filled in. -/
def marked : Value :=
  .struct [⟨"Extra", .text "dropped"⟩, ⟨"Trees", .list [.struct [], .struct [⟨"Mark", mark⟩]]⟩]

theorem fills_value : codec.Fills (.call "Top") value marked := by
  have hmark : codec.Fills (.call "Tree") (.struct []) (.struct [⟨"Mark", mark⟩]) :=
    .call rfl (.here (f := ⟨"Mark", .call "Mark"⟩) rfl (.tail _ (.head _)) rfl rfl)
  have hitem := Codec.Fills.sizeItem [.struct []] [] hmark
  exact .call rfl (.call rfl (.field (f := ⟨"Trees", .sizeArray (.call "Tree")⟩) rfl
    (.tail _ (.tail _ (.head _))) rfl hitem))

end Tree

theorem Codec.encode_of_fills_tree :
    Tree.codec.encode "Top" Tree.value = Tree.codec.encode "Top" Tree.marked ∧
      ∃ z, Tree.codec.zero "Top" = .ok z ∧
        Tree.codec.encode "Top" z = Tree.codec.encode "Top" (.struct []) := by
  obtain ⟨-, hresolve, hemit⟩ := compile_eq_ok Tree.compile_text
  obtain ⟨-, hfill, hzero⟩ := encode_of_fills hresolve hemit Tree.grounded Tree.link_program
  exact ⟨hfill "Top" _ _ Tree.fills_value, hzero "Top" (.call rfl (.call rfl (.fields rfl)))⟩

end WireGrammar
