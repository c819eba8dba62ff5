import WireGrammar.Proofs.Encode.Policy
import WireGrammar.Proofs.RoundTrip.Soundness
import WireGrammar.Proofs.Routine.Linked

/-!
# The shape of decoded values

Also when it fails, decoding returns a value, with zero values and shorter lists where something
could not be read.  Such a value still has the shape of its type: every field is there, and nothing
is longer than its length can say.  Only where the type has an alternation there is nothing to go
by.  So encoding the value refuses nothing, and can stop at an alternation only.

* `HasShape p op v` — the value `v` has the shape of the type that `op` encodes.
* `Decodes.hasShape` — whatever is decoded in a linked program has the shape of its type.
* `EncodeM.Accepts` — a step that refuses nothing and stops at alternations only.
* `HasShape.accepts` — encoding a value of the right shape is such a step, with the calls that
  `Program.Affords` asks for.
* `Codec.exists_output_of_decodes` — so a codec accepts what it decodes.
-/

set_option autoImplicit false
namespace WireGrammar

/-! ## Shapes -/

mutual

/-- The value has the shape of the type that the operation encodes.  For an alternation every value
will do. -/
inductive HasShape (p : Program) : EncodeOp → Value → Prop
  | write {q : Primitive} {v : Value} {b : ByteArray} (h : q.layout .reject v = some b) :
      HasShape p (.write q) v
  | writeAlias (typeName : String) {q : Primitive} {v : Value} {b : ByteArray}
      (h : q.layout .reject v = some b) : HasShape p (.writeAlias typeName q) (.named typeName v)
  | call {name : String} {t : Routine} {v : Value} (ht : p.routine? name = some t)
      (h : HasShape p t.encode v) : HasShape p (.call name) v
  | struct {ops : List (Field EncodeOp)} {fields : List (Field Value)}
      (h : HasShapeFields p ops fields) : HasShape p (.struct ops) (.struct fields)
  | framed {framing : Framing} {signed : Bool} {body : List (Field EncodeOp)}
      {fields : List (Field Value)} {x : BitVec (IntKind.word signed).bits}
      (hslot : Fields.get? framing.fieldName fields = some (.int (.word signed) x))
      (h : HasShapeFields p body fields) : HasShape p (.framed framing signed body) (.struct fields)
  | lengthArray {element : EncodeOp} {vs : List Value} (hlen : vs.length ≤ Writer.maxCount)
      (h : HasShapeAll p element vs) : HasShape p (.lengthArray element) (.list vs)
  | sizeArray {element : EncodeOp} {vs : List Value} (h : HasShapeAll p element vs) :
      HasShape p (.sizeArray element) (.list vs)
  | unsupported (owner : String) (v : Value) : HasShape p (.unsupported owner) v

/-- Every operation finds a field of its shape under its name. -/
inductive HasShapeFields (p : Program) : List (Field EncodeOp) → List (Field Value) → Prop
  | nil (fields : List (Field Value)) : HasShapeFields p [] fields
  | cons {name : String} {op : EncodeOp} {ops : List (Field EncodeOp)}
      {fields : List (Field Value)} {v : Value} (hget : Fields.get? name fields = some v)
      (hv : HasShape p op v) (h : HasShapeFields p ops fields) :
      HasShapeFields p (⟨name, op⟩ :: ops) fields

/-- All items have the shape of the elements. -/
inductive HasShapeAll (p : Program) : EncodeOp → List Value → Prop
  | nil (element : EncodeOp) : HasShapeAll p element []
  | cons {element : EncodeOp} {v : Value} {vs : List Value} (hv : HasShape p element v)
      (h : HasShapeAll p element vs) : HasShapeAll p element (v :: vs)

end

/-! ## Decoded values have the shape of their type -/

namespace Reader

variable {r : Reader}

theorem error_eq_none_of_take {n : Nat} {b : ByteArray} {r' : Reader}
    (h : r.take n = (some b, r')) : r'.error = none := by
  rw [take] at h
  split at h
  · cases h
  · next hnone =>
    split at h
    · cases h
      exact hnone
    · cases h

/-- **A read that leaves an error gives zero.** -/
theorem readPrimitive_eq_zero {q : Primitive} (h : (r.readPrimitive q).2.error.isSome) :
    (r.readPrimitive q).1 = .zero q := by
  cases q with
  | int k =>
    rcases r.readInt_cases k with ⟨hnone, -, hr⟩ | ⟨hzero, -⟩
    · rw [readPrimitive, hr, hnone] at h
      cases h
    · show Value.int k (r.readInt k).1 = _
      rw [hzero, Value.zero]
  | string =>
    rw [readPrimitive, readText] at h ⊢
    simp only at h ⊢
    split at h
    · rfl
    · next b r' heq =>
      split at h
      · rw [error_eq_none_of_take heq] at h
        cases h
      · rfl
  | bytes =>
    rw [readPrimitive, readBytes] at h ⊢
    simp only at h ⊢
    split at h
    · rfl
    · next b r' heq =>
      rw [error_eq_none_of_take heq] at h
      cases h

/-- **Every primitive that a read returns has a layout**, whether or not it could be read. -/
theorem exists_layout_of_readPrimitive (r : Reader) (q : Primitive) :
    ∃ b, q.layout .reject (r.readPrimitive q).1 = some b := by
  by_cases h : (r.readPrimitive q).2.error.isSome
  · rw [readPrimitive_eq_zero h]
    cases q with
    | int k => exact ⟨_, dif_pos rfl⟩
    | string => exact ⟨_, rfl⟩
    | bytes => exact ⟨_, rfl⟩
  · obtain ⟨b, hb, -⟩ := exists_layout_readPrimitive (Option.not_isSome_iff_eq_none.1 h)
    exact ⟨b, hb⟩

end Reader

section Decoded

variable {p : Program} {verifyCrc : Bool}

mutual

/-- **Whatever is decoded has the shape of its type**, also if there are errors. -/
theorem Decodes.hasShape (hp : p.Regular verifyCrc) (hlinked : p.Linked) {d : DecodeOp}
    {r r' : Reader} {v : Value} :
    Decodes p d r v r' → ∀ {op : EncodeOp}, op.mirror verifyCrc = d → op.Distinct →
      (∀ n ∈ op.calls, (p.routine? n).isSome) → HasShape p op v
  | .read q r, op, hop, _, _ => by
    cases EncodeOp.eq_of_mirror_eq_read hop
    obtain ⟨b, hb⟩ := r.exists_layout_of_readPrimitive q
    exact .write hb
  | .readAlias typeName q r, op, hop, _, _ => by
    cases EncodeOp.eq_of_mirror_eq_readAlias hop
    obtain ⟨b, hb⟩ := r.exists_layout_of_readPrimitive q
    exact .writeAlias typeName hb
  | .call ht h, op, hop, _, _ => by
    cases EncodeOp.eq_of_mirror_eq_call hop
    refine .call ht (h.hasShape hp hlinked (hp.mirror _ _ ht).symm (hp.distinct _ _ ht) ?_)
    exact fun n hn => hlinked _ n ⟨_, ht, hn⟩
  | @Decodes.noRoutine _ name r ht, op, hop, _, hcalls => by
    cases EncodeOp.eq_of_mirror_eq_call hop
    have hsome := hcalls name (by simp [EncodeOp.calls])
    rw [ht] at hsome
    cases hsome
  | .struct h, op, hop, hdistinct, hcalls => by
    obtain ⟨ops, rfl, hops⟩ := EncodeOp.exists_of_mirror_eq_struct hop
    rw [EncodeOp.Distinct] at hdistinct
    rw [EncodeOp.calls] at hcalls
    obtain ⟨es, hnames, rfl, hshape⟩ := h.hasShape hp hlinked hops hdistinct.2 hcalls
    exact .struct (hshape _ (Fields.get?_ofList (by rw [hnames]; exact hdistinct.1)))
  | .framed verify hslot h, op, hop, hdistinct, hcalls => by
    obtain ⟨body, rfl, hbody⟩ := EncodeOp.exists_of_mirror_eq_framed hop
    rw [EncodeOp.Distinct] at hdistinct
    rw [EncodeOp.calls] at hcalls
    obtain ⟨es, hnames, rfl, hshape⟩ := h.hasShape hp hlinked hbody hdistinct.2 hcalls
    obtain ⟨hx, hget⟩ := Fields.get?_ofList_cons (by rw [hnames]; exact hdistinct.1)
    exact .framed hx (hshape _ hget)
  | .lengthArray hcount h, op, hop, hdistinct, hcalls => by
    obtain ⟨element, rfl, helement⟩ := EncodeOp.exists_of_mirror_eq_lengthArray hop
    rw [EncodeOp.Distinct] at hdistinct
    rw [EncodeOp.calls] at hcalls
    obtain ⟨hlen, hshape⟩ := h.hasShape hp hlinked helement hdistinct hcalls
    exact .lengthArray (hlen.trans (Reader.toNat_toInt_le _)) hshape
  | .noHeader hsize hfail, op, hop, _, _ => by
    obtain ⟨element, rfl, -⟩ := EncodeOp.exists_of_mirror_eq_sizeArray hop
    exact .sizeArray (.nil element)
  | .sizeArray hsize hnone h, op, hop, hdistinct, hcalls => by
    obtain ⟨element, rfl, helement⟩ := EncodeOp.exists_of_mirror_eq_sizeArray hop
    rw [EncodeOp.Distinct] at hdistinct
    rw [EncodeOp.calls] at hcalls
    exact .sizeArray (h.hasShape hp hlinked helement hdistinct hcalls)
  | .unsupported owner r, op, hop, _, _ => by
    cases EncodeOp.eq_of_mirror_eq_unsupported hop
    exact .unsupported owner _

theorem DecodesFields.hasShape (hp : p.Regular verifyCrc) (hlinked : p.Linked)
    {ds : List (Field DecodeOp)} {r r' : Reader} {acc fields : List (Field Value)} :
    DecodesFields p acc ds r fields r' → ∀ {ops : List (Field EncodeOp)},
      EncodeOp.mirrorFields verifyCrc ops = ds → EncodeOp.DistinctFields ops →
      (∀ n ∈ EncodeOp.callsOfFields ops, (p.routine? n).isSome) →
      ∃ es : List (Field Value), es.map (·.name) = ops.map (·.name) ∧
        fields = es.foldl (fun fs f => Fields.insert f.name f.val fs) acc ∧
        ∀ fs, (∀ f ∈ es, Fields.get? f.name fs = some f.val) → HasShapeFields p ops fs
  | .nil acc r, ops, hops, _, _ => by
    cases EncodeOp.eq_nil_of_mirrorFields hops
    exact ⟨[], rfl, rfl, fun fs _ => .nil fs⟩
  | @DecodesFields.cons _ _ _ name _ _ _ _ _ v hv h, ops, hops, hdistinct, hcalls => by
    obtain ⟨op, rest, rfl, hop, hrest⟩ := EncodeOp.exists_of_mirrorFields_eq_cons hops
    rw [EncodeOp.DistinctFields] at hdistinct
    rw [EncodeOp.callsOfFields] at hcalls
    have hshape := hv.hasShape hp hlinked hop hdistinct.1
      fun n hn => hcalls n (List.mem_append_left _ hn)
    obtain ⟨es, hnames, rfl, hes⟩ := h.hasShape hp hlinked hrest hdistinct.2
      fun n hn => hcalls n (List.mem_append_right _ hn)
    refine ⟨⟨name, v⟩ :: es, ?_, rfl, fun fs hget => ?_⟩
    · rw [List.map_cons, hnames, List.map_cons]
    · exact .cons (hget ⟨name, v⟩ List.mem_cons_self) hshape
        (hes fs fun f hf => hget f (List.mem_cons_of_mem _ hf))

theorem DecodesCount.hasShape (hp : p.Regular verifyCrc) (hlinked : p.Linked) {d : DecodeOp}
    {n : Nat} {r r' : Reader} {vs : List Value} :
    DecodesCount p d n r vs r' → ∀ {op : EncodeOp}, op.mirror verifyCrc = d → op.Distinct →
      (∀ n ∈ op.calls, (p.routine? n).isSome) → vs.length ≤ n ∧ HasShapeAll p op vs
  | .zero d r, op, _, _, _ => ⟨Nat.le_refl _, .nil op⟩
  | .failed n hv hfail, op, _, _, _ => ⟨Nat.zero_le _, .nil op⟩
  | .next hv hnone h, op, hop, hdistinct, hcalls => by
    obtain ⟨hlen, hshape⟩ := h.hasShape hp hlinked hop hdistinct hcalls
    exact ⟨Nat.succ_le_succ hlen, .cons (hv.hasShape hp hlinked hop hdistinct hcalls) hshape⟩

theorem DecodesWithin.hasShape (hp : p.Regular verifyCrc) (hlinked : p.Linked) {d : DecodeOp}
    {stop : Nat} {r r' : Reader} {vs : List Value} :
    DecodesWithin p d stop r vs r' → ∀ {op : EncodeOp}, op.mirror verifyCrc = d → op.Distinct →
      (∀ n ∈ op.calls, (p.routine? n).isSome) → HasShapeAll p op vs
  | .done _ _, op, _, _, _ => .nil op
  | .failed _ _ _, op, _, _, _ => .nil op
  | .idle _ hv _ _, op, hop, hdistinct, hcalls =>
    .cons (hv.hasShape hp hlinked hop hdistinct hcalls) (.nil op)
  | .next _ hv _ _ h, _, hop, hdistinct, hcalls =>
    .cons (hv.hasShape hp hlinked hop hdistinct hcalls)
      (h.hasShape hp hlinked hop hdistinct hcalls)

end

end Decoded

/-! ## Values of the right shape are accepted -/

namespace EncodeM

/-- The step refuses nothing, and where it stops it stops at an alternation. -/
def Accepts (m : EncodeM Unit) : Prop :=
  ∃ out, Appends m .reject out ∧ out.refused = none ∧
    ∀ e, out.result = .error e → ∃ owner, e = .unsupported owner

variable {m n : EncodeM Unit}

theorem accepts_of_writes {b : ByteArray} (h : Writes m .reject (some b)) : Accepts m := by
  obtain ⟨out, hout, haccepted⟩ := h
  obtain ⟨hresult, hrefused, -⟩ := Output.accepted_eq_some.1 haccepted
  refine ⟨out, hout, hrefused, fun e he => ?_⟩
  rw [hresult] at he
  cases he

theorem Accepts.bind (hm : Accepts m) (hn : Accepts n) : Accepts (m >>= fun _ => n) := by
  obtain ⟨out, hm, hrefused, hresult⟩ := hm
  obtain ⟨out', hn, hrefused', hresult'⟩ := hn
  refine ⟨_, hm.bind hn, ?_⟩
  cases h : out.result with
  | error e =>
    rw [h] at hresult
    simp only [Output.andThen, h]
    exact ⟨hrefused, hresult⟩
  | ok _ =>
    simp only [Output.andThen, h, hrefused, hrefused', Option.or_none]
    exact ⟨trivial, hresult'⟩

theorem Accepts.slot {s : ByteArray} (hs : s.size = 4) (hn : Accepts n)
    (f : Nat → Writer → BitVec 32) (measure : ByteArray → BitVec 32)
    (hf : ∀ (w : Writer) (a b : ByteArray), w.bytes = a ++ b → f a.size w = measure b) :
    Accepts (do
      let slot := (← get).size
      modify (·.append s)
      let start := (← get).size
      n
      modify fun w => w.patch slot (f start w)) := by
  obtain ⟨out, hn, hrefused, hresult⟩ := hn
  refine ⟨_, hn.slot hs f measure hf, ?_⟩
  cases h : out.result with
  | error e =>
    rw [h] at hresult
    simp only [Output.slotted, h]
    exact ⟨hrefused, hresult⟩
  | ok _ =>
    simp only [Output.slotted, h]
    exact ⟨hrefused, fun e he => by cases he⟩

end EncodeM

open EncodeM

namespace Program

/-- There are enough calls for a value of the given depth, also behind a call of one of the
names. -/
structure Affords (p : Program) (rank : String → Nat) (fuel depth : Nat) (names : List String) :
    Prop where
  depth_le : (p.routines.length + 1) * depth ≤ fuel
  rank_lt : ∀ n ∈ names, (p.routines.length + 1) * depth + rank n < fuel

variable {p : Program} {rank : String → Nat} {fuel depth depth' : Nat} {names names' : List String}

theorem Affords.mono (h : p.Affords rank fuel depth names) (hdepth : depth' ≤ depth)
    (hnames : ∀ n ∈ names', n ∈ names) : p.Affords rank fuel depth' names' where
  depth_le := (Nat.mul_le_mul_left _ hdepth).trans h.depth_le
  rank_lt n hn :=
    Nat.lt_of_le_of_lt (Nat.add_le_add_right (Nat.mul_le_mul_left _ hdepth) _)
      (h.rank_lt n (hnames n hn))

/-- An array affords all calls for its elements, which are less deep. -/
theorem affords_of_depth_lt (hle : ∀ a, rank a ≤ p.routines.length)
    (h : (p.routines.length + 1) * depth ≤ fuel) (hdepth : depth' < depth) :
    p.Affords rank fuel depth' names := by
  have hmul := Nat.mul_le_mul_left (p.routines.length + 1) (Nat.succ_le_of_lt hdepth)
  rw [Nat.mul_succ] at hmul
  refine ⟨by omega, fun n _ => ?_⟩
  have hrank := hle n
  omega

/-- A call outside arrays affords the calls of its routine, since they have a lower rank. -/
theorem Affords.call {a : String} {t : Routine} (h : p.Affords rank fuel depth [a])
    (ht : p.routine? a = some t) (hlt : ∀ b, p.Inlines a b → rank b < rank a) :
    ∃ n, fuel = n + 1 ∧ p.Affords rank n depth t.encode.inlineCalls := by
  have hfuel := h.rank_lt a List.mem_cons_self
  obtain ⟨n, rfl⟩ : ∃ n, fuel = n + 1 := ⟨fuel - 1, by omega⟩
  refine ⟨n, rfl, by omega, fun b hb => ?_⟩
  have hrank := hlt b ⟨t, ht, hb⟩
  omega

end Program

section Accepted

variable {p : Program} {rank : String → Nat}

mutual

/-- A value of the right shape is finite, so calls outside arrays lead to no cycle. -/
theorem HasShape.founded {op : EncodeOp} {v : Value} :
    HasShape p op v → ∀ a ∈ op.inlineCalls, p.Founded a
  | .call ht h, a, ha => by
    rw [EncodeOp.inlineCalls, List.mem_singleton] at ha
    subst ha
    refine Program.founded_of_inlines fun b hab => ?_
    obtain ⟨t, ht', hb⟩ := hab
    cases ht.symm.trans ht'
    exact h.founded b hb
  | .struct h, a, ha => by
    rw [EncodeOp.inlineCalls] at ha
    exact h.founded a ha
  | .framed _ h, a, ha => by
    rw [EncodeOp.inlineCalls] at ha
    exact h.founded a ha
  | .write _, _, ha | .writeAlias _ _, _, ha | .lengthArray _ _, _, ha | .sizeArray _, _, ha
  | .unsupported _ _, _, ha => by
    rw [EncodeOp.inlineCalls] at ha
    cases ha

theorem HasShapeFields.founded {ops : List (Field EncodeOp)} {fields : List (Field Value)} :
    HasShapeFields p ops fields → ∀ a ∈ EncodeOp.inlineCallsOfFields ops, p.Founded a
  | .nil _, _, ha => by
    rw [EncodeOp.inlineCallsOfFields] at ha
    cases ha
  | .cons _ hv h, a, ha => by
    rw [EncodeOp.inlineCallsOfFields] at ha
    rcases List.mem_append.1 ha with ha | ha
    · exact hv.founded a ha
    · exact h.founded a ha

end

mutual

/-- **A value of the right shape is accepted**, with enough calls for its depth. -/
theorem HasShape.accepts (hle : ∀ a, rank a ≤ p.routines.length)
    (hlt : ∀ a b, p.Founded a → p.Inlines a b → rank b < rank a) {op : EncodeOp} {v : Value} :
    HasShape p op v → ∀ {fuel : Nat}, p.Affords rank fuel v.depth op.inlineCalls →
      Accepts (op.run (p.encode fuel) (some v))
  | @HasShape.write _ q v b h, fuel, _ => by
    rw [EncodeOp.run]
    have hwrites := putPrimitive_writes .reject q v
    rw [h] at hwrites
    exact accepts_of_writes hwrites
  | @HasShape.writeAlias _ typeName q v b h, fuel, _ => by
    rw [EncodeOp.run]
    have hwrites := putPrimitive_writes .reject q v
    rw [h] at hwrites
    simp only [Option.getD_some, if_pos]
    exact accepts_of_writes hwrites
  | @HasShape.call _ name t v ht h, fuel, hfuel => by
    have hfounded := (HasShape.call ht h).founded name (by simp [EncodeOp.inlineCalls])
    rw [EncodeOp.inlineCalls] at hfuel
    obtain ⟨n, rfl, hn⟩ := hfuel.call ht fun b => hlt name b hfounded
    rw [EncodeOp.run, Program.encode, ht]
    exact h.accepts hle hlt hn
  | @HasShape.struct _ ops fields h, fuel, hfuel => by
    rw [EncodeOp.inlineCalls] at hfuel
    rw [EncodeOp.run]
    exact h.accepts hle hlt (Value.depth?_field_le (v := some (.struct fields)) rfl) hfuel
  | @HasShape.framed _ framing signed body fields x hslot h, fuel, hfuel => by
    rw [EncodeOp.inlineCalls] at hfuel
    rw [EncodeOp.run]
    have hbody := h.accepts hle hlt (Value.depth?_field_le (v := some (.struct fields)) rfl) hfuel
    simp only [Option.getD_some, hslot, putPrimitive, dif_pos, Writer.putInt]
    exact hbody.slot (BigEndian.size_encode _ _)
      (fun start w => framing.measure (w.bytes.extract start w.size)) framing.measure
      framing.measure_written
  | @HasShape.lengthArray _ element vs hlen h, fuel, hfuel => by
    rw [EncodeOp.run]
    simp only [Option.getD_some, if_pos hlen]
    have hitems := h.accepts hle hlt
      (fun v hv => Value.depth_item_lt (v := some (.list vs)) rfl hv) hfuel.depth_le
    exact (accepts_of_writes (writes_append _)).bind hitems
  | @HasShape.sizeArray _ element vs h, fuel, hfuel => by
    rw [EncodeOp.run]
    have hitems := h.accepts hle hlt
      (fun v hv => Value.depth_item_lt (v := some (.list vs)) rfl hv) hfuel.depth_le
    exact hitems.slot (BigEndian.size_encode .int32 0#32)
      (fun start w => BitVec.ofNat 32 (w.size - start)) (fun b => BitVec.ofNat 32 b.size)
      Writer.size_written
  | .unsupported owner v, fuel, _ => by
    rw [EncodeOp.run]
    refine ⟨_, appends_throw _, rfl, fun e he => ?_⟩
    cases he
    exact ⟨owner, rfl⟩

theorem HasShapeFields.accepts (hle : ∀ a, rank a ≤ p.routines.length)
    (hlt : ∀ a b, p.Founded a → p.Inlines a b → rank b < rank a) {ops : List (Field EncodeOp)}
    {fields : List (Field Value)} :
    HasShapeFields p ops fields → ∀ {fuel depth : Nat},
      (∀ name, Value.depth? (Fields.get? name fields) ≤ depth) →
      p.Affords rank fuel depth (EncodeOp.inlineCallsOfFields ops) →
      Accepts (EncodeOp.runFields (p.encode fuel) fields ops)
  | .nil fields, fuel, depth, _, _ => by
    rw [EncodeOp.runFields]
    exact accepts_of_writes writes_pure
  | @HasShapeFields.cons _ name op ops fields v hget hv h, fuel, depth, hdepth, hfuel => by
    rw [EncodeOp.inlineCallsOfFields] at hfuel
    rw [EncodeOp.runFields, hget]
    have hle' := hdepth name
    rw [hget] at hle'
    refine Accepts.bind ?_ ?_
    · exact hv.accepts hle hlt (hfuel.mono hle' fun n hn => List.mem_append_left _ hn)
    · exact h.accepts hle hlt hdepth
        (hfuel.mono (Nat.le_refl _) fun n hn => List.mem_append_right _ hn)

theorem HasShapeAll.accepts (hle : ∀ a, rank a ≤ p.routines.length)
    (hlt : ∀ a b, p.Founded a → p.Inlines a b → rank b < rank a) {element : EncodeOp}
    {vs : List Value} :
    HasShapeAll p element vs → ∀ {fuel depth : Nat}, (∀ v ∈ vs, v.depth < depth) →
      (p.routines.length + 1) * depth ≤ fuel →
      Accepts (putAll (fun item => element.run (p.encode fuel) (some item)) vs)
  | .nil element, fuel, depth, _, _ => accepts_of_writes writes_pure
  | @HasShapeAll.cons _ element v vs hv h, fuel, depth, hdepth, hfuel => by
    rw [putAll]
    refine Accepts.bind ?_ ?_
    · exact hv.accepts hle hlt
        (Program.affords_of_depth_lt hle hfuel (hdepth v List.mem_cons_self))
    · exact h.accepts hle hlt (fun w hw => hdepth w (List.mem_cons_of_mem _ hw)) hfuel

end

end Accepted

/-- **A codec accepts what it decodes**, up to alternations. -/
theorem Codec.exists_output_of_decodes {c : Codec} {verifyCrc : Bool}
    (hp : c.program.Regular verifyCrc) (hlinked : c.program.Linked) {typeName : String}
    {r r' : Reader} {v : Value} (ht : (c.program.routine? typeName).isSome)
    (h : Decodes c.program (.call typeName) r v r') :
    ∃ out, c.Outputs .reject typeName v out ∧ out.refused = none ∧
      ∀ e, out.result = .error e → ∃ owner, e = .unsupported owner := by
  obtain ⟨rank, hle, hlt⟩ := c.program.exists_rank
  have hshape : HasShape c.program (.call typeName) v := by
    refine h.hasShape hp hlinked (by rw [EncodeOp.mirror]) (by rw [EncodeOp.Distinct]; trivial) ?_
    intro n hn
    rw [EncodeOp.calls, List.mem_singleton] at hn
    rwa [hn]
  have hfuel : c.program.Affords rank (c.callBound * (v.depth + 1)) v.depth
      (EncodeOp.call typeName).inlineCalls := by
    rw [callBound, Nat.mul_succ]
    refine ⟨Nat.le_add_right _ _, fun n _ => ?_⟩
    have hrank := hle n
    omega
  have haccepts := hshape.accepts hle hlt hfuel
  rw [EncodeOp.run] at haccepts
  exact haccepts

end WireGrammar
