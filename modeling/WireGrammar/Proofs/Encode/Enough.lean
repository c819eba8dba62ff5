import WireGrammar.Proofs.Encode.Refinement

/-!
# A codec allows for enough calls

How many calls a codec allows for depends on the depth of the value.  If a value has a layout with
any number of calls at all, it has the same layout with that number, and so it encodes.

* `EncodeOp.layout_of_calls` — an operation keeps its layout if those of its calls that matter keep
  theirs.
* `Program.layout_of_lt` — a layout found with any number of calls is found with enough of them.
* `Codec.encode_of_layout` — hence a value that has a layout at all is encoded as it.
-/

set_option autoImplicit false
namespace WireGrammar

theorem layoutAll_of_items {item item' : Value → Option ByteArray} :
    ∀ {vs : List Value} {b : ByteArray},
      (∀ v ∈ vs, ∀ a, item v = some a → item' v = some a) →
      layoutAll item vs = some b → layoutAll item' vs = some b
  | [], b, _, h => h
  | v :: vs, b, hitem, h => by
    obtain ⟨a, c, ha, hc, rfl⟩ := layoutAll_cons_eq_some h
    have ha' := hitem v List.mem_cons_self a ha
    have hc' := layoutAll_of_items (fun w hw => hitem w (List.mem_cons_of_mem _ hw)) hc
    rw [layoutAll, ha', hc']
    rfl

section Operations

variable {o : Overflow} {lay lay' : String → Option Value → Option ByteArray}

/-- The elements of an array may call anything, since they are less deep. -/
theorem calls_of_item {v : Option Value} {items : List Value}
    (hv : v.getD (.list []) = .list items)
    (hdeep : ∀ name u a, Value.depth? u < Value.depth? v →
      lay name u = some a → lay' name u = some a) {item : Value} (hi : item ∈ items)
    (name : String) (u : Option Value) (a : ByteArray)
    (hu : Value.depth? u ≤ Value.depth? (some item)) : lay name u = some a → lay' name u = some a :=
  hdeep name u a (Nat.lt_of_le_of_lt hu (Value.depth_item_lt hv hi))

mutual

/-- **An operation keeps its layout** if its calls outside arrays keep theirs on values that are not
deeper, and all calls on values that are less deep. -/
theorem EncodeOp.layout_of_calls :
    ∀ (op : EncodeOp) (v : Option Value) {b : ByteArray},
      (∀ name ∈ op.inlineCalls, ∀ u a, Value.depth? u ≤ Value.depth? v →
        lay name u = some a → lay' name u = some a) →
      (∀ name u a, Value.depth? u < Value.depth? v → lay name u = some a → lay' name u = some a) →
      op.layout o lay v = some b → op.layout o lay' v = some b
  | .write p, v, b, _, _, h => by rwa [layout] at h ⊢
  | .writeAlias typeName p, v, b, _, _, h => by rwa [layout] at h ⊢
  | .call name, v, b, hinline, _, h => by
    rw [layout] at h ⊢
    exact hinline name (by simp [inlineCalls]) v b (Nat.le_refl _) h
  | .struct ops, v, b, hinline, hdeep, h => by
    rw [inlineCalls] at hinline
    obtain ⟨fields, hv, h⟩ := layout_struct_eq_some h
    rw [layout, hv]
    exact layoutFields_of_calls ops fields v (Value.depth?_field_le hv) hinline hdeep h
  | .framed framing signed body, v, b, hinline, hdeep, h => by
    rw [inlineCalls] at hinline
    rw [layout] at h ⊢
    split at h
    · next fields hv =>
      obtain ⟨slot, hslot, h⟩ := Option.bind_eq_some_iff.1 h
      obtain ⟨c, hc, h⟩ := Option.bind_eq_some_iff.1 h
      have hc' := layoutFields_of_calls body fields v (Value.depth?_field_le hv) hinline hdeep hc
      exact Option.bind_eq_some_iff.2 ⟨slot, hslot, Option.bind_eq_some_iff.2 ⟨c, hc', h⟩⟩
    · cases h
  | .lengthArray element, v, b, _, hdeep, h => by
    obtain ⟨items, c, hv, hlen, hc, rfl⟩ := layout_lengthArray_eq_some h
    have hc' := layoutAll_of_items (fun item hi _ => layout_of_calls element (some item)
      (fun name _ => calls_of_item hv hdeep hi name)
      (fun name u a hu => calls_of_item hv hdeep hi name u a (Nat.le_of_lt hu))) hc
    simp only [layout, hv, if_pos hlen, hc']
    rfl
  | .sizeArray element, v, b, _, hdeep, h => by
    obtain ⟨items, c, hv, hc, rfl⟩ := layout_sizeArray_eq_some h
    have hc' := layoutAll_of_items (fun item hi _ => layout_of_calls element (some item)
      (fun name _ => calls_of_item hv hdeep hi name)
      (fun name u a hu => calls_of_item hv hdeep hi name u a (Nat.le_of_lt hu))) hc
    simp only [layout, hv, hc']
    rfl
  | .unsupported owner, v, b, _, _, h => by
    rw [layout] at h
    cases h

theorem EncodeOp.layoutFields_of_calls :
    ∀ (ops : List (Field EncodeOp)) (fields : List (Field Value)) (v : Option Value)
      {b : ByteArray},
      (∀ name, Value.depth? (Fields.get? name fields) ≤ Value.depth? v) →
      (∀ name ∈ inlineCallsOfFields ops, ∀ u a, Value.depth? u ≤ Value.depth? v →
        lay name u = some a → lay' name u = some a) →
      (∀ name u a, Value.depth? u < Value.depth? v → lay name u = some a → lay' name u = some a) →
      layoutFields o lay fields ops = some b → layoutFields o lay' fields ops = some b
  | [], fields, v, b, _, _, _, h => by rwa [layoutFields] at h ⊢
  | ⟨name, op⟩ :: ops, fields, v, b, hfields, hinline, hdeep, h => by
    rw [inlineCallsOfFields] at hinline
    have hle := hfields name
    obtain ⟨a, c, ha, hc, rfl⟩ := layoutFields_cons_eq_some h
    have ha' := layout_of_calls op (Fields.get? name fields)
      (fun n hn u a hu => hinline n (List.mem_append_left _ hn) u a (Nat.le_trans hu hle))
      (fun n u a hu => hdeep n u a (Nat.lt_of_lt_of_le hu hle)) ha
    have hc' := layoutFields_of_calls ops fields v hfields
      (fun n hn => hinline n (List.mem_append_right _ hn)) hdeep hc
    rw [layoutFields, ha', hc']
    rfl

end

end Operations

/-- **A layout found with any number of calls is found with enough of them.**  What is enough, and
why, is as in `Program.encode_settles`. -/
theorem Program.layout_of_lt {p : Program} {o : Overflow} {rank : String → Nat}
    (hle : ∀ a, rank a ≤ p.routines.length) (hlt : ∀ a b, p.Inlines a b → rank b < rank a) :
    ∀ {m n : Nat} {name : String} {v : Option Value} {b : ByteArray},
      (p.routines.length + 1) * Value.depth? v + rank name < m →
      p.layout o n name v = some b → p.layout o m name v = some b
  | 0, n, name, v, b, hm, _ => absurd hm (Nat.not_lt_zero _)
  | m + 1, n, name, v, b, hm, h => by
    obtain ⟨n, r, rfl, hr, h⟩ := layout_eq_some h
    rw [layout, hr]
    refine r.encode.layout_of_calls v (fun a ha u c hu => ?_) (fun a u c hu => ?_) h
    · have hrank := hlt name a ⟨r, hr, ha⟩
      have hmul := Nat.mul_le_mul_left (p.routines.length + 1) hu
      exact layout_of_lt hle hlt (by omega)
    · have hrank := hle a
      have hmul := Nat.mul_le_mul_left (p.routines.length + 1) (Nat.succ_le_of_lt hu)
      rw [Nat.mul_succ] at hmul
      exact layout_of_lt hle hlt (by omega)

/-- **A value that has a layout at all is encoded as it.** -/
theorem Codec.encode_of_layout {c : Codec} (hc : c.program.Grounded) {typeName : String} {v : Value}
    {b : ByteArray} {n : Nat} (h : c.program.layout c.overflow n typeName (some v) = some b) :
    c.encode typeName v = .ok b := by
  obtain ⟨rank, hle, hlt⟩ := hc.exists_rank
  refine encode_eq_ok.2 (Program.layout_of_lt hle hlt ?_ h)
  have hrank := hle typeName
  rw [callBound, Value.depth?, Nat.mul_succ]
  omega

end WireGrammar
