import WireGrammar.Codec
import WireGrammar.Proofs.Routine.CallGraph

/-!
# How deep encoding goes

Without a reference cycle that avoids every array, encoding a value never runs out of the calls
that `Codec.encodeInto` allows for: every call outside arrays lowers the rank of the type, and every
array lowers the depth of the value.

* `Value.depth?` — the depth of a value that may be missing.
* `EncodeM.Settles` — a step that never fails for want of calls.
* `EncodeOp.run_settles`, `Program.encode_settles` — operations and routines settle.
-/

set_option autoImplicit false
namespace WireGrammar

/-! ## The depth of what is encoded -/

namespace Value

/-- The depth of a value, zero if there is none. -/
def depth? : Option Value → Nat
  | none => 0
  | some v => v.depth

theorem depth_le_listDepth {v : Value} : ∀ {vs : List Value}, v ∈ vs → v.depth ≤ listDepth vs
  | w :: ws, h => by
    rw [listDepth]
    rcases List.mem_cons.1 h with rfl | h
    · exact Nat.le_max_left _ _
    · exact (depth_le_listDepth h).trans (Nat.le_max_right _ _)

theorem depth?_get?_le (name : String) :
    ∀ fields : List (Field Value), depth? (Fields.get? name fields) ≤ fieldsDepth fields
  | [] => Nat.le_refl _
  | ⟨n, v⟩ :: fs => by
    rw [Fields.get?, fieldsDepth]
    split
    · exact Nat.le_max_left _ _
    · exact (depth?_get?_le name fs).trans (Nat.le_max_right _ _)

/-- The fields of a struct are not deeper than the struct, also where the struct is missing. -/
theorem depth?_field_le {v : Option Value} {fields : List (Field Value)}
    (h : v.getD (.struct []) = .struct fields) (name : String) :
    depth? (Fields.get? name fields) ≤ depth? v := by
  cases v with
  | none =>
    cases h
    exact Nat.le_refl _
  | some v =>
    cases h
    rw [depth?, depth]
    exact (depth?_get?_le name fields).trans (Nat.le_succ _)

/-- The items of a list are less deep than the list; a missing list has none. -/
theorem depth_item_lt {v : Option Value} {items : List Value}
    (h : v.getD (.list []) = .list items) {item : Value} (hi : item ∈ items) :
    depth? (some item) < depth? v := by
  cases v with
  | none =>
    cases h
    cases hi
  | some v =>
    cases h
    rw [depth?, depth?, depth]
    exact Nat.lt_succ_of_le (depth_le_listDepth hi)

end Value

/-! ## Steps that settle -/

namespace EncodeM

variable {α β : Type}

/-- The step never fails for want of calls. -/
def Settles (m : EncodeM α) : Prop :=
  ∀ (w : Writer) (name : String), (exec m w).1 ≠ .error (.unbounded name)

theorem settles_pure (a : α) : Settles (pure a) := by
  intro w name h
  cases h

theorem settles_get : Settles (get : EncodeM Writer) := by
  intro w name h
  cases h

theorem settles_modify (f : Writer → Writer) : Settles (modify f) := by
  intro w name h
  cases h

theorem settles_throw {e : CodecError} (he : ∀ name, e ≠ .unbounded name) :
    Settles (throw e : EncodeM α) := by
  intro w name h
  exact he name (Except.error.inj h)

theorem Settles.bind {m : EncodeM α} {k : α → EncodeM β} (hm : Settles m)
    (hk : ∀ a, Settles (k a)) : Settles (m >>= k) := by
  intro w name
  rw [exec_bind]
  have h := hm w name
  generalize exec m w = result at h
  obtain ⟨e | a, w'⟩ := result
  · exact fun he => h (congrArg Except.error (Except.error.inj he))
  · exact hk a w' name

end EncodeM

open EncodeM

theorem settles_mismatch {α : Type} (expected : String) (found : Value) :
    Settles (throw (.mismatch expected found) : EncodeM α) :=
  settles_throw fun _ h => by cases h

theorem putPrimitive_settles (p : Primitive) (v : Value) : Settles (putPrimitive p v) := by
  unfold putPrimitive
  split
  · split
    · exact settles_modify _
    · exact settles_mismatch _ _
  · exact settles_modify _
  · exact settles_modify _
  · exact settles_mismatch _ _

theorem putAll_settles {item : Value → EncodeM Unit} :
    ∀ {vs : List Value}, (∀ v ∈ vs, Settles (item v)) → Settles (putAll item vs)
  | [], _ => settles_pure ()
  | v :: _, h =>
    (h v List.mem_cons_self).bind fun _ =>
      putAll_settles fun w hw => h w (List.mem_cons_of_mem _ hw)

section Operations

variable {call : String → Option Value → EncodeM Unit}

/-- The elements of an array may call anything, since they are less deep. -/
theorem settles_of_item {v : Option Value} {items : List Value}
    (hv : v.getD (.list []) = .list items)
    (hdeep : ∀ name u, Value.depth? u < Value.depth? v → Settles (call name u)) {item : Value}
    (hi : item ∈ items) (name : String) (u : Option Value)
    (hu : Value.depth? u ≤ Value.depth? (some item)) : Settles (call name u) :=
  hdeep name u (Nat.lt_of_le_of_lt hu (Value.depth_item_lt hv hi))

mutual

/-- **An operation settles** if its calls outside arrays do on values that are not deeper, and all
calls do on values that are less deep. -/
theorem EncodeOp.run_settles :
    ∀ (op : EncodeOp) (v : Option Value),
      (∀ name ∈ op.inlineCalls, ∀ u, Value.depth? u ≤ Value.depth? v → Settles (call name u)) →
      (∀ name u, Value.depth? u < Value.depth? v → Settles (call name u)) →
      Settles (op.run call v)
  | .write p, v, _, _ => by
    rw [run]
    exact putPrimitive_settles p _
  | .writeAlias typeName p, v, _, _ => by
    rw [run]
    split
    · split
      · exact putPrimitive_settles p _
      · exact settles_throw fun _ h => by cases h
    · exact settles_mismatch _ _
  | .call name, v, hinline, _ => by
    rw [run]
    exact hinline name (by simp [inlineCalls]) v (Nat.le_refl _)
  | .struct ops, v, hinline, hdeep => by
    rw [run]
    split
    · next fields hv =>
      rw [inlineCalls] at hinline
      exact runFields_settles ops fields v (Value.depth?_field_le hv) hinline hdeep
    · exact settles_mismatch _ _
  | .framed framing signed body, v, hinline, hdeep => by
    rw [run]
    split
    · next fields hv =>
      rw [inlineCalls] at hinline
      refine settles_get.bind fun _ => (putPrimitive_settles _ _).bind fun _ =>
        settles_get.bind fun _ => Settles.bind ?_ fun _ => settles_modify _
      exact runFields_settles body fields v (Value.depth?_field_le hv) hinline hdeep
    · exact settles_mismatch _ _
  | .lengthArray element, v, _, hdeep => by
    rw [run]
    split
    · next items hv =>
      split
      · refine (settles_modify _).bind fun _ => putAll_settles fun item hi => ?_
        exact run_settles element (some item) (fun name _ => settles_of_item hv hdeep hi name)
          fun name u hu => settles_of_item hv hdeep hi name u (Nat.le_of_lt hu)
      · exact settles_throw fun _ h => by cases h
    · exact settles_mismatch _ _
  | .sizeArray element, v, _, hdeep => by
    rw [run]
    split
    · next items hv =>
      refine settles_get.bind fun _ => (settles_modify _).bind fun _ =>
        settles_get.bind fun _ => Settles.bind ?_ fun _ => settles_modify _
      refine putAll_settles fun item hi => ?_
      exact run_settles element (some item) (fun name _ => settles_of_item hv hdeep hi name)
        fun name u hu => settles_of_item hv hdeep hi name u (Nat.le_of_lt hu)
    · exact settles_mismatch _ _
  | .unsupported owner, v, _, _ => by
    rw [run]
    exact settles_throw fun _ h => by cases h

theorem EncodeOp.runFields_settles :
    ∀ (ops : List (Field EncodeOp)) (fields : List (Field Value)) (v : Option Value),
      (∀ name, Value.depth? (Fields.get? name fields) ≤ Value.depth? v) →
      (∀ name ∈ inlineCallsOfFields ops, ∀ u, Value.depth? u ≤ Value.depth? v →
        Settles (call name u)) →
      (∀ name u, Value.depth? u < Value.depth? v → Settles (call name u)) →
      Settles (runFields call fields ops)
  | [], fields, v, _, _, _ => by
    rw [runFields]
    exact settles_pure ()
  | ⟨name, op⟩ :: ops, fields, v, hfields, hinline, hdeep => by
    rw [runFields]
    rw [inlineCallsOfFields] at hinline
    have hle := hfields name
    refine Settles.bind ?_ fun _ => ?_
    · exact run_settles op _
        (fun n hn u hu => hinline n (List.mem_append_left _ hn) u (hu.trans hle))
        (fun n u hu => hdeep n u (hu.trans_le hle))
    · exact runFields_settles ops fields v hfields
        (fun n hn => hinline n (List.mem_append_right _ hn)) hdeep

end

end Operations

/-- **Enough calls for every value.**  A call outside arrays lowers the rank, one in an array the
depth, and no rank is larger than the number of routines. -/
theorem Program.encode_settles {p : Program} {rank : String → Nat}
    (hle : ∀ a, rank a ≤ p.routines.length) (hlt : ∀ a b, p.Inlines a b → rank b < rank a) :
    ∀ (fuel : Nat) (name : String) (v : Option Value),
      (p.routines.length + 1) * Value.depth? v + rank name < fuel →
      Settles (p.encode fuel name v)
  | 0, name, v, h => absurd h (Nat.not_lt_zero _)
  | fuel + 1, name, v, h => by
    rw [encode]
    cases hr : p.routine? name with
    | none =>
      refine settles_throw fun n => ?_
      rw [missing]
      split <;> exact fun he => by cases he
    | some r =>
      refine r.encode.run_settles v (fun b hb u hu => ?_) (fun b u hu => ?_)
      · have hrank := hlt name b ⟨r, hr, hb⟩
        have hmul := Nat.mul_le_mul_left (p.routines.length + 1) hu
        exact encode_settles hle hlt fuel b u (by omega)
      · have hrank := hle b
        have hmul := Nat.mul_le_mul_left (p.routines.length + 1) (Nat.succ_le_of_lt hu)
        rw [Nat.mul_succ] at hmul
        exact encode_settles hle hlt fuel b u (by omega)

/-- **Encoding never runs out of calls**, on any writer. -/
theorem Codec.encodeInto_ne_unbounded {c : Codec} (hc : c.program.Grounded) (typeName : String)
    (v : Value) (w : Writer) (name : String) :
    (c.encodeInto typeName v w).1 ≠ .error (.unbounded name) := by
  obtain ⟨rank, hle, hlt⟩ := hc.exists_rank
  refine Program.encode_settles hle hlt _ typeName (some v) ?_ w name
  have hrank := hle typeName
  rw [callBound, Value.depth?, Nat.mul_succ]
  omega

end WireGrammar
