import WireGrammar.Codec
import WireGrammar.Proofs.Routine.Emission

/-!
# The layout of a value

The bytes of a value, put together from the bytes of its parts.  A writer fills the slot of a
framed struct or of a size array after the fact; here nothing is ever overwritten, because the
bytes that a slot describes are known before the slot is written.

* `Primitive.layout` — the bytes of a primitive; `none` for a value of another kind and for text
  or bytes that are too long.
* `EncodeOp.layout` — the bytes that an operation makes of a value.  As in `EncodeOp.run`, no value
  (`none`) stands for the zero value of the type.
* `Program.layout`, `Codec.layout` — the bytes of a value as a declared type.
* `Program.layout_pos` — if no struct is without fields, every value takes at least one byte.

That a writer ends up with exactly these bytes is shown in `WireGrammar.Proofs.Encode.Refinement`.
-/

set_option autoImplicit false
namespace WireGrammar

/-- Bytes behind their number. -/
def BigEndian.counted (k : IntKind) (b : ByteArray) : ByteArray :=
  encode k (BitVec.ofNat k.bits b.size) ++ b

/-- What is written of a text: all of it if it fits its length field, else what the policy says. -/
def Overflow.kept (o : Overflow) (s : String) : Option String :=
  if s.utf8ByteSize ≤ Writer.maxTextLength then some s
  else
    match o with
    | .reject => none
    | .truncate => some (Text.clip Writer.maxTextLength s)

/-- The bytes of a value as a primitive. -/
def Primitive.layout (o : Overflow) : Primitive → Value → Option ByteArray
  | .int k, .int l x => if h : l = k then some (BigEndian.encode k (h ▸ x)) else none
  | .string, .text s => (o.kept s).map fun t => BigEndian.counted .uint16 t.toUTF8
  | .bytes, .bytes b =>
    if b.size ≤ Writer.maxCount then some (BigEndian.counted .int32 b) else none
  | _, _ => none

/-- The bytes of the values of a list one after the other. -/
def layoutAll (item : Value → Option ByteArray) : List Value → Option ByteArray
  | [] => some .empty
  | v :: vs => do
    let b ← item v
    let bs ← layoutAll item vs
    return b ++ bs

mutual

/-- The bytes of a value.  `call` gives the bytes of a value as another type. -/
def EncodeOp.layout (o : Overflow) (call : String → Option Value → Option ByteArray) :
    EncodeOp → Option Value → Option ByteArray
  | .write p, v => p.layout o (v.getD (.zero p))
  | .writeAlias typeName p, v =>
    match v.getD (.named typeName (.zero p)) with
    | .named found x => if found = typeName then p.layout o x else none
    | _ => none
  | .call name, v => call name v
  | .struct ops, v =>
    match v.getD (.struct []) with
    | .struct fields => layoutFields o call fields ops
    | _ => none
  | .framed framing signed body, v =>
    match v.getD (.struct []) with
    | .struct fields => do
      let word := Primitive.int (.word signed)
      -- the value given for the slot must be of its kind, but is not what goes over the wire
      let _ ← word.layout o ((Fields.get? framing.fieldName fields).getD (.zero word))
      let b ← layoutFields o call fields body
      return BigEndian.encode .uint32 (framing.measure b) ++ b
    | _ => none
  | .lengthArray element, v =>
    match v.getD (.list []) with
    | .list items =>
      if items.length ≤ Writer.maxCount then do
        let b ← layoutAll (fun item => element.layout o call (some item)) items
        return BigEndian.encode .int32 (BitVec.ofNat 32 items.length) ++ b
      else none
    | _ => none
  | .sizeArray element, v =>
    match v.getD (.list []) with
    | .list items => do
      let b ← layoutAll (fun item => element.layout o call (some item)) items
      return BigEndian.encode .uint32 (BitVec.ofNat 32 b.size) ++ b
    | _ => none
  | .unsupported _, _ => none

/-- The bytes of the given fields of a struct in the order of the operations. -/
def EncodeOp.layoutFields (o : Overflow) (call : String → Option Value → Option ByteArray)
    (fields : List (Field Value)) : List (Field EncodeOp) → Option ByteArray
  | [] => some .empty
  | ⟨name, op⟩ :: ops => do
    let b ← op.layout o call (Fields.get? name fields)
    let bs ← layoutFields o call fields ops
    return b ++ bs

end

/-- The bytes of a value as the type `name`; without a value, of its zero value. -/
def Program.layout (p : Program) (o : Overflow) : Nat → String → Option Value → Option ByteArray
  | 0, _, _ => none
  | fuel + 1, name, v =>
    match p.routine? name with
    | some r => r.encode.layout o (p.layout o fuel) v
    | none => none

/-- The bytes of a value as the type `typeName`. -/
def Codec.layout (c : Codec) (o : Overflow) (typeName : String) (v : Value) : Option ByteArray :=
  c.program.layout o (c.callBound * (v.depth + 1)) typeName (some v)

/-! ## What has a layout -/

/-- The layout of a list is the layout of its first value before that of the others. -/
theorem layoutAll_cons_eq_some {item : Value → Option ByteArray} {v : Value} {vs : List Value}
    {b : ByteArray} (h : layoutAll item (v :: vs) = some b) :
    ∃ a c, item v = some a ∧ layoutAll item vs = some c ∧ b = a ++ c := by
  obtain ⟨a, ha, h⟩ := Option.bind_eq_some_iff.1 h
  obtain ⟨c, hc, h⟩ := Option.bind_eq_some_iff.1 h
  cases h
  exact ⟨a, c, ha, hc, rfl⟩

namespace EncodeOp

variable {o : Overflow} {call : String → Option Value → Option ByteArray} {v : Option Value}
  {b : ByteArray}

theorem layoutFields_cons_eq_some {fields : List (Field Value)} {name : String} {op : EncodeOp}
    {ops : List (Field EncodeOp)} (h : layoutFields o call fields (⟨name, op⟩ :: ops) = some b) :
    ∃ a c, op.layout o call (Fields.get? name fields) = some a ∧
      layoutFields o call fields ops = some c ∧ b = a ++ c := by
  rw [layoutFields] at h
  obtain ⟨a, ha, h⟩ := Option.bind_eq_some_iff.1 h
  obtain ⟨c, hc, h⟩ := Option.bind_eq_some_iff.1 h
  cases h
  exact ⟨a, c, ha, hc, rfl⟩

theorem layout_writeAlias_eq_some {typeName : String} {p : Primitive}
    (h : (writeAlias typeName p).layout o call v = some b) :
    ∃ x, v.getD (.named typeName (.zero p)) = .named typeName x ∧ p.layout o x = some b := by
  rw [layout] at h
  split at h
  · next found x hv =>
    split at h
    · next hname => exact ⟨x, by rw [hv, hname], h⟩
    · cases h
  · cases h

theorem layout_struct_eq_some {ops : List (Field EncodeOp)}
    (h : (struct ops).layout o call v = some b) :
    ∃ fields, v.getD (.struct []) = .struct fields ∧ layoutFields o call fields ops = some b := by
  rw [layout] at h
  split at h
  · next fields hv => exact ⟨fields, hv, h⟩
  · cases h

/-- The layout of a framed struct is what its body measures and then the body. -/
theorem layout_framed_eq_some {framing : Framing} {signed : Bool} {body : List (Field EncodeOp)}
    (h : (framed framing signed body).layout o call v = some b) :
    ∃ fields c, v.getD (.struct []) = .struct fields ∧ layoutFields o call fields body = some c ∧
      b = BigEndian.encode .uint32 (framing.measure c) ++ c := by
  rw [layout] at h
  split at h
  · next fields hv =>
    obtain ⟨_, -, h⟩ := Option.bind_eq_some_iff.1 h
    obtain ⟨c, hc, h⟩ := Option.bind_eq_some_iff.1 h
    cases h
    exact ⟨fields, c, hv, hc, rfl⟩
  · cases h

theorem layout_lengthArray_eq_some {element : EncodeOp}
    (h : (lengthArray element).layout o call v = some b) :
    ∃ items c, v.getD (.list []) = .list items ∧ items.length ≤ Writer.maxCount ∧
      layoutAll (fun item => element.layout o call (some item)) items = some c ∧
      b = BigEndian.encode .int32 (BitVec.ofNat 32 items.length) ++ c := by
  rw [layout] at h
  split at h
  · next items hv =>
    split at h
    · next hlen =>
      obtain ⟨c, hc, h⟩ := Option.bind_eq_some_iff.1 h
      cases h
      exact ⟨items, c, hv, hlen, hc, rfl⟩
    · cases h
  · cases h

theorem layout_sizeArray_eq_some {element : EncodeOp}
    (h : (sizeArray element).layout o call v = some b) :
    ∃ items c, v.getD (.list []) = .list items ∧
      layoutAll (fun item => element.layout o call (some item)) items = some c ∧
      b = BigEndian.encode .uint32 (BitVec.ofNat 32 c.size) ++ c := by
  rw [layout] at h
  split at h
  · next items hv =>
    obtain ⟨c, hc, h⟩ := Option.bind_eq_some_iff.1 h
    cases h
    exact ⟨items, c, hv, hc, rfl⟩
  · cases h

end EncodeOp

theorem Program.layout_eq_some {p : Program} {o : Overflow} {fuel : Nat} {name : String}
    {v : Option Value} {b : ByteArray} (h : p.layout o fuel name v = some b) :
    ∃ n r, fuel = n + 1 ∧ p.routine? name = some r ∧
      r.encode.layout o (p.layout o n) v = some b := by
  cases fuel with
  | zero => cases h
  | succ n =>
    rw [layout] at h
    split at h
    · next r hr => exact ⟨n, r, rfl, hr, h⟩
    · cases h

/-! ## Every value takes bytes -/

theorem IntKind.bytes_pos (k : IntKind) : 0 < k.bytes := by
  obtain ⟨signed, width⟩ := k
  cases width with
  | w8 => exact Nat.one_pos
  | w16 => exact Nat.two_pos
  | w32 => exact Nat.succ_pos 3
  | w64 => exact Nat.succ_pos 7

theorem BigEndian.size_encode_append_pos (k : IntKind) (x : BitVec k.bits) (b : ByteArray) :
    0 < (encode k x ++ b).size := by
  rw [ByteArray.size_append, size_encode]
  exact Nat.add_pos_left k.bytes_pos _

theorem Primitive.layout_pos {o : Overflow} {p : Primitive} {v : Value} {b : ByteArray}
    (h : p.layout o v = some b) : 0 < b.size := by
  revert h
  fun_cases Primitive.layout o p v with
  | case1 k x =>
    rintro ⟨⟩
    rw [BigEndian.size_encode]
    exact k.bytes_pos
  | case2 k l x hne => exact fun h => nomatch h
  | case3 s =>
    intro h
    obtain ⟨t, -, rfl⟩ := Option.map_eq_some_iff.1 h
    exact BigEndian.size_encode_append_pos _ _ _
  | case4 c hc =>
    rintro ⟨⟩
    exact BigEndian.size_encode_append_pos _ _ _
  | case5 c hc => exact fun h => nomatch h
  | case6 => exact fun h => nomatch h

namespace EncodeOp

variable {o : Overflow} {call : String → Option Value → Option ByteArray}

/-- An operation that writes no empty struct takes bytes, if the routines that it calls do. -/
theorem layout_pos (hcall : ∀ name v b, call name v = some b → 0 < b.size) :
    ∀ {op : EncodeOp} {v : Option Value} {b : ByteArray}, op.Solid →
      op.layout o call v = some b → 0 < b.size
  | .write p, v, b, _, h => by
    rw [layout] at h
    exact Primitive.layout_pos h
  | .writeAlias typeName p, v, b, _, h => by
    obtain ⟨x, -, h⟩ := layout_writeAlias_eq_some h
    exact Primitive.layout_pos h
  | .call name, v, b, _, h => by
    rw [layout] at h
    exact hcall name v b h
  | .struct [], v, b, hsolid, h => by
    rw [Solid] at hsolid
    exact absurd rfl hsolid.1
  | .struct (⟨name, op⟩ :: ops), v, b, hsolid, h => by
    rw [Solid, SolidFields] at hsolid
    obtain ⟨fields, -, h⟩ := layout_struct_eq_some h
    obtain ⟨a, c, ha, -, rfl⟩ := layoutFields_cons_eq_some h
    rw [ByteArray.size_append]
    exact Nat.add_pos_left (layout_pos hcall hsolid.2.1 ha) _
  | .framed framing signed body, v, b, _, h => by
    obtain ⟨fields, c, -, -, rfl⟩ := layout_framed_eq_some h
    exact BigEndian.size_encode_append_pos _ _ _
  | .lengthArray element, v, b, _, h => by
    obtain ⟨items, c, -, -, -, rfl⟩ := layout_lengthArray_eq_some h
    exact BigEndian.size_encode_append_pos _ _ _
  | .sizeArray element, v, b, _, h => by
    obtain ⟨items, c, -, -, rfl⟩ := layout_sizeArray_eq_some h
    exact BigEndian.size_encode_append_pos _ _ _
  | .unsupported owner, v, b, _, h => by
    rw [layout] at h
    cases h

end EncodeOp

/-- **Every value takes bytes.**  This is a fact about the whole program: a value may begin with a
call of another routine. -/
theorem Program.layout_pos {p : Program} (hp : p.Solid) {o : Overflow} :
    ∀ {fuel : Nat} {name : String} {v : Option Value} {b : ByteArray},
      p.layout o fuel name v = some b → 0 < b.size
  | 0, name, v, b, h => by cases h
  | fuel + 1, name, v, b, h => by
    obtain ⟨n, r, hn, hr, h⟩ := Program.layout_eq_some h
    cases hn
    exact EncodeOp.layout_pos (fun _ _ _ => p.layout_pos hp) (hp name r hr) h

end WireGrammar
