import WireGrammar.Routine.Emit

/-!
# What emission guarantees

Facts about every program that comes out of `Schema.emit`, for the proofs about running it.

* `EncodeOp.mirror` — the decode operation that goes with an encode operation.  The two trees of a
  routine are built apart from each other; `Schema.mirror_of_emit` says that they are mirror images
  all the same.
* `Ty.inlineRefs`, `EncodeOp.inlineCalls`, `DecodeOp.inlineCalls` — the names that are entered
  before any array is.  Emission adds none (`Ty.mem_inlineRefs_of_encodeOp`), and the two trees of a
  routine have the same (`EncodeOp.inlineCalls_mirror`).
* `Ty.Solid`, `EncodeOp.Solid`, `Program.Solid` — no struct is without fields, so every value takes
  bytes.  Emission keeps this (`Ty.solid_encodeOp`).
* `Schema.exists_decl_of_emit` — every routine is the routine of a declaration; the facts above
  reach programs through it.
-/

set_option autoImplicit false
namespace WireGrammar

variable {ε α β : Type}

/-- A step after another one succeeds only if both do. -/
theorem exists_of_bind_eq_ok {x : Except ε α} {f : α → Except ε β} {b : β}
    (h : (x >>= f) = .ok b) : ∃ a, x = .ok a ∧ f a = .ok b := by
  cases x with
  | error e => cases h
  | ok a => exact ⟨a, rfl, h⟩

theorem exists_of_map_eq_ok {x : Except ε α} {f : α → β} {b : β} (h : f <$> x = .ok b) :
    ∃ a, x = .ok a ∧ f a = b := by
  cases x with
  | error e => cases h
  | ok a => exact ⟨a, rfl, Except.ok.inj h⟩

/-! ## The two trees of a routine -/

/-- Is the slot of a framed struct compared with the body?  A size always is. -/
def Framing.verified (verifyCrc : Bool) : Framing → Bool
  | .size => true
  | .crc => verifyCrc

mutual

/-- The decode operation that goes with an encode operation. -/
def EncodeOp.mirror (verifyCrc : Bool) : EncodeOp → DecodeOp
  | .write p => .read p
  | .writeAlias typeName p => .readAlias typeName p
  | .call name => .call name
  | .struct ops => .struct (mirrorFields verifyCrc ops)
  | .framed framing signed body =>
    .framed framing signed (framing.verified verifyCrc) (mirrorFields verifyCrc body)
  | .lengthArray element => .lengthArray (element.mirror verifyCrc)
  | .sizeArray element => .sizeArray (element.mirror verifyCrc)
  | .unsupported owner => .unsupported owner

/-- The decode operations that go with the encode operations of fields. -/
def EncodeOp.mirrorFields (verifyCrc : Bool) : List (Field EncodeOp) → List (Field DecodeOp)
  | [] => []
  | ⟨name, op⟩ :: ops => ⟨name, op.mirror verifyCrc⟩ :: mirrorFields verifyCrc ops

end

theorem EncodeOp.mirrorFields_tail (verifyCrc : Bool) (ops : List (Field EncodeOp)) :
    mirrorFields verifyCrc ops.tail = (mirrorFields verifyCrc ops).tail := by
  cases ops with
  | nil => rfl
  | cons op ops => rfl

/-- What emission makes of a struct: its fields one after the other, or a slot and the fields after
the first. -/
theorem Ty.encodeOp_struct_cases {owner : String} {fields : List (Field Ty)} {op : EncodeOp}
    (h : (Ty.struct fields).encodeOp owner = .ok op) :
    ∃ ops, encodeFields owner fields = .ok ops ∧
      (framing? owner fields = .ok none ∧ op = .struct ops ∨
        ∃ framing signed, framing? owner fields = .ok (some (framing, signed)) ∧
          op = .framed framing signed ops.tail) := by
  rw [encodeOp] at h
  obtain ⟨framing, hframing, h⟩ := exists_of_bind_eq_ok h
  obtain ⟨ops, hops, h⟩ := exists_of_bind_eq_ok h
  refine ⟨ops, hops, ?_⟩
  match framing with
  | none => exact .inl ⟨hframing, (Except.ok.inj h).symm⟩
  | some (framing, signed) => exact .inr ⟨framing, signed, hframing, (Except.ok.inj h).symm⟩

mutual

/-- **The two trees of a type are mirror images.** -/
theorem Ty.decodeOp_of_encodeOp {verifyCrc : Bool} {owner : String} :
    ∀ {t : Ty} {op : EncodeOp}, t.encodeOp owner = .ok op →
      t.decodeOp verifyCrc owner = .ok (op.mirror verifyCrc)
  | .scalar p, op, h => by
    cases h
    rw [decodeOp, EncodeOp.mirror]
  | .named name, op, h => by
    cases h
    rw [decodeOp, EncodeOp.mirror]
  | .struct fields, op, h => by
    obtain ⟨ops, hops, ⟨hframing, rfl⟩ | ⟨framing, signed, hframing, rfl⟩⟩ :=
      encodeOp_struct_cases h
    · rw [decodeOp, hframing, decodeFields_of_encodeFields hops, EncodeOp.mirror]
      rfl
    · rw [decodeOp, hframing, decodeFields_of_encodeFields hops, EncodeOp.mirror,
        EncodeOp.mirrorFields_tail]
      cases framing <;> rfl
  | .array element .length, op, h => by
    rw [encodeOp] at h
    obtain ⟨e, he, rfl⟩ := exists_of_map_eq_ok h
    rw [decodeOp, decodeOp_of_encodeOp he, EncodeOp.mirror]
    rfl
  | .array element .size, op, h => by
    rw [encodeOp] at h
    obtain ⟨e, he, rfl⟩ := exists_of_map_eq_ok h
    rw [decodeOp, decodeOp_of_encodeOp he, EncodeOp.mirror]
    rfl
  | .polymorphic variants, op, h => by
    cases h
    rw [decodeOp, EncodeOp.mirror]

theorem Ty.decodeFields_of_encodeFields {verifyCrc : Bool} {owner : String} :
    ∀ {fields : List (Field Ty)} {ops : List (Field EncodeOp)},
      encodeFields owner fields = .ok ops →
      decodeFields verifyCrc owner fields = .ok (EncodeOp.mirrorFields verifyCrc ops)
  | [], ops, h => by
    cases h
    rw [decodeFields, EncodeOp.mirrorFields]
  | ⟨name, t⟩ :: fs, ops, h => by
    rw [encodeFields] at h
    obtain ⟨op, hop, h⟩ := exists_of_bind_eq_ok h
    obtain ⟨rest, hrest, h⟩ := exists_of_bind_eq_ok h
    cases h
    rw [decodeFields, decodeOp_of_encodeOp hop, decodeFields_of_encodeFields hrest,
      EncodeOp.mirrorFields]
    rfl

end

/-! ## References outside arrays -/

mutual

/-- The names that a type refers to outside every array.  What stands in an alternation does not
count, since no routine ever enters one. -/
def Ty.inlineRefs : Ty → List String
  | .scalar _ | .array .. | .polymorphic _ => []
  | .named name => [name]
  | .struct fields => inlineRefsOfFields fields

/-- The names that the types of fields refer to outside every array. -/
def Ty.inlineRefsOfFields : List (Field Ty) → List String
  | [] => []
  | ⟨_, t⟩ :: fs => t.inlineRefs ++ inlineRefsOfFields fs

end

mutual

/-- The names that an operation calls before it enters any array. -/
def EncodeOp.inlineCalls : EncodeOp → List String
  | .write _ | .writeAlias .. | .lengthArray _ | .sizeArray _ | .unsupported _ => []
  | .call name => [name]
  | .struct ops => inlineCallsOfFields ops
  | .framed _ _ body => inlineCallsOfFields body

/-- The names that the operations of fields call before they enter any array. -/
def EncodeOp.inlineCallsOfFields : List (Field EncodeOp) → List String
  | [] => []
  | ⟨_, op⟩ :: ops => op.inlineCalls ++ inlineCallsOfFields ops

end

mutual

/-- The names that an operation calls before it enters any array. -/
def DecodeOp.inlineCalls : DecodeOp → List String
  | .read _ | .readAlias .. | .lengthArray _ | .sizeArray _ | .unsupported _ => []
  | .call name => [name]
  | .struct ops => inlineCallsOfFields ops
  | .framed _ _ _ body => inlineCallsOfFields body

/-- The names that the operations of fields call before they enter any array. -/
def DecodeOp.inlineCallsOfFields : List (Field DecodeOp) → List String
  | [] => []
  | ⟨_, op⟩ :: ops => op.inlineCalls ++ inlineCallsOfFields ops

end

mutual

theorem EncodeOp.inlineCalls_mirror (verifyCrc : Bool) :
    ∀ op : EncodeOp, (op.mirror verifyCrc).inlineCalls = op.inlineCalls
  | .struct ops => by
    rw [mirror, inlineCalls, DecodeOp.inlineCalls, inlineCallsOfFields_mirrorFields]
  | .framed framing signed body => by
    rw [mirror, inlineCalls, DecodeOp.inlineCalls, inlineCallsOfFields_mirrorFields]
  | .write _ | .writeAlias .. | .call _ | .lengthArray _ | .sizeArray _ | .unsupported _ => by
    simp only [mirror, inlineCalls, DecodeOp.inlineCalls]

theorem EncodeOp.inlineCallsOfFields_mirrorFields (verifyCrc : Bool) :
    ∀ ops : List (Field EncodeOp),
      DecodeOp.inlineCallsOfFields (mirrorFields verifyCrc ops) = inlineCallsOfFields ops
  | [] => by rw [mirrorFields, inlineCallsOfFields, DecodeOp.inlineCallsOfFields]
  | ⟨name, op⟩ :: ops => by
    rw [mirrorFields, inlineCallsOfFields, DecodeOp.inlineCallsOfFields, inlineCalls_mirror,
      inlineCallsOfFields_mirrorFields]

end

theorem EncodeOp.mem_inlineCallsOfFields_tail {name : String} {ops : List (Field EncodeOp)}
    (h : name ∈ inlineCallsOfFields ops.tail) : name ∈ inlineCallsOfFields ops := by
  cases ops with
  | nil => exact h
  | cons op ops =>
    rw [inlineCallsOfFields]
    exact List.mem_append_right _ h

mutual

theorem Ty.mem_inlineRefs_of_encodeOp {owner name : String} :
    ∀ {t : Ty} {op : EncodeOp}, t.encodeOp owner = .ok op → name ∈ op.inlineCalls →
      name ∈ t.inlineRefs
  | .scalar p, op, h, hn => by
    cases h
    simp [EncodeOp.inlineCalls] at hn
  | .named n, op, h, hn => by
    cases h
    rwa [inlineRefs]
  | .struct fields, op, h, hn => by
    rw [inlineRefs]
    obtain ⟨ops, hops, ⟨-, rfl⟩ | ⟨framing, signed, -, rfl⟩⟩ := encodeOp_struct_cases h
    · exact mem_inlineRefsOfFields_of_encodeFields hops hn
    · exact mem_inlineRefsOfFields_of_encodeFields hops
        (EncodeOp.mem_inlineCallsOfFields_tail hn)
  | .array element .length, op, h, hn => by
    rw [encodeOp] at h
    obtain ⟨e, -, rfl⟩ := exists_of_map_eq_ok h
    simp [EncodeOp.inlineCalls] at hn
  | .array element .size, op, h, hn => by
    rw [encodeOp] at h
    obtain ⟨e, -, rfl⟩ := exists_of_map_eq_ok h
    simp [EncodeOp.inlineCalls] at hn
  | .polymorphic variants, op, h, hn => by
    cases h
    simp [EncodeOp.inlineCalls] at hn

theorem Ty.mem_inlineRefsOfFields_of_encodeFields {owner name : String} :
    ∀ {fields : List (Field Ty)} {ops : List (Field EncodeOp)},
      encodeFields owner fields = .ok ops → name ∈ EncodeOp.inlineCallsOfFields ops →
      name ∈ inlineRefsOfFields fields
  | [], ops, h, hn => by
    cases h
    simp [EncodeOp.inlineCallsOfFields] at hn
  | ⟨_, t⟩ :: fs, ops, h, hn => by
    rw [encodeFields] at h
    obtain ⟨op, hop, h⟩ := exists_of_bind_eq_ok h
    obtain ⟨rest, hrest, h⟩ := exists_of_bind_eq_ok h
    cases h
    rw [EncodeOp.inlineCallsOfFields, List.mem_append] at hn
    rw [inlineRefsOfFields, List.mem_append]
    rcases hn with hn | hn
    · exact .inl (mem_inlineRefs_of_encodeOp hop hn)
    · exact .inr (mem_inlineRefsOfFields_of_encodeFields hrest hn)

end

/-! ## Structs without fields -/

mutual

/-- No struct in the type is without fields. -/
def Ty.Solid : Ty → Prop
  | .scalar _ | .named _ | .polymorphic _ => True
  | .struct fields => fields ≠ [] ∧ SolidFields fields
  | .array element _ => element.Solid

/-- No struct in the types of the fields is without fields. -/
def Ty.SolidFields : List (Field Ty) → Prop
  | [] => True
  | ⟨_, t⟩ :: fs => t.Solid ∧ SolidFields fs

end

mutual

/-- No struct that the operation writes is without fields. -/
def EncodeOp.Solid : EncodeOp → Prop
  | .write _ | .writeAlias .. | .call _ | .unsupported _ => True
  | .struct ops => ops ≠ [] ∧ SolidFields ops
  | .framed _ _ body => SolidFields body
  | .lengthArray element | .sizeArray element => element.Solid

/-- No struct that the operations of fields write is without fields. -/
def EncodeOp.SolidFields : List (Field EncodeOp) → Prop
  | [] => True
  | ⟨_, op⟩ :: ops => op.Solid ∧ SolidFields ops

end

theorem EncodeOp.solidFields_tail {ops : List (Field EncodeOp)} (h : SolidFields ops) :
    SolidFields ops.tail := by
  cases ops with
  | nil => exact h
  | cons op ops =>
    rw [SolidFields] at h
    exact h.2

theorem Ty.encodeFields_ne_nil {owner : String} {fields : List (Field Ty)}
    {ops : List (Field EncodeOp)} (h : encodeFields owner fields = .ok ops) (hf : fields ≠ []) :
    ops ≠ [] := by
  cases fields with
  | nil => exact absurd rfl hf
  | cons f fs =>
    rw [encodeFields] at h
    obtain ⟨op, -, h⟩ := exists_of_bind_eq_ok h
    obtain ⟨rest, -, h⟩ := exists_of_bind_eq_ok h
    cases h
    exact List.cons_ne_nil _ _

mutual

theorem Ty.solid_encodeOp {owner : String} :
    ∀ {t : Ty} {op : EncodeOp}, t.encodeOp owner = .ok op → t.Solid → op.Solid
  | .scalar p, op, h, _ => by
    cases h
    rw [EncodeOp.Solid]
    trivial
  | .named n, op, h, _ => by
    cases h
    rw [EncodeOp.Solid]
    trivial
  | .struct fields, op, h, ht => by
    rw [Solid] at ht
    obtain ⟨ops, hops, ⟨-, rfl⟩ | ⟨framing, signed, -, rfl⟩⟩ := encodeOp_struct_cases h
    · rw [EncodeOp.Solid]
      exact ⟨encodeFields_ne_nil hops ht.1, solidFields_encodeFields hops ht.2⟩
    · rw [EncodeOp.Solid]
      exact EncodeOp.solidFields_tail (solidFields_encodeFields hops ht.2)
  | .array element .length, op, h, ht => by
    rw [encodeOp] at h
    obtain ⟨e, he, rfl⟩ := exists_of_map_eq_ok h
    rw [EncodeOp.Solid]
    exact solid_encodeOp he (by rwa [Solid] at ht)
  | .array element .size, op, h, ht => by
    rw [encodeOp] at h
    obtain ⟨e, he, rfl⟩ := exists_of_map_eq_ok h
    rw [EncodeOp.Solid]
    exact solid_encodeOp he (by rwa [Solid] at ht)
  | .polymorphic variants, op, h, _ => by
    cases h
    rw [EncodeOp.Solid]
    trivial

theorem Ty.solidFields_encodeFields {owner : String} :
    ∀ {fields : List (Field Ty)} {ops : List (Field EncodeOp)},
      encodeFields owner fields = .ok ops → SolidFields fields → EncodeOp.SolidFields ops
  | [], ops, h, _ => by
    cases h
    rw [EncodeOp.SolidFields]
    trivial
  | ⟨_, t⟩ :: fs, ops, h, ht => by
    rw [encodeFields] at h
    obtain ⟨op, hop, h⟩ := exists_of_bind_eq_ok h
    obtain ⟨rest, hrest, h⟩ := exists_of_bind_eq_ok h
    cases h
    rw [SolidFields] at ht
    rw [EncodeOp.SolidFields]
    exact ⟨solid_encodeOp hop ht.1, solidFields_encodeFields hrest ht.2⟩

end

/-! ## Programs -/

/-- No struct that a routine writes is without fields. -/
def Program.Solid (p : Program) : Prop :=
  ∀ name r, p.routine? name = some r → r.encode.Solid

/-- A routine belongs to a declaration of its name, which is a scalar or a type with operations of
its own. -/
theorem TypeDecl.routine?_cases {verifyCrc : Bool} {d : TypeDecl} {r : Routine}
    (h : d.routine? verifyCrc = .ok (some r)) :
    r.name = d.name ∧
      ((∃ p, d.type = .scalar p ∧ r.encode = .writeAlias d.name p ∧
          r.decode = .readAlias d.name p) ∨
        (d.type.encodeOp d.name = .ok r.encode ∧
          d.type.decodeOp verifyCrc d.name = .ok r.decode)) := by
  obtain ⟨name, type⟩ := d
  cases type with
  | polymorphic _ => cases h
  | scalar p =>
    cases h
    exact ⟨rfl, .inl ⟨p, rfl, rfl, rfl⟩⟩
  | _ =>
    obtain ⟨e, he, h⟩ := exists_of_bind_eq_ok h
    obtain ⟨d, hd, h⟩ := exists_of_bind_eq_ok h
    cases h
    exact ⟨rfl, .inr ⟨he, hd⟩⟩

/-- Only an alternation has no routine. -/
theorem TypeDecl.routine?_ne_none {d : TypeDecl} (h : ∀ variants, d.type ≠ .polymorphic variants)
    (verifyCrc : Bool) : d.routine? verifyCrc ≠ .ok none := by
  intro hr
  obtain ⟨name, type⟩ := d
  cases type with
  | polymorphic variants => exact h variants rfl
  | scalar p => cases hr
  | _ =>
    obtain ⟨e, -, hr⟩ := exists_of_bind_eq_ok hr
    obtain ⟨d, -, hr⟩ := exists_of_bind_eq_ok hr
    cases hr

namespace Schema

/-- What a declaration adds to the program of the others: its routine, or its name. -/
theorem emitDecls_cons_cases {verifyCrc : Bool} {d : TypeDecl} {ds : List TypeDecl} {p : Program}
    (h : emitDecls verifyCrc (d :: ds) = .ok p) :
    ∃ rest, emitDecls verifyCrc ds = .ok rest ∧
      ((∃ r, d.routine? verifyCrc = .ok (some r) ∧
          p = { rest with routines := r :: rest.routines }) ∨
        (d.routine? verifyCrc = .ok none ∧
          p = { rest with skipped := d.name :: rest.skipped })) := by
  rw [emitDecls] at h
  obtain ⟨routine, hroutine, h⟩ := exists_of_bind_eq_ok h
  obtain ⟨rest, hrest, h⟩ := exists_of_bind_eq_ok h
  refine ⟨rest, hrest, ?_⟩
  match routine with
  | none => exact .inr ⟨hroutine, (Except.ok.inj h).symm⟩
  | some r => exact .inl ⟨r, hroutine, (Except.ok.inj h).symm⟩

theorem exists_decl_of_emitDecls {verifyCrc : Bool} {r : Routine} :
    ∀ {ds : List TypeDecl} {p : Program}, emitDecls verifyCrc ds = .ok p → r ∈ p.routines →
      ∃ d ∈ ds, d.routine? verifyCrc = .ok (some r)
  | [], p, h, hr => by
    cases h
    cases hr
  | d :: ds, p, h, hr => by
    obtain ⟨rest, hrest, hcases⟩ := emitDecls_cons_cases h
    have ih := exists_decl_of_emitDecls (r := r) hrest
    rcases hcases with ⟨r', hr', rfl⟩ | ⟨-, rfl⟩
    · rcases List.mem_cons.1 hr with rfl | hr
      · exact ⟨d, List.mem_cons_self, hr'⟩
      · obtain ⟨d', hd', hr'⟩ := ih hr
        exact ⟨d', List.mem_cons_of_mem _ hd', hr'⟩
    · obtain ⟨d', hd', hr'⟩ := ih hr
      exact ⟨d', List.mem_cons_of_mem _ hd', hr'⟩

/-- The first declaration of a name gives the first routine of that name. -/
theorem routine_of_emitDecls {verifyCrc : Bool} {name : String} {d : TypeDecl}
    (hne : d.routine? verifyCrc ≠ .ok none) :
    ∀ {ds : List TypeDecl} {p : Program}, emitDecls verifyCrc ds = .ok p →
      ds.find? (·.name == name) = some d →
      ∃ r, d.routine? verifyCrc = .ok (some r) ∧ p.routines.find? (·.name == name) = some r
  | [], p, _, hd => by cases hd
  | d' :: ds, p, h, hd => by
    obtain ⟨rest, hrest, hcases⟩ := emitDecls_cons_cases h
    rw [List.find?_cons] at hd
    by_cases hname : d'.name == name
    · rw [hname] at hd
      cases hd
      rcases hcases with ⟨r, hr, rfl⟩ | ⟨hnone, -⟩
      · refine ⟨r, hr, ?_⟩
        rw [List.find?_cons, (TypeDecl.routine?_cases hr).1, hname]
      · exact absurd hnone hne
    · simp only [hname] at hd
      obtain ⟨r, hr, hfind⟩ := routine_of_emitDecls hne hrest hd
      rcases hcases with ⟨r', hr', rfl⟩ | ⟨-, rfl⟩
      · refine ⟨r, hr, ?_⟩
        rw [List.find?_cons, (TypeDecl.routine?_cases hr').1]
        simp only [hname]
        exact hfind
      · exact ⟨r, hr, hfind⟩

variable {s : Schema} {verifyCrc : Bool} {p : Program} {r : Routine} {name : String}

/-- **Every routine is the routine of a declaration.** -/
theorem exists_decl_of_emit (h : s.emit verifyCrc = .ok p) (hr : p.routine? name = some r) :
    ∃ d ∈ s.decls, d.name = name ∧ d.routine? verifyCrc = .ok (some r) := by
  have hname : r.name = name := by simpa using List.find?_some hr
  obtain ⟨d, hd, hdr⟩ := exists_decl_of_emitDecls h (List.mem_of_find?_eq_some hr)
  exact ⟨d, hd, (TypeDecl.routine?_cases hdr).1.symm.trans hname, hdr⟩

/-- **Every declaration but an alternation has its routine.** -/
theorem routine?_of_get? (h : s.emit verifyCrc = .ok p) {d : TypeDecl} (hd : s.get? name = some d)
    (hne : d.routine? verifyCrc ≠ .ok none) :
    ∃ r, d.routine? verifyCrc = .ok (some r) ∧ p.routine? name = some r :=
  routine_of_emitDecls hne h hd

/-- The routine of a declaration that is neither a scalar nor an alternation encodes its type. -/
theorem exists_encodeOp_of_get? (h : s.emit verifyCrc = .ok p) {d : TypeDecl}
    (hd : s.get? name = some d) (hscalar : ∀ q, d.type ≠ .scalar q)
    (hpoly : ∀ variants, d.type ≠ .polymorphic variants) :
    ∃ r, p.routine? name = some r ∧ d.type.encodeOp d.name = .ok r.encode := by
  obtain ⟨r, hdr, hr⟩ := routine?_of_get? h hd (TypeDecl.routine?_ne_none hpoly verifyCrc)
  rcases (TypeDecl.routine?_cases hdr).2 with ⟨q, hq, -⟩ | ⟨he, -⟩
  · exact absurd hq (hscalar q)
  · exact ⟨r, hr, he⟩

/-- **The two trees of every emitted routine are mirror images.** -/
theorem mirror_of_emit (h : s.emit verifyCrc = .ok p) (hr : p.routine? name = some r) :
    r.decode = r.encode.mirror verifyCrc := by
  obtain ⟨d, -, -, hdr⟩ := exists_decl_of_emit h hr
  rcases (TypeDecl.routine?_cases hdr).2 with ⟨q, -, he, hd⟩ | ⟨he, hd⟩
  · rw [he, hd, EncodeOp.mirror]
  · have hmirror : d.type.decodeOp verifyCrc d.name = .ok (r.encode.mirror verifyCrc) :=
      Ty.decodeOp_of_encodeOp he
    exact Except.ok.inj (hd.symm.trans hmirror)

end Schema
end WireGrammar
