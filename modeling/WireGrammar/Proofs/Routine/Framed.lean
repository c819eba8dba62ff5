import WireGrammar.Proofs.Encode.Layout

/-!
# Types that begin with their slot

A struct framed by its size or its checksum begins with the slot that describes the rest, and so
does every type that only gives such a struct another name.

* `Schema.FramedBy` — a declared type is a framed struct, or the name of one, or the name of a name.
* `Program.FramedBy` — the same for routines; it follows for every emitted program
  (`Schema.FramedBy.program`).
* `Program.FramedBy.layout_eq` — the bytes of such a type are its slot and its body.
-/

set_option autoImplicit false
namespace WireGrammar

/-- The type `name` is a struct with the given framing, or a chain of names leads to one. -/
inductive Schema.FramedBy (s : Schema) (framing : Framing) : String → Prop
  | struct {name : String} {d : TypeDecl} {f : Field Ty} (hd : s.get? name = some d)
      (hf : d.type.framingField? = some f) (hname : f.name = framing.fieldName) :
      FramedBy s framing name
  | renames {name target : String} {d : TypeDecl} (hd : s.get? name = some d)
      (ht : d.type = .named target) (h : FramedBy s framing target) : FramedBy s framing name

/-- The routine of `name` writes a slot and a body, or a chain of calls leads to one that does. -/
inductive Program.FramedBy (p : Program) (framing : Framing) : String → Prop
  | struct {name : String} {r : Routine} {signed : Bool} {body : List (Field EncodeOp)}
      (hr : p.routine? name = some r) (he : r.encode = .framed framing signed body) :
      FramedBy p framing name
  | renames {name target : String} {r : Routine} (hr : p.routine? name = some r)
      (he : r.encode = .call target) (h : FramedBy p framing target) : FramedBy p framing name

theorem Ty.exists_of_framingField? {t : Ty} {f : Field Ty} (h : t.framingField? = some f) :
    ∃ fields, t = .struct (f :: fields) := by
  rw [framingField?.eq_def] at h
  split at h
  · next g fields =>
    split at h
    · cases h
      exact ⟨fields, rfl⟩
    · cases h
  · cases h

/-- A struct whose first field asks for a framing is emitted with it. -/
theorem Ty.encodeOp_of_framingField {owner : String} {f : Field Ty} {fields : List (Field Ty)}
    {framing : Framing} (hname : f.name = framing.fieldName) {op : EncodeOp}
    (h : (Ty.struct (f :: fields)).encodeOp owner = .ok op) :
    ∃ signed body, op = .framed framing signed body := by
  have hframing : Framing.ofName? f.name = some framing := by
    rw [hname, Framing.ofName?_fieldName]
  obtain ⟨ops, -, ⟨hnone, -⟩ | ⟨framing', signed, hsome, rfl⟩⟩ := encodeOp_struct_cases h
  · rw [framing?, hframing] at hnone
    simp only at hnone
    split at hnone <;> cases hnone
  · rw [framing?, hframing] at hsome
    simp only at hsome
    split at hsome
    · cases hsome
      exact ⟨_, _, rfl⟩
    · cases hsome

/-- **A framed type has a framed routine.** -/
theorem Schema.FramedBy.program {s : Schema} {verifyCrc : Bool} {p : Program}
    (hp : s.emit verifyCrc = .ok p) {framing : Framing} {name : String}
    (h : s.FramedBy framing name) : p.FramedBy framing name := by
  induction h with
  | @struct name d f hd hf hname =>
    obtain ⟨fields, ht⟩ := Ty.exists_of_framingField? hf
    obtain ⟨r, hr, he⟩ := s.exists_encodeOp_of_get? hp hd (by simp [ht]) (by simp [ht])
    rw [ht] at he
    obtain ⟨signed, body, hop⟩ := Ty.encodeOp_of_framingField hname he
    exact .struct hr hop
  | @renames name target d hd ht _ ih =>
    obtain ⟨r, hr, he⟩ := s.exists_encodeOp_of_get? hp hd (by simp [ht]) (by simp [ht])
    rw [ht] at he
    exact .renames hr (Except.ok.inj he).symm ih

/-- **The bytes of a framed type are its slot and its body.** -/
theorem Program.FramedBy.layout_eq {p : Program} {framing : Framing} {name : String}
    (h : p.FramedBy framing name) {o : Overflow} {fuel : Nat} {v : Option Value} {b : ByteArray}
    (hb : p.layout o fuel name v = some b) :
    ∃ body, b = BigEndian.encode .uint32 (framing.measure body) ++ body := by
  induction h generalizing fuel with
  | struct hr he =>
    obtain ⟨n, t, -, ht, hb⟩ := Program.layout_eq_some hb
    cases hr.symm.trans ht
    rw [he] at hb
    obtain ⟨fields, body, -, -, rfl⟩ := EncodeOp.layout_framed_eq_some hb
    exact ⟨body, rfl⟩
  | renames hr he _ ih =>
    obtain ⟨n, t, -, ht, hb⟩ := Program.layout_eq_some hb
    cases hr.symm.trans ht
    rw [he, EncodeOp.layout] at hb
    exact ih hb

end WireGrammar
