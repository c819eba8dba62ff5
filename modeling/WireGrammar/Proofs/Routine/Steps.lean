import WireGrammar.Listing
import WireGrammar.Proofs.Routine.Emission

/-!
# The steps of a routine

An encode tree and a decode tree hold a framed struct as one operation.  Here each tree is spelled
out in the steps that a listing shows: the fields of a struct, and between them the steps that
reserve a slot, mark where the body starts, fill the slot in or verify it.  A step that moves data
is the same whichever way the data goes, so that two trees can be compared.

* `Step`, `EncodeOp.steps`, `DecodeOp.steps` — the steps; `EncodeOp.toJson_eq` and
  `DecodeOp.toJson_eq` say that they are what is listed.
* `Step.bare` — the steps without those that frame.
* `Step.structs` — the steps of every struct in a tree, and `Direction.Frames`, where the steps of
  one struct frame it as its first field asks.
* `Ty.plan` — the bare steps that a type asks for.
* `Ty.steps` — the steps that it asks for in one direction; `Ty.bare_steps` and `Ty.frames_steps`
  say that they are the plan, framed.
-/

set_option autoImplicit false
namespace WireGrammar

/-- A step of a routine. -/
inductive Step where
  /-- Write or read a primitive. -/
  | move (p : Primitive)
  /-- Write or read a primitive that is a value of the scalar declaration `typeName`. -/
  | moveAlias (typeName : String) (p : Primitive)
  | call (name : String)
  | struct (steps : List Step)
  | field (name : String) (op : Step)
  | reserveSlot
  | markStart
  | backpatch (framing : Framing)
  | verify (framing : Framing) (slot : String)
  | lengthArray (element : Step)
  | sizeArray (element : Step)
  | unsupported (owner : String)

/-- Which way the data goes. -/
inductive Direction where
  | encode
  | decode (verifyCrc : Bool)

/-! ## Spelling out trees -/

mutual

/-- The steps of an encode operation. -/
def EncodeOp.steps : EncodeOp → Step
  | .write p => .move p
  | .writeAlias typeName p => .moveAlias typeName p
  | .call name => .call name
  | .struct ops => .struct (fieldsSteps ops)
  | .framed framing signed body =>
    .struct ([.reserveSlot, .field framing.fieldName (.move (.int (.word signed))), .markStart]
      ++ fieldsSteps body ++ [.backpatch framing])
  | .lengthArray element => .lengthArray element.steps
  | .sizeArray element => .sizeArray element.steps
  | .unsupported owner => .unsupported owner

/-- The steps of the encode operations of fields. -/
def EncodeOp.fieldsSteps : List (Field EncodeOp) → List Step
  | [] => []
  | ⟨name, op⟩ :: ops => .field name op.steps :: fieldsSteps ops

end

mutual

/-- The steps of a decode operation. -/
def DecodeOp.steps : DecodeOp → Step
  | .read p => .move p
  | .readAlias typeName p => .moveAlias typeName p
  | .call name => .call name
  | .struct ops => .struct (fieldsSteps ops)
  | .framed framing signed verify body =>
    .struct ([.field framing.fieldName (.move (.int (.word signed))), .markStart]
      ++ fieldsSteps body ++ if verify then [.verify framing framing.fieldName] else [])
  | .lengthArray element => .lengthArray element.steps
  | .sizeArray element => .sizeArray element.steps
  | .unsupported owner => .unsupported owner

/-- The steps of the decode operations of fields. -/
def DecodeOp.fieldsSteps : List (Field DecodeOp) → List Step
  | [] => []
  | ⟨name, op⟩ :: ops => .field name op.steps :: fieldsSteps ops

end

/-! ## What is listed -/

/-- How a listing calls the move of a primitive. -/
def Direction.verb : Direction → String
  | .encode => "write"
  | .decode _ => "read"

mutual

/-- A step in a listing. -/
def Step.toJson (dir : Direction) : Step → Json
  | .move p => tagged dir.verb (.str p.name)
  | .moveAlias typeName p => tagged (dir.verb ++ "_alias") (aliasJson typeName p)
  | .call name => tagged "call" (.str name)
  | .struct steps => tagged "struct" (.arr (listToJson dir steps))
  | .field name op => fieldStep name (op.toJson dir)
  | .reserveSlot => .str "reserve_slot"
  | .markStart => .str "mark_start"
  | .backpatch framing => tagged "backpatch" (.str framing.name)
  | .verify framing slot =>
    tagged "verify" (.obj [⟨"framing", .str framing.name⟩, ⟨"field", .str slot⟩])
  | .lengthArray element => tagged "length_array" (element.toJson dir)
  | .sizeArray element => tagged "size_array" (element.toJson dir)
  | .unsupported owner => tagged "unsupported" (.str owner)

/-- Several steps in a listing. -/
def Step.listToJson (dir : Direction) : List Step → List Json
  | [] => []
  | s :: ss => s.toJson dir :: listToJson dir ss

end

theorem Step.listToJson_append (dir : Direction) (ss ss' : List Step) :
    listToJson dir (ss ++ ss') = listToJson dir ss ++ listToJson dir ss' := by
  induction ss with
  | nil => rfl
  | cons s ss ih => rw [List.cons_append, listToJson, listToJson, ih, List.cons_append]

mutual

/-- **What is listed of an encode tree is its steps.** -/
theorem EncodeOp.toJson_eq : ∀ op : EncodeOp, op.toJson = op.steps.toJson .encode
  | .call _ | .unsupported _ => by
    rw [toJson, steps, Step.toJson]
  | .write _ | .writeAlias .. => by
    rw [toJson, steps, Step.toJson]
    rfl
  | .struct ops => by
    rw [toJson, steps, Step.toJson, fieldSteps_eq ops]
  | .framed framing signed body => by
    rw [toJson, steps, Step.toJson, Step.listToJson_append, Step.listToJson_append,
      fieldSteps_eq body]
    rfl
  | .lengthArray element => by
    rw [toJson, steps, Step.toJson, toJson_eq element]
  | .sizeArray element => by
    rw [toJson, steps, Step.toJson, toJson_eq element]

theorem EncodeOp.fieldSteps_eq :
    ∀ ops : List (Field EncodeOp), fieldSteps ops = Step.listToJson .encode (fieldsSteps ops)
  | [] => by
    rw [fieldSteps, fieldsSteps, Step.listToJson]
  | ⟨name, op⟩ :: ops => by
    rw [fieldSteps, fieldsSteps, Step.listToJson, Step.toJson, toJson_eq op, fieldSteps_eq ops]

end

mutual

/-- **What is listed of a decode tree is its steps.** -/
theorem DecodeOp.toJson_eq (verifyCrc : Bool) :
    ∀ op : DecodeOp, op.toJson = op.steps.toJson (.decode verifyCrc)
  | .call _ | .unsupported _ => by
    rw [toJson, steps, Step.toJson]
  | .read _ | .readAlias .. => by
    rw [toJson, steps, Step.toJson]
    rfl
  | .struct ops => by
    rw [toJson, steps, Step.toJson, fieldSteps_eq verifyCrc ops]
  | .framed framing signed verify body => by
    rw [toJson, steps, Step.toJson, Step.listToJson_append, Step.listToJson_append,
      fieldSteps_eq verifyCrc body]
    cases verify <;> rfl
  | .lengthArray element => by
    rw [toJson, steps, Step.toJson, toJson_eq verifyCrc element]
  | .sizeArray element => by
    rw [toJson, steps, Step.toJson, toJson_eq verifyCrc element]

theorem DecodeOp.fieldSteps_eq (verifyCrc : Bool) :
    ∀ ops : List (Field DecodeOp),
      fieldSteps ops = Step.listToJson (.decode verifyCrc) (fieldsSteps ops)
  | [] => by
    rw [fieldSteps, fieldsSteps, Step.listToJson]
  | ⟨name, op⟩ :: ops => by
    rw [fieldSteps, fieldsSteps, Step.listToJson, Step.toJson, toJson_eq verifyCrc op,
      fieldSteps_eq verifyCrc ops]

end

/-! ## Steps that frame -/

namespace Step

/-- Does the step serve the framing of a struct? -/
def isFraming : Step → Bool
  | .reserveSlot | .markStart | .backpatch _ | .verify .. => true
  | _ => false

/-- The name of the field that the step handles. -/
def fieldName? : Step → Option String
  | .field name _ => some name
  | _ => none

mutual

/-- The step without those inside it that frame. -/
def bare : Step → Step
  | .struct steps => .struct (bareAll steps)
  | .field name op => .field name op.bare
  | .lengthArray element => .lengthArray element.bare
  | .sizeArray element => .sizeArray element.bare
  | s => s

/-- The steps that do not frame, each without those inside it that frame. -/
def bareAll : List Step → List Step
  | [] => []
  | s :: ss => if s.isFraming then bareAll ss else s.bare :: bareAll ss

end

mutual

/-- The steps of every struct in a step. -/
def structs : Step → List (List Step)
  | .struct steps => steps :: structsAll steps
  | .field _ op => op.structs
  | .lengthArray element | .sizeArray element => element.structs
  | _ => []

/-- The steps of every struct in some steps. -/
def structsAll : List Step → List (List Step)
  | [] => []
  | s :: ss => s.structs ++ structsAll ss

end

end Step

namespace Direction

/-- The steps before the slot. -/
def opening : Direction → List Step
  | .encode => [.reserveSlot]
  | .decode _ => []

/-- The steps after the body. -/
def closing : Direction → Framing → List Step
  | .encode, framing => [.backpatch framing]
  | .decode verifyCrc, framing =>
    if framing.verified verifyCrc then [.verify framing framing.fieldName] else []

/-- Steps that frame stand in a struct exactly if its first field asks for a framing, and then they
are those of that framing. -/
def Frames (dir : Direction) (steps : List Step) : Prop :=
  steps.filter (·.isFraming) =
    match (steps.findSome? (·.fieldName?)).bind Framing.ofName? with
    | none => []
    | some framing => dir.opening ++ [.markStart] ++ dir.closing framing

/-- The steps of a struct with those of its framing put between them. -/
def frame (dir : Direction) : Option Framing → List Step → List Step
  | some framing, first :: rest =>
    dir.opening ++ first :: .markStart :: (rest ++ dir.closing framing)
  | _, steps => steps

end Direction

/-! ## The steps that a type asks for -/

mutual

/-- The bare steps that a type asks for. -/
def Ty.plan (owner : String) : Ty → Step
  | .scalar p => .move p
  | .named name => .call name
  | .struct fields => .struct (planFields owner fields)
  | .array element .length => .lengthArray (element.plan owner)
  | .array element .size => .sizeArray (element.plan owner)
  | .polymorphic _ => .unsupported owner

/-- The bare steps that fields ask for. -/
def Ty.planFields (owner : String) : List (Field Ty) → List Step
  | [] => []
  | ⟨name, t⟩ :: fs => .field name (t.plan owner) :: planFields owner fs

end

mutual

/-- The steps that a type asks for in one direction. -/
def Ty.steps (dir : Direction) (owner : String) : Ty → Step
  | .scalar p => .move p
  | .named name => .call name
  | .struct fields =>
    .struct (dir.frame ((fields.head?.map (·.name)).bind Framing.ofName?)
      (fieldsSteps dir owner fields))
  | .array element .length => .lengthArray (element.steps dir owner)
  | .array element .size => .sizeArray (element.steps dir owner)
  | .polymorphic _ => .unsupported owner

/-- The steps that fields ask for. -/
def Ty.fieldsSteps (dir : Direction) (owner : String) : List (Field Ty) → List Step
  | [] => []
  | ⟨name, t⟩ :: fs => .field name (t.steps dir owner) :: fieldsSteps dir owner fs

end

/-! ## The plan, framed -/

namespace Step

theorem bareAll_append (ss ss' : List Step) : bareAll (ss ++ ss') = bareAll ss ++ bareAll ss' := by
  induction ss with
  | nil => rfl
  | cons s ss ih =>
    rw [List.cons_append, bareAll, bareAll]
    split
    · exact ih
    · rw [ih, List.cons_append]

theorem structsAll_append (ss ss' : List Step) :
    structsAll (ss ++ ss') = structsAll ss ++ structsAll ss' := by
  induction ss with
  | nil => rfl
  | cons s ss ih => rw [List.cons_append, structsAll, structsAll, ih, List.append_assoc]

variable {ss : List Step}

theorem bareAll_eq_nil (h : ∀ s ∈ ss, s.isFraming) : bareAll ss = [] := by
  induction ss with
  | nil => rfl
  | cons s ss ih =>
    obtain ⟨hs, hss⟩ := List.forall_mem_cons.1 h
    rw [bareAll, if_pos hs, ih hss]

theorem structsAll_eq_nil (h : ∀ s ∈ ss, s.isFraming) : structsAll ss = [] := by
  induction ss with
  | nil => rfl
  | cons s ss ih =>
    obtain ⟨hs, hss⟩ := List.forall_mem_cons.1 h
    have hstructs : s.structs = [] := by
      cases s <;> first | rfl | cases hs
    rw [structsAll, hstructs, ih hss, List.nil_append]

theorem findSome?_fieldName?_eq_none (h : ∀ s ∈ ss, s.isFraming) :
    ss.findSome? (·.fieldName?) = none := by
  refine List.findSome?_eq_none_iff.2 fun s hs => ?_
  have hframing := h s hs
  cases s <;> first | rfl | cases hframing

end Step

namespace Direction

variable (dir : Direction) (framing : Framing)

theorem isFraming_opening : ∀ s ∈ dir.opening, s.isFraming := by
  cases dir with
  | encode => exact List.forall_mem_singleton.2 rfl
  | decode verifyCrc => nofun

theorem isFraming_closing : ∀ s ∈ dir.closing framing, s.isFraming := by
  cases dir with
  | encode => exact List.forall_mem_singleton.2 rfl
  | decode verifyCrc =>
    rw [closing]
    split
    · exact List.forall_mem_singleton.2 rfl
    · nofun

/-- Framing adds steps that frame. -/
theorem bareAll_frame (f : Option Framing) (ss : List Step) :
    Step.bareAll (dir.frame f ss) = Step.bareAll ss := by
  rw [frame.eq_def]
  split
  · next framing first rest =>
    rw [Step.bareAll_append, Step.bareAll_eq_nil dir.isFraming_opening, List.nil_append,
      Step.bareAll, Step.bareAll, Step.bareAll_append,
      Step.bareAll_eq_nil (dir.isFraming_closing framing), List.append_nil, Step.bareAll]
    rfl
  · rfl

/-- Framing adds no struct. -/
theorem structsAll_frame (f : Option Framing) (ss : List Step) :
    Step.structsAll (dir.frame f ss) = Step.structsAll ss := by
  rw [frame.eq_def]
  split
  · next framing first rest =>
    rw [Step.structsAll_append, Step.structsAll_eq_nil dir.isFraming_opening, List.nil_append,
      Step.structsAll, Step.structsAll, Step.structsAll_append,
      Step.structsAll_eq_nil (dir.isFraming_closing framing), List.append_nil, Step.structsAll]
    rfl
  · rfl

/-- Framing adds no field. -/
theorem findSome?_frame (f : Option Framing) (ss : List Step) :
    (dir.frame f ss).findSome? (·.fieldName?) = ss.findSome? (·.fieldName?) := by
  rw [frame.eq_def]
  split
  · next framing first rest =>
    rw [List.findSome?_append, Step.findSome?_fieldName?_eq_none dir.isFraming_opening,
      Option.none_or, List.findSome?_cons, List.findSome?_cons, List.findSome?_cons,
      List.findSome?_append, Step.findSome?_fieldName?_eq_none (dir.isFraming_closing framing),
      Option.or_none]
    rfl
  · rfl

/-- Fields are framed as the first of them asks. -/
theorem frames_frame {ss : List Step} (hss : ∀ s ∈ ss, s.isFraming = false) :
    dir.Frames (dir.frame ((ss.findSome? (·.fieldName?)).bind Framing.ofName?) ss) := by
  rw [Frames, findSome?_frame]
  have hnone : ss.filter (·.isFraming) = [] :=
    List.filter_eq_nil_iff.2 fun s hs => by simp [hss s hs]
  cases hf : (ss.findSome? (·.fieldName?)).bind Framing.ofName? with
  | none => exact hnone
  | some framing =>
    cases ss with
    | nil => cases hf
    | cons first rest =>
      obtain ⟨hfirst, hrest⟩ := List.forall_mem_cons.1 hss
      rw [List.filter_cons_of_neg (by simp [hfirst])] at hnone
      rw [frame, List.filter_append, List.filter_eq_self.2 dir.isFraming_opening,
        List.filter_cons_of_neg (by simp [hfirst]), List.filter_cons_of_pos rfl,
        List.filter_append, hnone, List.filter_eq_self.2 (dir.isFraming_closing framing)]
      simp

end Direction

mutual

/-- **Without the steps that frame, a type's steps are its plan.** -/
theorem Ty.bare_steps (dir : Direction) (owner : String) :
    ∀ t : Ty, (t.steps dir owner).bare = t.plan owner
  | .scalar _ | .named _ | .polymorphic _ => by
    rw [steps, plan, Step.bare]
    all_goals nofun
  | .struct fields => by
    rw [steps, plan, Step.bare, Direction.bareAll_frame, bareAll_fieldsSteps dir owner fields]
  | .array element .length | .array element .size => by
    rw [steps, plan, Step.bare, bare_steps dir owner element]

theorem Ty.bareAll_fieldsSteps (dir : Direction) (owner : String) :
    ∀ fields : List (Field Ty),
      Step.bareAll (fieldsSteps dir owner fields) = planFields owner fields
  | [] => by
    rw [fieldsSteps, planFields, Step.bareAll]
  | ⟨name, t⟩ :: fs => by
    rw [fieldsSteps, planFields, Step.bareAll, Step.bare, bare_steps dir owner t,
      bareAll_fieldsSteps dir owner fs]
    rfl

end

theorem Ty.isFraming_of_mem_fieldsSteps {dir : Direction} {owner : String}
    {fields : List (Field Ty)} : ∀ s ∈ fieldsSteps dir owner fields, s.isFraming = false := by
  induction fields with
  | nil => nofun
  | cons f fs ih =>
    rw [fieldsSteps]
    exact List.forall_mem_cons.2 ⟨rfl, ih⟩

theorem Ty.findSome?_fieldsSteps (dir : Direction) (owner : String) (fields : List (Field Ty)) :
    (fieldsSteps dir owner fields).findSome? (·.fieldName?) = fields.head?.map (·.name) := by
  cases fields with
  | nil => rfl
  | cons f fs => rfl

mutual

/-- **Every struct among a type's steps is framed as its first field asks.** -/
theorem Ty.frames_steps {dir : Direction} {owner : String} :
    ∀ {t : Ty}, ∀ ss ∈ (t.steps dir owner).structs, dir.Frames ss
  | .scalar _ | .named _ | .polymorphic _ => by
    rw [steps, Step.structs]
    all_goals nofun
  | .struct fields => by
    rw [steps, Step.structs, Direction.structsAll_frame, ← findSome?_fieldsSteps dir owner]
    exact List.forall_mem_cons.2
      ⟨dir.frames_frame isFraming_of_mem_fieldsSteps, frames_fieldsSteps⟩
  | .array element .length | .array element .size => by
    rw [steps, Step.structs]
    exact frames_steps

theorem Ty.frames_fieldsSteps {dir : Direction} {owner : String} :
    ∀ {fields : List (Field Ty)}, ∀ ss ∈ Step.structsAll (fieldsSteps dir owner fields),
      dir.Frames ss
  | [] => by
    rw [fieldsSteps, Step.structsAll]
    nofun
  | ⟨name, t⟩ :: fs => by
    rw [fieldsSteps, Step.structsAll, Step.structs]
    exact List.forall_mem_append.2 ⟨frames_steps, frames_fieldsSteps⟩

end

end WireGrammar
