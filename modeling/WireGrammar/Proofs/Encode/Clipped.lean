import WireGrammar.Proofs.Encode.Layout

/-!
# Cutting text off beforehand

Where a codec cuts text off that is too long, the bytes are those of another value: the one whose
text has been cut off beforehand.  So what holds of codecs that refuse long text can be carried over
to the others.

* `Value.clip` — the value with every text cut off that is too long; its depth is the same
  (`Value.depth_clip`).
* `Overflow.keep` — the value that a policy really encodes.
* `EncodeOp.layout_clip`, `Program.layout_clip` — its layout is that of the original.
-/

set_option autoImplicit false
namespace WireGrammar

namespace Value

mutual

/-- The value with every text cut off that is too long for its length field. -/
def clip : Value → Value
  | .int k x => .int k x
  | .text s => .text ((Overflow.truncate.kept s).getD s)
  | .bytes b => .bytes b
  | .list items => .list (clipItems items)
  | .struct fields => .struct (clipFields fields)
  | .named typeName v => .named typeName v.clip

/-- The same for the items of a list. -/
def clipItems : List Value → List Value
  | [] => []
  | v :: vs => v.clip :: clipItems vs

/-- The same for the fields of a struct. -/
def clipFields : List (Field Value) → List (Field Value)
  | [] => []
  | ⟨name, v⟩ :: fs => ⟨name, v.clip⟩ :: clipFields fs

end

theorem depth_clip (v : Value) : v.clip.depth = v.depth := by
  refine clip.induct (fun v => v.clip.depth = v.depth)
    (fun fs => fieldsDepth (clipFields fs) = fieldsDepth fs)
    (fun vs => listDepth (clipItems vs) = listDepth vs) ?_ ?_ ?_ ?_ ?_ ?_ ?_ ?_ ?_ ?_ v
  all_goals
    intros
    simp only [clip, clipItems, clipFields, depth, listDepth, fieldsDepth, *]

theorem length_clipItems (vs : List Value) : (clipItems vs).length = vs.length := by
  induction vs with
  | nil => rw [clipItems]
  | cons v vs ih => rw [clipItems, List.length_cons, ih, List.length_cons]

theorem get?_clipFields (name : String) :
    ∀ fs : List (Field Value), Fields.get? name (clipFields fs) = (Fields.get? name fs).map clip
  | [] => by
    rw [clipFields]
    rfl
  | ⟨n, v⟩ :: fs => by
    rw [clipFields, Fields.get?, Fields.get?]
    split
    · rfl
    · exact get?_clipFields name fs

theorem clip_zero (q : Primitive) : (zero q).clip = zero q := by
  cases q with
  | string => rw [zero, clip]; rfl
  | _ => rw [zero, clip]

theorem clip_struct_nil : (struct []).clip = struct [] := by rw [clip, clipFields]

theorem clip_list_nil : (list []).clip = list [] := by rw [clip, clipItems]

/-- Filling in what is missing and cutting text off can be done in either order. -/
theorem getD_map_clip {d : Value} (hd : d.clip = d) (v : Option Value) :
    (v.map clip).getD d = (v.getD d).clip := by
  cases v with
  | none => exact hd.symm
  | some v => rfl

end Value

/-- The value that a policy really encodes. -/
def Overflow.keep : Overflow → Value → Value
  | .reject, v => v
  | .truncate, v => v.clip

theorem Overflow.depth_keep (o : Overflow) (v : Value) : (o.keep v).depth = v.depth := by
  cases o with
  | reject => rfl
  | truncate => exact v.depth_clip

/-! ## Layouts -/

/-- What is kept of a text is kept once more, under either policy. -/
theorem Overflow.kept_clip (s : String) :
    Overflow.reject.kept ((Overflow.truncate.kept s).getD s) = Overflow.truncate.kept s := by
  rw [kept, kept]
  split
  · next h => rw [Option.getD_some, if_pos h]
  · have hle : (Text.clip Writer.maxTextLength s).utf8ByteSize ≤ Writer.maxTextLength := by
      rw [Text.clip_eq]
      exact Text.utf8ByteSize_clipChars_le _ _
    rw [Option.getD_some, if_pos hle]

theorem Primitive.layout_clip (q : Primitive) (v : Value) :
    q.layout .reject v.clip = q.layout .truncate v := by
  cases v with
  | text s =>
    cases q with
    | string => rw [Value.clip, Primitive.layout, Primitive.layout, Overflow.kept_clip]
    | _ => rw [Value.clip]; rfl
  | _ => rw [Value.clip]; cases q <;> rfl

section Operations

variable {lay lay' : String → Option Value → Option ByteArray}

theorem EncodeOp.layoutAll_clip {element : EncodeOp}
    (h : ∀ v, element.layout .reject lay' (some v.clip) = element.layout .truncate lay (some v)) :
    ∀ items : List Value,
      layoutAll (fun item => element.layout .reject lay' (some item)) (Value.clipItems items) =
        layoutAll (fun item => element.layout .truncate lay (some item)) items
  | [] => by rw [Value.clipItems, layoutAll, layoutAll]
  | v :: vs => by rw [Value.clipItems, layoutAll, layoutAll, h v, layoutAll_clip h vs]

mutual

/-- **The layout of a value whose text is cut off** is the layout that cutting text off gives, if
that is so for the routines that are called. -/
theorem EncodeOp.layout_clip (hcall : ∀ name v, lay' name (v.map Value.clip) = lay name v) :
    ∀ (op : EncodeOp) (v : Option Value),
      op.layout .reject lay' (v.map Value.clip) = op.layout .truncate lay v
  | .write q, v => by
    rw [layout, layout, Value.getD_map_clip (Value.clip_zero q), q.layout_clip]
  | .writeAlias typeName q, v => by
    have hzero : (Value.named typeName (.zero q)).clip = .named typeName (.zero q) := by
      rw [Value.clip, Value.clip_zero]
    rw [layout, layout, Value.getD_map_clip hzero]
    cases v.getD (.named typeName (.zero q)) with
    | named found x => simp only [Value.clip, q.layout_clip]
    | _ => simp only [Value.clip]
  | .call name, v => by
    rw [layout, layout]
    exact hcall name v
  | .struct ops, v => by
    rw [layout, layout, Value.getD_map_clip Value.clip_struct_nil]
    cases v.getD (.struct []) with
    | struct fields => simp only [Value.clip, layoutFields_clip hcall fields ops]
    | _ => simp only [Value.clip]
  | .framed framing signed body, v => by
    rw [layout, layout, Value.getD_map_clip Value.clip_struct_nil]
    cases v.getD (.struct []) with
    | struct fields =>
      simp only [Value.clip, Value.get?_clipFields, Value.getD_map_clip (Value.clip_zero _),
        Primitive.layout_clip, layoutFields_clip hcall fields body]
    | _ => simp only [Value.clip]
  | .lengthArray element, v => by
    rw [layout, layout, Value.getD_map_clip Value.clip_list_nil]
    cases v.getD (.list []) with
    | list items =>
      have hitems := layoutAll_clip (fun item => layout_clip hcall element (some item)) items
      simp only [Value.clip, Value.length_clipItems, hitems]
    | _ => simp only [Value.clip]
  | .sizeArray element, v => by
    rw [layout, layout, Value.getD_map_clip Value.clip_list_nil]
    cases v.getD (.list []) with
    | list items =>
      have hitems := layoutAll_clip (fun item => layout_clip hcall element (some item)) items
      simp only [Value.clip, hitems]
    | _ => simp only [Value.clip]
  | .unsupported owner, v => by rw [layout, layout]

theorem EncodeOp.layoutFields_clip
    (hcall : ∀ name v, lay' name (v.map Value.clip) = lay name v) (fields : List (Field Value)) :
    ∀ ops : List (Field EncodeOp),
      layoutFields .reject lay' (Value.clipFields fields) ops =
        layoutFields .truncate lay fields ops
  | [] => by rw [layoutFields, layoutFields]
  | ⟨name, op⟩ :: ops => by
    rw [layoutFields, layoutFields, Value.get?_clipFields, layout_clip hcall op,
      layoutFields_clip hcall fields ops]

end

end Operations

theorem Program.layout_clip (p : Program) :
    ∀ (fuel : Nat) (name : String) (v : Option Value),
      p.layout .reject fuel name (v.map Value.clip) = p.layout .truncate fuel name v
  | 0, name, v => rfl
  | fuel + 1, name, v => by
    rw [layout, layout]
    cases p.routine? name with
    | none => rfl
    | some r => exact r.encode.layout_clip (p.layout_clip fuel) v

/-- **The bytes of a value are those of what the policy really encodes.** -/
theorem EncodeOp.layout_keep (p : Program) (o : Overflow) (fuel : Nat) (op : EncodeOp) (v : Value) :
    op.layout .reject (p.layout .reject fuel) (some (o.keep v)) =
      op.layout o (p.layout o fuel) (some v) := by
  cases o with
  | reject => rfl
  | truncate => exact op.layout_clip (p.layout_clip fuel) (some v)

end WireGrammar
