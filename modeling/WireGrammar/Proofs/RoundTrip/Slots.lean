import WireGrammar.Proofs.Encode.Layout
import WireGrammar.Proofs.Grammar.Distinct

/-!
# Values that differ in slots only

What a value holds in the slot of a framed struct does not go over the wire: the slot is written
from the bytes of the body.

* `EqUpToSlots p op v w` — the values `v` and `w` of the type that `op` encodes have all the fields
  of the type and no others, and are equal but for the slots of framed structs.
* `EqUpToSlots.layout_eq` — such values have the same bytes.
-/

set_option autoImplicit false
namespace WireGrammar

/-! ## Maps from lists of entries -/

namespace Fields

variable {α : Type} {name : String}

/-- Entries of other names do not matter. -/
theorem get?_foldl_insert_of_notMem :
    ∀ {entries : List (Field α)} (acc : List (Field α)), name ∉ entries.map (·.name) →
      get? name (entries.foldl (fun fs f => insert f.name f.val fs) acc) = get? name acc
  | [], acc, _ => rfl
  | f :: entries, acc, h => by
    rw [List.map_cons, List.mem_cons, not_or] at h
    rw [List.foldl_cons, get?_foldl_insert_of_notMem _ h.2, get?_insert, if_neg (Ne.symm h.1)]

/-- **Every entry is found under its name**, if the names are different. -/
theorem get?_foldl_insert :
    ∀ {entries : List (Field α)} (acc : List (Field α)), (entries.map (·.name)).Nodup →
      ∀ f ∈ entries,
        get? f.name (entries.foldl (fun fs f => insert f.name f.val fs) acc) = some f.val
  | g :: entries, acc, hnodup, f, hf => by
    rw [List.map_cons, List.nodup_cons] at hnodup
    rw [List.foldl_cons]
    rcases List.mem_cons.1 hf with rfl | hf
    · rw [get?_foldl_insert_of_notMem _ hnodup.1, get?_insert, if_pos rfl]
    · exact get?_foldl_insert _ hnodup.2 f hf

theorem get?_ofList {entries : List (Field α)} (hnodup : (entries.map (·.name)).Nodup) :
    ∀ f ∈ entries, get? f.name (ofList entries) = some f.val :=
  get?_foldl_insert [] hnodup

/-- The first entry and the others are all found, if no two of them share a name. -/
theorem get?_ofList_cons {x : α} {entries : List (Field α)}
    (hnodup : (name :: entries.map (·.name)).Nodup) :
    get? name (ofList (⟨name, x⟩ :: entries)) = some x ∧
      ∀ f ∈ entries, get? f.name (ofList (⟨name, x⟩ :: entries)) = some f.val := by
  have h := get?_ofList (show ((⟨name, x⟩ :: entries).map (·.name)).Nodup from hnodup)
  exact ⟨h ⟨name, x⟩ List.mem_cons_self, fun f hf => h f (List.mem_cons_of_mem _ hf)⟩

end Fields

/-! ## Equality up to slots -/

mutual

/-- Two values of one type that are equal but for the slots of framed structs. -/
inductive EqUpToSlots (p : Program) : EncodeOp → Value → Value → Prop
  | write (q : Primitive) (v : Value) : EqUpToSlots p (.write q) v v
  | writeAlias (typeName : String) (q : Primitive) (v : Value) :
      EqUpToSlots p (.writeAlias typeName q) v v
  | call {name : String} {t : Routine} {v w : Value} (ht : p.routine? name = some t)
      (h : EqUpToSlots p t.encode v w) : EqUpToSlots p (.call name) v w
  | struct {ops : List (Field EncodeOp)} {es fs : List (Field Value)}
      (h : EqUpToSlotsFields p ops es fs) :
      EqUpToSlots p (.struct ops) (.struct (Fields.ofList es)) (.struct (Fields.ofList fs))
  | framed (framing : Framing) {signed : Bool} (x y : BitVec (IntKind.word signed).bits)
      {body : List (Field EncodeOp)} {es fs : List (Field Value)}
      (h : EqUpToSlotsFields p body es fs) :
      EqUpToSlots p (.framed framing signed body)
        (.struct (Fields.ofList (⟨framing.fieldName, .int (.word signed) x⟩ :: es)))
        (.struct (Fields.ofList (⟨framing.fieldName, .int (.word signed) y⟩ :: fs)))
  | lengthArray {element : EncodeOp} {vs ws : List Value} (h : EqUpToSlotsAll p element vs ws) :
      EqUpToSlots p (.lengthArray element) (.list vs) (.list ws)
  | sizeArray {element : EncodeOp} {vs ws : List Value} (h : EqUpToSlotsAll p element vs ws) :
      EqUpToSlots p (.sizeArray element) (.list vs) (.list ws)

/-- The same for the entries of a struct, one for each operation. -/
inductive EqUpToSlotsFields (p : Program) :
    List (Field EncodeOp) → List (Field Value) → List (Field Value) → Prop
  | nil : EqUpToSlotsFields p [] [] []
  | cons {name : String} {op : EncodeOp} {v w : Value} {ops : List (Field EncodeOp)}
      {es fs : List (Field Value)} (hop : EqUpToSlots p op v w)
      (h : EqUpToSlotsFields p ops es fs) :
      EqUpToSlotsFields p (⟨name, op⟩ :: ops) (⟨name, v⟩ :: es) (⟨name, w⟩ :: fs)

/-- The same for the items of two lists of the same length. -/
inductive EqUpToSlotsAll (p : Program) : EncodeOp → List Value → List Value → Prop
  | nil (element : EncodeOp) : EqUpToSlotsAll p element [] []
  | cons {element : EncodeOp} {v w : Value} {vs ws : List Value} (hv : EqUpToSlots p element v w)
      (h : EqUpToSlotsAll p element vs ws) : EqUpToSlotsAll p element (v :: vs) (w :: ws)

end

variable {p : Program}

/-- The entries on both sides have the names of the operations. -/
theorem EqUpToSlotsFields.map_name_eq :
    ∀ {ops : List (Field EncodeOp)} {es fs : List (Field Value)}, EqUpToSlotsFields p ops es fs →
      es.map (·.name) = ops.map (·.name) ∧ fs.map (·.name) = ops.map (·.name)
  | [], _, _, .nil => ⟨rfl, rfl⟩
  | _ :: _, _, _, .cons _ h => by
    obtain ⟨hes, hfs⟩ := h.map_name_eq
    exact ⟨by rw [List.map_cons, hes, List.map_cons], by rw [List.map_cons, hfs, List.map_cons]⟩

theorem EqUpToSlotsAll.length_eq :
    ∀ {element : EncodeOp} {vs ws : List Value}, EqUpToSlotsAll p element vs ws →
      vs.length = ws.length
  | _, [], [], .nil _ => rfl
  | _, _ :: _, _ :: _, .cons _ h => congrArg Nat.succ h.length_eq

/-- A slot of the right kind is not looked at any further. -/
theorem EncodeOp.layout_framed_of_slot {o : Overflow}
    {lay : String → Option Value → Option ByteArray} {framing : Framing} {signed : Bool}
    {body : List (Field EncodeOp)} {fields : List (Field Value)}
    {x : BitVec (IntKind.word signed).bits}
    (hx : Fields.get? framing.fieldName fields = some (.int (.word signed) x)) :
    (framed framing signed body).layout o lay (some (.struct fields)) =
      (layoutFields o lay fields body).map fun b =>
        BigEndian.encode .uint32 (framing.measure b) ++ b := by
  simp only [layout, Option.getD_some, hx, Primitive.layout, dif_pos]
  cases layoutFields o lay fields body <;> rfl

mutual

/-- **Values that differ in slots only have the same bytes.** -/
theorem EqUpToSlots.layout_eq (hp : p.Distinct) (o : Overflow) {op : EncodeOp} {v w : Value} :
    EqUpToSlots p op v w → op.Distinct → ∀ fuel : Nat,
      op.layout o (p.layout o fuel) (some v) = op.layout o (p.layout o fuel) (some w)
  | .write q v, _, fuel => rfl
  | .writeAlias typeName q v, _, fuel => rfl
  | .call ht h, _, fuel => by
    rw [EncodeOp.layout, EncodeOp.layout]
    cases fuel with
    | zero => rfl
    | succ fuel =>
      rw [Program.layout, Program.layout, ht]
      exact h.layout_eq hp o (hp _ _ ht) fuel
  | .struct h, hop, fuel => by
    rw [EncodeOp.Distinct] at hop
    obtain ⟨hes, hfs⟩ := h.map_name_eq
    rw [EncodeOp.layout, EncodeOp.layout]
    exact h.layoutFields_eq hp o hop.2 fuel (Fields.get?_ofList (by rw [hes]; exact hop.1))
      (Fields.get?_ofList (by rw [hfs]; exact hop.1))
  | .framed framing x y h, hop, fuel => by
    rw [EncodeOp.Distinct] at hop
    obtain ⟨hes, hfs⟩ := h.map_name_eq
    obtain ⟨hx, hgetx⟩ := Fields.get?_ofList_cons (x := Value.int _ x) (by rw [hes]; exact hop.1)
    obtain ⟨hy, hgety⟩ := Fields.get?_ofList_cons (x := Value.int _ y) (by rw [hfs]; exact hop.1)
    rw [EncodeOp.layout_framed_of_slot hx, EncodeOp.layout_framed_of_slot hy,
      h.layoutFields_eq hp o hop.2 fuel hgetx hgety]
  | .lengthArray h, hop, fuel => by
    rw [EncodeOp.Distinct] at hop
    simp only [EncodeOp.layout, Option.getD_some, h.length_eq, h.layoutAll_eq hp o hop fuel]
  | .sizeArray h, hop, fuel => by
    rw [EncodeOp.Distinct] at hop
    simp only [EncodeOp.layout, Option.getD_some, h.layoutAll_eq hp o hop fuel]

theorem EqUpToSlotsFields.layoutFields_eq (hp : p.Distinct) (o : Overflow)
    {ops : List (Field EncodeOp)} {es fs : List (Field Value)} :
    EqUpToSlotsFields p ops es fs → EncodeOp.DistinctFields ops → ∀ (fuel : Nat)
      {fields fields' : List (Field Value)},
      (∀ f ∈ es, Fields.get? f.name fields = some f.val) →
      (∀ f ∈ fs, Fields.get? f.name fields' = some f.val) →
      EncodeOp.layoutFields o (p.layout o fuel) fields ops =
        EncodeOp.layoutFields o (p.layout o fuel) fields' ops
  | .nil, _, fuel, fields, fields', _, _ => by rw [EncodeOp.layoutFields, EncodeOp.layoutFields]
  | .cons hv h, hops, fuel, fields, fields', hes, hfs => by
    rw [EncodeOp.DistinctFields] at hops
    rw [EncodeOp.layoutFields, EncodeOp.layoutFields, hes _ List.mem_cons_self,
      hfs _ List.mem_cons_self, hv.layout_eq hp o hops.1 fuel,
      h.layoutFields_eq hp o hops.2 fuel (fun f hf => hes f (List.mem_cons_of_mem _ hf))
        (fun f hf => hfs f (List.mem_cons_of_mem _ hf))]

theorem EqUpToSlotsAll.layoutAll_eq (hp : p.Distinct) (o : Overflow) {element : EncodeOp}
    {vs ws : List Value} :
    EqUpToSlotsAll p element vs ws → element.Distinct → ∀ fuel : Nat,
      layoutAll (fun item => element.layout o (p.layout o fuel) (some item)) vs =
        layoutAll (fun item => element.layout o (p.layout o fuel) (some item)) ws
  | .nil _, _, fuel => rfl
  | .cons hv h, hop, fuel => by
    rw [layoutAll, layoutAll, hv.layout_eq hp o hop fuel, h.layoutAll_eq hp o hop fuel]

end

end WireGrammar
