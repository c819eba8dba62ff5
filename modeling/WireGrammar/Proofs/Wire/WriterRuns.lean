import WireGrammar.Proofs.RoundTrip.Codec
import WireGrammar.Proofs.Wire.ReaderRuns

/-!
# Runs of a writer

A message written by hand is a sequence of typed writes, with patches in between that fill in a
word once it is known.  A reader that asks for the same types in the same order gets back what was
written.

* `Writer.Item`, `Writer.Op` — what one write puts down, and a call of the writer.
* `Writer.call_put`, `Writer.size_run`, `Writer.error_run` — what one write does, and what all of
  them leave.
* `Writer.finalItems` — what was written, with every word as the last patch left it.
* `Writer.Tidy` — a patch does nothing, or hits a whole word.
* `Writer.bytes_run_of_tidy` — the bytes are those of the final items one after the other.
* `Writer.read_back_run` — so they are read back.
-/

set_option autoImplicit false
namespace WireGrammar
namespace Writer

/-! ## Items -/

/-- What one typed write puts down. -/
inductive Item where
  | int (k : IntKind) (x : BitVec k.bits)
  | text (s : String)
  | bytes (b : ByteArray)

namespace Item

/-- The type that a reader has to ask for. -/
def primitive : Item → Primitive
  | .int k _ => .int k
  | .text _ => .string
  | .bytes _ => .bytes

/-- What a reader should get. -/
def value : Item → Value
  | .int k x => .int k x
  | .text s => .text s
  | .bytes b => .bytes b

/-- How many bytes the item takes.  Text and byte sequences stand behind their length. -/
def width : Item → Nat
  | .int k _ => k.bytes
  | .text s => 2 + s.utf8ByteSize
  | .bytes b => 4 + b.size

/-- The bytes of the item. -/
def encoding : Item → ByteArray
  | .int k x => BigEndian.encode k x
  | .text s => BigEndian.counted .uint16 s.toUTF8
  | .bytes b => BigEndian.counted .int32 b

/-- Why the item is refused, if it is too long for its length field. -/
def refusal? : Item → Option EncodeError
  | .int _ _ => none
  | .text s => if s.utf8ByteSize ≤ maxTextLength then none else some (.stringTooLong s.utf8ByteSize)
  | .bytes b => if b.size ≤ maxCount then none else some (.bytesTooLong b.size)

/-- Give a word other bits; it stays signed or unsigned.  Nothing else can be patched. -/
def patch : Item → BitVec 32 → Item
  | .int ⟨signed, .w32⟩ _, x => .int (.word signed) x
  | i, _ => i

theorem patch_eq_or (i : Item) :
    (∀ x, i.patch x = i) ∨ ∃ signed y, i = .int (.word signed) y := by
  cases i with
  | int k y =>
    obtain ⟨signed, width⟩ := k
    cases width with
    | w32 => exact .inr ⟨signed, y, rfl⟩
    | _ => exact .inl fun _ => rfl
  | _ => exact .inl fun _ => rfl

theorem width_patch (i : Item) (x : BitVec 32) : (i.patch x).width = i.width := by
  obtain h | ⟨signed, y, rfl⟩ := i.patch_eq_or
  · rw [h]
  · rfl

theorem primitive_patch (i : Item) (x : BitVec 32) : (i.patch x).primitive = i.primitive := by
  obtain h | ⟨signed, y, rfl⟩ := i.patch_eq_or
  · rw [h]
  · rfl

theorem refusal?_patch (i : Item) (x : BitVec 32) : (i.patch x).refusal? = i.refusal? := by
  obtain h | ⟨signed, y, rfl⟩ := i.patch_eq_or
  · rw [h]
  · rfl

theorem patch_patch (i : Item) (x y : BitVec 32) : (i.patch x).patch y = i.patch y := by
  obtain h | ⟨signed, z, rfl⟩ := i.patch_eq_or
  · rw [h]
  · rfl

/-- Fewer than four bytes are no word. -/
theorem patch_of_width_lt {i : Item} (h : i.width < 4) (x : BitVec 32) : i.patch x = i := by
  obtain hi | ⟨signed, y, rfl⟩ := i.patch_eq_or
  · exact hi x
  · exact absurd h (Nat.lt_irrefl 4)

theorem width_pos (i : Item) : 0 < i.width := by
  cases i with
  | int k x => exact k.bytes_pos
  | _ => exact Nat.add_pos_left (by decide) _

theorem size_encoding (i : Item) : i.encoding.size = i.width := by
  cases i with
  | int k x => exact BigEndian.size_encode k x
  | text s => exact BigEndian.size_counted .uint16 s.toUTF8
  | bytes b => exact BigEndian.size_counted .int32 b

/-- The bytes of an item that is not refused are the layout of its value. -/
theorem layout_eq {i : Item} (h : i.refusal? = none) :
    i.primitive.layout .reject i.value = some i.encoding := by
  cases i with
  | int k x => exact dif_pos rfl
  | text s =>
    rw [refusal?] at h
    split at h
    · next hs => simp only [primitive, value, Primitive.layout, Overflow.kept, if_pos hs]; rfl
    · cases h
  | bytes b =>
    rw [refusal?] at h
    split at h
    · next hb => exact if_pos hb
    · cases h

end Item

/-- The bytes of items one after the other. -/
def encodings : List Item → ByteArray
  | [] => .empty
  | i :: items => i.encoding ++ encodings items

theorem encodings_append (front back : List Item) :
    encodings (front ++ back) = encodings front ++ encodings back := by
  induction front with
  | nil => exact ByteArray.empty_append.symm
  | cons i front ih => rw [List.cons_append, encodings, encodings, ih, ByteArray.append_assoc]

theorem size_encodings (items : List Item) :
    (encodings items).size = (items.map Item.width).sum := by
  induction items with
  | nil => rfl
  | cons i items ih =>
    rw [encodings, ByteArray.size_append, i.size_encoding, ih, List.map_cons, List.sum_cons]

/-- **Items are read back** by asking for their types. -/
theorem run_read_encodings {r : Reader} {items : List Item} (h : r.Faces (encodings items))
    (hitems : ∀ i ∈ items, i.refusal? = none) :
    r.run (items.map fun i => .read i.primitive) =
      (items.map (some ·.value), r.skip (encodings items).size) := by
  induction items generalizing r with
  | nil => rfl
  | cons i items ih =>
    obtain ⟨hi, hitems⟩ := List.forall_mem_cons.1 hitems
    have hcall : r.call (.read i.primitive) = (some i.value, r.skip i.encoding.size) := by
      rw [Reader.call, h.left.readPrimitive (Item.layout_eq hi)]
    rw [List.map_cons, Reader.run_cons, hcall, ih h.right hitems, encodings, Reader.skip_append]
    rfl

/-! ## Calls -/

/-- One call of a writer. -/
inductive Op where
  | put (i : Item)
  /-- Overwrite four bytes.  Signed or not, a word is patched by its bits. -/
  | patch (offset : Nat) (x : BitVec 32)

namespace Op

/-- What the call writes. -/
def item? : Op → Option Item
  | .put i => some i
  | .patch _ _ => none

/-- What the call writes, unless it is refused. -/
def accepted? : Op → Option Item
  | .put i => if i.refusal? = none then some i else none
  | .patch _ _ => none

/-- Why the call is refused. -/
def refusal? : Op → Option EncodeError
  | .put i => i.refusal?
  | .patch _ _ => none

end Op

/-- The writer after a call. -/
def call (w : Writer) : Op → Writer
  | .put (.int k x) => w.putInt k x
  | .put (.text s) => w.putText s
  | .put (.bytes b) => w.putBytes b
  | .patch offset x => w.patch offset x

/-- The writer after calls one after the other. -/
def run (w : Writer) (ops : List Op) : Writer :=
  ops.foldl call w

theorem run_cons (w : Writer) (op : Op) (ops : List Op) : w.run (op :: ops) = (w.call op).run ops :=
  rfl

theorem run_append (w : Writer) (ops ops' : List Op) : w.run (ops ++ ops') = (w.run ops).run ops' :=
  List.foldl_append

/-! ## What one call does -/

variable {w : Writer}

/-- What a write does to any writer that rejects what is too long. -/
def Item.output (i : Item) : Output :=
  match i.refusal? with
  | none => { bytes := i.encoding }
  | some e => { refused := some e }

theorem eq_extend_of_appends {f : Writer → Writer} {o : Overflow} {out : Output}
    (h : EncodeM.Appends (modify f) o out) (hw : w.overflow = o) : f w = w.extend out :=
  (Prod.mk.inj (h w hw)).2

theorem call_put (hw : w.overflow = .reject) (i : Item) : w.call (.put i) = w.extend i.output := by
  refine eq_extend_of_appends (f := (call · (.put i))) ?_ hw
  cases i with
  | int k x => exact EncodeM.appends_append (BigEndian.encode k x)
  | text s =>
    by_cases hs : s.utf8ByteSize ≤ maxTextLength
    · rw [Item.output, Item.refusal?, if_pos hs]
      exact appends_putText_of_le .reject hs
    · rw [Item.output, Item.refusal?, if_neg hs]
      exact appends_putText_reject (Nat.lt_of_not_le hs)
  | bytes b =>
    have h := appends_putBytes .reject b
    by_cases hb : b.size ≤ maxCount
    · rw [Item.output, Item.refusal?, if_pos hb]
      rwa [if_pos hb] at h
    · rw [Item.output, Item.refusal?, if_neg hb]
      rwa [if_neg hb] at h

theorem patch_of_lt {offset : Nat} (h : w.size < offset + 4) (x : BitVec 32) :
    w.patch offset x = w :=
  if_neg (Nat.not_le_of_lt h)

theorem overflow_call (hw : w.overflow = .reject) (op : Op) : (w.call op).overflow = .reject := by
  cases op with
  | put i => rwa [call_put hw]
  | patch offset x =>
    rw [call, Writer.patch]
    split <;> exact hw

theorem error_call (hw : w.overflow = .reject) (op : Op) :
    (w.call op).error = w.error.or op.refusal? := by
  cases op with
  | put i =>
    rw [call_put hw]
    show w.error.or i.output.refused = w.error.or i.refusal?
    rw [Item.output]
    cases i.refusal? <;> rfl
  | patch offset x => rw [call, error_patch, Op.refusal?, Option.or_none]

theorem size_call (hw : w.overflow = .reject) (op : Op) :
    (w.call op).size = w.size + op.accepted?.elim 0 Item.width := by
  cases op with
  | put i =>
    rw [call_put hw]
    show (w.bytes ++ i.output.bytes).size = _
    rw [ByteArray.size_append, Item.output, Op.accepted?]
    cases i.refusal? with
    | none => exact congrArg (w.size + ·) i.size_encoding
    | some e => rfl
  | patch offset x => exact size_patch w offset x

/-! ## What a run leaves -/

theorem overflow_run (hw : w.overflow = .reject) (ops : List Op) :
    (w.run ops).overflow = .reject := by
  induction ops generalizing w with
  | nil => exact hw
  | cons op ops ih => exact ih (overflow_call hw op)

/-- The first refusal stays. -/
theorem error_run (hw : w.overflow = .reject) (ops : List Op) :
    (w.run ops).error = w.error.or (ops.findSome? Op.refusal?) := by
  induction ops generalizing w with
  | nil => exact Option.or_none.symm
  | cons op ops ih =>
    rw [run_cons, ih (overflow_call hw op), error_call hw, Option.or_assoc, List.findSome?_cons]
    cases op.refusal? <;> rfl

theorem size_run (hw : w.overflow = .reject) (ops : List Op) :
    (w.run ops).size = w.size + ((ops.filterMap Op.accepted?).map Item.width).sum := by
  induction ops generalizing w with
  | nil => rfl
  | cons op ops ih =>
    rw [run_cons, ih (overflow_call hw op), size_call hw, Nat.add_assoc]
    cases h : op.accepted? with
    | none => rw [List.filterMap_cons_none h, Option.elim_none, Nat.zero_add]
    | some i =>
      rw [List.filterMap_cons_some h, Option.elim_some, List.map_cons, List.sum_cons]

/-! ## Patches -/

/-- The last word that was patched in at the offset. -/
def lastPatch? (offset : Nat) (ops : List Op) : Option (BitVec 32) :=
  (ops.filterMap fun
    | .patch offset' x => if offset' = offset then some x else none
    | .put _ => none).getLast?

/-- What was written from the offset on, where a word that was patched later has the bits of the
last patch. -/
def finalItems (offset : Nat) : List Op → List Item
  | [] => []
  | .put i :: ops => (lastPatch? offset ops).elim i i.patch :: finalItems (offset + i.width) ops
  | .patch _ _ :: ops => finalItems offset ops

/-- Coming after `before`, the call is a write, or a patch that reaches past the end, or one that
goes to the offset of a 32-bit integer. -/
def Op.Lands (before : List Op) : Op → Prop
  | .put _ => True
  | .patch offset _ => (({} : Writer).run before).size < offset + 4 ∨
      ∃ earlier signed y later, before = earlier ++ .put (.int (.word signed) y) :: later ∧
        (({} : Writer).run earlier).size = offset

/-- After the calls `before`, every patch does nothing when it comes, or hits a 32-bit integer. -/
def Tidy (before : List Op) : List Op → Prop
  | [] => True
  | op :: ops => op.Lands before ∧ Tidy (before ++ [op]) ops

theorem tidy_concat {before ops : List Op} {op : Op} :
    Tidy before (ops ++ [op]) ↔ Tidy before ops ∧ op.Lands (before ++ ops) := by
  induction ops generalizing before with
  | nil => rw [List.append_nil]; exact and_comm
  | cons op' ops ih =>
    rw [List.cons_append, Tidy, Tidy, ih, and_assoc, List.append_assoc]
    rfl

theorem lastPatch?_put (offset : Nat) (ops : List Op) (i : Item) :
    lastPatch? offset (ops ++ [.put i]) = lastPatch? offset ops := by
  simp [lastPatch?]

theorem lastPatch?_patch (offset : Nat) (ops : List Op) (offset' : Nat) (x : BitVec 32) :
    lastPatch? offset (ops ++ [.patch offset' x]) =
      if offset' = offset then some x else lastPatch? offset ops := by
  by_cases h : offset' = offset <;> simp [lastPatch?, h]

/-- A patch after everything else has been written: `start` is where the items start. -/
def amend (offset : Nat) (x : BitVec 32) (start : Nat) : List Item → List Item
  | [] => []
  | i :: items =>
    (if offset = start then i.patch x else i) :: amend offset x (start + i.width) items

theorem finalItems_put (start : Nat) (ops : List Op) (i : Item) :
    finalItems start (ops ++ [.put i]) = finalItems start ops ++ [i] := by
  induction ops generalizing start with
  | nil => rfl
  | cons op ops ih =>
    cases op with
    | put j => rw [List.cons_append, finalItems, finalItems, ih, lastPatch?_put, List.cons_append]
    | patch offset x => exact ih start

theorem Item.width_elim_patch (i : Item) (p : Option (BitVec 32)) :
    (p.elim i i.patch).width = i.width := by
  cases p with
  | none => rfl
  | some x => exact i.width_patch x

theorem finalItems_patch (start : Nat) (ops : List Op) (offset : Nat) (x : BitVec 32) :
    finalItems start (ops ++ [.patch offset x]) = amend offset x start (finalItems start ops) := by
  induction ops generalizing start with
  | nil => rfl
  | cons op ops ih =>
    cases op with
    | put i =>
      rw [List.cons_append, finalItems, finalItems, amend, ih, lastPatch?_patch,
        Item.width_elim_patch]
      congr 1
      split
      · cases lastPatch? start ops with
        | none => rfl
        | some y => exact (i.patch_patch y x).symm
      · rfl
    | patch offset' y => exact ih start

/-! ## A patch in the middle -/

section Amend

variable {offset start : Nat} {items : List Item}

theorem amend_append (offset : Nat) (x : BitVec 32) (start : Nat) (front back : List Item) :
    amend offset x start (front ++ back) =
      amend offset x start front ++
        amend offset x (start + (front.map Item.width).sum) back := by
  induction front generalizing start with
  | nil => rfl
  | cons i front ih =>
    rw [List.cons_append, amend, ih, amend, List.map_cons, List.sum_cons, Nat.add_assoc,
      List.cons_append]

theorem amend_of_lt (h : offset < start) (x : BitVec 32) : amend offset x start items = items := by
  induction items generalizing start with
  | nil => rfl
  | cons i items ih => rw [amend, ih (Nat.lt_add_right _ h), if_neg (Nat.ne_of_lt h)]

/-- A patch that reaches past the end leaves every item as it is. -/
theorem amend_of_sum_lt (h : start + (items.map Item.width).sum < offset + 4) (x : BitVec 32) :
    amend offset x start items = items := by
  induction items generalizing start with
  | nil => rfl
  | cons i items ih =>
    rw [List.map_cons, List.sum_cons] at h
    rw [amend, ih (by omega)]
    by_cases hstart : offset = start
    · rw [if_pos hstart, Item.patch_of_width_lt (by omega)]
    · rw [if_neg hstart]

/-- A patch of the word behind `front` gives it other bits. -/
theorem amend_word (front back : List Item) (signed : Bool)
    (y : BitVec (IntKind.word signed).bits) (x : BitVec 32) :
    amend (front.map Item.width).sum x 0 (front ++ .int (.word signed) y :: back) =
      front ++ .int (.word signed) x :: back := by
  rw [amend_append, Nat.zero_add, amend_of_sum_lt (by omega), amend, if_pos rfl,
    amend_of_lt (Nat.lt_add_of_pos_right (Item.width_pos _))]
  rfl

theorem bytes_patch_word {front back : List Item} {signed : Bool}
    {y : BitVec (IntKind.word signed).bits}
    (hw : w.bytes = encodings (front ++ .int (.word signed) y :: back)) (x : BitVec 32) :
    (w.patch (front.map Item.width).sum x).bytes =
      encodings (front ++ .int (.word signed) x :: back) := by
  obtain ⟨bytes, overflow, error⟩ := w
  have hsize : (BigEndian.encode (.word signed) y).size = 4 := BigEndian.size_encode _ _
  have h := patch_append (encodings front) _ (encodings back) overflow error hsize x
  simp only [encodings_append, encodings, Item.encoding, ← ByteArray.append_assoc] at hw ⊢
  rw [← size_encodings, hw, h]
  rfl

end Amend

/-! ## What is in the bytes -/

section FinalItems

variable {ops : List Op}

theorem filterMap_item?_put (i : Item) (ops : List Op) :
    (.put i :: ops).filterMap Op.item? = i :: ops.filterMap Op.item? := rfl

/-- What a patch cannot change is as it was written. -/
theorem map_finalItems {β : Type} {f : Item → β} (hf : ∀ i x, f (i.patch x) = f i) (start : Nat)
    (ops : List Op) : (finalItems start ops).map f = (ops.filterMap Op.item?).map f := by
  induction ops generalizing start with
  | nil => rfl
  | cons op ops ih =>
    cases op with
    | put i =>
      rw [finalItems, List.map_cons, ih, filterMap_item?_put, List.map_cons]
      congr 1
      cases lastPatch? start ops with
      | none => rfl
      | some x => exact hf i x
    | patch offset x => exact ih start

/-- A word that was written is still there, after the items that were written before it. -/
theorem exists_finalItems_eq (start : Nat) (earlier later : List Op) (signed : Bool)
    (y : BitVec (IntKind.word signed).bits) :
    ∃ front z back,
      finalItems start (earlier ++ .put (.int (.word signed) y) :: later) =
        front ++ .int (.word signed) z :: back ∧
      (front.map Item.width).sum = ((earlier.filterMap Op.item?).map Item.width).sum := by
  induction earlier generalizing start with
  | nil =>
    refine ⟨[], (lastPatch? start later).getD y, finalItems (start + 4) later, ?_, rfl⟩
    rw [List.nil_append, finalItems]
    cases lastPatch? start later <;> rfl
  | cons op earlier ih =>
    cases op with
    | put i =>
      obtain ⟨front, z, back, heq, hsum⟩ := ih (start + i.width)
      refine ⟨_ :: front, z, back, by rw [List.cons_append, finalItems, heq]; rfl, ?_⟩
      rw [List.map_cons, List.sum_cons, Item.width_elim_patch, hsum, filterMap_item?_put,
        List.map_cons, List.sum_cons]
    | patch offset x => exact ih start

theorem size_run_of_accepted (h : ∀ op ∈ ops, op.refusal? = none) :
    (({} : Writer).run ops).size = ((ops.filterMap Op.item?).map Item.width).sum := by
  have haccepted : ops.filterMap Op.accepted? = ops.filterMap Op.item? := by
    refine List.filterMap_congr fun op hop => ?_
    cases op with
    | put i => exact if_pos (h _ hop)
    | patch offset x => rfl
  rw [size_run rfl, haccepted]
  exact Nat.zero_add _

theorem refusal?_finalItems (h : ∀ op ∈ ops, op.refusal? = none) (start : Nat) :
    ∀ i ∈ finalItems start ops, i.refusal? = none := by
  intro i hi
  have hmem := List.mem_map_of_mem (f := Item.refusal?) hi
  rw [map_finalItems Item.refusal?_patch] at hmem
  obtain ⟨j, hj, heq⟩ := List.mem_map.1 hmem
  obtain ⟨op, hop, hitem⟩ := List.mem_filterMap.1 hj
  cases op with
  | put k =>
    cases hitem
    exact heq.symm.trans (h _ hop)
  | patch offset x => cases hitem

/-- **The bytes of a run** are those of its final items. -/
theorem bytes_run_of_tidy (hops : ∀ op ∈ ops, op.refusal? = none) (htidy : Tidy [] ops) :
    (({} : Writer).run ops).bytes = encodings (finalItems 0 ops) := by
  -- from the last call back: a write adds an item, and a patch changes one of those before it
  induction ops using List.reverseRecOn with
  | nil => rfl
  | append_singleton ops op ih =>
    obtain ⟨hbefore, hop⟩ := List.forall_mem_append.1 hops
    obtain ⟨htidy, hlands⟩ := tidy_concat.1 htidy
    have hbytes := ih hbefore htidy
    rw [List.nil_append] at hlands
    rw [run_append]
    show ((({} : Writer).run ops).call op).bytes = _
    cases op with
    | put i =>
      have hi : i.refusal? = none := hop _ (List.mem_singleton_self _)
      rw [call_put (overflow_run rfl ops), finalItems_put, encodings_append, ← hbytes, Item.output,
        hi]
      exact congrArg (_ ++ ·) ByteArray.append_empty.symm
    | patch offset x =>
      rw [finalItems_patch]
      obtain hout | ⟨earlier, signed, y, later, rfl, hoffset⟩ := hlands
      · have hsum := hout
        rw [size, hbytes, size_encodings, ← Nat.zero_add (List.sum _)] at hsum
        rw [call, patch_of_lt hout, amend_of_sum_lt hsum, hbytes]
      · obtain ⟨front, z, back, heq, hsum⟩ := exists_finalItems_eq 0 earlier later signed y
        rw [size_run_of_accepted (List.forall_mem_append.1 hbefore).1, ← hsum] at hoffset
        rw [← hoffset, heq, amend_word]
        rw [heq] at hbytes
        exact bytes_patch_word hbytes x

end FinalItems

/-- **What is written by hand is read back.**  The size is that of all accepted writes, and the
first refusal, if there is one, is what comes out in the end.  Otherwise the types that were
written, read in the same order, give the final items and leave nothing over. -/
theorem read_back_run (ops : List Op) :
    (({} : Writer).run ops).size = ((ops.filterMap Op.accepted?).map Item.width).sum ∧
      (∀ e, ops.findSome? Op.refusal? = some e → (({} : Writer).run ops).finish = .error e) ∧
      (ops.findSome? Op.refusal? = none → ∃ b, (({} : Writer).run ops).finish = .ok b ∧
        (Tidy [] ops → ∃ r,
          ({ buffer := b } : Reader).run ((ops.filterMap Op.item?).map (.read ·.primitive)) =
            ((finalItems 0 ops).map (some ·.value), r) ∧
          r.error = none ∧ r.remaining = 0)) := by
  have herror : (({} : Writer).run ops).error = ops.findSome? Op.refusal? := error_run rfl ops
  refine ⟨(size_run rfl ops).trans (Nat.zero_add _), ?_, ?_⟩
  · intro e he
    rw [finish, herror, he]
  · intro hnone
    refine ⟨(({} : Writer).run ops).bytes, by rw [finish, herror, hnone], ?_⟩
    intro htidy
    have hops := List.findSome?_eq_none_iff.1 hnone
    have htypes := map_finalItems (f := (Reader.Op.read ·.primitive))
      (fun i x => by rw [i.primitive_patch]) 0 ops
    rw [bytes_run_of_tidy hops htidy, ← htypes]
    have hfaces := Codec.faces_whole (encodings (finalItems 0 ops))
    refine ⟨_, run_read_encodings hfaces (refusal?_finalItems hops 0), rfl, ?_⟩
    rw [Reader.remaining, Reader.skip, Nat.zero_add, Nat.sub_self]

/-- A message whose two words are patched, the first of them twice.  The last patch comes a byte
too late in the buffer. -/
def ping : List Op :=
  [.put (.int .int32 0), .put (.int .int64 99), .put (.text "pong"), .patch 0 14,
    .put (.int .uint32 0), .put (.bytes ⟨#[1, 2]⟩), .patch 18 0xffffffff, .patch 0 0xfffffffe,
    .patch 25 7]

theorem tidy_ping : Tidy [] ping := by
  have hfirst : Op.Lands (ping.take 3) (.patch 0 14) := .inr ⟨[], true, 0, _, rfl, rfl⟩
  have hsecond : Op.Lands (ping.take 6) (.patch 18 0xffffffff) :=
    .inr ⟨ping.take 4, false, 0, _, rfl, rfl⟩
  have hagain : Op.Lands (ping.take 7) (.patch 0 0xfffffffe) := .inr ⟨[], true, 0, _, rfl, rfl⟩
  have hlate : (({} : Writer).run (ping.take 8)).size < 25 + 4 := by decide +kernel
  exact ⟨trivial, trivial, trivial, hfirst, trivial, trivial, hsecond, hagain, .inl hlate, trivial⟩

theorem read_back_run_ping :
    ping.findSome? Op.refusal? = none ∧ ∃ b r, (({} : Writer).run ping).finish = .ok b ∧
      ({ buffer := b } : Reader).run [.read (.int .int32), .read (.int .int64), .read .string,
          .read (.int .uint32), .read .bytes] =
        ([some (.int .int32 (-2)), some (.int .int64 99), some (.text "pong"),
          some (.int .uint32 0xffffffff), some (.bytes ⟨#[1, 2]⟩)], r) ∧
      r.error = none ∧ r.remaining = 0 := by
  have hnone : ping.findSome? Op.refusal? = none := by decide +kernel
  obtain ⟨b, hb, hread⟩ := (read_back_run ping).2.2 hnone
  obtain ⟨r, hrun, hr⟩ := hread tidy_ping
  exact ⟨hnone, b, r, hb, hrun, hr⟩

end Writer
end WireGrammar
