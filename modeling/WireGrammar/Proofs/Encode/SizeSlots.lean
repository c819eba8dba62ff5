import WireGrammar.Proofs.RoundTrip.Codec

/-!
# What the size slots say

A struct that begins with `Size` and an array that is measured in bytes have four bytes in front
that say how many bytes they cover.  Such slots may stand anywhere in an encoding and inside each
other, and lengths are put into them without asking whether they fit.

* `SizeSlot` — where a slot stands, how it is read, and how many bytes it covers.
* `EncodeOp.sizeSlots`, `Program.sizeSlots`, `Codec.sizeSlots` — the slots in the bytes of a value,
  at every depth.
* `SizeSlot.Stands` — the slot is where it should be and holds its length modulo the width.
  `EncodeOp.stand_sizeSlots` and `Program.stand_sizeSlots` say so of every slot in a layout.
* `Codec.read_sizeSlots` — so a slot reads as the length it covers exactly if that is not beyond the
  largest length that it can say.
* `Codec.read_sizeSlots_pair` — and encoding does go beyond: two byte sequences, of which each fits
  its own prefix, make a struct whose size reads as a negative number.
-/

set_option autoImplicit false
namespace WireGrammar

/-- Four bytes in an encoding that say how many bytes follow them. -/
structure SizeSlot where
  /-- Where the four bytes begin. -/
  offset : Nat
  /-- Does the decoder read them as a signed number? -/
  signed : Bool
  /-- How many bytes they cover: those right behind them. -/
  length : Nat
deriving DecidableEq, Repr

namespace SizeSlot

/-- The slot behind `n` more bytes. -/
def shift (n : Nat) (s : SizeSlot) : SizeSlot := { s with offset := n + s.offset }

/-- What a decoder finds in the slot. -/
def read (s : SizeSlot) (b : ByteArray) : Int :=
  (IntKind.word s.signed).toInt (BigEndian.decode _ (b.extract s.offset (s.offset + 4)))

/-- The largest length that the slot can say. -/
def limit (s : SizeSlot) : Nat := if s.signed then 2147483647 else 4294967295

end SizeSlot

/-- The slots in the bytes of a list, from the bytes and the slots of its values. -/
def sizeSlotsAll (item : Value → Option ByteArray) (slots : Value → List SizeSlot) :
    List Value → List SizeSlot
  | [] => []
  | v :: vs =>
    slots v ++ (sizeSlotsAll item slots vs).map (.shift ((item v).elim 0 ByteArray.size))

mutual

/-- The slots in the bytes of a value.  `lay` gives the bytes of a value as another type, `call` the
slots in them. -/
def EncodeOp.sizeSlots (o : Overflow) (lay : String → Option Value → Option ByteArray)
    (call : String → Option Value → List SizeSlot) : EncodeOp → Option Value → List SizeSlot
  | .write _, _ | .writeAlias .., _ | .unsupported _, _ => []
  | .call name, v => call name v
  | .struct ops, v =>
    match v.getD (.struct []) with
    | .struct fields => sizeSlotsOfFields o lay call fields ops
    | _ => []
  | .framed framing signed body, v =>
    match v.getD (.struct []) with
    | .struct fields =>
      let inner := (sizeSlotsOfFields o lay call fields body).map (.shift 4)
      match framing with
      | .size => ⟨0, signed, (layoutFields o lay fields body).elim 0 ByteArray.size⟩ :: inner
      | .crc => inner
    | _ => []
  | .lengthArray element, v =>
    match v.getD (.list []) with
    | .list items =>
      (sizeSlotsAll (fun item => element.layout o lay (some item))
        (fun item => element.sizeSlots o lay call (some item)) items).map (.shift 4)
    | _ => []
  | .sizeArray element, v =>
    match v.getD (.list []) with
    | .list items =>
      let item := fun item => element.layout o lay (some item)
      ⟨0, true, (layoutAll item items).elim 0 ByteArray.size⟩ ::
        (sizeSlotsAll item (fun item => element.sizeSlots o lay call (some item)) items).map
          (.shift 4)
    | _ => []

/-- The slots in the bytes of the given fields of a struct. -/
def EncodeOp.sizeSlotsOfFields (o : Overflow) (lay : String → Option Value → Option ByteArray)
    (call : String → Option Value → List SizeSlot) (fields : List (Field Value)) :
    List (Field EncodeOp) → List SizeSlot
  | [] => []
  | ⟨name, op⟩ :: ops =>
    op.sizeSlots o lay call (Fields.get? name fields) ++
      (sizeSlotsOfFields o lay call fields ops).map
        (.shift ((op.layout o lay (Fields.get? name fields)).elim 0 ByteArray.size))

end

/-- The slots in the bytes of a value as the type `name`. -/
def Program.sizeSlots (p : Program) (o : Overflow) : Nat → String → Option Value → List SizeSlot
  | 0, _, _ => []
  | fuel + 1, name, v =>
    match p.routine? name with
    | some r => r.encode.sizeSlots o (p.layout o fuel) (p.sizeSlots o fuel) v
    | none => []

/-- The slots in the encoding of a value as the type `typeName`. -/
def Codec.sizeSlots (c : Codec) (typeName : String) (v : Value) : List SizeSlot :=
  c.program.sizeSlots c.overflow (c.callBound * (v.depth + 1)) typeName (some v)

/-! ## Slots in bytes -/

namespace SizeSlot

/-- The slot and the bytes that it covers lie in `b`, and it holds their number modulo its width. -/
structure Stands (b : ByteArray) (s : SizeSlot) : Prop where
  fits : s.offset + 4 + s.length ≤ b.size
  holds : b.extract s.offset (s.offset + 4) = BigEndian.encode .uint32 (BitVec.ofNat 32 s.length)

variable {a b : ByteArray} {s : SizeSlot} {slots slots' : List SizeSlot}

theorem Stands.append (h : s.Stands a) (b : ByteArray) : s.Stands (a ++ b) := by
  have hfits := h.fits
  refine ⟨?_, ?_⟩
  · rw [ByteArray.size_append]
    omega
  · rw [← h.holds, ByteArray.extract_append, Nat.sub_eq_zero_of_le (by omega),
      Nat.sub_eq_zero_of_le (by omega), ByteArray.extract_same, ByteArray.append_empty]

theorem Stands.shift (h : s.Stands b) (a : ByteArray) : (s.shift a.size).Stands (a ++ b) := by
  have hfits := h.fits
  refine ⟨?_, ?_⟩
  · rw [ByteArray.size_append, SizeSlot.shift]
    dsimp only
    omega
  · rw [SizeSlot.shift, Nat.add_assoc, ByteArray.extract_append_size_add' rfl]
    exact h.holds

theorem stands_front (signed : Bool) (b : ByteArray) :
    Stands (BigEndian.encode .uint32 (BitVec.ofNat 32 b.size) ++ b) ⟨0, signed, b.size⟩ := by
  have hsize : (BigEndian.encode .uint32 (BitVec.ofNat 32 b.size)).size = 4 :=
    BigEndian.size_encode _ _
  refine ⟨?_, ByteArray.extract_append_eq_left hsize.symm⟩
  rw [ByteArray.size_append, hsize, Nat.zero_add]

/-- **Slots of two encodings one after the other**: those of the second stand further back. -/
theorem stands_append (ha : ∀ s ∈ slots, s.Stands a) (hb : ∀ s ∈ slots', s.Stands b) :
    ∀ s ∈ slots ++ slots'.map (.shift a.size), s.Stands (a ++ b) := by
  intro s hs
  rcases List.mem_append.1 hs with hs | hs
  · exact (ha s hs).append b
  · obtain ⟨t, ht, rfl⟩ := List.mem_map.1 hs
    exact (hb t ht).shift a

theorem stands_behind {k : IntKind} (hk : k.bytes = 4) (x : BitVec k.bits)
    (hb : ∀ s ∈ slots, s.Stands b) :
    ∀ s ∈ slots.map (shift 4), s.Stands (BigEndian.encode k x ++ b) := by
  have hnil : ∀ s ∈ ([] : List SizeSlot), s.Stands (BigEndian.encode k x) := by simp
  have h := stands_append hnil hb
  rwa [List.nil_append, BigEndian.size_encode, hk] at h

/-- What is read is the length modulo the width. -/
theorem Stands.read_eq (h : s.Stands b) :
    s.read b = (IntKind.word s.signed).toInt (BitVec.ofNat 32 s.length) := by
  rw [read, h.holds]
  exact congrArg _ (BigEndian.decode_encode (IntKind.word s.signed) (BitVec.ofNat 32 s.length))

/-- **A slot says the truth as far as it can.** -/
theorem Stands.read_eq_length_iff (h : s.Stands b) : s.read b = s.length ↔ s.length ≤ s.limit := by
  rw [h.read_eq, limit]
  cases s.signed with
  | true =>
    have hread := BitVec.toInt_eq_toNat_cond (BitVec.ofNat 32 s.length)
    rw [BitVec.toNat_ofNat] at hread
    show (BitVec.ofNat 32 s.length).toInt = s.length ↔ s.length ≤ 2147483647
    omega
  | false =>
    show ((BitVec.ofNat 32 s.length).toNat : Int) = s.length ↔ s.length ≤ 4294967295
    rw [BitVec.toNat_ofNat]
    omega

end SizeSlot

/-! ## Slots in layouts -/

open SizeSlot

theorem stand_sizeSlotsAll {item : Value → Option ByteArray} {slots : Value → List SizeSlot}
    (h : ∀ v b, item v = some b → ∀ s ∈ slots v, s.Stands b) :
    ∀ {vs : List Value} {b : ByteArray}, layoutAll item vs = some b →
      ∀ s ∈ sizeSlotsAll item slots vs, s.Stands b
  | [], b, _ => by simp [sizeSlotsAll]
  | v :: vs, b, hb => by
    obtain ⟨a, c, ha, hc, rfl⟩ := layoutAll_cons_eq_some hb
    rw [sizeSlotsAll, ha]
    exact stands_append (h v a ha) (stand_sizeSlotsAll h hc)

namespace EncodeOp

variable {o : Overflow} {lay : String → Option Value → Option ByteArray}
  {call : String → Option Value → List SizeSlot}

mutual

/-- **Every slot stands in the layout of an operation**, if that is so for the routines it calls. -/
theorem stand_sizeSlots (hcall : ∀ name v b, lay name v = some b → ∀ s ∈ call name v, s.Stands b) :
    ∀ {op : EncodeOp} {v : Option Value} {b : ByteArray}, op.layout o lay v = some b →
      ∀ s ∈ op.sizeSlots o lay call v, s.Stands b
  | .write _, v, b, _ => by simp [sizeSlots]
  | .writeAlias .., v, b, _ => by simp [sizeSlots]
  | .call name, v, b, h => by
    rw [layout] at h
    rw [sizeSlots]
    exact hcall name v b h
  | .struct ops, v, b, h => by
    obtain ⟨fields, hv, h⟩ := layout_struct_eq_some h
    rw [sizeSlots, hv]
    exact stand_sizeSlotsOfFields hcall h
  | .framed framing signed body, v, b, h => by
    obtain ⟨fields, c, hv, hc, rfl⟩ := layout_framed_eq_some h
    have hinner := stands_behind (k := .uint32) rfl (framing.measure c)
      (stand_sizeSlotsOfFields hcall hc)
    simp only [sizeSlots, hv, hc]
    cases framing with
    | size => exact List.forall_mem_cons.2 ⟨stands_front signed c, hinner⟩
    | crc => exact hinner
  | .lengthArray element, v, b, h => by
    obtain ⟨items, c, hv, -, hc, rfl⟩ := layout_lengthArray_eq_some h
    simp only [sizeSlots, hv]
    exact stands_behind rfl _ (stand_sizeSlotsAll (fun _ _ => stand_sizeSlots hcall) hc)
  | .sizeArray element, v, b, h => by
    obtain ⟨items, c, hv, hc, rfl⟩ := layout_sizeArray_eq_some h
    have hitems := stand_sizeSlotsAll (fun _ _ => stand_sizeSlots hcall) hc
    simp only [sizeSlots, hv, hc]
    exact List.forall_mem_cons.2 ⟨stands_front true c, stands_behind rfl _ hitems⟩
  | .unsupported _, v, b, _ => by simp [sizeSlots]

theorem stand_sizeSlotsOfFields
    (hcall : ∀ name v b, lay name v = some b → ∀ s ∈ call name v, s.Stands b)
    {fields : List (Field Value)} :
    ∀ {ops : List (Field EncodeOp)} {b : ByteArray}, layoutFields o lay fields ops = some b →
      ∀ s ∈ sizeSlotsOfFields o lay call fields ops, s.Stands b
  | [], b, _ => by simp [sizeSlotsOfFields]
  | ⟨name, op⟩ :: ops, b, h => by
    obtain ⟨a, c, ha, hc, rfl⟩ := layoutFields_cons_eq_some h
    rw [sizeSlotsOfFields, ha]
    exact stands_append (stand_sizeSlots hcall ha) (stand_sizeSlotsOfFields hcall hc)

end

end EncodeOp

/-- **Every slot stands in the layout of a value.** -/
theorem Program.stand_sizeSlots {p : Program} {o : Overflow} :
    ∀ {fuel : Nat} {name : String} {v : Option Value} {b : ByteArray},
      p.layout o fuel name v = some b → ∀ s ∈ p.sizeSlots o fuel name v, s.Stands b
  | 0, name, v, b, h => by cases h
  | fuel + 1, name, v, b, h => by
    obtain ⟨n, r, hn, hr, h⟩ := layout_eq_some h
    cases hn
    rw [sizeSlots, hr]
    exact EncodeOp.stand_sizeSlots (fun _ _ _ => p.stand_sizeSlots) h

/-- **What the slots of an encoding say.**  Each lies in the encoding in front of the bytes that it
covers, and reads as their number exactly if that is not beyond its limit.  Nothing is refused for
a slot: beyond the limit it reads as the number modulo its width. -/
theorem Codec.read_sizeSlots {c : Codec} {typeName : String} {v : Value} {b : ByteArray}
    (h : c.encode typeName v = .ok b) :
    ∀ s ∈ c.sizeSlots typeName v, s.offset + 4 + s.length ≤ b.size ∧
      s.read b = (IntKind.word s.signed).toInt (BitVec.ofNat 32 s.length) ∧
      (s.read b = s.length ↔ s.length ≤ s.limit) := by
  intro s hs
  have hstands := Program.stand_sizeSlots (encode_eq_ok.1 h) s hs
  exact ⟨hstands.fits, hstands.read_eq, hstands.read_eq_length_iff⟩

theorem Codec.read_sizeSlots_tree :
    Tree.codec.encode "Top" Tree.value = .ok Tree.bytes ∧
    ⟨9, true, 26⟩ ∈ Tree.codec.sizeSlots "Top" Tree.value ∧
    SizeSlot.read ⟨9, true, 26⟩ Tree.bytes = 26 := by
  have hmem : ⟨9, true, 26⟩ ∈ Tree.codec.sizeSlots "Top" Tree.value := by decide +kernel
  have h := read_sizeSlots Tree.encode_value ⟨9, true, 26⟩ hmem
  exact ⟨Tree.encode_value, hmem, h.2.2.2 (by decide)⟩

/-! ## A size that does not fit -/

namespace Pair

/-- Two byte sequences behind their common size. -/
def source : String := "Pair = Size:int32 A:bytes B:bytes"

/-- What encodes the two sequences. -/
def ops : List (Field EncodeOp) := [⟨"A", .write .bytes⟩, ⟨"B", .write .bytes⟩]

/-- What the grammar of pairs compiles to. -/
def compiled : Compiled where
  grammar := {
    decls := [
      ⟨"Pair", .node .sequence [{ Expr.leaf "int32" with label := some "Size" },
        { Expr.leaf "bytes" with label := some "A" },
        { Expr.leaf "bytes" with label := some "B" }]⟩] }
  schema := {
    decls := [
      ⟨"Pair", .struct [⟨"Size", .scalar (.int .int32)⟩, ⟨"A", .scalar .bytes⟩,
        ⟨"B", .scalar .bytes⟩]⟩] }
  program := {
    routines := [
      ⟨"Pair", .framed .size true ops,
        .framed .size true true [⟨"A", .read .bytes⟩, ⟨"B", .read .bytes⟩]⟩]
    skipped := [] }

theorem compile_source : compile true source = .ok compiled :=
  compile_of_parse? (by decide +kernel) (by cbv) rfl

/-- A codec for pairs. -/
def codec : Codec := { program := compiled.program }

theorem link_program : Codec.link compiled.program .reject = .ok codec := rfl

/-- `n` zero bytes. -/
def zeros (n : Nat) : ByteArray := ⟨Array.replicate n 0⟩

theorem size_zeros (n : Nat) : (zeros n).size = n := by
  simp [zeros, ByteArray.size]

def fields (n : Nat) : List (Field Value) :=
  [⟨"A", .bytes (zeros n)⟩, ⟨"B", .bytes (zeros n)⟩]

/-- Two times `n` zero bytes. -/
def value (n : Nat) : Value := .struct (fields n)

/-- What comes behind the size. -/
def body (n : Nat) : ByteArray :=
  BigEndian.counted .int32 (zeros n) ++ (BigEndian.counted .int32 (zeros n) ++ .empty)

theorem size_body (n : Nat) : (body n).size = 2 * (n + 4) := by
  have hcounted : (BigEndian.counted .int32 (zeros n)).size = 4 + n := by
    rw [BigEndian.counted, ByteArray.size_append, size_zeros, BigEndian.size_encode]
    rfl
  rw [body, ByteArray.size_append, ByteArray.size_append, hcounted, ByteArray.size_empty]
  omega

theorem layoutFields_ops {n : Nat} (hn : n ≤ Writer.maxCount)
    (lay : String → Option Value → Option ByteArray) :
    EncodeOp.layoutFields .reject lay (fields n) ops = some (body n) := by
  simp [ops, fields, EncodeOp.layoutFields, EncodeOp.layout, Fields.get?, Primitive.layout,
    size_zeros, hn, body]

/-- The bytes of a pair, and the one slot in them. -/
theorem encode_value {n : Nat} (hn : n ≤ Writer.maxCount) :
    codec.encode "Pair" (value n) =
        .ok (BigEndian.encode .uint32 (BitVec.ofNat 32 (body n).size) ++ body n) ∧
      codec.sizeSlots "Pair" (value n) = [⟨0, true, (body n).size⟩] := by
  have hbody := layoutFields_ops hn (codec.program.layout .reject 5)
  have hlayout : codec.layout .reject "Pair" (value n) =
      (EncodeOp.framed .size true ops).layout .reject (codec.program.layout .reject 5)
        (some (value n)) := rfl
  have hslots : codec.sizeSlots "Pair" (value n) =
      (EncodeOp.framed .size true ops).sizeSlots .reject (codec.program.layout .reject 5)
        (codec.program.sizeSlots .reject 5) (some (value n)) := rfl
  constructor
  · rw [Codec.encode_eq_ok]
    refine hlayout.trans ?_
    simp only [EncodeOp.layout, value, Option.getD_some, hbody]
    rfl
  · rw [hslots]
    simp only [EncodeOp.sizeSlots, value, Option.getD_some, hbody]
    simp [ops, EncodeOp.sizeSlotsOfFields, EncodeOp.sizeSlots]

end Pair

/-- **A size that is not what it covers.**  Each of two byte sequences fits its own prefix and the
pair is encoded, but its size reads as a negative number. -/
theorem Codec.read_sizeSlots_pair :
    compile true Pair.source = .ok Pair.compiled ∧
    Codec.link Pair.compiled.program .reject = .ok Pair.codec ∧
    ∃ b, Pair.codec.encode "Pair" (Pair.value 1073741824) = .ok b ∧
      ∃ s ∈ Pair.codec.sizeSlots "Pair" (Pair.value 1073741824),
        s.length = 2147483656 ∧ s.read b = -2147483640 := by
  obtain ⟨hencode, hslots⟩ := Pair.encode_value (n := 1073741824) (by decide)
  have hstands := stands_front true (Pair.body 1073741824)
  have hread := hstands.read_eq
  rw [Pair.size_body] at hencode hslots hread
  refine ⟨Pair.compile_source, Pair.link_program, _, hencode, _, ?_, rfl, hread.trans rfl⟩
  rw [hslots]
  exact List.mem_singleton.2 rfl

end WireGrammar
