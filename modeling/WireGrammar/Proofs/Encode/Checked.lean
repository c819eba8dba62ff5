import WireGrammar.Proofs.Decode.Checked
import WireGrammar.Proofs.RoundTrip.Operation

/-!
# Encoding with checked offsets

Encoding goes back to slots that it has reserved, and measures what has been written since.  Here
the same operations are run with subtractions, pieces and patches that fail where bytes are missing.
Since nothing that has been written is ever taken back, nothing fails.

* `CheckedM` — steps that write and may stop, and that may also fail altogether.
* `Checked.patch`, `Framing.measureChecked`, `EncodeOp.runChecked`, `Program.encodeChecked` —
  encoding that checks.
* `EncodeM.Growing` — a step after which at least as much has been written, also when it stops.
* `CheckedM.Agrees` — on every writer the step that checks does what the other one does.
* `EncodeOp.run_checked`, `Program.encode_checked` — nothing that an operation or a routine checks
  ever fails.
* `Codec.runs_inBounds` — a codec never steps back behind where an operation started, neither in a
  buffer that it decodes nor in what it has written, and nothing that it checks fails.
-/

set_option autoImplicit false
namespace WireGrammar

/-- A step of encoding that checks; `none` when a check fails. -/
abbrev CheckedM := ExceptT CodecError (StateT Writer Option)

namespace CheckedM

variable {α β : Type}

/-- Run a step on a writer. -/
def exec (m : CheckedM α) (w : Writer) : Option (Except CodecError α × Writer) :=
  m.run.run w

/-- A step that has nothing to check. -/
def ofEncode (m : EncodeM α) : CheckedM α :=
  ExceptT.mk fun w => some (m.exec w)

end CheckedM

/-! ## Steps that check -/

/-- Overwrite the four bytes at `offset`, unless some of them have not been written. -/
def Checked.patched (w : Writer) (offset : Nat) (x : BitVec 32) : Option Writer :=
  if offset + 4 ≤ w.size then some (w.patch offset x) else none

/-- Overwrite the four bytes at `offset`. -/
def Checked.patch (offset : Nat) (x : BitVec 32) : CheckedM Unit := do
  set (← Checked.patched (← get) offset x)

/-- What the slot of a framed struct says about the body, which starts at `start`. -/
def Framing.measureChecked (bytes : ByteArray) (start : Nat) : Framing → Option (BitVec 32)
  | .size => do return BitVec.ofNat 32 (← Checked.sub bytes.size start)
  | .crc => do return (checksum (← Checked.slice bytes start bytes.size)).toBitVec

/-- Encode the values of a list one after the other. -/
def Checked.putAll (item : Value → CheckedM Unit) : List Value → CheckedM Unit
  | [] => pure ()
  | v :: vs => do
    item v
    putAll item vs

mutual

/-- Encode a value. -/
def EncodeOp.runChecked (call : String → Option Value → CheckedM Unit) :
    EncodeOp → Option Value → CheckedM Unit
  | .write p, v => .ofEncode (putPrimitive p (v.getD (.zero p)))
  | .writeAlias typeName p, v =>
    match v.getD (.named typeName (.zero p)) with
    | .named found x =>
      if found = typeName then .ofEncode (putPrimitive p x)
      else throw (.valueMismatch typeName found)
    | other => throw (.mismatch typeName other)
  | .call name, v => call name v
  | .struct ops, v =>
    match v.getD (.struct []) with
    | .struct fields => runCheckedFields call fields ops
    | other => throw (.mismatch "struct" other)
  | .framed framing signed body, v =>
    match v.getD (.struct []) with
    | .struct fields => do
      let slot := (← get).size
      let word := Primitive.int (.word signed)
      CheckedM.ofEncode
        (putPrimitive word ((Fields.get? framing.fieldName fields).getD (.zero word)))
      let start := (← get).size
      runCheckedFields call fields body
      let x ← framing.measureChecked (← get).bytes start
      Checked.patch slot x
    | other => throw (.mismatch "struct" other)
  | .lengthArray element, v =>
    match v.getD (.list []) with
    | .list items =>
      if items.length ≤ Writer.maxCount then do
        modify (·.putNat .int32 items.length)
        Checked.putAll (fun item => element.runChecked call (some item)) items
      else throw (.encode (.bytesTooLong items.length))
    | other => throw (.mismatch "list" other)
  | .sizeArray element, v =>
    match v.getD (.list []) with
    | .list items => do
      let slot := (← get).size
      modify (·.putNat .int32 0)
      let start := (← get).size
      Checked.putAll (fun item => element.runChecked call (some item)) items
      let x ← Framing.size.measureChecked (← get).bytes start
      Checked.patch slot x
    | other => throw (.mismatch "list" other)
  | .unsupported owner, _ => throw (.unsupported owner)

/-- Encode the given fields of a struct in the order of the operations. -/
def EncodeOp.runCheckedFields (call : String → Option Value → CheckedM Unit)
    (fields : List (Field Value)) : List (Field EncodeOp) → CheckedM Unit
  | [] => pure ()
  | ⟨name, op⟩ :: ops => do
    op.runChecked call (Fields.get? name fields)
    runCheckedFields call fields ops

end

/-- Encode a value as the type `name`; without a value, its zero value. -/
def Program.encodeChecked (p : Program) : Nat → String → Option Value → CheckedM Unit
  | 0, name, _ => throw (.unbounded name)
  | fuel + 1, name, v =>
    match p.routine? name with
    | some r => r.encode.runChecked (p.encodeChecked fuel) v
    | none => throw (p.missing name)

/-! ## Writers grow -/

namespace EncodeM

/-- At least as much has been written after the step as before, also when it stops. -/
def Growing {α : Type} (m : EncodeM α) : Prop :=
  ∀ w : Writer, w.size ≤ (m.exec w).2.size

theorem growing_of_writes {m : EncodeM Unit} (h : ∀ o, ∃ spec, Writes m o spec) : Growing m := by
  intro w
  obtain ⟨spec, out, hout, -⟩ := h w.overflow
  rw [hout w rfl, Writer.extend, Writer.size, Writer.size, ByteArray.size_append]
  exact Nat.le_add_right _ _

end EncodeM

/-! ## Steps that agree -/

namespace CheckedM

variable {α β : Type} {m n : EncodeM Unit} {m' n' : CheckedM Unit}

/-- On every writer no check fails, and both steps do the same. -/
def Agrees (m : EncodeM α) (m' : CheckedM α) : Prop :=
  ∀ w : Writer, m'.exec w = some (m.exec w)

theorem exec_bind (m : CheckedM α) (k : α → CheckedM β) (w : Writer) :
    exec (m >>= k) w = (exec m w).bind fun
      | (.ok a, w') => exec (k a) w'
      | (.error e, w') => some (.error e, w') := by
  change (m.run.run w).bind (fun x => (ExceptT.bindCont k x.1).run x.2) = _
  rw [exec]
  rcases m.run.run w with _ | ⟨_ | _, _⟩ <;> rfl

theorem exec_get (w : Writer) : exec get w = some (.ok w, w) := rfl

theorem exec_modify (f : Writer → Writer) (w : Writer) :
    exec (modify f) w = some (.ok (), f w) := rfl

theorem exec_liftM_some (a : α) (w : Writer) :
    exec (liftM (some a) : CheckedM α) w = some (.ok a, w) := rfl

theorem exec_patch {w : Writer} {offset : Nat} (h : offset + 4 ≤ w.size) (x : BitVec 32) :
    exec (Checked.patch offset x) w = some (.ok (), w.patch offset x) := by
  have hpatched : Checked.patched w offset x = some (w.patch offset x) := if_pos h
  rw [Checked.patch, exec_bind, exec_get, Option.bind_some]
  simp only
  rw [hpatched]
  rfl

theorem agrees_ofEncode (m : EncodeM α) : Agrees m (ofEncode m) :=
  fun _ => rfl

theorem agrees_throw (e : CodecError) : Agrees (throw e : EncodeM α) (throw e) :=
  fun _ => rfl

theorem agrees_modify (f : Writer → Writer) : Agrees (modify f) (modify f) :=
  fun _ => rfl

theorem Agrees.bind (hm : Agrees m m') (hn : Agrees n n') :
    Agrees (m >>= fun _ => n) (m' >>= fun _ => n') := by
  intro w
  rw [exec_bind, hm w, EncodeM.exec_bind]
  rcases m.exec w with ⟨_ | _, w'⟩
  · rfl
  · exact hn w'

/-- **A slot can be filled afterwards**: its four bytes are there, and so is all that is
measured. -/
theorem Agrees.slot {s : ByteArray} (hs : s.size = 4) (hn : Agrees n n') (hgrow : n.Growing)
    (framing : Framing) (f : Nat → Writer → BitVec 32)
    (hf : ∀ (start : Nat) (w : Writer), start ≤ w.size →
      framing.measureChecked w.bytes start = some (f start w)) :
    Agrees (do
      let slot := (← get).size
      modify (·.append s)
      let start := (← get).size
      n
      modify fun w => w.patch slot (f start w)) (do
      let slot := (← get).size
      modify (·.append s)
      let start := (← get).size
      n'
      let x ← framing.measureChecked (← get).bytes start
      Checked.patch slot x) := by
  intro w
  have hsize : (w.append s).size = w.size + 4 := by
    rw [Writer.size, Writer.bytes_append, ByteArray.size_append, hs]
    rfl
  have hgrown := hgrow (w.append s)
  simp only [exec_bind, EncodeM.exec_bind, exec_get, EncodeM.exec_get, exec_modify,
    EncodeM.exec_modify, Option.bind_some, hn (w.append s)]
  rcases hbody : n.exec (w.append s) with ⟨_ | _, w'⟩
  · rfl
  · rw [hbody] at hgrown
    simp only at hgrown
    simp only [hf (w.append s).size w' hgrown, exec_liftM_some, Option.bind_some]
    exact exec_patch (by omega) _

end CheckedM

/-! ## Operations -/

open EncodeM CheckedM

theorem Framing.measureChecked_size (start : Nat) (w : Writer) (h : start ≤ w.size) :
    Framing.size.measureChecked w.bytes start = some (BitVec.ofNat 32 (w.size - start)) := by
  rw [Writer.size] at h
  rw [measureChecked, Checked.sub_of_le h]
  rfl

/-- What is measured has been written. -/
theorem Framing.measureChecked_eq (framing : Framing) (start : Nat) (w : Writer)
    (h : start ≤ w.size) :
    framing.measureChecked w.bytes start =
      some (framing.measure (w.bytes.extract start w.size)) := by
  cases framing with
  | size =>
    rw [measureChecked_size start w h, measure, ByteArray.size_extract, Writer.size, Nat.min_self]
  | crc =>
    rw [Writer.size] at h
    rw [measureChecked, Checked.slice_of_le h (Nat.le_refl _)]
    rfl

theorem putAll_agrees {item : Value → EncodeM Unit} {item' : Value → CheckedM Unit}
    (h : ∀ v, Agrees (item v) (item' v)) :
    ∀ vs, Agrees (putAll item vs) (Checked.putAll item' vs)
  | [] => fun _ => rfl
  | v :: vs => (h v).bind (putAll_agrees h vs)

section Operations

variable {p : Program} {fuel : Nat} {call' : String → Option Value → CheckedM Unit}

mutual

/-- **Nothing that an operation checks fails**, if nothing fails in the routines that it calls. -/
theorem EncodeOp.run_checked (hcall : ∀ name v, Agrees (p.encode fuel name v) (call' name v)) :
    ∀ (op : EncodeOp) (v : Option Value), Agrees (op.run (p.encode fuel) v) (op.runChecked call' v)
  | .write q, v => by
    rw [run, runChecked]
    exact agrees_ofEncode _
  | .writeAlias typeName q, v => by
    rw [run, runChecked]
    cases v.getD (.named typeName (.zero q)) with
    | named found x =>
      by_cases h : found = typeName
      · simpa only [h, if_true] using agrees_ofEncode _
      · simpa only [if_neg h] using agrees_throw _
    | _ => exact agrees_throw _
  | .call name, v => by
    rw [run, runChecked]
    exact hcall name v
  | .struct ops, v => by
    rw [run, runChecked]
    cases v.getD (.struct []) with
    | struct fields => exact runFields_checked hcall fields ops
    | _ => exact agrees_throw _
  | .framed framing signed body, v => by
    rw [run, runChecked]
    cases v.getD (.struct []) with
    | struct fields =>
      have hbody := runFields_checked hcall fields body
      have hgrow : Growing (runFields (p.encode fuel) fields body) := growing_of_writes fun o =>
        ⟨_, runFields_writes (p.encode_writes o fuel) fields body⟩
      rcases putPrimitive_int_cases .reject (.word signed)
        ((Fields.get? framing.fieldName fields).getD (.zero (.int (.word signed))))
        with ⟨e, hput, -⟩ | ⟨x, hput, -⟩
      · simp only [hput]
        exact fun _ => rfl
      · simp only [hput]
        exact Agrees.slot (BigEndian.size_encode _ _) hbody hgrow framing
          (fun start w => framing.measure (w.bytes.extract start w.size)) framing.measureChecked_eq
    | _ => exact agrees_throw _
  | .lengthArray element, v => by
    rw [run, runChecked]
    cases v.getD (.list []) with
    | list items =>
      have hitems := putAll_agrees (fun item => run_checked hcall element (some item)) items
      by_cases h : items.length ≤ Writer.maxCount
      · simp only [if_pos h]
        exact (agrees_modify _).bind hitems
      · simp only [if_neg h]
        exact agrees_throw _
    | _ => exact agrees_throw _
  | .sizeArray element, v => by
    rw [run, runChecked]
    cases v.getD (.list []) with
    | list items =>
      have hitems := putAll_agrees (fun item => run_checked hcall element (some item)) items
      have hgrow : Growing (putAll (fun item => element.run (p.encode fuel) (some item)) items) :=
        growing_of_writes fun o => ⟨_, putAll_writes (fun item =>
          element.run_writes (p.encode_writes o fuel) (some item)) items⟩
      exact Agrees.slot (BigEndian.size_encode .int32 0#32) hitems hgrow .size
        (fun start w => BitVec.ofNat 32 (w.size - start)) Framing.measureChecked_size
    | _ => exact agrees_throw _
  | .unsupported owner, v => by
    rw [run, runChecked]
    exact agrees_throw _

theorem EncodeOp.runFields_checked
    (hcall : ∀ name v, Agrees (p.encode fuel name v) (call' name v)) (fields : List (Field Value)) :
    ∀ ops : List (Field EncodeOp),
      Agrees (runFields (p.encode fuel) fields ops) (runCheckedFields call' fields ops)
  | [] => by
    rw [runFields, runCheckedFields]
    exact fun _ => rfl
  | ⟨name, op⟩ :: ops => by
    rw [runFields, runCheckedFields]
    exact (run_checked hcall op _).bind (runFields_checked hcall fields ops)

end

end Operations

/-- **Nothing that a routine checks fails.** -/
theorem Program.encode_checked (p : Program) :
    ∀ (fuel : Nat) (name : String) (v : Option Value),
      Agrees (p.encode fuel name v) (p.encodeChecked fuel name v)
  | 0, name, v => agrees_throw _
  | fuel + 1, name, v => by
    rw [encode, encodeChecked]
    cases p.routine? name with
    | none => exact agrees_throw _
    | some r => exact r.encode.run_checked (p.encode_checked fuel) v

/-! ## Codecs -/

namespace Codec

variable {s : Schema} {verifyCrc : Bool} {c : Codec}

/-- `Codec.decodeBy` with checks; `none` also when a check fails. -/
def decodeByChecked (c : Codec) (op : DecodeOp) (r : Reader) : Option (Value × Reader) :=
  (op.runChecked (c.program.decodeChecked (c.callBound * (r.remaining + 1)))).run r

/-- Encode a value by an operation onto a writer. -/
def encodeByInto (c : Codec) (op : EncodeOp) (v : Value) (w : Writer) :
    Except CodecError Unit × Writer :=
  (op.run (c.program.encode (c.callBound * (v.depth + 1))) (some v)).exec w

/-- `Codec.encodeByInto` with checks; `none` when a check fails. -/
def encodeByChecked (c : Codec) (op : EncodeOp) (v : Value) (w : Writer) :
    Option (Except CodecError Unit × Writer) :=
  (op.runChecked (c.program.encodeChecked (c.callBound * (v.depth + 1))) (some v)).exec w

theorem encodeByInto_call (c : Codec) (typeName : String) (v : Value) (w : Writer) :
    c.encodeByInto (.call typeName) v w = c.encodeInto typeName v w := rfl

theorem decodeByChecked_eq (c : Codec) (op : DecodeOp) {r : Reader}
    (hr : r.offset ≤ r.buffer.size) : c.decodeByChecked op r = c.decodeBy op r :=
  op.run_checked (c.program.decode_checked _) (c.program.decode_advancing _) r (Nat.zero_le _) hr

theorem encodeByChecked_eq (c : Codec) (op : EncodeOp) (v : Value) (w : Writer) :
    c.encodeByChecked op v w = some (c.encodeByInto op v w) :=
  op.run_checked (c.program.encode_checked _) (some v) w

theorem size_le_encodeByInto (c : Codec) (op : EncodeOp) (v : Value) (w : Writer) :
    w.size ≤ (c.encodeByInto op v w).2.size :=
  growing_of_writes (fun o => ⟨_, op.run_writes (c.program.encode_writes o _) (some v)⟩) w

/-- Encoding by an operation never runs out of calls. -/
theorem encodeByInto_ne_unbounded (hc : c.program.Grounded) (op : EncodeOp) (v : Value)
    (w : Writer) (name : String) : (c.encodeByInto op v w).1 ≠ .error (.unbounded name) := by
  obtain ⟨rank, hle, hlt⟩ := hc.exists_rank
  have hcall : ∀ b u, Value.depth? u ≤ v.depth →
      Settles (c.program.encode (c.callBound * (v.depth + 1)) b u) := by
    intro b u hu
    have hrank := hle b
    have hmul := Nat.mul_le_mul_left (c.program.routines.length + 1) hu
    refine Program.encode_settles hle hlt _ b u ?_
    rw [callBound, Nat.mul_succ]
    omega
  exact op.run_settles (some v) (fun b _ u hu => hcall b u hu)
    (fun b u hu => hcall b u (Nat.le_of_lt hu)) w name

/-- **A codec stays in bounds.**  Decoding by an operation, on a reader that is inside its buffer,
ends on one that is not behind it and still inside the same buffer; encoding, also when it stops
with an error, takes back nothing that has been written.  With subtractions, pieces and patches that
can fail both do the same: none of them does. -/
theorem runs_inBounds (hp : s.emit verifyCrc = .ok c.program) (hs : s.Grounded) :
    (∀ (op : DecodeOp) (r : Reader), r.offset ≤ r.buffer.size →
      ∃ v r', c.decodeBy op r = some (v, r') ∧ c.decodeByChecked op r = some (v, r') ∧
        r'.buffer = r.buffer ∧ r.offset ≤ r'.offset ∧ r'.offset ≤ r.buffer.size) ∧
    (∀ (op : EncodeOp) (v : Value) (w : Writer),
      ∃ result w', c.encodeByInto op v w = (result, w') ∧
        (∀ name, result ≠ .error (.unbounded name)) ∧
        c.encodeByChecked op v w = some (result, w') ∧ w.size ≤ w'.size) := by
  constructor
  · intro op r hr
    obtain ⟨v, r', -, hrun⟩ := exists_decodeBy hp hs op r
    have hadv := op.run_advancing (c.program.decode_advancing _) r v r' hrun
    exact ⟨v, r', hrun, (c.decodeByChecked_eq op hr).trans hrun, hadv.buffer_eq, hadv.offset_le,
      hadv.inBounds hr⟩
  · intro op v w
    exact ⟨_, _, rfl, encodeByInto_ne_unbounded (hs.program hp) op v w,
      c.encodeByChecked_eq op v w, c.size_le_encodeByInto op v w⟩

end Codec

namespace Tree

/-- Behind one byte, an array of two bytes, whose first element takes nine before it fails. -/
def overrun : ByteArray :=
  ⟨#[1, 0, 0, 0, 2, 0, 0, 0, 9, 0, 0, 0, 0, 0, 0, 0, 0, 0]⟩

end Tree

/-- The array goes back from the ninth byte behind its start to the second one. -/
theorem Codec.runs_inBounds_tree :
    (Tree.codec.decodeByChecked (.sizeArray (.call "Tree"))
      { buffer := Tree.overrun, offset := 1 }).map (·.2.offset) = some 7 ∧
    ∃ result w', Tree.codec.encodeByChecked (.call "Top") Tree.value { bytes := Tree.overrun } =
      some (result, w') ∧ 18 ≤ w'.size := by
  obtain ⟨hdecode, hencode⟩ := runs_inBounds (c := Tree.codec)
    (emit_eq_of_link Tree.compile_text Tree.link_program) Tree.grounded
  obtain ⟨v, r', hrun, hchecked, -⟩ := hdecode (.sizeArray (.call "Tree"))
    { buffer := Tree.overrun, offset := 1 } (by decide)
  obtain ⟨result, w', -, -, hw, hsize⟩ := hencode (.call "Top") Tree.value
    { bytes := Tree.overrun }
  have hoffset : (Tree.codec.decodeBy (.sizeArray (.call "Tree"))
      { buffer := Tree.overrun, offset := 1 }).map (·.2.offset) = some 7 := by decide +kernel
  refine ⟨?_, result, w', hw, hsize⟩
  rw [hchecked, ← hrun, hoffset]

end WireGrammar
