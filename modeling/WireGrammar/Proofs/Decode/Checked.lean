import WireGrammar.Proofs.Decode.Progress

/-!
# Decoding with checked offsets

Decoding works with offsets: it cuts pieces out of the buffer, and it subtracts one offset from
another.  Here the same operations are run with subtractions and pieces that fail where the result
would be negative or where bytes are missing.  On a reader inside its buffer nothing fails.

* `Checked.sub`, `Checked.slice` — a difference and a piece, if they exist.
* `Checked.readPrimitive`, `Checked.verify`, `Checked.collectWithin`, `DecodeOp.runChecked`,
  `Program.decodeChecked` — decoding that uses these; the size array is a loop that compares the
  bytes taken so far with its size.
* `DecodeM.Agrees` — on every reader inside its buffer, from some offset on, two steps do the same.
* `DecodeOp.run_checked`, `Program.decode_checked` — nothing that an operation or a routine checks
  ever fails.
-/

set_option autoImplicit false
namespace WireGrammar

/-! ## Steps that check -/

namespace Checked

/-- The difference of two numbers, unless it is negative. -/
def sub (a b : Nat) : Option Nat :=
  if b ≤ a then some (a - b) else none

/-- The bytes from `start` up to `stop`, unless some are missing. -/
def slice (b : ByteArray) (start stop : Nat) : Option ByteArray :=
  if start ≤ stop ∧ stop ≤ b.size then some (b.extract start stop) else none

theorem sub_of_le {a b : Nat} (h : b ≤ a) : sub a b = some (a - b) :=
  if_pos h

theorem slice_of_le {b : ByteArray} {start stop : Nat} (h : start ≤ stop) (h' : stop ≤ b.size) :
    slice b start stop = some (b.extract start stop) :=
  if_pos ⟨h, h'⟩

/-- Consume the next `n` bytes. -/
def take (n : Nat) : DecodeM (Option ByteArray) := do
  let r ← get
  if r.error.isSome then return none
  if n ≤ r.remaining then
    let b ← slice r.buffer r.offset (r.offset + n)
    set { r with offset := r.offset + n }
    return some b
  else
    set (r.setError (some .unexpectedEnd))
    return none

/-- Read an integer. -/
def readInt (k : IntKind) : DecodeM (BitVec k.bits) := do
  match ← take k.bytes with
  | some b => return BigEndian.decode k b
  | none => return 0#k.bits

/-- Read text. -/
def readText : DecodeM String := do
  let n ← readInt .uint16
  match ← take n.toNat with
  | none => return ""
  | some b =>
    match String.fromUTF8? b with
    | some s => return s
    | none =>
      modify (·.setError (some .invalidUtf8))
      return ""

/-- Read a byte sequence. -/
def readBytes : DecodeM ByteArray := do
  let n ← readInt .int32
  match ← take n.toInt.toNat with
  | none => return .empty
  | some b => return b

/-- Read a primitive. -/
def readPrimitive : Primitive → DecodeM Value
  | .int k => return .int k (← readInt k)
  | .string => return .text (← readText)
  | .bytes => return .bytes (← readBytes)

/-- Compare the slot of a framed struct with the body. -/
def verify (framing : Framing) (signed : Bool) (slot : BitVec (IntKind.word signed).bits)
    (start : Nat) : DecodeM Unit := do
  let r ← get
  match r.error, framing with
  | some _, _ => return
  | none, .size =>
    let declared := (IntKind.word signed).toInt slot
    let consumed ← sub r.offset start
    if declared ≠ consumed then set (r.setError (some (.sizeMismatch declared consumed)))
  | none, .crc =>
    let declared := UInt32.ofNat slot.toNat
    let computed := checksum (← slice r.buffer start r.offset)
    if declared ≠ computed then set (r.setError (some (.crcMismatch declared computed)))

/-- Decode items while fewer than `size` bytes have been taken since the offset `start`. -/
def collectWithin (item : DecodeM Value) (start size : Nat) :
    Nat → List Value → DecodeM (List Value)
  | 0, acc => return acc.reverse
  | fuel + 1, acc => do
    let before := (← get).offset
    if size ≤ (← sub before start) then return acc.reverse
    let v ← item
    let r ← get
    match r.error with
    | some e =>
      if e.isRecoverable then set ((r.setError none).skipTo (start + size))
      return acc.reverse
    | none =>
      if r.offset = before then return (v :: acc).reverse
      collectWithin item start size fuel (v :: acc)

end Checked

mutual

/-- Decode a value. -/
def DecodeOp.runChecked (call : String → DecodeM Value) : DecodeOp → DecodeM Value
  | .read p => Checked.readPrimitive p
  | .readAlias typeName p => return .named typeName (← Checked.readPrimitive p)
  | .call name => call name
  | .struct ops => return .struct (← runCheckedFields call [] ops)
  | .framed framing signed verify body => do
    let slot ← Checked.readInt (.word signed)
    let start := (← get).offset
    let fields ← runCheckedFields call [⟨framing.fieldName, .int (.word signed) slot⟩] body
    if verify then Checked.verify framing signed slot start
    return .struct fields
  | .lengthArray element => do
    let count ← Checked.readInt .int32
    return .list (← collect (element.runChecked call) count.toInt.toNat [])
  | .sizeArray element => do
    let size ← Checked.readInt .int32
    let r ← get
    if r.error.isSome then return .list []
    return .list (← Checked.collectWithin (element.runChecked call) r.offset size.toInt.toNat
      size.toInt.toNat [])
  | .unsupported owner => do
    modify (·.fail (.unsupported owner))
    return .struct []

/-- Decode fields in order, onto the fields read so far. -/
def DecodeOp.runCheckedFields (call : String → DecodeM Value) (fields : List (Field Value)) :
    List (Field DecodeOp) → DecodeM (List (Field Value))
  | [] => return fields
  | ⟨name, op⟩ :: ops => do
    let v ← op.runChecked call
    runCheckedFields call (Fields.insert name v fields) ops

end

/-- Decode a value of the type `name`. -/
def Program.decodeChecked (p : Program) : Nat → String → DecodeM Value
  | 0, _ => failure
  | fuel + 1, name =>
    match p.routine? name with
    | some r => r.decode.runChecked (p.decodeChecked fuel)
    | none => do
      modify (·.fail (.codec s!"no routine for {name}"))
      return .struct []

/-! ## Steps that agree -/

namespace DecodeM

variable {α β : Type} {start : Nat} {m m' : DecodeM α} {k k' : α → DecodeM β}

/-- On every reader inside its buffer, not before `start`, both steps do the same. -/
def Agrees (start : Nat) (m m' : DecodeM α) : Prop :=
  ∀ r : Reader, start ≤ r.offset → r.offset ≤ r.buffer.size → m'.run r = m.run r

theorem Agrees.refl (m : DecodeM α) : Agrees start m m :=
  fun _ _ _ => rfl

theorem Agrees.mono {start' : Nat} (h : Agrees start m m') (hle : start ≤ start') :
    Agrees start' m m' :=
  fun r hr => h r (Nat.le_trans hle hr)

/-- **Steps one after the other agree**, since the first only advances. -/
theorem Agrees.bind (hm : Agrees start m m') (hadv : Advancing m)
    (hk : ∀ a, Agrees start (k a) (k' a)) : Agrees start (m >>= k) (m' >>= k') := by
  intro r hstart hr
  rw [StateT.run_bind, StateT.run_bind, hm r hstart hr]
  cases h : m.run r with
  | none => rfl
  | some x =>
    obtain ⟨a, r'⟩ := x
    have hr' := hadv r a r' h
    refine hk a r' (Nat.le_trans hstart hr'.offset_le) ?_
    rw [hr'.buffer_eq]
    exact hr'.inBounds hr

theorem Agrees.map (hm : Agrees start m m') (f : α → β) :
    Agrees start (m >>= fun a => pure (f a)) (m' >>= fun a => pure (f a)) := by
  intro r hstart hr
  rw [StateT.run_bind, StateT.run_bind, hm r hstart hr]

theorem liftM_some_bind (a : α) (k : α → DecodeM β) : (liftM (some a) >>= k : DecodeM β) = k a :=
  rfl

/-- What follows may rely on the offset that a step has looked at. -/
theorem Agrees.get_bind {k k' : Reader → DecodeM β}
    (h : ∀ r : Reader, start ≤ r.offset → Agrees r.offset (k r) (k' r)) :
    Agrees start (get >>= k) (get >>= k') :=
  fun r hstart hr => h r hstart r (Nat.le_refl _) hr

end DecodeM

open DecodeM

namespace Checked

variable {r : Reader}

/-! ## Reads -/

theorem run_take (hr : r.offset ≤ r.buffer.size) (n : Nat) : (take n).run r = some (r.take n) := by
  change (if r.error.isSome then _ else _ : DecodeM (Option ByteArray)).run r = _
  rw [Reader.take]
  cases herr : r.error with
  | some e => rfl
  | none =>
    by_cases hn : n ≤ r.remaining
    · have hstop : r.offset + n ≤ r.buffer.size := by
        rw [Reader.remaining] at hn
        omega
      simp only [if_pos hn, slice_of_le (Nat.le_add_right _ _) hstop]
      rfl
    · simp only [if_neg hn]
      rfl

theorem run_take_bind (hr : r.offset ≤ r.buffer.size) (n : Nat) {α : Type}
    (k : Option ByteArray → DecodeM α) :
    (take n >>= k).run r = (k (r.take n).1).run (r.take n).2 := by
  rw [StateT.run_bind, run_take hr]
  rfl

theorem run_readInt (hr : r.offset ≤ r.buffer.size) (k : IntKind) :
    (readInt k).run r = some (r.readInt k) := by
  rw [readInt, run_take_bind hr, Reader.readInt]
  rcases r.take k.bytes with ⟨_ | b, r'⟩ <;> rfl

/-- A length is read, and then the bytes that it counts. -/
theorem run_readInt_take_bind (hr : r.offset ≤ r.buffer.size) (k : IntKind)
    (length : BitVec k.bits → Nat) {α : Type} (f : Option ByteArray → DecodeM α) :
    (readInt k >>= fun n => take (length n) >>= f).run r =
      (f ((r.readInt k).2.take (length (r.readInt k).1)).1).run
        ((r.readInt k).2.take (length (r.readInt k).1)).2 := by
  have hadv := r.advances_readInt k
  have hr' : (r.readInt k).2.offset ≤ (r.readInt k).2.buffer.size := by
    rw [hadv.buffer_eq]
    exact hadv.inBounds hr
  rw [StateT.run_bind, run_readInt hr]
  exact run_take_bind hr' _ f

theorem run_readText (hr : r.offset ≤ r.buffer.size) : readText.run r = some r.readText := by
  rw [readText, run_readInt_take_bind hr, Reader.readText]
  rcases r.readInt .uint16 with ⟨n, r'⟩
  simp only
  rcases r'.take n.toNat with ⟨_ | b, r''⟩
  · rfl
  · simp only
    cases String.fromUTF8? b <;> rfl

theorem run_readBytes (hr : r.offset ≤ r.buffer.size) : readBytes.run r = some r.readBytes := by
  rw [readBytes, run_readInt_take_bind hr _ (fun n => n.toInt.toNat), Reader.readBytes]
  rcases r.readInt .int32 with ⟨n, r'⟩
  simp only
  rcases r'.take n.toInt.toNat with ⟨_ | b, r''⟩ <;> rfl

theorem run_readPrimitive (hr : r.offset ≤ r.buffer.size) (p : Primitive) :
    (readPrimitive p).run r = some (r.readPrimitive p) := by
  cases p with
  | int k => exact run_bind_eq_some.2 ⟨_, _, run_readInt hr k, rfl⟩
  | string => exact run_bind_eq_some.2 ⟨_, _, run_readText hr, rfl⟩
  | bytes => exact run_bind_eq_some.2 ⟨_, _, run_readBytes hr, rfl⟩

/-- **A body is verified without fault**, if it starts before the reader. -/
theorem run_verify {framing : Framing} {signed : Bool} {slot : BitVec (IntKind.word signed).bits}
    {start : Nat} (hstart : start ≤ r.offset) (hr : r.offset ≤ r.buffer.size) :
    (verify framing signed slot start).run r = some ((), r.verify framing signed slot start) := by
  rw [verify, Reader.verify.eq_def]
  refine run_bind_eq_some.2 ⟨r, r, rfl, ?_⟩
  cases r.error with
  | some e => rfl
  | none =>
    cases framing with
    | size =>
      simp only [sub_of_le hstart, liftM_some_bind]
      by_cases h : (IntKind.word signed).toInt slot = (r.offset - start : Nat)
      · rw [if_neg (not_not_intro h), if_pos h]
        rfl
      · rw [if_pos h, if_neg h]
        rfl
    | crc =>
      have hwindow : slice r.buffer start r.offset = some (r.window start r.offset) :=
        slice_of_le hstart hr
      simp only [hwindow, liftM_some_bind]
      by_cases h : UInt32.ofNat slot.toNat = checksum (r.window start r.offset)
      · rw [if_neg (not_not_intro h), if_pos h]
        rfl
      · rw [if_pos h, if_neg h]
        rfl

end Checked

/-! ## Arrays -/

theorem collect_agrees {item item' : DecodeM Value} (hi : Agrees 0 item item')
    (hadv : Advancing item) :
    ∀ (n : Nat) (acc : List Value), Agrees 0 (collect item n acc) (collect item' n acc)
  | 0, acc => .refl _
  | n + 1, acc => by
    rw [collect, collect]
    refine hi.bind hadv fun v => Agrees.get_bind fun r _ => ?_
    split
    · exact .refl _
    · exact (collect_agrees hi hadv n _).mono (Nat.zero_le _)

/-- **The bytes taken by the elements of a size array can be counted**: no element leads back behind
the start of the array. -/
theorem collectWithin_agrees {item item' : DecodeM Value} (hi : Agrees 0 item item')
    (hadv : Advancing item) {start size : Nat} :
    ∀ (fuel : Nat) (acc : List Value),
      Agrees start (collectWithin item (start + size) fuel acc)
        (Checked.collectWithin item' start size fuel acc)
  | 0, acc => .refl _
  | fuel + 1, acc => by
    rw [collectWithin, Checked.collectWithin]
    refine Agrees.get_bind fun r hstart => ?_
    simp only [Checked.sub_of_le hstart, liftM_some_bind]
    by_cases hsize : size ≤ r.offset - start
    · rw [if_pos hsize, if_pos (by omega)]
      exact .refl _
    · rw [if_neg hsize, if_neg (by omega)]
      refine (hi.mono (Nat.zero_le _)).bind hadv fun v => Agrees.get_bind fun r' hr' => ?_
      cases r'.error with
      | some e => exact .refl _
      | none =>
        simp only
        split
        · exact .refl _
        · exact (collectWithin_agrees hi hadv fuel _).mono (Nat.le_trans hstart hr')

/-! ## Operations -/

section Operations

variable {call call' : String → DecodeM Value}

theorem readPrimitive_agrees (p : Primitive) :
    Agrees 0 (modifyGet (·.readPrimitive p)) (Checked.readPrimitive p) :=
  fun _ _ hr => Checked.run_readPrimitive hr p

/-- What follows an integer may rely on its having been read. -/
theorem readInt_bind_agrees {α : Type} (k : IntKind) {m m' : BitVec k.bits → DecodeM α}
    (h : ∀ x, Agrees 0 (m x) (m' x)) :
    Agrees 0 (modifyGet (·.readInt k) >>= m) (Checked.readInt k >>= m') :=
  Agrees.bind (fun _ _ hr => Checked.run_readInt hr k)
    (advancing_modifyGet fun r => r.advances_readInt k) h

mutual

/-- **Nothing that an operation checks fails**, if nothing fails in the routines that it calls. -/
theorem DecodeOp.run_checked (hcall : ∀ name, Agrees 0 (call name) (call' name))
    (hadv : ∀ name, Advancing (call name)) :
    ∀ op : DecodeOp, Agrees 0 (op.run call) (op.runChecked call')
  | .read p => by
    rw [run, runChecked]
    exact readPrimitive_agrees p
  | .readAlias typeName p => by
    rw [run, runChecked]
    exact (readPrimitive_agrees p).map (Value.named typeName)
  | .call name => by
    rw [run, runChecked]
    exact hcall name
  | .struct ops => by
    rw [run, runChecked]
    exact (runFields_checked hcall hadv ops []).map Value.struct
  | .framed framing signed verify body => by
    rw [run, runChecked]
    refine readInt_bind_agrees _ fun slot => Agrees.get_bind fun r _ => ?_
    refine ((runFields_checked hcall hadv body _).mono (Nat.zero_le _)).bind
      (runFields_advancing hadv body _) fun fields => ?_
    cases verify with
    | false => exact .refl _
    | true =>
      refine Agrees.bind (fun r' hstart hr' => Checked.run_verify hstart hr')
        (advancing_modify fun r' => r'.advances_verify _ _ _ _) fun _ => .refl _
  | .lengthArray element => by
    rw [run, runChecked]
    refine readInt_bind_agrees _ fun count => ?_
    exact (collect_agrees (run_checked hcall hadv element) (run_advancing hadv element) _ _).map
      Value.list
  | .sizeArray element => by
    rw [run, runChecked]
    refine readInt_bind_agrees _ fun size => Agrees.get_bind fun r _ => ?_
    split
    · exact .refl _
    · exact (collectWithin_agrees (run_checked hcall hadv element) (run_advancing hadv element) _
        _).map Value.list
  | .unsupported owner => by
    rw [run, runChecked]
    exact .refl _

theorem DecodeOp.runFields_checked (hcall : ∀ name, Agrees 0 (call name) (call' name))
    (hadv : ∀ name, Advancing (call name)) :
    ∀ (ops : List (Field DecodeOp)) (fields : List (Field Value)),
      Agrees 0 (runFields call fields ops) (runCheckedFields call' fields ops)
  | [], fields => by
    rw [runFields, runCheckedFields]
    exact .refl _
  | ⟨name, op⟩ :: ops, fields => by
    rw [runFields, runCheckedFields]
    exact (run_checked hcall hadv op).bind (run_advancing hadv op) fun _ =>
      runFields_checked hcall hadv ops _

end

end Operations

/-- **Nothing that a routine checks fails.** -/
theorem Program.decode_checked (p : Program) :
    ∀ (fuel : Nat) (name : String), Agrees 0 (p.decode fuel name) (p.decodeChecked fuel name)
  | 0, name => .refl _
  | fuel + 1, name => by
    rw [decode, decodeChecked]
    cases p.routine? name with
    | some r => exact DecodeOp.run_checked (p.decode_checked fuel) (p.decode_advancing fuel) _
    | none => exact .refl _

end WireGrammar
