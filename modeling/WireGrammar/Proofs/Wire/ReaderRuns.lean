import WireGrammar.Proofs.Decode.Inert
import WireGrammar.Proofs.Decode.Locality
import WireGrammar.Proofs.RoundTrip.Inversion

/-!
# Runs of a reader

A reader is called again and again: to read, to move, to look back, to set and clear the error, to
grow the buffer.  What holds of it after any calls is shown here call by call.

* `Reader.Op`, `Reader.call`, `Reader.run` — a call, what it does, and what a sequence of calls
  does.
* `Primitive.Reads p b v` — the bytes `b`, to the last of them, are read as `v`.
* `Reader.width` — how many bytes a read takes.  Text and byte sequences say so in their own first
  bytes.
* `Reader.readPrimitive_of_lt`, `Reader.readPrimitive_of_le` — a read that goes past the end, and
  one that does not.
* `Reader.Invariant`, `Reader.invariant_run` — what holds after every run.
-/

set_option autoImplicit false
namespace WireGrammar

/-! ## Calls -/

/-- One call of a reader. -/
inductive Reader.Op where
  | read (p : Primitive)
  | skipTo (offset : Nat)
  | window (start stop : Nat)
  | setError (e : Option DecodeError)
  | reset
  /-- Extend the buffer by `n` bytes: as many of `fill` as fit, then zeros. -/
  | grow (n : Nat) (fill : ByteArray)

namespace Reader

/-- What a call returns, if it returns anything, and the reader that it leaves. -/
def call (r : Reader) : Op → Option Value × Reader
  | .read p =>
    let (v, r) := r.readPrimitive p
    (some v, r)
  | .skipTo offset => (none, r.skipTo offset)
  | .window start stop => (some (.bytes (r.window start stop)), r)
  | .setError e => (none, r.setError e)
  | .reset => (none, r.reset)
  | .grow n fill => (none, r.grow n fill)

theorem readPrimitive_eq_of_call {r r' : Reader} {p : Primitive} {v : Value}
    (h : r.call (.read p) = (some v, r')) : r.readPrimitive p = (v, r') := by
  have hreply : some (r.readPrimitive p).1 = some v := congrArg Prod.fst h
  have hreader : (r.readPrimitive p).2 = r' := congrArg Prod.snd h
  exact Prod.ext (Option.some.inj hreply) hreader

/-- What calls one after the other return, and the reader that they leave. -/
def run (r : Reader) : List Op → List (Option Value) × Reader
  | [] => ([], r)
  | op :: ops =>
    let (reply, r) := r.call op
    let (replies, r) := run r ops
    (reply :: replies, r)

theorem run_cons (r : Reader) (op : Op) (ops : List Op) :
    r.run (op :: ops) =
      ((r.call op).1 :: ((r.call op).2.run ops).1, ((r.call op).2.run ops).2) := rfl

/-- What the buffer grows by. -/
def Op.tail : Op → ByteArray
  | .grow n fill => fill.extract 0 n ++ ⟨Array.replicate (n - fill.size) 0⟩
  | _ => .empty

/-- Does the call clear the error? -/
def Op.clears : Op → Bool
  | .setError none | .reset => true
  | _ => false

/-! ## What one call keeps -/

theorem buffer_call (r : Reader) (op : Op) : (r.call op).2.buffer = r.buffer ++ op.tail := by
  cases op with
  | read p => exact (r.advances_readPrimitive p).buffer_eq.trans ByteArray.append_empty.symm
  | grow n fill => exact ByteArray.append_assoc
  | _ => exact ByteArray.append_empty.symm

theorem offset_le_size_call {r : Reader} (h : r.offset ≤ r.buffer.size) (op : Op) :
    (r.call op).2.offset ≤ (r.call op).2.buffer.size := by
  cases op with
  | read p => exact (r.advances_readPrimitive p).offset_le_size h
  | skipTo offset => exact Nat.min_le_right offset r.buffer.size
  | reset => exact Nat.zero_le _
  | grow n fill =>
    rw [buffer_call, ByteArray.size_append]
    exact Nat.le_add_right_of_le h
  | _ => exact h

theorem isSome_error_call {r : Reader} (h : r.error.isSome) {op : Op} (hop : op.clears = false) :
    (r.call op).2.error.isSome := by
  cases op with
  | read p =>
    show (r.readPrimitive p).2.error.isSome
    rwa [readPrimitive_of_error h p]
  | setError e =>
    cases e with
    | none => cases hop
    | some e => rfl
  | reset => cases hop
  | _ => exact h

/-! ## What a run keeps -/

theorem buffer_run (r : Reader) (ops : List Op) :
    (r.run ops).2.buffer = ops.foldl (fun b op => b ++ op.tail) r.buffer := by
  induction ops generalizing r with
  | nil => rfl
  | cons op ops ih => rw [run_cons, List.foldl_cons, ← buffer_call, ih]

theorem offset_le_size_run {r : Reader} (h : r.offset ≤ r.buffer.size) (ops : List Op) :
    (r.run ops).2.offset ≤ (r.run ops).2.buffer.size := by
  induction ops generalizing r with
  | nil => exact h
  | cons op ops ih => exact ih (offset_le_size_call h op)

theorem isSome_error_run {r : Reader} (h : r.error.isSome) {ops : List Op}
    (hops : ∀ op ∈ ops, op.clears = false) : (r.run ops).2.error.isSome := by
  induction ops generalizing r with
  | nil => exact h
  | cons op ops ih =>
    obtain ⟨hop, hops⟩ := List.forall_mem_cons.1 hops
    exact ih (isSome_error_call h hop) hops

end Reader

/-! ## What a read takes -/

/-- Read as the primitive, the bytes `b` give the value `v`, and none of them is left over. -/
def Primitive.Reads : Primitive → ByteArray → Value → Prop
  | .int k, b, v => b.size = k.bytes ∧ v = .int k (BigEndian.decode k b)
  | .string, b, v => ∃ head s, head.size = IntKind.uint16.bytes ∧ b = head ++ s.toUTF8 ∧
      s.utf8ByteSize = (BigEndian.decode .uint16 head).toNat ∧ v = .text s
  | .bytes, b, v => ∃ head body, head.size = IntKind.int32.bytes ∧ b = head ++ body ∧
      body.size = (BigEndian.decode .int32 head).toInt.toNat ∧ v = .bytes body

namespace Reader

/-- The word that the next bytes stand for. -/
def head (r : Reader) (k : IntKind) : BitVec k.bits :=
  BigEndian.decode k (r.window r.offset (r.offset + k.bytes))

/-- How many bytes a read takes from here, if they are there. -/
def width (r : Reader) : Primitive → Nat
  | .int k => k.bytes
  | .string => IntKind.uint16.bytes + (r.head .uint16).toNat
  | .bytes => IntKind.int32.bytes + (r.head .int32).toInt.toNat

variable {r : Reader}

theorem readInt_of_le {k : IntKind} (herr : r.error = none) (hle : k.bytes ≤ r.remaining) :
    r.readInt k = (r.head k, r.skip k.bytes) := by
  rw [readInt_eq_of_take (take_of_le herr hle)]
  rfl

theorem readInt_of_lt {k : IntKind} (herr : r.error = none) (hlt : r.remaining < k.bytes) :
    r.readInt k = (0#k.bits, r.setError (some .unexpectedEnd)) := by
  rw [readInt_eq_of_take (take_of_lt herr hlt)]
  rfl

/-- Bytes behind their length, where all of them are there. -/
theorem take_counted_of_le {k : IntKind} (count : BitVec k.bits → Nat) (herr : r.error = none)
    (hle : k.bytes + count (r.head k) ≤ r.remaining) :
    (r.readInt k).2.take (count (r.readInt k).1) =
      (some (r.window (r.offset + k.bytes) (r.offset + (k.bytes + count (r.head k)))),
        r.skip (k.bytes + count (r.head k))) := by
  rw [readInt_of_le herr (Nat.le_of_add_right_le hle)]
  have hrest : count (r.head k) ≤ (r.skip k.bytes).remaining := by
    rw [remaining] at hle ⊢
    simp only [skip]
    omega
  show (r.skip k.bytes).take (count (r.head k)) = _
  rw [take_of_le (r := r.skip k.bytes) herr hrest]
  simp only [window, skip, Nat.add_assoc]

/-- Bytes behind their length, where the buffer ends before them or even before their length. -/
theorem take_counted_of_lt {k : IntKind} (count : BitVec k.bits → Nat) (herr : r.error = none)
    (hlt : r.remaining < k.bytes + count (r.head k)) :
    ∃ r', (r.readInt k).2.take (count (r.readInt k).1) = (none, r') ∧
      r'.error = some .unexpectedEnd := by
  by_cases hle : k.bytes ≤ r.remaining
  · rw [readInt_of_le herr hle]
    have hrest : (r.skip k.bytes).remaining < count (r.head k) := by
      rw [remaining] at hlt hle ⊢
      simp only [skip]
      omega
    exact ⟨_, take_of_lt herr hrest, rfl⟩
  · rw [readInt_of_lt herr (Nat.lt_of_not_le hle)]
    exact ⟨_, take_of_error rfl _, rfl⟩

/-- **A read past the end** leaves an error and gives zero. -/
theorem readPrimitive_of_lt {p : Primitive} (herr : r.error = none)
    (hlt : r.remaining < r.width p) :
    (r.readPrimitive p).1 = .zero p ∧ (r.readPrimitive p).2.error = some .unexpectedEnd := by
  cases p with
  | int k =>
    simp only [readPrimitive, readInt_of_lt herr hlt]
    exact ⟨rfl, rfl⟩
  | string =>
    obtain ⟨r', htake, herr'⟩ := take_counted_of_lt BitVec.toNat herr hlt
    simp only [readPrimitive, readText, htake]
    exact ⟨rfl, herr'⟩
  | bytes =>
    obtain ⟨r', htake, herr'⟩ := take_counted_of_lt (fun n => n.toInt.toNat) herr hlt
    simp only [readPrimitive, readBytes, htake]
    exact ⟨rfl, herr'⟩

theorem size_window_of_le {n : Nat} (hle : n ≤ r.remaining) :
    (r.window r.offset (r.offset + n)).size = n := by
  rw [remaining] at hle
  rw [window, ByteArray.size_extract]
  omega

theorem window_append (r : Reader) (m n : Nat) :
    r.window r.offset (r.offset + m) ++ r.window (r.offset + m) (r.offset + (m + n)) =
      r.window r.offset (r.offset + (m + n)) :=
  (ByteArray.extract_eq_extract_append_extract _ (Nat.le_add_right _ _) (by omega)).symm

/-- Behind heads of one size the rest is the same. -/
theorem eq_of_append_eq {a a' b b' : ByteArray} (hsize : a.size = a'.size)
    (h : a ++ b = a' ++ b') : b = b' := by
  calc b = (a ++ b).extract a.size (a ++ b).size :=
        (ByteArray.extract_append_eq_right rfl ByteArray.size_append).symm
    _ = (a' ++ b').extract a'.size (a' ++ b').size := by rw [h, hsize]
    _ = b' := ByteArray.extract_append_eq_right rfl ByteArray.size_append

/-- The length stands in front of what it counts. -/
theorem exists_window_eq {k : IntKind} {n : Nat} (hle : k.bytes + n ≤ r.remaining) :
    ∃ head body, head.size = k.bytes ∧ body.size = n ∧ BigEndian.decode k head = r.head k ∧
      r.window (r.offset + k.bytes) (r.offset + (k.bytes + n)) = body ∧
      r.window r.offset (r.offset + (k.bytes + n)) = head ++ body := by
  have hsize := size_window_of_le hle
  have hhead := size_window_of_le (Nat.le_of_add_right_le hle)
  rw [← window_append, ByteArray.size_append, hhead] at hsize
  exact ⟨_, _, hhead, Nat.add_left_cancel hsize, rfl, rfl, (window_append r k.bytes n).symm⟩

/-- **A read that stays inside the buffer** moves on by its width.  It gives what the bytes in
between are read as; only where they are not text, no value and an error are left. -/
theorem readPrimitive_of_le {p : Primitive} (herr : r.error = none)
    (hle : r.width p ≤ r.remaining) :
    (r.readPrimitive p).2.offset = r.offset + r.width p ∧
      ((r.readPrimitive p).2.error = none ∧
          p.Reads (r.window r.offset (r.offset + r.width p)) (r.readPrimitive p).1 ∨
        (r.readPrimitive p).2.error = some .invalidUtf8 ∧
          ∀ v, ¬ p.Reads (r.window r.offset (r.offset + r.width p)) v) := by
  cases p with
  | int k =>
    simp only [readPrimitive, readInt_of_le herr hle]
    exact ⟨rfl, .inl ⟨(error_skip r _).trans herr, size_window_of_le hle, rfl⟩⟩
  | bytes =>
    have htake := take_counted_of_le (fun n => n.toInt.toNat) herr hle
    obtain ⟨head, body, hhead, hbody, hdecode, hwindow, hsplit⟩ := exists_window_eq hle
    simp only [readPrimitive, readBytes, htake, hwindow]
    refine ⟨rfl, .inl ⟨(error_skip r _).trans herr, head, body, hhead, hsplit, ?_, rfl⟩⟩
    rw [hbody, hdecode]
  | string =>
    have htake := take_counted_of_le BitVec.toNat herr hle
    obtain ⟨head, body, hhead, hbody, hdecode, hwindow, hsplit⟩ := exists_window_eq hle
    simp only [readPrimitive, readText, htake, hwindow]
    cases htext : String.fromUTF8? body with
    | some s =>
      have hutf := Text.toUTF8_of_fromUTF8? htext
      rw [← hutf] at hsplit
      refine ⟨rfl, .inl ⟨(error_skip r _).trans herr, head, s, hhead, hsplit, ?_, rfl⟩⟩
      rw [hdecode, ← hbody, ← hutf]
      rfl
    | none =>
      refine ⟨rfl, .inr ⟨rfl, ?_⟩⟩
      rintro v ⟨head', s, hhead', heq, -, -⟩
      rw [width, hsplit] at heq
      have hutf : body = s.toUTF8 := eq_of_append_eq (hhead.trans hhead'.symm) heq
      rw [hutf, Text.fromUTF8?_toUTF8] at htext
      cases htext

/-! ## Every run -/

/-- What holds of a reader that started on the bytes `b` and was called by `ops`. -/
structure Invariant (b : ByteArray) (ops : List Op) (r : Reader) : Prop where
  inBounds : r.offset ≤ r.buffer.size
  remaining_eq : r.offset + r.remaining = r.buffer.size
  /-- Nothing but `grow` touches the buffer, and `grow` only at its end. -/
  buffer_eq : r.buffer = ops.foldl (fun b op => b ++ op.tail) b
  /-- The error stays until it is cleared, and up to then a read gives zero and moves nothing. -/
  sticky : r.error.isSome → ∀ later : List Op, (∀ op ∈ later, op.clears = false) →
    ∀ p, (r.run later).2.call (.read p) = (some (.zero p), (r.run later).2)
  short : r.error = none → ∀ p v r', r.call (.read p) = (some v, r') →
    r.remaining < r.width p → v = .zero p ∧ r'.error = some .unexpectedEnd
  whole : r.error = none → ∀ p v r', r.call (.read p) = (some v, r') →
    r.width p ≤ r.remaining → r'.offset = r.offset + r.width p ∧
      (r'.error = none ∧ p.Reads (r.window r.offset r'.offset) v ∨
        r'.error = some .invalidUtf8 ∧ ∀ v', ¬ p.Reads (r.window r.offset r'.offset) v')

theorem invariant_of_inBounds {b : ByteArray} {ops : List Op} (hin : r.offset ≤ r.buffer.size)
    (hbuffer : r.buffer = ops.foldl (fun b op => b ++ op.tail) b) : Invariant b ops r where
  inBounds := hin
  remaining_eq := Nat.add_sub_cancel' hin
  buffer_eq := hbuffer
  sticky := by
    intro herr later hlater p
    have hsome := isSome_error_run herr hlater
    rw [call, readPrimitive_eq_of_error hsome]
  short := by
    intro herr p v r' hcall hlt
    have h := readPrimitive_of_lt herr hlt
    rwa [readPrimitive_eq_of_call hcall] at h
  whole := by
    intro herr p v r' hcall hle
    obtain ⟨hoffset, h⟩ := readPrimitive_of_le herr hle
    rw [readPrimitive_eq_of_call hcall] at hoffset h
    rw [← hoffset] at h
    exact ⟨hoffset, h⟩

/-- **The reader invariant**: it holds whatever the bytes are and whatever was called. -/
theorem invariant_run (b : ByteArray) (ops : List Op) :
    Invariant b ops (({ buffer := b } : Reader).run ops).2 :=
  invariant_of_inBounds (offset_le_size_run (Nat.zero_le _) ops) (buffer_run _ ops)

/-- Three bytes of text are announced and one is there; the other two come too late. -/
def afterCutText : Reader :=
  (({ buffer := ⟨#[0, 3, 97]⟩ } : Reader).run [.read .string, .grow 2 ⟨#[98, 99]⟩]).2

/-- Text that was cut off is read only after `reset`. -/
theorem invariant_run_cut_text :
    afterCutText.error = some .unexpectedEnd ∧
      afterCutText.offset + afterCutText.remaining = afterCutText.buffer.size ∧
      ((afterCutText.run [.skipTo 0]).2.call (.read .string)).1 = some (.text "") ∧
      ((afterCutText.run [.reset]).2.call (.read .string)).1 = some (.text "abc") := by
  have h := invariant_run ⟨#[0, 3, 97]⟩ [.read .string, .grow 2 ⟨#[98, 99]⟩]
  have herr : afterCutText.error = some .unexpectedEnd := by decide +kernel
  have hzero := h.sticky (herr ▸ rfl) [.skipTo 0] (by simp [Op.clears]) .string
  refine ⟨herr, h.remaining_eq, congrArg Prod.fst hzero, ?_⟩
  decide +kernel

end Reader
end WireGrammar
