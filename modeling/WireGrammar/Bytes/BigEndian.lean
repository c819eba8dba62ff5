import WireGrammar.Primitive

/-!
# Big-endian words

Integers go over the wire with the most significant byte first.

* `BigEndian.bytes n x` — the low `n` bytes of `x`; `BigEndian.value` reads bytes back as a number.
* `BigEndian.encode`, `BigEndian.decode` — the same for the words of an integer kind.

That each undoes the other is shown in `WireGrammar.Bytes.Lemmas`.
-/

set_option autoImplicit false
namespace WireGrammar
namespace BigEndian

/-- The low `n` bytes of `x`, most significant first. -/
def bytes : Nat → Nat → List UInt8
  | 0, _ => []
  | n + 1, x => UInt8.ofNat (x >>> (8 * n)) :: bytes n x

/-- The number that bytes stand for, most significant first, continuing from `acc`. -/
def valueFrom (acc : Nat) : List UInt8 → Nat
  | [] => acc
  | b :: bs => valueFrom (acc * 256 + b.toNat) bs

/-- The number that bytes stand for, most significant first. -/
def value (bs : List UInt8) : Nat :=
  valueFrom 0 bs

@[simp] theorem length_bytes (n x : Nat) : (bytes n x).length = n := by
  induction n with
  | zero => rfl
  | succ n ih => simp [bytes, ih]

/-! ## Words of an integer kind -/

/-- The bytes of a word. -/
def encode (k : IntKind) (x : BitVec k.bits) : ByteArray :=
  (bytes k.bytes x.toNat).toByteArray

/-- The word that bytes stand for; the low bytes count if there are too many. -/
def decode (k : IntKind) (b : ByteArray) : BitVec k.bits :=
  BitVec.ofNat k.bits (value b.data.toList)

@[simp] theorem size_encode (k : IntKind) (x : BitVec k.bits) : (encode k x).size = k.bytes := by
  simp [encode]

end BigEndian
end WireGrammar
