import Mathlib.Tactic.Ring
import WireGrammar.Bytes.BigEndian

/-!
# Big-endian words read back

* `BigEndian.value_bytes` — writing `n` bytes of `x` and reading them back gives `x` modulo
  `256 ^ n`.
* `BigEndian.bytes_value` — reading bytes as a number and writing as many bytes of it gives the
  bytes back.
* `BigEndian.decode_encode`, `BigEndian.encode_decode` — the same for the words of an integer kind.
-/

set_option autoImplicit false
namespace WireGrammar
namespace BigEndian

theorem bytes_succ (n x : Nat) : bytes (n + 1) x = UInt8.ofNat (x / 256 ^ n) :: bytes n x := by
  rw [bytes, Nat.shiftRight_eq_div_pow, Nat.pow_mul]

theorem valueFrom_eq (acc : Nat) (bs : List UInt8) :
    valueFrom acc bs = acc * 256 ^ bs.length + value bs := by
  induction bs generalizing acc with
  | nil => simp [valueFrom, value]
  | cons b bs ih =>
    simp only [valueFrom, value, List.length_cons]
    rw [ih, ih (0 * 256 + b.toNat)]
    ring

theorem value_cons (b : UInt8) (bs : List UInt8) :
    value (b :: bs) = b.toNat * 256 ^ bs.length + value bs := by
  rw [value, valueFrom, valueFrom_eq]
  simp

/-- **Reading what was written**: `n` bytes hold a number modulo `256 ^ n`. -/
theorem value_bytes (n x : Nat) : value (bytes n x) = x % 256 ^ n := by
  induction n with
  | zero => simp [bytes, value, valueFrom, Nat.mod_one]
  | succ n ih =>
    have hb : (UInt8.ofNat (x / 256 ^ n)).toNat = x / 256 ^ n % 256 := UInt8.toNat_ofNat'
    rw [bytes_succ, value_cons, ih, length_bytes, hb, pow_succ, Nat.mod_mul]
    ring

theorem value_lt (bs : List UInt8) : value bs < 256 ^ bs.length := by
  induction bs with
  | nil => simp [value, valueFrom]
  | cons b bs ih =>
    have hb : b.toNat * 256 ^ bs.length ≤ 255 * 256 ^ bs.length :=
      Nat.mul_le_mul_right _ (by have := b.toNat_lt; omega)
    rw [value_cons, List.length_cons, pow_succ]
    omega

theorem bytes_add_mul (n k x : Nat) : bytes n (k * 256 ^ n + x) = bytes n x := by
  induction n generalizing k with
  | zero => rfl
  | succ n ih =>
    have hk : k * 256 ^ (n + 1) = k * 256 * 256 ^ n := by ring
    rw [bytes_succ, bytes_succ, hk, ih]
    congr 1
    have hpos : 0 < 256 ^ n := Nat.pow_pos (by decide)
    rw [Nat.add_comm, Nat.add_mul_div_right _ _ hpos]
    apply UInt8.toNat_inj.1
    simp only [UInt8.toNat_ofNat']
    omega

/-- **Writing what was read** gives the bytes back. -/
theorem bytes_value (bs : List UInt8) : bytes bs.length (value bs) = bs := by
  induction bs with
  | nil => rfl
  | cons b bs ih =>
    rw [List.length_cons, bytes_succ, value_cons, bytes_add_mul, ih]
    congr 1
    have hpos : 0 < 256 ^ bs.length := Nat.pow_pos (by decide)
    rw [Nat.add_comm, Nat.add_mul_div_right _ _ hpos, Nat.div_eq_of_lt (value_lt bs)]
    apply UInt8.toNat_inj.1
    have hb := b.toNat_lt
    simp only [UInt8.toNat_ofNat']
    omega

/-! ## Words of an integer kind -/

theorem pow_bits (k : IntKind) : 256 ^ k.bytes = 2 ^ k.bits := by
  rw [IntKind.bits, Nat.pow_mul]

@[simp] theorem decode_encode (k : IntKind) (x : BitVec k.bits) : decode k (encode k x) = x := by
  apply BitVec.eq_of_toNat_eq
  simp [decode, encode, value_bytes, pow_bits]

theorem encode_decode (k : IntKind) (b : ByteArray) (h : b.size = k.bytes) :
    encode k (decode k b) = b := by
  have hlen : b.data.toList.length = k.bytes := by simpa using h
  have hlt : value b.data.toList < 2 ^ k.bits := by
    rw [← pow_bits, ← hlen]
    exact value_lt _
  rw [encode, decode, BitVec.toNat_ofNat, Nat.mod_eq_of_lt hlt, ← hlen, bytes_value]
  apply ByteArray.ext
  simp

end BigEndian
end WireGrammar
