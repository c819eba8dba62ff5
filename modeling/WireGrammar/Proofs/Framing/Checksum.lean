import Mathlib.Logic.Function.Basic
import WireGrammar.Checksum

/-!
# A checksum notices every change of one byte

The shift register of CRC-32 never forgets: from the register after a shift the register before it
can be told, because the bit shifted out comes back as the highest bit.  So two inputs that differ
in one byte leave different registers behind that byte, and equal bytes after it keep them apart.

* `Crc32.getLsbD_shift` — where the bit shifted out goes.
* `Crc32.shift_injective`, `Crc32.step_left_injective`, `Crc32.step_right_injective` — a step tells
  registers apart, and bytes.
* `Crc32.foldl_step_set_ne` — a run tells a changed byte apart, wherever it stands.
* `checksum_set_ne` — so does the checksum.
* `Bytes.extract_set_of_not_mem`, `Bytes.extract_set_of_mem` — a changed byte seen in a part of the
  bytes.
-/

set_option autoImplicit false
namespace WireGrammar
namespace Crc32

theorem and_one_eq_one_iff (r : UInt32) : r &&& 1 = 1 ↔ r.toBitVec.getLsbD 0 = true := by
  have hodd : (r &&& 1).toNat = r.toNat % 2 := by
    rw [UInt32.toNat_and]
    exact Nat.and_one_is_mod _
  rw [← UInt32.toNat_inj, hodd, BitVec.getLsbD, Nat.testBit_zero, decide_eq_true_iff]
  rfl

theorem toBitVec_shift (r : UInt32) :
    (shift r).toBitVec =
      (r.toBitVec >>> 1) ^^^ (if r.toBitVec.getLsbD 0 then polynomial.toBitVec else 0#32) := by
  rw [shift]
  by_cases h : r.toBitVec.getLsbD 0 = true
  · rw [if_pos ((and_one_eq_one_iff r).2 h), if_pos h]
    rfl
  · rw [if_neg fun h' => h ((and_one_eq_one_iff r).1 h'), if_neg h, BitVec.xor_zero]
    rfl

/-- The bit shifted out comes back as the highest bit, which the polynomial has and a shifted
register has not. -/
theorem getLsbD_shift (r : UInt32) : (shift r).toBitVec.getLsbD 31 = r.toBitVec.getLsbD 0 := by
  have hout : (r.toBitVec >>> 1).getLsbD 31 = false := by
    rw [BitVec.getLsbD_ushiftRight]
    exact BitVec.getLsbD_of_ge _ _ (Nat.le_refl 32)
  rw [toBitVec_shift, BitVec.getLsbD_xor, hout, Bool.false_xor]
  cases r.toBitVec.getLsbD 0 <;> rfl

/-- **A shift can be undone.** -/
theorem shift_injective : Function.Injective shift := by
  intro a b h
  have hlow : a.toBitVec.getLsbD 0 = b.toBitVec.getLsbD 0 := by
    rw [← getLsbD_shift, h, getLsbD_shift]
  -- both registers have had the polynomial subtracted, or neither has
  have hrest : a.toBitVec >>> 1 = b.toBitVec >>> 1 := by
    have h' := congrArg UInt32.toBitVec h
    rw [toBitVec_shift, toBitVec_shift, hlow] at h'
    exact (BitVec.xor_left_inj _).1 h'
  apply UInt32.toBitVec_inj.1
  apply BitVec.eq_of_getLsbD_eq
  intro i _
  cases i with
  | zero => exact hlow
  | succ i =>
    have hi := congrArg (·.getLsbD i) hrest
    simpa only [BitVec.getLsbD_ushiftRight, Nat.add_comm 1 i] using hi

theorem repeat_injective {α : Type} {f : α → α} (hf : Function.Injective f) :
    ∀ n : Nat, Function.Injective (Nat.repeat f n)
  | 0 => fun _ _ h => h
  | n + 1 => fun _ _ h => repeat_injective hf n (hf h)

/-- The same byte keeps different registers apart. -/
theorem step_left_injective (b : UInt8) : Function.Injective (step · b) := by
  intro r s h
  exact (UInt32.xor_left_inj _).1 (repeat_injective shift_injective 8 h)

/-- Different bytes lead from one register to different ones. -/
theorem step_right_injective (r : UInt32) : Function.Injective (step r) := by
  intro a b h
  have h' : a.toUInt32 = b.toUInt32 :=
    (UInt32.xor_right_inj _).1 (repeat_injective shift_injective 8 h)
  exact UInt8.toUInt32_inj.1 h'

theorem foldl_step_injective : ∀ bs : List UInt8, Function.Injective (bs.foldl step)
  | [], _, _, h => h
  | b :: bs, _, _, h => step_left_injective b (foldl_step_injective bs h)

/-- **A changed byte shows in the register**, whatever comes before and after it. -/
theorem foldl_step_set_ne {x : UInt8} :
    ∀ (bs : List UInt8) (i : Nat) (hi : i < bs.length), x ≠ bs[i] → ∀ r : UInt32,
      (bs.set i x).foldl step r ≠ bs.foldl step r
  | _ :: bs, 0, _, hx, r => fun h => hx (step_right_injective r (foldl_step_injective bs h))
  | b :: bs, i + 1, hi, hx, r =>
    foldl_step_set_ne bs i (Nat.lt_of_succ_lt_succ hi) hx (step r b)

end Crc32

/-- **A changed byte shows in the checksum.** -/
theorem checksum_set_ne {bytes : ByteArray} {i : Nat} (hi : i < bytes.size) {x : UInt8}
    (hx : x ≠ bytes[i]) : checksum (bytes.set i x) ≠ checksum bytes := by
  intro h
  have hrun := (UInt32.xor_left_inj _).1 h
  simp only [Crc32.run, ByteArray.data_set, ← Array.foldl_toList, Array.toList_set] at hrun
  exact Crc32.foldl_step_set_ne bytes.data.toList i hi hx _ hrun

/-! ## Replacing a byte -/

namespace Bytes

variable {b : ByteArray} {i j k : Nat} (hk : k < b.size) (x : UInt8)
include hk

theorem size_set : (b.set k x).size = b.size := by
  rw [← ByteArray.size_data, ByteArray.data_set, Array.size_set, ByteArray.size_data]

theorem set_ne_self (hx : x ≠ b[k]) : b.set k x ≠ b := by
  intro h
  have hdata : b.data.set k x hk = b.data := congrArg ByteArray.data h
  have hget : (b.data.set k x hk)[k]? = some x := Array.getElem?_set_self hk
  rw [hdata, Array.getElem?_eq_getElem hk] at hget
  exact hx (Option.some.inj hget).symm

/-- A byte that is not in the extract may change. -/
theorem extract_set_of_not_mem (h : k < i ∨ j ≤ k) : (b.set k x).extract i j = b.extract i j := by
  apply ByteArray.ext
  rw [ByteArray.data_extract, ByteArray.data_set, Array.extract_set, ByteArray.data_extract]
  split
  · rfl
  · rw [dif_neg (by omega)]

theorem extract_set_of_mem (hi : i ≤ k) (hj : k < j) :
    ∃ h : k - i < (b.extract i j).size,
      (b.extract i j)[k - i] = b[k] ∧ (b.set k x).extract i j = (b.extract i j).set (k - i) x := by
  have hmin : k < min j b.data.size := Nat.lt_min.2 ⟨hj, hk⟩
  refine ⟨by rw [ByteArray.size_extract]; omega, ?_, ?_⟩
  · rw [ByteArray.getElem_extract]
    congr 1
    omega
  · apply ByteArray.ext
    simp only [ByteArray.data_extract, ByteArray.data_set, Array.extract_set,
      dif_neg (Nat.not_lt_of_le hi), dif_pos hmin]

end Bytes

end WireGrammar
