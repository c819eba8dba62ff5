/-!
# CRC-32

The checksum that guards a `CRC`-framed struct: the reflected CRC-32 with polynomial `0xEDB88320`,
started from and finished by inverting all bits.

* `Crc32.shift` — one step of the shift register.
* `Crc32.step` — take in one byte: eight shifts.
* `checksum` — the CRC-32 of a byte sequence.
-/

set_option autoImplicit false
namespace WireGrammar
namespace Crc32

/-- The generator polynomial, lowest coefficient in the highest bit. -/
def polynomial : UInt32 := 0xEDB88320

/-- Shift the register by one bit, subtracting the polynomial if the bit shifted out is set. -/
def shift (r : UInt32) : UInt32 :=
  if r &&& 1 = 1 then (r >>> 1) ^^^ polynomial else r >>> 1

/-- Take in one byte. -/
def step (r : UInt32) (b : UInt8) : UInt32 :=
  Nat.repeat shift 8 (r ^^^ b.toUInt32)

/-- The register after taking in `bytes`, started from `r`. -/
def run (r : UInt32) (bytes : ByteArray) : UInt32 :=
  bytes.data.foldl step r

end Crc32

/-- The CRC-32 of `bytes`. -/
def checksum (bytes : ByteArray) : UInt32 :=
  Crc32.run 0xFFFFFFFF bytes ^^^ 0xFFFFFFFF

end WireGrammar
