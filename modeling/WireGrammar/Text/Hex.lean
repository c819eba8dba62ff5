/-!
# Hexadecimal words

* `Text.hexDigit` — one lower-case digit.
* `Text.hex n x` — the low `n` hexadecimal digits of `x`, zeros included.
-/

set_option autoImplicit false
namespace WireGrammar
namespace Text

/-- The lower-case hexadecimal digit of a number below 16. -/
def hexDigit (d : Nat) : Char :=
  if d < 10 then Char.ofNat ('0'.toNat + d) else Char.ofNat ('a'.toNat + (d - 10))

/-- The low `n` hexadecimal digits of `x`, most significant first. -/
def hexDigits : Nat → Nat → List Char
  | 0, _ => []
  | n + 1, x => hexDigit (x >>> (4 * n) % 16) :: hexDigits n x

/-- The low `n` hexadecimal digits of `x` as text. -/
def hex (n x : Nat) : String :=
  String.ofList (hexDigits n x)

end Text
end WireGrammar
