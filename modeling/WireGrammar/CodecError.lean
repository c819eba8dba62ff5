import WireGrammar.Reader
import WireGrammar.Value
import WireGrammar.Writer

/-!
# Errors of encoding and decoding values
-/

set_option autoImplicit false
namespace WireGrammar

/-- Why a value cannot be encoded or decoded as a type. -/
inductive CodecError where
  | unknownType (name : String)
  /-- The type is an alternation. -/
  | noRoutine (name : String)
  | valueMismatch (expected found : String)
  /-- The type `owner` contains an alternation. -/
  | unsupported (owner : String)
  /-- The type contains itself outside any array, so it has no finite value. -/
  | unbounded (name : String)
  | encode (e : EncodeError)
  | decode (e : DecodeError)
deriving DecidableEq, Repr

namespace CodecError

/-- The wording of a `CodecError`. -/
def message : CodecError → String
  | .unknownType name => s!"Unknown type: {name}"
  | .noRoutine name => s!"No routine for {name} (alternation)"
  | .valueMismatch expected found => s!"Value mismatch: expected {expected}, found {found}"
  | .unsupported owner => s!"Unsupported: alternation in {owner} has no codec"
  | .unbounded name => s!"Unbounded: {name} contains itself outside any array"
  | .encode e => "Encode: " ++ e.message
  | .decode e => "Decode: " ++ e.message

/-- The value `found` where something else was expected. -/
def mismatch (expected : String) (found : Value) : CodecError :=
  .valueMismatch expected found.describe

end CodecError
end WireGrammar
