import WireGrammar.Codec

/-!
# Messages

A value bound to its type and its codec, for sending and receiving.

* `Codec.message` — a message of a value, which is encoded once to see that it fits.
* `Codec.emptyMessage` — a message of the zero value, to be filled by receiving.
* `Message.encodeInto`, `Message.decodeFrom` — encoding and decoding that leave their failures on
  the writer and on the reader.
-/

set_option autoImplicit false
namespace WireGrammar

/-- A value with its type. -/
structure Message where
  codec : Codec
  typeName : String
  value : Value

namespace Codec

/-- A message of a value that can be encoded. -/
def message (c : Codec) (typeName : String) (v : Value) : Except CodecError Message :=
  match c.encode typeName v with
  | .error e => .error e
  | .ok _ => .ok { codec := c, typeName := typeName, value := v }

/-- A message of the zero value. -/
def emptyMessage (c : Codec) (typeName : String) : Except CodecError Message :=
  match c.zero typeName with
  | .error e => .error e
  | .ok v => .ok { codec := c, typeName := typeName, value := v }

end Codec

namespace Message

/-- Encode a message.  If its value does not fit, only what comes before the misfit is written. -/
def encodeInto (m : Message) (w : Writer) : Writer :=
  (m.codec.encodeInto m.typeName m.value w).2

/-- Decode into a message.  If there is no routine, the message stays and the reader gets an
error. -/
def decodeFrom (m : Message) (r : Reader) : Message × Reader :=
  match m.codec.decodeFrom m.typeName r with
  | .ok (v, r) => ({ m with value := v }, r)
  | .error e => (m, r.setError (some (.codec e.message)))

end Message
end WireGrammar
