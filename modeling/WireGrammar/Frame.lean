import WireGrammar.Message
import WireGrammar.Stream

/-!
# Messages over streams

A message on a stream is a 32-bit length and as many bytes.  The length is not added to the
message: it is the leading `Size` field of the message itself, so what comes over a stream is a
message framed by its size.

* `Frame.send` — encode a message and append it to a stream.
* `Frame.receive` — read the length and the bytes of a message, then decode it, length included.
-/

set_option autoImplicit false
namespace WireGrammar

/-- Why a message was not sent or received. -/
inductive FrameError where
  | stream (e : StreamError)
  | encode (e : EncodeError)
  | decode (e : DecodeError)
  | negativeLength (length : Int)
  | tooLarge (length limit : Nat)
deriving DecidableEq, Repr

/-- The wording of a `FrameError`. -/
def FrameError.message : FrameError → String
  | .stream e => "stream: " ++ e.message
  | .encode e => "encode: " ++ e.message
  | .decode e => "decode: " ++ e.message
  | .negativeLength length => s!"negative frame length {length}"
  | .tooLarge length limit => s!"frame length {length} exceeds limit {limit}"

namespace Frame

/-- The most bytes after the length of a message that are accepted by default. -/
def defaultLimit : Nat := 64 * 1024 * 1024

/-- Encode a message and append it to a stream.  Text that is too long is always refused here. -/
def send (m : Message) (s : Stream) : Except FrameError Unit × Stream :=
  match (m.encodeInto {}).finish with
  | .error e => (.error (.encode e), s)
  | .ok bytes =>
    match s.write bytes with
    | (.error e, s) => (.error (.stream e), s)
    | (.ok (), s) => (.ok (), s)

/-- Decode a whole frame into a message. -/
def accept (m : Message) (header payload : ByteArray) : Except FrameError Unit × Message :=
  match m.decodeFrom { buffer := header ++ payload } with
  | (m, r) => ((Codec.complete r).mapError .decode, m)

/-- Read a message off a stream, with at most `limit` bytes after its length.  The message keeps
its value until a whole frame has been read. -/
def receive (limit : Nat) (m : Message) (s : Stream) : Except FrameError Unit × Message × Stream :=
  match s.readExact 4 with
  | (.error e, s) => (.error (.stream e), m, s)
  | (.ok header, s) =>
    let declared := IntKind.int32.toInt (BigEndian.decode .int32 header)
    if declared < 0 then (.error (.negativeLength declared), m, s)
    else
      let length := declared.toNat
      if limit < length then (.error (.tooLarge length limit), m, s)
      else
        match s.readExact length with
        | (.error e, s) => (.error (.stream e), m, s)
        | (.ok payload, s) =>
          match accept m header payload with
          | (result, m) => (result, m, s)

end Frame
end WireGrammar
