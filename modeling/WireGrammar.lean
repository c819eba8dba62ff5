import WireGrammar.Bytes.Lemmas
import WireGrammar.Codec
import WireGrammar.Compile
import WireGrammar.Frame
import WireGrammar.Main
import WireGrammar.Proofs.Decode.Budget
import WireGrammar.Proofs.Decode.Elements
import WireGrammar.Proofs.Decode.Inert
import WireGrammar.Proofs.Decode.Locality
import WireGrammar.Proofs.Decode.Termination
import WireGrammar.Proofs.Encode.Checked
import WireGrammar.Proofs.Encode.Clipped
import WireGrammar.Proofs.Encode.Conformance
import WireGrammar.Proofs.Encode.Refinement
import WireGrammar.Proofs.Encode.SizeSlots
import WireGrammar.Proofs.Encode.Sparse
import WireGrammar.Proofs.Encode.Truncation
import WireGrammar.Proofs.Framing.Lenient
import WireGrammar.Proofs.Framing.Verified
import WireGrammar.Proofs.Grammar.Inlining
import WireGrammar.Proofs.Grammar.Outcome
import WireGrammar.Proofs.Grammar.Printer
import WireGrammar.Proofs.Grammar.Spacing
import WireGrammar.Proofs.RoundTrip.Canonical
import WireGrammar.Proofs.RoundTrip.Codec
import WireGrammar.Proofs.RoundTrip.Operation
import WireGrammar.Proofs.Routine.Exactness
import WireGrammar.Proofs.Routine.Linked
import WireGrammar.Proofs.Routine.Reach
import WireGrammar.Proofs.Stream.Exchange
import WireGrammar.Proofs.Stream.Sending
import WireGrammar.Proofs.Stream.Slice
import WireGrammar.Proofs.Wire.ReaderRuns
import WireGrammar.Proofs.Wire.WriterRuns
