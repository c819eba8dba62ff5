import WireGrammar.Cli

/-!
# The program

Reads what `WireGrammar.Cli` asks for, and prints what it answers.
-/

set_option autoImplicit false
namespace WireGrammar
namespace Cli

/-- The number of a failure to read a file, if it is one that has a number.  The system gives it
with either sign. -/
def errorNumber? : IO.Error → Option Nat
  | .noFileOrDirectory _ code _ | .permissionDenied _ code _ | .inappropriateType _ code _
  | .invalidArgument _ code _ => some (min code.toNat (0 - code).toNat)
  | _ => none

/-- The cause of a failure to read a file. -/
def fileError (e : IO.Error) : FileError :=
  ((errorNumber? e).bind FileError.ofNumber?).getD (.other (toString e))

/-- The content of a file. -/
def readFile (path : String) : IO (Except FileError ByteArray) := do
  try
    return .ok (← IO.FS.readBinFile path)
  catch e =>
    return .error (fileError e)

end Cli
end WireGrammar

open WireGrammar in
/-- List the files named by the arguments, or standard input. -/
def main (args : List String) : IO UInt32 := do
  let outcome ← Cli.runWith (do (← IO.getStdin).readBinToEnd) Cli.readFile args
  IO.print outcome.stdout
  IO.eprint outcome.stderr
  return outcome.exitCode.toUInt32
