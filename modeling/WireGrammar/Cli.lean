import WireGrammar.FileTree
import WireGrammar.Listing

/-!
# The command line

The program lists the grammar, the schema or the routines of its inputs.  The inputs are the files
named on the command line, or standard input if there are none.

* `Cli.Options`, `Cli.Options.ofArgs` — the options `--grammar`/`-g`, `--routines`/`-r` and
  `--verify-crc`; each is recognised once, and what is left are files.
* `Cli.runInput`, `Cli.runFiles` — what is printed and the exit code.
* `Cli.runWith`, `Cli.run` — a whole run, with the means to read given, or over a `FileTree`.
-/

set_option autoImplicit false
namespace WireGrammar
namespace Cli

/-- What to list. -/
inductive Listing where
  | grammar
  | schema
  | routines
deriving DecidableEq, Repr

/-- The options of a run. -/
structure Options where
  listing : Listing
  verifyCrc : Bool
  files : List String
deriving DecidableEq, Repr

/-- Take the first of `names` out of the arguments: whether there was one, and the others. -/
def takeFlag (names : List String) : List String → Bool × List String
  | [] => (false, [])
  | a :: rest =>
    if names.contains a then (true, rest)
    else
      let (found, others) := takeFlag names rest
      (found, a :: others)

/-- The options that arguments describe.  `--grammar` comes first: without it, `--routines` is
looked for. -/
def Options.ofArgs (args : List String) : Options :=
  let (listing, args) :=
    match takeFlag ["--grammar", "-g"] args with
    | (true, args) => (Listing.grammar, args)
    | (false, args) =>
      match takeFlag ["--routines", "-r"] args with
      | (true, args) => (Listing.routines, args)
      | (false, args) => (Listing.schema, args)
  let (verifyCrc, files) := takeFlag ["--verify-crc"] args
  { listing := listing, verifyCrc := verifyCrc, files := files }

/-- What a run prints, and its exit code. -/
structure Outcome where
  exitCode : UInt8 := 0
  stdout : String := ""
  stderr : String := ""

/-- The complaint about input that is not text. -/
def notText : String := "stream did not contain valid UTF-8"

/-- The listing of a text. -/
def list (o : Options) (text : String) : Except CompileError String := do
  let compiled ← compile o.verifyCrc text
  let json :=
    match o.listing with
    | .grammar => compiled.grammar.toJson
    | .schema => compiled.schema.toJson
    | .routines => compiled.program.toJson
  return json.pretty ++ "\n"

/-- List standard input. -/
def runInput (o : Options) (content : ByteArray) : Outcome :=
  match String.fromUTF8? content with
  | none => { exitCode := 1, stderr := "Error: " ++ notText ++ "\n" }
  | some text =>
    match list o text with
    | .ok out => { stdout := out }
    | .error e =>
      { exitCode := 1, stderr := "Error: <stdin>\n\nCaused by:\n    " ++ e.message ++ "\n" }

/-- List one file. -/
def listFile (o : Options) (content : Except FileError ByteArray) : Except String String :=
  match content with
  | .error e => .error e.message
  | .ok bytes =>
    match String.fromUTF8? bytes with
    | none => .error notText
    | some text => (list o text).mapError (·.message)

/-- List files, each with its path.  A file that fails is reported, and the others are listed all
the same. -/
def runFiles (o : Options) : List (String × Except FileError ByteArray) → Outcome
  | [] => {}
  | (path, content) :: rest =>
    let others := runFiles o rest
    match listFile o content with
    | .ok out => { others with stdout := out ++ others.stdout }
    | .error message =>
      { others with exitCode := 1, stderr := path ++ ": " ++ message ++ "\n" ++ others.stderr }

/-- A run on arguments: `input` reads standard input, and `read` a file.  Standard input is read
only if no file is named. -/
def runWith {m : Type → Type} [Monad m] (input : m ByteArray)
    (read : String → m (Except FileError ByteArray)) (args : List String) : m Outcome := do
  let o := Options.ofArgs args
  if o.files.isEmpty then
    return runInput o (← input)
  else
    let contents ← o.files.mapM fun path => do return (path, ← read path)
    return runFiles o contents

/-- A run on arguments over a tree of files. -/
def run (t : FileTree) (input : ByteArray) (args : List String) : Outcome :=
  Id.run (runWith (pure input) (fun path => pure (t.read path)) args)

/-- A run lists standard input if no file is named, and each named file otherwise. -/
theorem run_eq (t : FileTree) (input : ByteArray) (args : List String) :
    run t input args =
      if (Options.ofArgs args).files.isEmpty then runInput (Options.ofArgs args) input
      else
        runFiles (Options.ofArgs args)
          ((Options.ofArgs args).files.map fun path => (path, t.read path)) := by
  unfold run runWith
  split <;> simp_all

end Cli
end WireGrammar
