/-!
# Files and paths

A `FileTree` says which files there are and in which directory a program runs.  Reading a path
walks the tree name by name, and the first step that fails is the error.

* `FileError`, `FileError.message` — why a file could not be read.
* `FileTree.components` — the names in a path.
* `FileTree.step`, `FileTree.walk`, `FileTree.read` — following one name, a list of names, a path.
-/

set_option autoImplicit false
namespace WireGrammar

/-! ## Errors -/

/-- Why a file could not be read. -/
inductive FileError where
  | notFound
  | permissionDenied
  | notDirectory
  | isDirectory
  | nameTooLong
  | tooManyLinks
  | other (reason : String)
deriving DecidableEq, Repr

namespace FileError

/-- The error that a system reports by a number. -/
def ofNumber? : Nat → Option FileError
  | 2 => some .notFound
  | 13 => some .permissionDenied
  | 20 => some .notDirectory
  | 21 => some .isDirectory
  | 36 => some .nameTooLong
  | 40 => some .tooManyLinks
  | _ => none

/-- The wording of a `FileError`. -/
def message : FileError → String
  | .notFound => "No such file or directory (os error 2)"
  | .permissionDenied => "Permission denied (os error 13)"
  | .notDirectory => "Not a directory (os error 20)"
  | .isDirectory => "Is a directory (os error 21)"
  | .nameTooLong => "File name too long (os error 36)"
  | .tooManyLinks => "Too many levels of symbolic links (os error 40)"
  | .other reason => reason

end FileError

/-! ## The tree -/

/-- Files, each under the names that lead to it from the root, and the directory that relative
paths start from.  A directory is whatever lies on the way to one of them. -/
structure FileTree where
  current : List String := []
  files : List (List String × ByteArray) := []

namespace FileTree

/-- What a path can lead to. -/
inductive Node where
  | file (content : ByteArray)
  | directory (names : List String)

/-- A name has at most this many bytes. -/
def maxName : Nat := 255

/-- A path has at most this many bytes. -/
def maxPath : Nat := 4095

/-- What stands under a list of names, if anything does. -/
def node? (t : FileTree) (names : List String) : Option Node :=
  match t.files.lookup names with
  | some content => some (.file content)
  | none =>
    if names.isPrefixOf t.current || t.files.any fun f => names.isPrefixOf f.1 then
      some (.directory names)
    else none

/-- Follow one name.  The empty name and `.` stay where they are, which takes a directory all the
same, and `..` goes up, as far as the root. -/
def step (t : FileTree) (node : Node) (name : String) : Except FileError Node :=
  match node with
  | .file _ => .error .notDirectory
  | .directory names =>
    if name = "" ∨ name = "." then .ok node
    else if name = ".." then .ok (.directory names.dropLast)
    else if maxName < name.utf8ByteSize then .error .nameTooLong
    else
      match t.node? (names ++ [name]) with
      | some next => .ok next
      | none => .error .notFound

/-- Follow names one after the other. -/
def walk (t : FileTree) (node : Node) : List String → Except FileError Node
  | [] => .ok node
  | name :: rest => do
    let next ← t.step node name
    t.walk next rest

/-- The names between the slashes of a path; `name` is what has been read of the first one.  A slash
at either end leaves an empty name there. -/
def componentsFrom (name : String) : List Char → List String
  | [] => [name]
  | c :: rest =>
    if c = '/' then name :: componentsFrom "" rest
    else componentsFrom (name.push c) rest

/-- The names between the slashes of a path. -/
def components (path : String) : List String := componentsFrom "" path.toList

/-- Where a path starts: at the root if it starts with a slash. -/
def start (t : FileTree) (path : String) : Node :=
  .directory (if path.toList.head? = some '/' then [] else t.current)

/-- The content of the file at a path. -/
def read (t : FileTree) (path : String) : Except FileError ByteArray :=
  if path = "" then .error .notFound
  else if maxPath < path.utf8ByteSize then .error .nameTooLong
  else
    match t.walk (t.start path) (components path) with
    | .error e => .error e
    | .ok (.directory _) => .error .isDirectory
    | .ok (.file content) => .ok content

end FileTree
end WireGrammar
