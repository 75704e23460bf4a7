/-
  Lox.CommandLine.Directory

  Finding files by their paths.

    * `FileFault`, `FileState` — what there is under a path, or why nothing;
    * `Directory` — the files below the current directory;
    * `Directory.find` — follows a path from there.
-/

namespace Lox

/-- Why a file cannot be opened or read. -/
inductive FileFault where
  | missing
  | notDirectory
  | isDirectory
  | nameTooLong
  | denied
deriving DecidableEq, Repr

/-- The wording of a cause, with the number that the system gives it. -/
def FileFault.message : FileFault → String
  | missing => "No such file or directory (os error 2)"
  | notDirectory => "Not a directory (os error 20)"
  | isDirectory => "Is a directory (os error 21)"
  | nameTooLong => "File name too long (os error 36)"
  | denied => "Permission denied (os error 13)"

/-- What there is under a path. -/
inductive FileState where
  /-- It cannot be opened. -/
  | unopened (fault : FileFault)
  /-- It can be opened and not be read. -/
  | unread (fault : FileFault)
  | content (bytes : ByteArray)

/-- The files below a directory, by the names that lead to them. -/
structure Directory where
  files : List (List String × ByteArray)

namespace Directory

/-- The names in a path. -/
def names (path : String) : List String :=
  (path.toList.splitOn '/').map String.ofList

/-- The directory with files at the given paths. -/
def ofPaths (files : List (String × ByteArray)) : Directory :=
  ⟨files.map fun file => (names file.1, file.2)⟩

/-- A file or a directory. -/
inductive Entry where
  | directory
  | file (bytes : ByteArray)

/-- What the names `way` lead to.  There is a directory wherever there is something
    in it. -/
def entry? (d : Directory) (way : List String) : Option Entry :=
  match d.files.lookup way with
  | some bytes => some (.file bytes)
  | none => if d.files.any (way.isPrefixOf ·.1) then some .directory else none

/-- The greatest size of a name and of a path, in bytes. -/
def maxName : Nat := 255

/-- The size from which a path is too long, in bytes. -/
def maxPath : Nat := 4096

/-- Follows names from a directory outside this one: of its files nothing is
    known. -/
def walkOutside : List String → Except FileFault Entry
  | [] => .ok .directory
  | name :: rest =>
    if name = "" ∨ name = "." ∨ name = ".." then walkOutside rest
    else if maxName < name.utf8ByteSize then .error .nameTooLong
    else .error .missing

/-- Follows names from the end of `way`, the last name first. -/
def walk (d : Directory) (way : List String) (here : Entry) : List String → Except FileFault Entry
  | [] => .ok here
  | name :: rest =>
    match here with
    | .file _ => .error .notDirectory
    | .directory =>
      if name = "" ∨ name = "." then d.walk way .directory rest
      else if name = ".." then
        match way with
        -- Above this directory there are others, of which nothing is known.
        | [] => walkOutside rest
        | _ :: above => d.walk above .directory rest
      else if maxName < name.utf8ByteSize then .error .nameTooLong
      else
        match d.entry? (name :: way).reverse with
        | some entry => d.walk (name :: way) entry rest
        | none => .error .missing

/-- What there is under a path. -/
def find (d : Directory) (path : String) : FileState :=
  let found : Except FileFault Entry :=
    if maxPath ≤ path.utf8ByteSize then .error .nameTooLong
    else match names path with
      | "" :: rest => walkOutside rest
      | way => d.walk [] .directory way
  match found with
  | .error fault => .unopened fault
  | .ok .directory => .unread .isDirectory
  | .ok (.file bytes) => .content bytes

/-- The file that logs go to. -/
def logName : String := "app.log"

/-- Whether there is something in the log. -/
def hasLog (d : Directory) : Bool :=
  match d.files.lookup [logName] with
  | some bytes => bytes.size ≠ 0
  | none => false

end Directory

end Lox
