import PageInliner.Console.Event
import PageInliner.Files.Cause

/-!
What the program needs of its surroundings: files, a working directory and somewhere to report to. All
that works on files is written against these few requests, and so runs alike on a disk and on a tree of
files that is a value.
-/

set_option autoImplicit false

namespace PageInliner

/-- The requests to the surroundings of the program. -/
class Host (m : Type → Type) where
  workingDirectory : m (Except Cause Path)
  readFile : Path → m (Except Cause ByteArray)
  /-- The path leads to a file; a path that leads nowhere does not. -/
  isFile : Path → m Bool
  isDirectory : Path → m Bool
  /-- A new directory in one that exists. -/
  makeDirectory : Path → m (Except Cause Unit)
  /-- A file with these contents, in place of any file that was there. -/
  writeFile : Path → ByteArray → m (Except Cause Unit)
  /-- The number of bytes in a file. -/
  fileSize : Path → m (Except Cause Nat)
  report : Event → m Unit

namespace Host

variable {m : Type → Type} [Monad m] [Host m]

/-- The contents of a file as a text. -/
def readText (path : Path) : m (Except Cause String) := do
  match ← readFile path with
  | .error cause => return .error cause
  | .ok bytes =>
    match String.fromUTF8? bytes with
    | none => return .error .invalidText
    | some text => return .ok text

/-- A directory at a path, together with those above it that are missing. The path is given by its lead
and its pieces, the last one first. A directory that is there already is as good as a new one. -/
def makeDirectories (lead : List Char) : (pieces : List (List Char)) → m (Except Cause Unit)
  | [] => return .ok ()
  | piece :: pieces => do
    if Path.isIdle piece then makeDirectories lead pieces
    else
      let path := Path.ofPiecesBack lead (piece :: pieces)
      match ← makeDirectory path with
      | .ok () => return .ok ()
      | .error .notFound =>
        match ← makeDirectories lead pieces with
        | .error cause => return .error cause
        | .ok () =>
          match ← makeDirectory path with
          | .ok () => return .ok ()
          | .error cause => return if ← isDirectory path then .ok () else .error cause
      | .error cause => return if ← isDirectory path then .ok () else .error cause

/-- A directory for the file at a path, if the path names one. -/
def makeParent (path : Path) : m (Except Cause Unit) :=
  makeDirectories (Path.lead path.text.toList) (path.piecesBack.dropWhile Path.isIdle).tail

/-- The first of the paths that leads to a file. -/
def findFile : List Path → m (Option Path)
  | [] => return none
  | path :: paths => do
    if ← isFile path then return some path
    findFile paths

end Host

end PageInliner
