import PageInliner.Program

/-!
The program on the files of the computer it runs on. Whatever is decided is decided elsewhere: here the
requests to the surroundings are passed on, and reports are printed as soon as they come in.
-/

set_option autoImplicit false

namespace PageInliner

/-- The cause that an error of the file system stands for, told by its number. Some requests give the
number below zero. -/
def Cause.ofError (error : IO.Error) : Cause :=
  let number := match error with
    | .noFileOrDirectory _ number _ => number
    | .inappropriateType _ number _ => number
    | .alreadyExists _ number _ => number
    | .invalidArgument _ number _ => number
    | _ => 0
  match min number (0 - number) with
  | 2 => .notFound
  | 17 => .alreadyExists
  | 20 => .notADirectory
  | 21 => .isADirectory
  | 36 => .nameTooLong
  | _ => .other (toString error)

namespace Disk

/-- An action on files, with its error as a cause. -/
def attempt {α : Type} (action : IO α) : IO (Except Cause α) := do
  return (← action.toBaseIO).mapError Cause.ofError

/-- An action on the file at a path, if there can be such a path at all. -/
def attemptAt {α : Type} (path : Path) (action : String → IO α) : IO (Except Cause α) :=
  if path.text.toList.contains (Char.ofNat 0) then return .error .nulInPath
  else attempt (action path.text)

/-- The contents of a file. -/
def read (path : Path) : IO (Except Cause ByteArray) :=
  attemptAt path fun file => IO.FS.readBinFile file

/-- A path can be read from if it leads to a file. -/
def isFile (path : Path) : IO Bool := do
  match ← attemptAt path fun file => do (← IO.FS.Handle.mk file .read).read 1 with
  | .ok _ => return true
  | .error _ => return false

/-- A path that leads to a directory cannot be read from, and that is the cause given. -/
def isDirectory (path : Path) : IO Bool := do
  match ← attemptAt path fun file => do (← IO.FS.Handle.mk file .read).read 1 with
  | .ok _ => return false
  | .error cause => return cause = .isADirectory

end Disk

/-- What is printed on the two outputs. -/
def Output.print (output : Output) : IO Unit := do
  IO.print output.out
  IO.eprint output.err

/-- A run on the files of this computer, whose reports are shown on its outputs. -/
abbrev Session := ReaderT Display IO

instance : Host Session where
  workingDirectory := fun _ => Disk.attempt do return ⟨toString (← IO.currentDir)⟩
  readFile path := fun _ => Disk.read path
  isFile path := fun _ => Disk.isFile path
  isDirectory path := fun _ => Disk.isDirectory path
  makeDirectory path := fun _ => Disk.attemptAt path fun directory => IO.FS.createDir directory
  writeFile path bytes := fun _ =>
    Disk.attemptAt path fun file => IO.FS.writeBinFile file bytes
  fileSize path := fun _ => return (← Disk.read path).map ByteArray.size
  report event := fun display => (display.shown event).print

/-- A run of the program with these arguments. -/
def runWith (arguments : List String) : IO Ending := do
  match CommandLine.read arguments with
  | .error refusal => return .refused refusal
  | .ok request =>
    let action : Session (Except Failure Unit) := request.perform
    return .ofResult (← action.run request.display)

end PageInliner

def main (arguments : List String) : IO UInt32 := do
  let ending ← PageInliner.runWith arguments
  ending.output.print
  return ending.exitCode.toUInt32
