/-!
Why the file system refuses something, and how each cause is worded.
-/

set_option autoImplicit false

namespace PageInliner

/-- Why the file system refused something. -/
inductive Cause where
  | notFound
  | notADirectory
  | isADirectory
  | alreadyExists
  | nameTooLong
  /-- A path with a NUL character in it. -/
  | nulInPath
  /-- A file whose bytes are no UTF-8 text. -/
  | invalidText
  /-- Something that is not there, in words of the one who looked for it. -/
  | missing (message : String)
  | other (message : String)
  deriving Repr, DecidableEq

namespace Cause

def message : Cause → String
  | notFound => "No such file or directory (os error 2)"
  | notADirectory => "Not a directory (os error 20)"
  | isADirectory => "Is a directory (os error 21)"
  | alreadyExists => "File exists (os error 17)"
  | nameTooLong => "File name too long (os error 36)"
  | nulInPath => "file name contained an unexpected NUL byte"
  | invalidText => "stream did not contain valid UTF-8"
  | missing message => message
  | other message => message

/-- What was looked for is not there, whoever says so. -/
def isNotFound : Cause → Bool
  | notFound | missing _ => true
  | _ => false

end Cause

end PageInliner
