import Lox.Text

/-!
# Files

Why a file cannot be read.
-/

namespace Lox

/-- A reason not to read a file. -/
inductive FileError where
  | missing
  | notDirectory
  | isDirectory
  | nameTooLong
  | invalidName
  | denied
  | other (reason : Text)
  deriving DecidableEq, Repr

namespace FileError

def reason : FileError → Text
  | .missing => text "no such file or directory"
  | .notDirectory => text "not a directory"
  | .isDirectory => text "is a directory"
  | .nameTooLong => text "file name too long"
  | .invalidName => text "invalid argument"
  | .denied => text "permission denied"
  | .other reason => reason

/-- The wording of an error with a path: a directory can be opened, but not read. -/
def message (e : FileError) (path : Text) : Text :=
  let verb := if e = .isDirectory then text "read " else text "open "
  verb ++ path ++ text ": " ++ e.reason

end FileError

end Lox
