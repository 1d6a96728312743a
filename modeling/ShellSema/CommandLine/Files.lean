/-!
# Files

A run reads files through a `FileAccess`, so that it can be told apart from the system it runs on.
-/
namespace ShellSema.CommandLine

/-- Why a file cannot be read. -/
inductive FileError where
  | missing
  | notDirectory
  | isDirectory
  | nameTooLong
  | badName
  | notText
  | other (reason : String)
deriving DecidableEq, Repr

def FileError.message : FileError → String
  | .missing => "No such file or directory (os error 2)"
  | .notDirectory => "Not a directory (os error 20)"
  | .isDirectory => "Is a directory (os error 21)"
  | .nameTooLong => "File name too long (os error 36)"
  | .badName => "file name contained an unexpected NUL byte"
  | .notText => "stream did not contain valid UTF-8"
  | .other reason => reason

/-- Ways to look at files. -/
structure FileAccess (m : Type → Type) where
  isFile : String → m Bool
  read : String → m (Except FileError String)

end ShellSema.CommandLine
