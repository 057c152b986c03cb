/-!
# Access to files

What the commands ask of a file system, and how a request can fail. The commands are written for any
system that answers the requests, so the same code runs on real files and on a file system that is
a value.
-/

namespace PatternTable

/-- Why a request to the file system fails. -/
inductive FileFault where
  | notFound
  | alreadyExists
  | notDirectory
  | isDirectory
  | nameTooLong
  | nulInName
  /-- The content of a file is not UTF-8. -/
  | notText
  /-- Any other reason, in words. -/
  | other (words : String)
  deriving DecidableEq, Repr

/-- The text of a fault. -/
def FileFault.message : FileFault → String
  | notFound => "No such file or directory (os error 2)"
  | alreadyExists => "File exists (os error 17)"
  | notDirectory => "Not a directory (os error 20)"
  | isDirectory => "Is a directory (os error 21)"
  | nameTooLong => "File name too long (os error 36)"
  | nulInName => "file name contained an unexpected NUL byte"
  | notText => "stream did not contain valid UTF-8"
  | other words => words

/-- The requests to a file system whose effects are those of `m`. -/
structure FileAccess (m : Type → Type) where
  /-- Whether there is a directory at a path. -/
  isDirectory : String → m Bool
  /-- The names of the regular files in a directory. -/
  fileNames : String → m (Except FileFault (List String))
  /-- The text of a file. -/
  readText : String → m (Except FileFault String)
  /-- Makes a directory, and those that it lies in, unless there is one. -/
  makeDirectories : String → m (Except FileFault Unit)
  /-- Writes a text to a file, in place of what it held. -/
  writeText : String → String → m (Except FileFault Unit)

end PatternTable
