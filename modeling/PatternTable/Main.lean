import PatternTable.Command.Outcome
import Std.Time.DateTime.Timestamp

/-!
# The program

Runs the commands on the files of the machine it runs on.
-/

namespace PatternTable

/-- The fault with the number of an error of the operating system, or else in words. The number may
    come negated, so the smaller of its two readings counts. -/
def FileFault.ofNumber (number : UInt32) (words : String) : FileFault :=
  match min number.toNat (UInt32.size - number.toNat) with
  | 20 => .notDirectory
  | 21 => .isDirectory
  | 36 => .nameTooLong
  | _ => .other words

/-- The fault that an error of the operating system stands for. -/
def FileFault.ofError : IO.Error → FileFault
  | .noFileOrDirectory .. => .notFound
  | .alreadyExists .. => .alreadyExists
  | .inappropriateType _ number words => .ofNumber number words
  | .invalidArgument _ number words => .ofNumber number words
  | error => .other error.toString

/-- The result of an action that may fail. -/
def attempt {α : Type} (action : IO α) : IO (Except FileFault α) := do
  try
    return .ok (← action)
  catch error =>
    return .error (.ofError error)

/-- The result of an action on a path that may fail. -/
def attemptAt {α : Type} (path : String) (action : IO α) : IO (Except FileFault α) := do
  match Path.fault? path with
  | some fault => return .error fault
  | none => attempt action

/-- Whether what is at a path is of a type. -/
def isOfType (type : IO.FS.FileType) (path : String) : IO Bool := do
  match ← attemptAt path (do (← IO.FS.realPath path).metadata) with
  | .ok found => return found.type == type
  | .error _ => return false

/-- The names of the regular files in a directory. -/
def listFiles (directory : String) : IO (List String) := do
  let mut names := []
  for entry in ← (← IO.FS.realPath directory).readDir do
    if ← isOfType .file (Path.join directory entry.fileName) then
      names := entry.fileName :: names
  return names

/-- The text of a file, if it is text. -/
def readTextFile (path : String) : IO (Except FileFault String) := do
  match ← attemptAt path (IO.FS.readBinFile path) with
  | .error fault => return .error fault
  | .ok bytes =>
    match String.fromUTF8? bytes with
    | some text => return .ok text
    | none => return .error .notText

/-- Makes a directory and those above it. A regular file where the directory should stand is in
    its way; a regular file above it is not a directory. -/
def makeDirectoryTree (path : String) : IO (Except FileFault Unit) := do
  if path.isEmpty then return .ok ()
  match ← attemptAt path (IO.FS.createDirAll path) with
  | .error .alreadyExists =>
    match ← attempt (IO.FS.realPath path) with
    | .ok _ => return .error .alreadyExists
    | .error _ => return .error .notDirectory
  | made => return made

/-- The requests to the files of the machine. -/
def machineFiles : FileAccess IO where
  isDirectory := isOfType .dir
  fileNames path := attemptAt path (listFiles path)
  readText := readTextFile
  makeDirectories := makeDirectoryTree
  writeText path text := attemptAt path (IO.FS.writeFile path text)

/-- A notice as it is printed. -/
def printedNotice (notice : Notice) : String :=
  match notice.level with
  | .warn => "[WARN] " ++ notice.message
  | .error => "[ERROR] " ++ notice.message

end PatternTable

/-- Runs the program on its arguments. -/
def main (arguments : List String) : IO UInt32 := do
  let seconds := (← Std.Time.Timestamp.now).toSecondsSinceUnixEpoch.toInt.toNat
  let errors ← IO.getStderr
  let outcome ←
    PatternTable.runProgram PatternTable.machineFiles ⟨seconds⟩ (← errors.isTty) arguments
  for notice in outcome.notices do
    errors.putStrLn (PatternTable.printedNotice notice)
  errors.putStr outcome.messages
  (← IO.getStdout).putStr outcome.output
  return UInt32.ofNat outcome.code
