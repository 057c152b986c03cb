import PatternTable.Files.Access
import PatternTable.Files.Path
import PatternTable.Text.Octets
import PatternTable.Workspace

/-!
# Loading grammars

The grammars of a command are the files with the ending of a grammar in a directory, in the order of
their names, or the files that it is told.
-/

namespace PatternTable

/-- Why a command gives up. -/
inductive CommandFault where
  | unreadable (path : String) (fault : FileFault)
  | noGrammars (directory : String)
  | unwritable (path : String) (fault : FileFault)
  /-- A column of a table is wider than one can be. -/
  | tooWide
  deriving DecidableEq, Repr

/-- The text of a fault. -/
def CommandFault.message : CommandFault → String
  | unreadable path fault => "failed to read '" ++ path ++ "': " ++ fault.message
  | noGrammars directory => "no *.tmLanguage.json files found in '" ++ directory ++ "'"
  | unwritable path fault => "failed to write '" ++ path ++ "': " ++ fault.message
  | tooWide => "Formatting argument out of range"

/-- How the name of a grammar file ends. -/
def grammarEnding : String := ".tmLanguage.json"

/-- Whether a file name is that of a grammar file. -/
def isGrammarName (name : String) : Bool :=
  (Text.dropTrailing? grammarEnding.toList name.toList).isSome

/-- The names of grammar files among the names of files, in order. -/
def grammarNames (names : List String) : List String :=
  (names.filter isGrammarName).mergeSort fun a b =>
    (Text.compareOctets a.toList b.toList).isLE

section

variable {m : Type → Type} [Monad m]

/-- The paths of the grammar files in a directory. -/
def grammarPaths (files : FileAccess m) (directory : String) :
    m (Except CommandFault (List String)) := do
  match ← files.fileNames directory with
  | .error fault => return .error (.unreadable directory fault)
  | .ok names =>
    match grammarNames names with
    | [] => return .error (.noGrammars directory)
    | found => return .ok (found.map (Path.join directory))

/-- The documents in some files. -/
def loadFiles (files : FileAccess m) : List String → m (Except CommandFault Workspace)
  | [] => return .ok []
  | path :: paths => do
    match ← files.readText path with
    | .error fault => return .error (.unreadable path fault)
    | .ok text =>
      match ← loadFiles files paths with
      | .error fault => return .error fault
      | .ok sources => return .ok (Source.ofText path text :: sources)

/-- The documents in a directory, or in a single file. -/
def loadPath (files : FileAccess m) (path : String) : m (Except CommandFault Workspace) := do
  if ← files.isDirectory path then
    match ← grammarPaths files path with
    | .error fault => return .error fault
    | .ok paths => loadFiles files paths
  else
    loadFiles files [path]

end

end PatternTable
