import PatternTable.Command.Interface
import PatternTable.Command.Load

/-!
# Generating artifacts

`generate` compiles grammars and writes every artifact that is not unchanged from the file that is
there. When it only checks, it reports such artifacts as stale and writes nothing.
-/

namespace PatternTable

/-- What `generate` did to the directory of the artifacts. -/
structure Summary where
  written : List String := []
  unchanged : List String := []
  /-- The artifacts that differ from their files and were not written. -/
  stale : List String := []
  deriving DecidableEq, Repr

/-- What `generate` did. -/
structure Generated where
  compilation : Compilation
  summary : Summary

namespace Generated

/-- The number of documents without an artifact. -/
def failed (generated : Generated) : Nat :=
  generated.compilation.failures.length

/-- Whether every document has an artifact and none is stale. -/
def isSuccess (generated : Generated) : Bool :=
  generated.failed == 0 && generated.summary.stale.isEmpty

end Generated

section

variable {m : Type → Type} [Monad m]

/-- The directory that the artifacts are written to. -/
def outDirectory (files : FileAccess m) (options : GenerateOptions) : m String := do
  match options.outDirectory with
  | some directory => return directory
  | none =>
    if ← files.isDirectory options.path then return options.path
    else return Path.parent options.path

/-- Whether the file at a path holds an artifact, up to the time of generation. -/
def isCurrent (files : FileAccess m) (path : String) (artifact : Artifact) : m Bool := do
  match ← files.readText path with
  | .error _ => return false
  | .ok text => return artifact.isUnchanged text

/-- Writes an artifact to a path in a directory. -/
def writeArtifact (files : FileAccess m) (directory path : String) (artifact : Artifact) :
    m (Except CommandFault Unit) := do
  match ← files.makeDirectories directory with
  | .error fault => return .error (.unwritable path fault)
  | .ok () =>
    match ← files.writeText path artifact.contents with
    | .error fault => return .error (.unwritable path fault)
    | .ok () => return .ok ()

/-- Compares artifacts with the files in a directory, and writes those that differ unless it only
    checks. -/
def deliver (files : FileAccess m) (check : Bool) (directory : String) (summary : Summary) :
    List Artifact → m (Except CommandFault Summary)
  | [] => return .ok summary
  | artifact :: artifacts => do
    let path := Path.join directory artifact.fileName
    if ← isCurrent files path artifact then
      deliver files check directory { summary with unchanged := summary.unchanged ++ [path] }
        artifacts
    else if check then
      deliver files check directory { summary with stale := summary.stale ++ [path] } artifacts
    else
      match ← writeArtifact files directory path artifact with
      | .error fault => return .error fault
      | .ok () =>
        deliver files check directory { summary with written := summary.written ++ [path] }
          artifacts

/-- Compiles grammars at a time and delivers the artifacts, and the notices given on the way. -/
def generate (files : FileAccess m) (options : GenerateOptions) (now : Calendar.Time) :
    m (Except CommandFault Generated × List Notice) := do
  match ← loadPath files options.path with
  | .error fault => return (.error fault, [])
  | .ok workspace =>
    let compilation := workspace.compile options.config now
    let directory ← outDirectory files options
    match ← deliver files options.check directory {} compilation.artifacts with
    | .error fault => return (.error fault, compilation.notices)
    | .ok summary => return (.ok ⟨compilation, summary⟩, compilation.notices)

end

end PatternTable
