import PatternTable.Artifact
import PatternTable.Grammar.Reader
import PatternTable.Table.OfGrammar

/-!
# Workspaces

A workspace holds grammar documents that refer to each other. They are compiled in three stages:
every grammar is built into a table, every table is linked against what all of them export, and
every linked table becomes an artifact. A document that fails keeps its failure and does not stop
the others.

No two documents may have the same id, or be generated to the same file. The first one is built.

Results:
* `compile_length`: every document of a workspace has an outcome.
-/

namespace PatternTable

/-! ## Sources -/

/-- A document of a workspace. -/
structure Source where
  /-- The file name, or another label, that the document was added under. -/
  name : String
  document : Document
  grammar : Except Failure Grammar

namespace Source

/-- The document of a grammar: the one it names, or else the one its file is named after. -/
def documentOf (name : String) (grammar : Grammar) : Document :=
  match grammar.scopeName with
  | some id => ⟨id⟩
  | none => .ofFileName name

/-- The document with a grammar. -/
def ofGrammar (name : String) (grammar : Grammar) : Source :=
  ⟨name, documentOf name grammar, .ok grammar⟩

/-- The document with a grammar given as text. -/
def ofText (name text : String) : Source :=
  match Grammar.ofJson text with
  | .ok grammar => ofGrammar name grammar
  | .error fault =>
    let document := Document.ofFileName name
    ⟨name, document, .error ⟨document, .unreadable fault⟩⟩

end Source

/-- The documents of a workspace, in the order in which they were added. -/
abbrev Workspace := List Source

/-! ## Stages -/

/-- A document at a stage of its compilation. -/
structure Staged (α : Type) where
  name : String
  document : Document
  stage : Except Failure α

/-- The values of the documents that have not failed. -/
def Staged.values {α : Type} (documents : List (Staged α)) : List α :=
  documents.filterMap fun staged => staged.stage.toOption

/-- The failures of the documents that have failed. -/
def Staged.failures {α : Type} (documents : List (Staged α)) : List Failure :=
  documents.filterMap fun staged =>
    match staged.stage with
    | .ok _ => none
    | .error failure => some failure

namespace Workspace

/-- Why a parsed document is not built, when the documents in `seen` come before it and the files in
    `files` are taken by the documents beside them. -/
def duplicateCause? (config : Config) (seen : List Document) (files : List (String × Document))
    (document : Document) : Option Cause :=
  if seen.contains document then some .duplicateDocument
  else
    (files.lookup (config.fileName document)).map fun other =>
      .duplicateArtifact (config.fileName document) other

/-- The tables of documents, and the notices given on the way. -/
def buildFrom (config : Config) (seen : List Document) (files : List (String × Document)) :
    Workspace → List (Staged Table) × List Notice
  | [] => ([], [])
  | source :: sources =>
    let document := source.document
    match source.grammar with
    | .error failure =>
      let (rest, notices) := buildFrom config (document :: seen) files sources
      (⟨source.name, document, .error failure⟩ :: rest, notices)
    | .ok grammar =>
      match duplicateCause? config seen files document with
      | some cause =>
        let (rest, notices) := buildFrom config (document :: seen) files sources
        (⟨source.name, document, .error ⟨document, cause⟩⟩ :: rest, notices)
      | none =>
        let (table, given) := Table.ofGrammar config document grammar
        let (rest, notices) :=
          buildFrom config (document :: seen) ((config.fileName document, document) :: files)
            sources
        (⟨source.name, document, table⟩ :: rest, given ++ notices)

/-- The tables of a workspace, and the notices given on the way. -/
def build (config : Config) (workspace : Workspace) : List (Staged Table) × List Notice :=
  buildFrom config [] [] workspace

end Workspace

/-- What the tables of a workspace and the hand-written modules export. -/
def exportsOf (config : Config) (tables : List (Staged Table)) : Exports :=
  config.handwritten.foldl Exports.addHandwritten
    ((Staged.values tables).foldl Exports.addTable {})

/-- The linked tables of a workspace. -/
def linkAll (config : Config) (tables : List (Staged Table)) : List (Staged Linkage) :=
  let exports := exportsOf config tables
  tables.map fun staged => ⟨staged.name, staged.document, staged.stage.bind (Table.link exports)⟩

/-! ## Outcomes -/

/-- The outcome of a document. -/
structure Compiled where
  name : String
  document : Document
  artifact : Except Failure Artifact
  /-- Warnings, or the failure. -/
  findings : List Finding
  /-- The scope names that were met, with their token types. -/
  scopes : List (String × Scope.Token)

namespace Compiled

/-- The outcome of a document that has been linked, or has failed. -/
def ofLinkage (config : Config) (now : Calendar.Time) (staged : Staged Linkage) : Compiled :=
  match staged.stage with
  | .ok linkage =>
    { name := staged.name
      document := staged.document
      artifact := .ok (Artifact.ofLinkage config now linkage)
      findings := linkage.table.trail.findings
      scopes := linkage.table.scopes }
  | .error failure =>
    { name := staged.name
      document := staged.document
      artifact := .error failure
      findings := [Finding.ofFailure staged.document failure]
      scopes := [] }

end Compiled

/-- The outcome of a workspace. -/
structure Compilation where
  documents : List Compiled
  /-- The notices that were given, in order. -/
  notices : List Notice

namespace Compilation

/-- The artifacts of the documents that have one. -/
def artifacts (compilation : Compilation) : List Artifact :=
  compilation.documents.filterMap fun compiled => compiled.artifact.toOption

/-- The failures of the documents that have no artifact. -/
def failures (compilation : Compilation) : List Failure :=
  compilation.documents.filterMap fun compiled =>
    match compiled.artifact with
    | .ok _ => none
    | .error failure => some failure

/-- The artifact of a document. -/
def artifact? (compilation : Compilation) (document : Document) : Option Artifact :=
  compilation.artifacts.find? fun artifact => artifact.document == document

/-- The findings on all documents. -/
def findings (compilation : Compilation) : List Finding :=
  compilation.documents.flatMap Compiled.findings

end Compilation

/-- The outcome of compiling a workspace at a time. -/
def Workspace.compile (config : Config) (now : Calendar.Time) (workspace : Workspace) :
    Compilation :=
  let (tables, notices) := workspace.build config
  let linked := linkAll config tables
  { documents := linked.map (Compiled.ofLinkage config now)
    notices := notices ++ (Staged.failures linked).map .failed }

theorem Workspace.buildFrom_length (config : Config) (seen : List Document)
    (files : List (String × Document)) (workspace : Workspace) :
    (buildFrom config seen files workspace).1.length = workspace.length := by
  induction workspace generalizing seen files with
  | nil => rfl
  | cons source sources ih =>
    unfold buildFrom
    dsimp only
    split
    · simp [ih]
    · split <;> simp [ih]

theorem Workspace.compile_length (config : Config) (now : Calendar.Time) (workspace : Workspace) :
    (workspace.compile config now).documents.length = workspace.length := by
  simp [compile, linkAll, build, buildFrom_length]

end PatternTable
