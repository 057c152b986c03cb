import PatternTable.Command.Interface
import PatternTable.Command.Load

/-!
# Reporting scope names

`scopes` reports the token type of each scope name that it is told, in their order, and then of each
other scope name that the grammars of some files use. The report is a table or a JSON array. A table
is given up if its first column is too wide to be laid out.
-/

namespace PatternTable

/-- A line of the report. -/
structure ScopeEntry where
  scope : String
  token : Scope.Token
  deriving DecidableEq, Repr

namespace ScopeEntry

/-- Entries with one more, unless its scope name is there. -/
def addNew (entries : List ScopeEntry) (entry : ScopeEntry) : List ScopeEntry :=
  if entries.any fun other => other.scope == entry.scope then entries else entries ++ [entry]

/-- The entries for scope names, then those for the other scope names of some tables. -/
def collect (classifier : Scope.Classifier) (names : List String) (tables : List Table) :
    List ScopeEntry :=
  (tables.flatMap Table.scopes).foldl (fun entries (scope, token) => addNew entries ⟨scope, token⟩)
    (names.map fun name => ⟨name, classifier.classify name⟩)

/-- A text with blanks after it, for as many as its characters are fewer than `width`. -/
def padded (width : Nat) (text : String) : String :=
  text ++ String.ofList (List.replicate (width - text.length) ' ')

/-- An entry as a line of a table whose first column has a width. -/
def row (width : Nat) (entry : ScopeEntry) : String :=
  padded width entry.scope ++ "  " ++ entry.token.expression ++
    (if entry.token.isResolved then "" else "  (unresolved)") ++ "\n"

/-- The most octets that the width of a column may be. -/
def maxWidth : Nat := 65535

/-- The width of the first column of a table: that of the scope name with the most octets. -/
def width (entries : List ScopeEntry) : Nat :=
  (entries.map fun entry => Text.octets entry.scope.toList).foldl max 0

/-- Entries as a table, if its first column is not too wide. -/
def table? (entries : List ScopeEntry) : Option String :=
  if maxWidth < width entries then none
  else some (String.join (entries.map (row (width entries))))

/-- An entry as a JSON object over several lines. -/
def object (entry : ScopeEntry) : String :=
  "  \x7b\n    \"scope\": " ++ Text.quote entry.scope ++ ",\n    \"token\": " ++
    Text.quote entry.token.expression ++ ",\n    \"resolved\": " ++
    (if entry.token.isResolved then "true" else "false") ++ "\n  \x7d"

/-- Entries as a JSON array. -/
def json : List ScopeEntry → String
  | [] => "[]\n"
  | entries => "[\n" ++ ",\n".intercalate (entries.map object) ++ "\n]\n"

end ScopeEntry

/-- Entries as a JSON array or as a table. -/
def ScopeEntry.report (json : Bool) (entries : List ScopeEntry) : Except CommandFault String :=
  if json then .ok (ScopeEntry.json entries)
  else
    match table? entries with
    | some table => .ok table
    | none => .error .tooWide

/-- The report on scope names, and the notices given on the way. -/
def scopesReport {m : Type → Type} [Monad m] (files : FileAccess m) (options : ScopesOptions) :
    m (Except CommandFault String × List Notice) := do
  match ← loadFiles files options.files with
  | .error fault => return (.error fault, [])
  | .ok workspace =>
    let config := options.config
    let (tables, notices) := workspace.build config
    let entries := ScopeEntry.collect config.classifier options.names (Staged.values tables)
    let skipped := (Staged.failures tables).map Notice.skipped
    return (ScopeEntry.report options.json entries, notices ++ skipped)

end PatternTable
