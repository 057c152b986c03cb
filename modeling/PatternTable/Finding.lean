import PatternTable.Failure
import PatternTable.Palette

/-!
# Findings

A finding is what a compilation reports on a document: a failure, or a warning that does not stop
it. Each kind of finding has a message in which a detail is filled in, and a message without detail.

Results:
* `isWarning_eq_not_isError`: a finding is either a warning or an error.
-/

namespace PatternTable

/-- What is found. -/
inductive FindingKind where
  /-- The document was abandoned. -/
  | fatal
  /-- A scope name has no token type. -/
  | unclassifiedScope
  /-- A rule has neither a pattern nor children. -/
  | emptyRule
  /-- An include also has fields that are ignored. -/
  | ignoredFields
  deriving DecidableEq, Repr

/-- How severe a finding is. -/
inductive Severity where
  | error
  | warning
  deriving DecidableEq, Repr

/-- The name of a severity. -/
def Severity.name : Severity → String
  | error => "error"
  | warning => "warning"

/-- The color of a severity. -/
def Severity.color (palette : Palette) : Severity → String
  | error => palette.red
  | warning => palette.yellow

namespace FindingKind

/-- How severe a kind of finding is. -/
def severity : FindingKind → Severity
  | fatal => .error
  | _ => .warning

/-- The message of a kind of finding, with its detail if there is one. -/
def message : FindingKind → Option String → String
  | fatal, none => "compilation failed"
  | fatal, some detail => detail
  | unclassifiedScope, none => "scope name has no token type"
  | unclassifiedScope, some scope => "scope name `" ++ scope ++ "` has no token type"
  | emptyRule, none => "rule matches nothing"
  | emptyRule, some path => "rule `" ++ path ++ "` matches nothing"
  | ignoredFields, none => "fields next to `include` are ignored"
  | ignoredFields, some spelling => "fields next to `include: " ++ spelling ++ "` are ignored"

end FindingKind

/-- A finding on a document. -/
structure Finding where
  kind : FindingKind
  document : Document
  /-- The access path of the rule that it is about; empty for the whole document. -/
  path : String
  detail : Option String
  deriving DecidableEq, Repr

namespace Finding

/-- The finding that a document was abandoned. -/
def ofFailure (document : Document) (failure : Failure) : Finding :=
  ⟨.fatal, document, "", some failure.message⟩

/-- The message of a finding. -/
def message (finding : Finding) : String :=
  finding.kind.message finding.detail

/-- How severe a finding is. -/
def severity (finding : Finding) : Severity :=
  finding.kind.severity

/-- Whether a finding is an error. -/
def isError (finding : Finding) : Bool :=
  finding.severity == .error

/-- Whether a finding is a warning. -/
def isWarning (finding : Finding) : Bool :=
  finding.severity == .warning

/-- What a finding is about: a document, and the place in it. -/
def place (finding : Finding) : String :=
  finding.document.id ++ if finding.path.isEmpty then "" else " at " ++ finding.path

/-- A finding as a line of text. -/
def summary (finding : Finding) : String :=
  finding.severity.name ++ ": " ++ finding.message ++ " (" ++ finding.place ++ ")"

/-- A finding as it is printed, with colors. -/
def print (palette : Palette) (finding : Finding) : String :=
  finding.severity.color palette ++ finding.severity.name ++ palette.reset ++ ": " ++
    finding.message ++ " " ++ palette.dim ++ "(" ++ finding.place ++ ")" ++ palette.reset

/-- Findings as they are printed, one per line. -/
def printAll (palette : Palette) (findings : List Finding) : String :=
  String.join (findings.map fun finding => finding.print palette ++ "\n")

theorem isWarning_eq_not_isError (finding : Finding) : finding.isWarning = !finding.isError := by
  rcases finding with ⟨kind, _, _, _⟩
  cases kind <;> rfl

end Finding

end PatternTable
