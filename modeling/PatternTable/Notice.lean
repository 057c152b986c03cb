import PatternTable.Failure
import PatternTable.Regex.Literal

/-!
# Notices

Notices are what a run tells its operator as it goes. They are no part of the outcome of a document:
one that fails has still given the notices up to that point.
-/

namespace PatternTable

/-- How much attention a notice asks for. -/
inductive NoticeLevel where
  | warn
  | error
  deriving DecidableEq, Repr

/-- Something that the operator of a run is told. -/
inductive Notice where
  /-- A scope name in the rule at a path has no token type. -/
  | unclassified (document : Document) (path : AccessPath) (scope : String)
  /-- A pattern holds something that a literal cannot express. -/
  | regex (notice : Regex.Notice)
  /-- A document was abandoned. -/
  | failed (failure : Failure)
  /-- A document that was abandoned is left out of a report. -/
  | skipped (failure : Failure)
  deriving DecidableEq, Repr

namespace Notice

/-- How much attention a notice asks for. -/
def level : Notice → NoticeLevel
  | failed _ => .error
  | _ => .warn

/-- The text of a notice. -/
def message : Notice → String
  | unclassified document path scope =>
    document.id ++ ": " ++ path.text ++ ": no token type for scope name `" ++ scope ++ "`"
  | regex notice => notice.message
  | failed failure => failure.message
  | skipped failure => "skipping " ++ failure.message

end Notice

end PatternTable
