import PatternTable.AccessPath
import PatternTable.Document
import PatternTable.Json.Basic

/-!
# Failures

A failure abandons one document. It names the document and the cause; its message is the text that
is printed for it.
-/

namespace PatternTable

/-- What is wrong with a rule, a repository key or an include. -/
inductive Defect where
  | singleAndOpening
  | closingWithoutOpening
  | openingWithoutClosing
  /-- A repository key whose words make no identifier. -/
  | invalidKey (key : String)
  /-- A repository key whose words make a reserved word. -/
  | reservedKey (key identifier : String)
  /-- A capture key that is no group number, or that of an earlier entry. -/
  | invalidGroup (key : String)
  | unrecognizedInclude (spelling : String)
  deriving DecidableEq, Repr

/-- The text of a defect. -/
def Defect.message : Defect → String
  | singleAndOpening => "rule has both `match` and `begin`"
  | closingWithoutOpening => "rule has `end` without `begin`"
  | openingWithoutClosing => "rule has `begin` without `end`"
  | invalidKey key => "repository key `" ++ key ++ "` does not yield a valid identifier"
  | reservedKey key identifier =>
    "repository key `" ++ key ++ "` yields the reserved word `" ++ identifier ++ "`"
  | invalidGroup key => "capture key `" ++ key ++ "` is not a unique group number"
  | unrecognizedInclude spelling => "include `" ++ spelling ++ "` has an unrecognized prefix"

/-- Why a document is abandoned. -/
inductive Cause where
  /-- Its text is not that of a grammar. -/
  | unreadable (fault : Json.Fault)
  | missingRepository
  | defect (path : AccessPath) (defect : Defect)
  /-- Two repository keys, or a key and the top-level patterns, make one identifier. -/
  | identifierCollision (identifier first second : String)
  /-- An include, spelled as in the source, refers to something that is not there. -/
  | unresolvedInclude (path : AccessPath) (spelling reason : String)
  /-- A name that is imported from a document is taken. -/
  | importCollision (name : String) (source : Document)
  | duplicateDocument
  /-- Another document is generated under the same file name. -/
  | duplicateArtifact (fileName : String) (other : Document)
  deriving DecidableEq, Repr

/-- The short name of what is wrong with a text. -/
def Json.Fault.label : Json.Fault → String
  | truncated => "eof"
  | malformed => "syntax"
  | mismatched => "data"

/-- The text of a cause. -/
def Cause.message : Cause → String
  | unreadable fault => "JSON parse error: <" ++ fault.label ++ ">"
  | missingRepository => "missing `repository`"
  | defect path found => path.text ++ ": " ++ found.message
  | identifierCollision identifier first second =>
    "keys `" ++ first ++ "` and `" ++ second ++ "` both name `" ++ identifier ++ "`"
  | unresolvedInclude path spelling reason =>
    path.text ++ ": unresolved include `" ++ spelling ++ "`: " ++ reason
  | importCollision name source =>
    "`" ++ name ++ "` imported from `" ++ source.id ++ "` collides with another name"
  | duplicateDocument => "document is loaded more than once"
  | duplicateArtifact fileName other =>
    "artifact `" ++ fileName ++ "` is also generated for `" ++ other.id ++ "`"

/-- A document that is abandoned, and why. -/
structure Failure where
  document : Document
  cause : Cause
  deriving DecidableEq, Repr

/-- The text of a failure. -/
def Failure.message (failure : Failure) : String :=
  failure.document.id ++ ": " ++ failure.cause.message

end PatternTable
