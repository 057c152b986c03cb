import PatternTable.Calendar
import PatternTable.Document
import PatternTable.Scope.Classifier

/-!
# Settings of a compilation
-/

namespace PatternTable

/-- What a compilation can be told. -/
structure Config where
  /-- The module that the token types are imported from. -/
  tokensModule : String := "./renpy-tokens"
  /-- The module that the type of a definition is imported from. -/
  typesModule : String := "./token-pattern-types"
  /-- What follows a document's language in the name of its module. -/
  artifactSuffix : String := "-token-patterns.g"
  classifier : Scope.Classifier := {}
  /-- Whether POSIX classes are written as ranges. -/
  expandClasses : Bool := true
  /-- The documents whose modules are written by hand. -/
  handwritten : List Document := []
  deriving DecidableEq, Repr

namespace Config

/-- The name of the module of a document. -/
def moduleName (config : Config) (document : Document) : String :=
  document.moduleName config.artifactSuffix

/-- The name of the file that a document is generated to. -/
def fileName (config : Config) (document : Document) : String :=
  config.moduleName document ++ ".ts"

/-- The specifier under which the module of a document is imported. -/
def moduleSpecifier (config : Config) (document : Document) : String :=
  "./" ++ config.moduleName document

end Config

end PatternTable
