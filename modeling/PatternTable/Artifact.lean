import PatternTable.Calendar
import PatternTable.Config
import PatternTable.Link.Linkage
import PatternTable.Text.Lines
import PatternTable.Tree.Layout

/-!
# Artifacts

The artifact of a linked table is the text of a module. Its sections are separated by blank lines:
directives, a header with the time of generation, imports, one section for each definition, the
statements that run when the module is loaded, and the function that makes the references to other
modules.

A text is unchanged from an artifact if it differs from it only in lines that give the time of
generation.

Results:
* `isUnchanged_contents`: an artifact is unchanged from itself.
-/

namespace PatternTable

/-- A generated module. -/
structure Artifact where
  document : Document
  fileName : String
  contents : String
  deriving DecidableEq, Repr

namespace Artifact

/-! ## Sections -/

/-- The lines of the directives at the start of a module. -/
def directiveLines : List String :=
  ["/* eslint-disable no-useless-escape */", "/* eslint-disable no-useless-backreference */",
    "/* eslint-disable @typescript-eslint/no-non-null-assertion */"]

/-- The directives at the start of a module. -/
def directives : String :=
  Text.unlines directiveLines

/-- How the line with the time of generation starts. -/
def timeLead : String := "// Last generated: "

/-- The line with the time of generation. -/
def timeLine (now : Calendar.Time) : String :=
  timeLead ++ now.text ++ " (UTC+0)"

/-- The lines of the header before the one with the time. -/
def headerLines : List String :=
  ["// THIS FILE HAS BEEN GENERATED BY THE `tokpat` GENERATOR",
    "// DO NOT EDIT THIS FILE DIRECTLY! INSTEAD RUN `tokpat generate` TO UPDATE IT.",
    "// ANY MANUAL EDITS MADE TO THIS FILE WILL BE OVERWRITTEN. YOU HAVE BEEN WARNED."]

/-- The header of a module. -/
def header (now : Calendar.Time) : String :=
  Text.unlines (headerLines ++ [timeLine now])

/-- An import of names from a module. -/
def importNames (names : List String) (specifier : String) : String :=
  "import \x7b " ++ ", ".intercalate names ++ " \x7d from " ++ Text.quote specifier ++ ";"

/-- The line of an import of another document. -/
def importLine (config : Config) : Import → String
  | .named document names => importNames names (config.moduleSpecifier document)
  | .whole document localName =>
    "import * as " ++ localName ++ " from " ++ Text.quote (config.moduleSpecifier document) ++ ";"

/-- The enumerations that a table uses, in the order in which they are imported. -/
def usedCategories (table : Table) : List Scope.Category :=
  Scope.Category.all.filter table.categories.contains

/-- The lines that import what a linked table uses. -/
def importLines (config : Config) (linkage : Linkage) : List String :=
  let categories := usedCategories linkage.table
  (if categories.isEmpty then []
    else [importNames (categories.map Scope.Category.typeName) config.tokensModule]) ++
    (if linkage.table.definitions.isEmpty then []
      else [importNames ["TokenPattern"] config.typesModule]) ++
    linkage.imports.map (importLine config)

/-- The section of a definition. -/
def definitionText (definition : Definition) : String :=
  "export const " ++ definition.identifier ++ ": TokenPattern = " ++
    definition.value.render 0 ++ ";"

/-- The section of the statements that run when the module is loaded. -/
def loadSection (statements : List PatchStatement) : String :=
  Text.unlines
    ("// Push pattern references that were not defined on include" ::
      statements.map PatchStatement.text)

/-- A line inside a function. -/
def bodyLine (text : String) : String :=
  "    " ++ text

/-- The lines of the statements that make the references to a document. -/
def groupLines (group : PatchGroup) : List String :=
  bodyLine ("// " ++ group.document.id) ::
    group.statements.map fun statement => bodyLine statement.text

/-- The lines of several groups, with a blank line between them. -/
def groupsLines : List PatchGroup → List String
  | [] => []
  | [group] => groupLines group
  | group :: groups => groupLines group ++ "" :: groupsLines groups

/-- The section of the function that makes the references to other documents. -/
def linkSection (document : Document) (groups : List PatchGroup) : String :=
  Text.unlines
    (["// Link pattern references from other grammar files.",
        "// Call once after every token pattern module has been loaded.",
        "export function " ++ document.linkFunction ++ "(): void \x7b"] ++
      groupsLines groups ++ ["\x7d"])

/-- The sections of a module, in order. -/
def sections (config : Config) (now : Calendar.Time) (linkage : Linkage) : List String :=
  let imports := importLines config linkage
  [directives, header now] ++ (if imports.isEmpty then [] else [Text.unlines imports]) ++
    linkage.table.definitions.map definitionText ++
    (if linkage.internalBlock.isEmpty then [] else [loadSection linkage.internalBlock]) ++
    (if linkage.externalBlock.isEmpty then []
      else [linkSection linkage.table.document linkage.externalBlock])

/-- The artifact of a linked table. -/
def ofLinkage (config : Config) (now : Calendar.Time) (linkage : Linkage) : Artifact where
  document := linkage.table.document
  fileName := config.fileName linkage.table.document
  contents := "\n\n".intercalate (sections config now linkage) ++ "\n"

/-! ## Comparison -/

/-- The lines of a text that do not give the time of generation. -/
def significantLines (text : String) : List (List Char) :=
  (Text.lines text.toList).filter fun line => !timeLead.toList.isPrefixOf line

/-- Whether a text differs from an artifact only in the time of generation. -/
def isUnchanged (artifact : Artifact) (text : String) : Bool :=
  significantLines artifact.contents == significantLines text

theorem isUnchanged_contents (artifact : Artifact) : artifact.isUnchanged artifact.contents := by
  simp [isUnchanged]

end Artifact

end PatternTable
