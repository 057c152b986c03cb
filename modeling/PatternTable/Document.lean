import PatternTable.Identifier
import PatternTable.Text.Octets
import PatternTable.Text.Pieces

/-!
# Documents and the names derived from them

A document is identified by the scope name of its grammar, such as `source.renpy.atl`. Its last
segment is the document's language (`atl`), its first two segments are its family (`source.renpy`).
Documents of one family import each other's definitions by name; a document of another family is
imported as a namespace.
-/

namespace PatternTable

/-- The identity of a grammar document. -/
structure Document where
  id : String
  deriving DecidableEq, Repr

namespace Document

/-- The segments of a document's id. -/
def segments (document : Document) : List (List Char) :=
  Text.pieces (· == '.') document.id.toList

/-- The language of a document: the last segment of its id. -/
def language (document : Document) : String :=
  String.ofList (Text.lastPiece (· == '.') document.id.toList)

/-- The family of a document: the first two segments of its id. -/
def family (document : Document) : String :=
  ".".intercalate ((document.segments.take 2).map String.ofList)

/-- Whether two documents belong to one family. -/
def sameFamily (a b : Document) : Bool :=
  a.family == b.family

/-- The name of the module generated for a document. -/
def moduleName (document : Document) (suffix : String) : String :=
  document.language ++ suffix

/-- The identifier of the definition of a document's top-level patterns. -/
def rootIdentifier (document : Document) : String :=
  Identifier.camel document.language ++ "Root"

/-- The name under which another family imports a document as a namespace. -/
def namespaceAlias (document : Document) : String :=
  Identifier.title document.language ++ "Patterns"

/-- The name of the function that makes a document's references to other documents. -/
def linkFunction (document : Document) : String :=
  "link" ++ Identifier.title document.language ++ "Patterns"

/-- The order of documents by the octets of their ids. -/
def compare (a b : Document) : Ordering :=
  Text.compareOctets a.id.toList b.id.toList

/-- The endings that are not part of the id derived from a file name. -/
def fileEndings : List String :=
  [".tmLanguage.json", ".json"]

/-- A file name without the first of the known endings that it has. -/
def stem (name : List Char) : List Char :=
  (fileEndings.findSome? fun ending => Text.dropTrailing? ending.toList name).getD name

/-- The document of a grammar that names none, from the name of its file:
    `renpy.atl.tmLanguage.json` holds `source.renpy.atl`. Directories are ignored. -/
def ofFileName (name : String) : Document :=
  let stem := stem (Text.lastPiece (fun c => c == '/' || c == '\\') name.toList)
  match Text.dropLeading? "source.".toList stem with
  | some _ => ⟨String.ofList stem⟩
  | none => ⟨"source." ++ String.ofList stem⟩

example : (ofFileName "g/renpy.atl.tmLanguage.json").id = "source.renpy.atl" := by decide +kernel

end Document

end PatternTable
