import PatternTable.Identifier
import PatternTable.Scope.Table
import PatternTable.Text.Blank

/-!
# Classification of scope names

A scope name may list several scopes, separated by white space; one of them is classified. Its
segments are the non-empty texts between its dots. A last segment that names a language is dropped,
and the table decides on the others.

Results:
* `segments_append_dot`: segments of `a`, a dot and `b` are those of `a`, then those of `b`.
-/

namespace PatternTable.Scope

/-- Which of several scopes is classified. -/
inductive Selection where
  | first
  | last
  deriving DecidableEq, Repr

/-- The settings of classification. -/
structure Classifier where
  selection : Selection := .last
  /-- Last segments that name a language rather than a token. -/
  languages : List String := ["renpy", "python"]
  deriving DecidableEq, Repr

/-- The non-empty texts between the dots of a scope. -/
def segments (scope : List Char) : List String :=
  (Text.nonemptyPieces (· == '.') scope).map String.ofList

/-- The token type that an outcome gives to a scope name. A derived member must have a word that
    can start an identifier. -/
def Outcome.token (scope : String) (segments : List String) : Outcome → Token
  | exact category member => .known category member
  | derived category before source after =>
    let words := Identifier.title (".".intercalate (source.select segments))
    if words.isEmpty || Identifier.startsWithDigit words.toList then .unresolved scope
    else .known category (before ++ words ++ after)
  | none => .unresolved scope

namespace Classifier

/-- The scope of a scope name that is classified, if it has one. -/
def select? (classifier : Classifier) (name : String) : Option (List Char) :=
  match classifier.selection with
  | .first => (Text.words name.toList).head?
  | .last => (Text.words name.toList).getLast?

/-- Segments without a last one that names a language. -/
def dropLanguage (classifier : Classifier) (segments : List String) : List String :=
  match segments.getLast? with
  | some last => if classifier.languages.contains last then segments.dropLast else segments
  | none => segments

/-- The token type of a scope name. A scope of fewer than two segments has none. -/
def classify (classifier : Classifier) (name : String) : Token :=
  match classifier.select? name with
  | none => .unresolved name
  | some scope =>
    let all := segments scope
    if all.length < 2 then .unresolved name
    else
      let segments := classifier.dropLanguage all
      (outcome segments).token name segments

end Classifier

theorem segments_append_dot (a b : List Char) :
    segments (a ++ '.' :: b) = segments a ++ segments b := by
  rw [segments, Text.nonemptyPieces_append_separator (by decide), List.map_append]
  rfl

end PatternTable.Scope
