import PatternTable.Text.Pieces

/-!
# Identifiers from dotted and dashed names

Scope names (`meta.atl.block`) and repository keys (`atl-build-in-properties`) become members and
variables. The words of a name are its runs of ASCII letters and digits. In a word, a letter is in
upper case exactly when the character before it is not a letter; an acronym is in upper case
throughout.

Results:
* `titleWords_append_separator`: the words of `a`, a separator and `b` are those of `a`, then those
  of `b`.
* `titleCase_append_separator`: title case distributes over a separator.
-/

namespace PatternTable.Identifier

/-- What separates the words of a name: anything but an ASCII letter or digit. -/
def separates (c : Char) : Bool :=
  !c.isAlphanum

/-- A word in title case, continued after a letter (`afterLetter`) or after anything else. -/
def capitalize : (afterLetter : Bool) → List Char → List Char
  | _, [] => []
  | afterLetter, c :: cs =>
    (if afterLetter then c.toLower else c.toUpper) :: capitalize c.isAlpha cs

/-- The words of a name, each in title case. -/
def titleWords (name : List Char) : List (List Char) :=
  (Text.nonemptyPieces separates name).map (capitalize false)

/-- The words that are written in upper case throughout. -/
def acronyms : List (List Char) :=
  ["atl".toList]

/-- A word with its acronym, if it is one, in upper case. -/
def expandAcronym (word : List Char) : List Char :=
  if acronyms.contains (word.map Char.toLower) then word.map Char.toUpper else word

/-- A text with its first character in lower case. -/
def uncapitalize : List Char → List Char
  | [] => []
  | c :: cs => c.toLower :: cs

/-- The words of a name, run together in title case. -/
def titleCase (name : List Char) : List Char :=
  (titleWords name).flatMap expandAcronym

/-- The words of a name, run together in camel case. The first word only has its first letter
    lowered; acronyms are expanded in the others. -/
def camelCase (name : List Char) : List Char :=
  match titleWords name with
  | [] => []
  | first :: rest => uncapitalize first ++ rest.flatMap expandAcronym

/-- The words that a module in strict mode cannot bind. -/
def reservedWords : List String :=
  ["arguments", "await", "break", "case", "catch", "class", "const", "continue", "debugger",
    "default", "delete", "do", "else", "enum", "eval", "export", "extends", "false", "finally",
    "for", "function", "if", "implements", "import", "in", "instanceof", "interface", "let",
    "new", "null", "package", "private", "protected", "public", "return", "static", "super",
    "switch", "this", "throw", "true", "try", "typeof", "var", "void", "while", "with", "yield"]

/-- Whether a word cannot name a binding. -/
def isReserved (word : String) : Bool :=
  reservedWords.contains word

/-- Whether a text starts with an ASCII digit. -/
def startsWithDigit : List Char → Bool
  | [] => false
  | c :: _ => c.isDigit

/-- The title case of a name. -/
def title (name : String) : String :=
  String.ofList (titleCase name.toList)

/-- The camel case of a name. -/
def camel (name : String) : String :=
  String.ofList (camelCase name.toList)

theorem titleWords_append_separator (a b : List Char) (c : Char) (h : separates c) :
    titleWords (a ++ c :: b) = titleWords a ++ titleWords b := by
  rw [titleWords, Text.nonemptyPieces_append_separator h, List.map_append]
  rfl

theorem titleCase_append_separator (a b : List Char) (c : Char) (h : separates c) :
    titleCase (a ++ c :: b) = titleCase a ++ titleCase b := by
  simp [titleCase, titleWords_append_separator a b c h]

example : title "atl.choice.block" = "ATLChoiceBlock" := by decide +kernel

example : camel "atl-build-in-properties" = "atlBuildInProperties" := by decide +kernel

end PatternTable.Identifier
