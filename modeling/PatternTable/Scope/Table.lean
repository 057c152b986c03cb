import PatternTable.Scope.Token

/-!
# The table of scope names

A scope name is a list of segments, from the general to the particular. The table is a list of
rows, each with a pattern for the first segments and the token type of the scope names that match
it; the first row that matches decides. A row names its member outright, or derives it from some of
the segments, or leaves the scope name without a token type.

The table is data, so that a statement about every scope name reduces to one about its rows.
-/

namespace PatternTable.Scope

/-! ## Patterns and outcomes -/

/-- What a row asks of one segment. -/
inductive Cell where
  | word (text : String)
  | oneOf (texts : List String)
  | any
  deriving DecidableEq, Repr

instance : Coe String Cell := ⟨Cell.word⟩

/-- Whether a segment is what a cell asks for. -/
def Cell.accepts : Cell → String → Bool
  | word text, segment => segment == text
  | oneOf texts, segment => texts.contains segment
  | any, _ => true

/-- The segments that a derived member is named after. -/
inductive Source where
  /-- Every segment from this position on. -/
  | since (position : Nat)
  /-- The segment at this position. -/
  | only (position : Nat)
  deriving DecidableEq, Repr

/-- The segments of a scope name that a source selects. -/
def Source.select : Source → List String → List String
  | since position, segments => segments.drop position
  | only position, segments => (segments.drop position).take 1

/-- What a row says of the scope names that match it. -/
inductive Outcome where
  /-- The member has this name. -/
  | exact (category : Category) (member : String)
  /-- The member is the title case of some segments, between two fixed texts. -/
  | derived (category : Category) (before : String) (source : Source) (after : String)
  /-- They have no token type. -/
  | none
  deriving DecidableEq, Repr

/-- A pattern for scope names, and what holds of those that match. -/
structure Row where
  cells : List Cell
  /-- Whether a matching scope name ends with the segments of the pattern. -/
  closed : Bool
  outcome : Outcome
  deriving DecidableEq, Repr

/-- Whether the segments start with those that the cells ask for, and end there when `closed`. -/
def matchesCells (closed : Bool) : List Cell → List String → Bool
  | [], segments => !closed || segments.isEmpty
  | _ :: _, [] => false
  | cell :: cells, segment :: segments =>
    cell.accepts segment && matchesCells closed cells segments

/-- Whether a row covers a scope name. -/
def Row.covers (row : Row) (segments : List String) : Bool :=
  matchesCells row.closed row.cells segments

/-! ## Rows, family by family -/

/-- The scope names that open with these segments. -/
def opening (cells : List Cell) (outcome : Outcome) : Row :=
  ⟨cells, false, outcome⟩

/-- The scope names that consist of these segments. -/
def whole (cells : List Cell) (outcome : Outcome) : Row :=
  ⟨cells, true, outcome⟩

def stringRows : List Row :=
  [opening ["string", "quoted", "docstring"] (.exact .region "Docstring"),
    opening ["string"] (.exact .literal "String")]

def variableRows : List Row :=
  [opening ["variable", "name"] (.exact .entity "Identifier"),
    opening ["variable"] (.exact .entity "VariableName")]

def storageRows : List Row :=
  [opening ["storage", "type", "string"] (.exact .region "StringStorageType"),
    opening ["storage", "type", "format"] (.exact .region "FormatStorageType"),
    opening ["storage", "type", "class"] (.exact .keyword "Class"),
    opening ["storage", "type", "imaginary"] (.exact .region "ImaginaryNumberStorageType"),
    opening ["storage", "type", "number"] (.exact .region "NumberStorageType"),
    opening ["storage", "type", "function", "lambda"] (.exact .keyword "Lambda"),
    opening ["storage", "type", "function", "async"] (.exact .keyword "Async"),
    opening ["storage", "type", "function", "label"] (.exact .keyword "Label"),
    opening ["storage", "type", "function"] (.exact .keyword "Def"),
    opening ["storage", "type", "screen"] (.exact .keyword "Screen"),
    opening ["storage", "type", "style"] (.exact .keyword "Style"),
    opening ["storage", "modifier", "declaration"] (.derived .keyword "" (.since 3) ""),
    opening ["storage", "modifier", "flag"] (.exact .region "ModifierFlagStorageType")]

def constantRows : List Row :=
  [opening ["constant", "numeric", "integer"] (.exact .literal "Integer"),
    opening ["constant", "numeric", "float"] (.exact .literal "Float"),
    opening ["constant", "numeric", "boolean"] (.exact .literal "Boolean"),
    opening ["constant", "numeric", "character"] (.exact .literal "Character"),
    opening ["constant", "numeric", "escape"] (.exact .literal "Escape"),
    opening ["constant", "numeric"] (.exact .region "ConstantNumeric"),
    opening ["constant", "language"] (.exact .region "ConstantLiteral"),
    opening ["constant", "color"] (.exact .literal "Color"),
    whole ["constant", "character", "escape"] (.exact .region "EscapeSequence"),
    opening ["constant", "character", "escape", "regexp"] (.exact .region "EscapeSequence"),
    opening ["constant", "character", "escape"] (.derived .escapedCharacter "Esc" (.since 3) ""),
    opening ["constant", "character", "unicode"] (.exact .region "EscapeSequence"),
    opening ["constant", "character", "set"] (.exact .region "CharacterSet"),
    opening ["constant", "character", "format", "placeholder"] (.exact .region "Placeholder"),
    opening ["constant", "other"] (.exact .region "ConstantCaps")]

def invalidRows : List Row :=
  [opening ["invalid", "deprecated"] (.exact .region "Deprecated"),
    opening ["invalid"] (.exact .region "Invalid")]

/-- The block kinds whose section starts with a colon. -/
def blockKinds : List String :=
  ["python", "block", "class", "function", "atl", "label", "menu", "menu-option", "screen", "style"]

def punctuationRows : List Row :=
  [opening ["punctuation", "definition", .oneOf ["tag", "dict", "inheritance"], "begin"]
      (.exact .character "OpenBracket"),
    opening ["punctuation", "definition", .oneOf ["tag", "dict", "inheritance"], "end"]
      (.exact .character "CloseBracket"),
    opening ["punctuation", "definition", .oneOf ["tag", "dict", "inheritance"], "region"]
      (.exact .region "CommentRegionTag"),
    opening ["punctuation", "definition", "list", "begin"] (.exact .character "OpenSquareBracket"),
    opening ["punctuation", "definition", "list", "end"] (.exact .character "CloseSquareBracket"),
    opening ["punctuation", "definition", .oneOf ["arguments", "parameters"], "begin"]
      (.exact .character "OpenParentheses"),
    opening ["punctuation", "definition", .oneOf ["arguments", "parameters"], "end"]
      (.exact .character "CloseParentheses"),
    opening ["punctuation", "definition", "string", "begin"] (.exact .region "StringBegin"),
    opening ["punctuation", "definition", "string", "end"] (.exact .region "StringEnd"),
    opening ["punctuation", "definition", "comment"] (.exact .character "Hashtag"),
    opening ["punctuation", "definition", "decorator"] (.exact .character "AtSymbol"),
    opening ["punctuation", "parenthesis", "begin"] (.exact .character "OpenParentheses"),
    opening ["punctuation", "parenthesis", "end"] (.exact .character "CloseParentheses"),
    opening ["punctuation", "bracket", "begin"] (.exact .character "OpenBracket"),
    opening ["punctuation", "bracket", "end"] (.exact .character "CloseBracket"),
    opening ["punctuation", "square-bracket", "begin"] (.exact .character "OpenSquareBracket"),
    opening ["punctuation", "square-bracket", "end"] (.exact .character "CloseSquareBracket"),
    opening ["punctuation", "section", .oneOf blockKinds, "begin"] (.exact .character "Colon"),
    opening ["punctuation", "section", .oneOf blockKinds, .any, "begin"]
      (.exact .character "Colon"),
    opening
      ["punctuation", "separator", .oneOf ["parameters", "arguments", "element", "inheritance"]]
      (.exact .character "Comma"),
    opening ["punctuation", "separator", .oneOf ["dict", "annotation", "slice"]]
      (.exact .character "Colon"),
    opening ["punctuation", "separator", "continuation"] (.exact .character "Backslash"),
    opening ["punctuation", "separator", "key-value"] (.exact .character "EqualsSymbol"),
    opening ["punctuation", "separator", .any] (.derived .character "" (.only 2) ""),
    opening ["punctuation", "character", "set", "begin"] (.exact .character "OpenSquareBracket"),
    opening ["punctuation", "character", "set", "end"] (.exact .character "CloseSquareBracket"),
    opening ["punctuation", "comment", "begin"] (.exact .region "CommentBegin"),
    opening ["punctuation", "comment", "end"] (.exact .region "CommentEnd"),
    opening
      ["punctuation",
        .oneOf ["definition", "parenthesis", "bracket", "square-bracket", "section", "separator",
          "character", "comment"]]
      .none,
    opening ["punctuation", .any] (.derived .character "" (.only 1) "")]

def supportRows : List Row :=
  [opening ["support", "type", "property-name"] (.exact .entity "PropertyName"),
    opening ["support", "type", "class"] (.exact .entity "ClassName"),
    opening ["support", "type", "function"] (.exact .entity "FunctionName"),
    opening ["support", "type", "variable"] (.exact .entity "VariableName"),
    opening ["support", "type", "namespace"] (.exact .entity "NamespaceName"),
    opening ["support", "type", "metaclass"] (.exact .keyword "Metaclass"),
    opening ["support", "type", "exception"] (.exact .region "BuiltinExceptionType"),
    opening ["support", "type"] (.exact .region "BuiltinType"),
    opening ["support", "variable"] (.exact .entity "VariableName"),
    opening ["support", "function", "event"] (.exact .entity "EventName"),
    opening ["support", "function"] (.exact .entity "FunctionName"),
    opening ["support", "other", "match", "any"] (.exact .character "Period"),
    opening ["support", "other", "match", "begin"] (.exact .character "Caret"),
    opening ["support", "other", "match", "end"] (.exact .character "DollarSymbol"),
    opening ["support", "other", "escape"] (.exact .region "EscapeSequence")]

def commentRows : List Row :=
  [opening ["comment", "typehint", .any] (.derived .region "Typehint" (.only 2) ""),
    opening ["comment"] (.exact .region "Comment")]

def keywordRows : List Row :=
  [whole ["keyword", "operator"] (.exact .region "Operator"),
    whole ["keyword", "operator", "arithmetic"] (.exact .region "ArithmeticOperator"),
    opening ["keyword", "operator", "arithmetic"] (.derived .operator "" (.only 3) ""),
    opening ["keyword", "operator", "logical"] (.exact .region "LogicalOperatorKeyword"),
    opening ["keyword", "operator", "bitwise"] (.exact .region "BitwiseOperatorKeyword"),
    opening ["keyword", "operator", "comparison"] (.exact .region "ComparisonOperatorKeyword"),
    opening ["keyword", "operator", "unpacking"] (.exact .operator "Unpacking"),
    opening ["keyword", "operator"] (.derived .operator "" (.since 2) ""),
    opening ["keyword", "codetag"] (.exact .region "CommentCodeTag"),
    whole ["keyword", "control", "flow"] (.exact .region "ControlFlowKeyword"),
    opening ["keyword", "control", "flow"] (.derived .keyword "" (.only 3) ""),
    opening ["keyword", "control", "import"] (.exact .keyword "Import"),
    opening ["keyword", "control", "conditional"] (.exact .keyword "If"),
    opening ["keyword", "control"] .none,
    opening ["keyword", "illegal", "name"] (.exact .region "Invalid"),
    opening ["keyword"] (.derived .keyword "" (.since 1) "")]

def entityRows : List Row :=
  [opening ["entity", "name", "type", .any] (.derived .entity "" (.only 3) "Name"),
    opening ["entity", "name", .any] (.derived .entity "" (.only 2) "Name"),
    opening ["entity", "other", "inherited-class"] (.exact .entity "InheritedClassName")]

def metaRows : List Row :=
  [opening ["meta", "embedded", "block"] (.exact .region "PythonBlock"),
    opening ["meta", "embedded", "line"] (.exact .region "PythonLine"),
    opening ["meta", "embedded"] .none,
    opening ["meta", "arguments"] (.exact .region "Arguments"),
    opening ["meta", .any, "arguments"] (.exact .region "Arguments"),
    opening ["meta", .any, .any, "arguments"] (.exact .region "Arguments"),
    opening ["meta", "function-call", "label"] (.exact .region "LabelCall"),
    opening ["meta", "function-call"] (.exact .region "FunctionCall"),
    opening ["meta", "member", "access", "label"] (.exact .region "LabelAccess"),
    opening ["meta", "member", "access"] (.exact .region "MemberAccess"),
    opening ["meta", "member"] .none,
    opening ["meta", "string", "tag"] (.exact .region "StringTag"),
    opening ["meta", "string", "character"] (.exact .region "CharacterNameString"),
    opening ["meta", "string"] .none,
    opening ["meta", .oneOf ["class", "function"], "inheritance"]
      (.derived .region "" (.since 1) ""),
    opening ["meta", .oneOf ["class", "function"]] (.derived .region "" (.only 1) "Definition"),
    opening ["meta"] (.derived .region "" (.since 1) "")]

/-- The whole table. -/
def rows : List Row :=
  stringRows ++ variableRows ++ storageRows ++ constantRows ++ invalidRows ++ punctuationRows ++
    supportRows ++ commentRows ++ keywordRows ++ entityRows ++ metaRows

/-- The outcome of the first row that covers a scope name. -/
def outcome (segments : List String) : Outcome :=
  match rows.find? (fun row => row.covers segments) with
  | some row => row.outcome
  | none => .none

end PatternTable.Scope
