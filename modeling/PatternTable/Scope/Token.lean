import PatternTable.Text.Pieces

/-!
# Token types

A token type is a member of one of seven enumerations of the tokens module, such as
`KeywordTokenType.Class`. A scope name that has none stands for `MetaTokenType.Invalid`, so that
every scope name has a well-formed expression. Beside the expression a table shows the scope name
it came from, in a block comment.
-/

namespace PatternTable.Scope

/-- The enumerations of the tokens module. -/
inductive Category where
  | keyword
  | entity
  | literal
  | operator
  | character
  | escapedCharacter
  /-- What a region of text is, rather than a lexeme. -/
  | region
  deriving DecidableEq, Repr

/-- The enumerations in the order in which they are imported. -/
def Category.all : List Category :=
  [.keyword, .entity, .literal, .operator, .character, .escapedCharacter, .region]

/-- The name of an enumeration. -/
def Category.typeName : Category → String
  | .keyword => "KeywordTokenType"
  | .entity => "EntityTokenType"
  | .literal => "LiteralTokenType"
  | .operator => "OperatorTokenType"
  | .character => "CharacterTokenType"
  | .escapedCharacter => "EscapedCharacterTokenType"
  | .region => "MetaTokenType"

/-- What a scope name stands for. -/
inductive Token where
  | known (category : Category) (member : String)
  /-- No rule covers the scope name. -/
  | unresolved (scope : String)
  deriving DecidableEq, Repr

namespace Token

/-- The enumeration that a token's expression refers to. -/
def category : Token → Category
  | known category _ => category
  | unresolved _ => .region

/-- The member that a token's expression refers to. -/
def member : Token → String
  | known _ member => member
  | unresolved _ => "Invalid"

/-- Whether a rule covers the scope name. -/
def isResolved : Token → Bool
  | known _ _ => true
  | unresolved _ => false

/-- The expression of a token, such as `KeywordTokenType.Warp`. -/
def expression (token : Token) : String :=
  token.category.typeName ++ "." ++ token.member

end Token

/-- A text with a blank between the two characters of every `*/`. -/
def splitCommentEnds : List Char → List Char
  | '*' :: '/' :: cs => '*' :: ' ' :: '/' :: splitCommentEnds cs
  | c :: cs => c :: splitCommentEnds cs
  | [] => []

/-- The block comment that names the scope a token came from. -/
def Token.remark (token : Token) (scope : String) : String :=
  (if token.isResolved then "/*" else "/*ERROR: ") ++
    String.ofList (splitCommentEnds scope.toList) ++ "*/"

end PatternTable.Scope
