/-!
# Output trees

A definition is built as a tree of expressions, texts, arrays and objects. Nothing is written until
the whole tree is known, so that an array or object with a single entry can share a line with it.
-/

namespace PatternTable

mutual

/-- An expression of the generated module. -/
inductive Node where
  /-- An identifier, token type or regex literal, written as it is. -/
  | raw (expression : String)
  /-- A string literal. -/
  | text (content : String)
  | array (elements : List Node)
  | object (items : List Item)

/-- A line of an object. -/
inductive Item where
  /-- A member, with a block comment after it. -/
  | member (key : String) (value : Node) (remark : Option String)
  /-- A line comment. -/
  | comment (text : String)
  | blank

end

namespace Item

/-- Whether an item is a blank line. -/
def isBlank : Item → Bool
  | blank => true
  | _ => false

/-- A member without a comment. -/
def plain (key : String) (value : Node) : Item :=
  member key value none

end Item

namespace Node

/-- Whether a node is an object whose single member has a comment after it. -/
def isRemarked : Node → Bool
  | object [.member _ _ (some _)] => true
  | _ => false

/-- Whether a node takes one line. An array or object with a single entry does if the entry does,
    unless the entry would put a comment before the closing bracket. -/
def isInline : Node → Bool
  | raw _ => true
  | text _ => true
  | array [] => true
  | array [only] => !only.isRemarked && only.isInline
  | array _ => false
  | object [] => true
  | object [.member _ value _] => !value.isRemarked && value.isInline
  | object _ => false

/-- Whether a node can share a line with the brackets around it. -/
def nestsInline (node : Node) : Bool :=
  !node.isRemarked && node.isInline

end Node

end PatternTable
