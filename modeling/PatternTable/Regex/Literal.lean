import PatternTable.Regex.Token
import PatternTable.Text.Octets

/-!
# Regex literals

A pattern becomes a JavaScript regex literal `/source/flags`. The source is the pattern with slashes
escaped, POSIX classes written as ranges and group names made identifiers; a leading `(?i)` becomes
a flag. A pattern that looks at line boundaries outside any bracket expression gets the flag `m`,
and a pattern whose groups are captured gets the flag `d`.

Results:
* `sourceOf_ne_nil`: the source is never empty, so that a literal never starts a comment.
-/

namespace PatternTable.Regex

/-! ## Names and classes -/

/-- Whether a character may stand in a group name. -/
def isNameCharacter (c : Char) : Bool :=
  c.isAlphanum || c == '_' || c == '$'

/-- A group name as an identifier: other characters become underscores, and an underscore is put in
    front of a name that is empty or starts with a digit. -/
def groupName (name : List Char) : List Char :=
  match name.map (fun c => if isNameCharacter c then c else '_') with
  | [] => ['_']
  | c :: cs => if c.isDigit then '_' :: c :: cs else c :: cs

/-- The POSIX classes that have ASCII ranges. -/
def classRanges : List (List Char × List Char) :=
  [("alpha".toList, "a-zA-Z".toList), ("alnum".toList, "a-zA-Z0-9".toList),
    ("upper".toList, "A-Z".toList), ("lower".toList, "a-z".toList),
    ("digit".toList, "0-9".toList)]

/-- A POSIX class as part of a bracket expression. A negated class can be written only where it is
    the sole member of its brackets (`alone`), or if it is `digit`. -/
def expandClass? (negated alone : Bool) (name : List Char) : Option (List Char) :=
  match classRanges.lookup name with
  | none => none
  | some ranges =>
    if !negated then some ranges
    else if alone then some ('^' :: ranges)
    else if name = "digit".toList then some ['\\', 'D']
    else none

/-! ## Source -/

/-- The number of brackets that are open after a token, from the number before it. -/
def Token.depthAfter (depth : Nat) : Token → Nat
  | openBracket => depth + 1
  | closeBracket => depth - 1
  | _ => depth

/-- The expansion of a token, if it is a POSIX class that has one. -/
def Token.expansion? (alone : Bool) : Token → Option (List Char)
  | posixClass negated name => expandClass? negated alone name
  | _ => none

/-- What is written for a token. A POSIX class is expanded inside brackets only (`inside`). -/
def Token.written (expand inside alone : Bool) (token : Token) : List Char :=
  match token with
  | namedGroup name => '(' :: '?' :: '<' :: (groupName name ++ ['>'])
  | backReference name => '\\' :: 'k' :: '<' :: (groupName name ++ ['>'])
  | slash => ['\\', '/']
  | _ =>
    if expand && inside then (token.expansion? alone).getD token.lexeme else token.lexeme

/-- Whether the token before `rest` is the sole member of its brackets, given whether a bracket
    opens just before it. -/
def isAlone (opened : Bool) (rest : List Token) : Bool :=
  opened && rest.head? == some .closeBracket

/-- What is written for the tokens that follow `depth` open brackets, the last of them directly
    before when `opened`. -/
def writtenFrom (expand : Bool) (depth : Nat) (opened : Bool) : List Token → List Char
  | [] => []
  | token :: rest =>
    token.written expand (depth != 0) (isAlone opened rest) ++
      writtenFrom expand (token.depthAfter depth) (token == .openBracket) rest

/-- The tokens of a pattern without a leading `(?i)`, and whether there was one. -/
def takeCaseless : List Token → Bool × List Token
  | .caseless :: rest => (true, rest)
  | tokens => (false, tokens)

/-- The source that is written for tokens. An empty source is written `(?:)`. -/
def sourceOf (expand : Bool) (tokens : List Token) : List Char :=
  match writtenFrom expand 0 false tokens with
  | [] => "(?:)".toList
  | c :: cs => c :: cs

/-! ## Flags -/

/-- Whether one of the tokens that follow `depth` open brackets looks at a line boundary. -/
def hasAnchor (depth : Nat) : List Token → Bool
  | [] => false
  | token :: rest =>
    (depth == 0 && (token == .caret || token == .dollar)) || hasAnchor (token.depthAfter depth) rest

/-- The flags of a literal. The flag `g` is always set. -/
structure Flags where
  indices : Bool
  caseless : Bool
  multiline : Bool
  deriving DecidableEq, Repr

/-- The letters of the flags that are set. -/
def Flags.letters (flags : Flags) : List Char :=
  (if flags.indices then ['d'] else []) ++ ['g'] ++ (if flags.caseless then ['i'] else []) ++
    (if flags.multiline then ['m'] else [])

/-- Whether a letter is that of a flag that is set. -/
def Flags.has (flags : Flags) (letter : Char) : Bool :=
  flags.letters.contains letter

/-! ## Notices -/

/-- Something in a pattern that a literal cannot express and that is kept as it is. -/
inductive Notice where
  /-- A `(?i)` that is not at the start of the pattern, at this offset in octets. -/
  | caselessInside (offset : Nat) (pattern : String)
  /-- A POSIX class, spelled as in the pattern. -/
  | classKept (spelling pattern : String)
  deriving DecidableEq, Repr

/-- The text of a notice. -/
def Notice.message : Notice → String
  | caselessInside offset pattern =>
    "inline `(?i)` at offset " ++ toString offset ++
      " is kept as is and will not compile in JavaScript: " ++ pattern
  | classKept spelling pattern => "POSIX class `" ++ spelling ++ "` is kept as is: " ++ pattern

/-- The notice that a token calls for. -/
def Token.notice? (expand inside alone : Bool) (offset : Nat) (pattern : String) (token : Token) :
    Option Notice :=
  match token with
  | caseless => some (.caselessInside offset pattern)
  | posixClass _ _ =>
    if expand && inside && (token.expansion? alone).isNone then
      some (.classKept (String.ofList token.lexeme) pattern)
    else none
  | _ => none

/-- The notices that the tokens from an offset on call for. -/
def noticesFrom (expand : Bool) (pattern : String) (offset depth : Nat) (opened : Bool) :
    List Token → List Notice
  | [] => []
  | token :: rest =>
    (token.notice? expand (depth != 0) (isAlone opened rest) offset pattern).toList ++
      noticesFrom expand pattern (offset + Text.octets token.lexeme) (token.depthAfter depth)
        (token == .openBracket) rest

/-! ## Literals -/

/-- A regex literal. -/
structure Literal where
  source : String
  flags : Flags
  deriving DecidableEq, Repr

/-- The text of a literal. -/
def Literal.text (literal : Literal) : String :=
  "/" ++ literal.source ++ "/" ++ String.ofList literal.flags.letters

/-- The literal of a pattern. POSIX classes are expanded when `expand`, and capture positions are
    asked for when `captures`. -/
def Literal.ofPattern (expand captures : Bool) (pattern : String) : Literal :=
  let (caseless, tokens) := takeCaseless (scan pattern.toList)
  ⟨String.ofList (sourceOf expand tokens), ⟨captures, caseless, hasAnchor 0 tokens⟩⟩

/-- What the literal of a pattern cannot express. -/
def notices (expand : Bool) (pattern : String) : List Notice :=
  match takeCaseless (scan pattern.toList) with
  | (true, tokens) =>
    noticesFrom expand pattern (Text.octets Token.caseless.lexeme) 0 false tokens
  | (false, tokens) => noticesFrom expand pattern 0 0 false tokens

theorem sourceOf_ne_nil (expand : Bool) (tokens : List Token) : sourceOf expand tokens ≠ [] := by
  unfold sourceOf
  split <;> simp

example :
    (Literal.ofPattern true true "(?i)^[[:alpha:]_]/\\k<old-name>").text =
      "/^[a-zA-Z_]\\/\\k<old_name>/dgim" := by
  cbv

end PatternTable.Regex
