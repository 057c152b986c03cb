import PatternTable.Text.Octets

/-!
# Reading JSON

A reader takes a value from the start of a text and leaves the rest. It fails at the first place
where the text cannot be what is read, with one of three causes: the text ends too early, it is no
JSON there, or it is JSON of another kind.

Text between quotation marks is read in one of two ways. Where its content matters, surrogate
escapes must come in pairs; where it does not, the shape of the escapes is enough.

Results:
* `word_self_append`: a word is read from a text that starts with it.
-/

namespace PatternTable.Json

/-- Why a text cannot be read. -/
inductive Fault where
  /-- The text ends too early. -/
  | truncated
  /-- The text is no JSON, is nested too deeply, or goes on after its value. -/
  | malformed
  /-- A value is not of the kind that is read, or a field occurs twice. -/
  | mismatched
  deriving DecidableEq, Repr

/-- What takes a value from the start of a text and leaves the rest. -/
abbrev Reader (α : Type) := List Char → Except Fault (α × List Char)

/-- Whether a character is white space between JSON tokens. -/
def isSpace (c : Char) : Bool :=
  c == ' ' || c == '\n' || c == '\t' || c == '\r'

/-- A text without the white space at its start. -/
def skipSpaces (cs : List Char) : List Char :=
  cs.dropWhile isSpace

/-- The rest of a text after a word that it must start with. -/
def word : List Char → List Char → Except Fault (List Char)
  | [], cs => .ok cs
  | _ :: _, [] => .error .truncated
  | w :: ws, c :: cs => if c = w then word ws cs else .error .malformed

/-! ## Text between quotation marks -/

/-- The value of a hexadecimal digit. -/
def hexValue? (c : Char) : Option Nat :=
  if c.isDigit then some (c.toNat - 0x30)
  else if 'a' ≤ c ∧ c ≤ 'f' then some (c.toNat - 0x57)
  else if 'A' ≤ c ∧ c ≤ 'F' then some (c.toNat - 0x37)
  else none

/-- The number that four hexadecimal digits write. A text of fewer than four octets is truncated. -/
def hexQuad (cs : List Char) : Except Fault Nat :=
  if Text.octets (cs.take 4) < 4 then .error .truncated
  else
    match (cs.take 4).map hexValue? with
    | [some a, some b, some c, some d] => .ok (((a * 16 + b) * 16 + c) * 16 + d)
    | _ => .error .malformed

/-- Whether a number is the second half of a surrogate pair. -/
def isLowSurrogate (n : Nat) : Bool :=
  0xDC00 ≤ n && n ≤ 0xDFFF

/-- Whether a number is the first half of a surrogate pair. -/
def isHighSurrogate (n : Nat) : Bool :=
  0xD800 ≤ n && n ≤ 0xDBFF

/-- The second half of a surrogate pair, as an escape of its own. -/
def lowSurrogate : List Char → Except Fault Nat
  | [] => .error .truncated
  | ['\\'] => .error .truncated
  | '\\' :: 'u' :: cs =>
    match hexQuad cs with
    | .error fault => .error fault
    | .ok low => if isLowSurrogate low then .ok low else .error .malformed
  | _ => .error .malformed

/-- The character of an escape `\u`, from the text after it, and the number of characters that the
    text of the escape takes. -/
def unicodeEscape (cs : List Char) : Except Fault (Char × Nat) :=
  match hexQuad cs with
  | .error fault => .error fault
  | .ok n =>
    if isLowSurrogate n then .error .malformed
    else if isHighSurrogate n then
      match lowSurrogate (cs.drop 4) with
      | .error fault => .error fault
      | .ok low => .ok (Char.ofNat (0x10000 + (n - 0xD800) * 0x400 + (low - 0xDC00)), 10)
    else .ok (Char.ofNat n, 4)

/-- The characters that stand for another one after a backslash. -/
def shortEscapes : List (Char × Char) :=
  [('"', '"'), ('\\', '\\'), ('/', '/'), ('b', '\x08'), ('f', '\x0c'), ('n', '\n'), ('r', '\r'),
    ('t', '\t')]

/-- The character of an escape, from the text after its backslash, and the number of characters
    that the text takes. -/
def escape : List Char → Except Fault (Char × Nat)
  | [] => .error .truncated
  | c :: cs =>
    if c = 'u' then (unicodeEscape cs).map fun (e, n) => (e, n + 1)
    else
      match shortEscapes.lookup c with
      | some e => .ok (e, 1)
      | none => .error .malformed

/-- As `escape`, for text whose content does not matter: surrogates need no partner, and every
    escape `\u` stands for the replacement character. -/
def looseEscape : List Char → Except Fault (Char × Nat)
  | [] => .error .truncated
  | c :: cs =>
    if c = 'u' then (hexQuad cs).map fun _ => ('\uFFFD', 5)
    else
      match shortEscapes.lookup c with
      | some e => .ok (e, 1)
      | none => .error .malformed

/-- The text up to the closing quotation mark, after the characters of `done` in reverse. -/
def quotedFrom (escape : List Char → Except Fault (Char × Nat)) (done : List Char)
    (cs : List Char) : Except Fault (List Char × List Char) :=
  match cs with
  | [] => .error .truncated
  | '"' :: rest => .ok (done.reverse, rest)
  | '\\' :: rest =>
    match escape rest with
    | .error fault => .error fault
    | .ok (c, n) => quotedFrom escape (c :: done) (rest.drop n)
  | c :: rest =>
    if c.toNat < 0x20 then .error .malformed else quotedFrom escape (c :: done) rest
termination_by cs.length
decreasing_by
  · rw [List.length_drop, List.length_cons]
    omega
  · exact Nat.lt_succ_self rest.length

/-- The text up to the closing quotation mark. -/
def quoted : Reader String := fun cs =>
  (quotedFrom escape [] cs).map fun (text, rest) => (String.ofList text, rest)

theorem word_self_append (w cs : List Char) : word w (w ++ cs) = .ok cs := by
  induction w with
  | nil => rfl
  | cons c w ih => simp [word, ih]

end PatternTable.Json
