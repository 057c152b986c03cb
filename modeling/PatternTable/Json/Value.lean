import PatternTable.Json.Number

/-!
# JSON values

Arrays and objects share one rule for their entries: entries are separated by commas, there is none
before the closing bracket, and white space may stand between any two tokens. `entries` is that
rule, for any way of reading an entry. No more entries are read than a bound allows. The bound is
meant to be more than the length of the whole text, so that it never takes effect; it is computed
once and passed on.

A value that is not used is only checked for its shape, at any depth of nesting; its numbers may
have any size. A value of a wrong kind is found to be a mismatch once its first token has been read.

Results:
* `keys_upsert` and `lookup_upsert_self`: a name keeps its first place and its last value.
-/

namespace PatternTable.Json

/-! ## Entries between brackets -/

/-- Reads entries up to the closing bracket and updates a state with each. The first entry follows
    the opening bracket, every other one a comma. Every entry takes at least one character, so `fuel`
    is enough when it is more than the length of the text. -/
def entriesFrom {σ : Type} (close : Char) (entry : σ → Reader σ) (isFirst : Bool) :
    (fuel : Nat) → σ → Reader σ
  | 0, _, _ => .error .malformed
  | fuel + 1, state, cs =>
    match skipSpaces cs with
    | [] => .error .truncated
    | c :: rest =>
      if c = close then .ok (state, rest)
      else if isFirst then
        match entry state (c :: rest) with
        | .error fault => .error fault
        | .ok (state, rest) => entriesFrom close entry false fuel state rest
      else if c = ',' then
        match skipSpaces rest with
        | [] => .error .truncated
        | d :: rest =>
          if d = close then .error .malformed
          else
            match entry state (d :: rest) with
            | .error fault => .error fault
            | .ok (state, rest) => entriesFrom close entry false fuel state rest
      else .error .malformed

/-- Reads the entries of an array or object whose opening bracket has been read. -/
def entries {σ : Type} (bound : Nat) (close : Char) (entry : σ → Reader σ) (state : σ) :
    Reader σ :=
  entriesFrom close entry true bound state

/-- The rest of a text after a colon. -/
def colon (cs : List Char) : Except Fault (List Char) :=
  match skipSpaces cs with
  | [] => .error .truncated
  | c :: rest => if c = ':' then .ok rest else .error .malformed

/-! ## Values of no interest -/

/-- The rest of a text after the digits that it must start with. -/
def skipDigits : List Char → Except Fault (List Char)
  | [] => .error .malformed
  | c :: cs => if c.isDigit then .ok (cs.dropWhile Char.isDigit) else .error .malformed

/-- The rest of a text after an exponent, if it starts with one. -/
def skipExponent : List Char → Except Fault (List Char)
  | [] => .ok []
  | c :: cs =>
    if c = 'e' ∨ c = 'E' then
      match cs with
      | '+' :: cs => skipDigits cs
      | '-' :: cs => skipDigits cs
      | cs => skipDigits cs
    else .ok (c :: cs)

/-- The rest of a text after a fraction and an exponent, each if there is one. -/
def skipFraction : List Char → Except Fault (List Char)
  | '.' :: cs =>
    match skipDigits cs with
    | .error fault => .error fault
    | .ok rest => skipExponent rest
  | cs => skipExponent cs

/-- The rest of a text after a number without its sign. A number does not start with a zero that
    another digit follows. -/
def skipNumber : List Char → Except Fault (List Char)
  | [] => .error .malformed
  | c :: cs =>
    if c = '0' then
      match cs with
      | [] => .ok []
      | d :: rest => if d.isDigit then .error .malformed else skipFraction (d :: rest)
    else if c.isDigit then skipFraction (cs.dropWhile Char.isDigit)
    else .error .malformed

/-- The rest of a text after a quotation whose content does not matter. -/
def skipQuoted (cs : List Char) : Except Fault (List Char) :=
  (quotedFrom looseEscape [] cs).map Prod.snd

/-- The rest of a text after a key and a colon, if it starts with a quotation mark. -/
def skipKey : List Char → Except Fault (List Char)
  | '"' :: cs =>
    match skipQuoted cs with
    | .error fault => .error fault
    | .ok rest => colon rest
  | _ => .error .malformed

/-- The rest of a text after a value. A text of `n` characters nests at most `n` deep and holds at
    most `n` entries, so `fuel` is enough when it is more than the length of the text. -/
def skipValue : (fuel : Nat) → List Char → Except Fault (List Char)
  | 0, _ => .error .malformed
  | fuel + 1, cs =>
    match skipSpaces cs with
    | [] => .error .truncated
    | 'n' :: rest => word ['u', 'l', 'l'] rest
    | 't' :: rest => word ['r', 'u', 'e'] rest
    | 'f' :: rest => word ['a', 'l', 's', 'e'] rest
    | '-' :: rest => skipNumber rest
    | '"' :: rest => skipQuoted rest
    | '[' :: rest =>
      (entries fuel ']' (fun _ cs => (skipValue fuel cs).map fun rest => ((), rest)) () rest).map
        Prod.snd
    | '\x7b' :: rest =>
      (entries fuel '\x7d'
        (fun _ cs =>
          match skipKey cs with
          | .error fault => .error fault
          | .ok rest => (skipValue fuel rest).map fun rest => ((), rest))
        () rest).map Prod.snd
    | c :: rest => if c.isDigit then skipNumber (c :: rest) else .error .malformed

/-! ## Values of a wrong kind -/

/-- What is wrong with a text that should be the rest of a word, and would be of the wrong kind. -/
def wordFault (w cs : List Char) : Fault :=
  match word w cs with
  | .error fault => fault
  | .ok _ => .mismatched

/-- What is wrong with a value of a kind that is not read here. An array or object is a mismatch
    whatever it holds. -/
def kindFault : List Char → Fault
  | [] => .truncated
  | 'n' :: rest => wordFault ['u', 'l', 'l'] rest
  | 't' :: rest => wordFault ['r', 'u', 'e'] rest
  | 'f' :: rest => wordFault ['a', 'l', 's', 'e'] rest
  | '"' :: rest =>
    match quoted rest with
    | .error fault => fault
    | .ok _ => .mismatched
  | '[' :: _ => .mismatched
  | '\x7b' :: _ => .mismatched
  | c :: rest => if c == '-' || c.isDigit then numberFault (c :: rest) else .malformed

/-! ## Values that are read -/

/-- Reads a text. -/
def text : Reader String := fun cs =>
  match skipSpaces cs with
  | '"' :: rest => quoted rest
  | cs => .error (kindFault cs)

/-- Reads a value that may be `null`, which stands for no value. -/
def optional {α : Type} (read : Reader α) : Reader (Option α) := fun cs =>
  match skipSpaces cs with
  | 'n' :: rest => (word ['u', 'l', 'l'] rest).map fun rest => (none, rest)
  | cs => (read cs).map fun (value, rest) => (some value, rest)

/-- Reads an array. -/
def list {α : Type} (bound : Nat) (read : Reader α) : Reader (List α) := fun cs =>
  match skipSpaces cs with
  | '[' :: rest =>
    (entries bound ']'
      (fun values cs => (read cs).map fun (value, rest) => (value :: values, rest)) [] rest).map
      fun (values, rest) => (values.reverse, rest)
  | cs => .error (kindFault cs)

/-- A list of named values with a value for one more name. A name that occurs again keeps its place
    and takes the new value. -/
def upsert {α : Type} (name : String) (value : α) : List (String × α) → List (String × α)
  | [] => [(name, value)]
  | (other, old) :: rest =>
    if other = name then (other, value) :: rest else (other, old) :: upsert name value rest

theorem keys_upsert {α : Type} (name : String) (value : α) (entries : List (String × α)) :
    (upsert name value entries).map Prod.fst =
      if name ∈ entries.map Prod.fst then entries.map Prod.fst
      else entries.map Prod.fst ++ [name] := by
  induction entries with
  | nil => simp [upsert]
  | cons entry rest ih =>
    rcases entry with ⟨other, old⟩
    by_cases h : other = name
    · simp [upsert, h]
    · simp only [upsert, h, if_false, List.map_cons, ih, List.mem_cons, Ne.symm h, false_or]
      split <;> simp

theorem lookup_upsert_self {α : Type} (name : String) (value : α) (entries : List (String × α)) :
    (upsert name value entries).lookup name = some value := by
  induction entries with
  | nil => simp [upsert]
  | cons entry rest ih =>
    rcases entry with ⟨other, old⟩
    by_cases h : other = name
    · simp [upsert, h]
    · simp [upsert, h, List.lookup_cons, beq_eq_false_iff_ne.2 (Ne.symm h), ih]

/-- Reads a key, if the text starts with a quotation mark. -/
def key : Reader String
  | '"' :: cs => quoted cs
  | _ => .error .malformed

/-- Reads an object as a list of named values. -/
def map {α : Type} (bound : Nat) (read : Reader α) : Reader (List (String × α)) := fun cs =>
  match skipSpaces cs with
  | '\x7b' :: rest =>
    entries bound '\x7d'
      (fun values cs =>
        match key cs with
        | .error fault => .error fault
        | .ok (name, rest) =>
          match colon rest with
          | .error fault => .error fault
          | .ok rest => (read rest).map fun (value, rest) => (upsert name value values, rest))
      [] rest
  | cs => .error (kindFault cs)

/-- Fails on a value that must not be an array or object whose bracket is in `brackets`, because no
    deeper nesting is allowed, and on any other value because of its kind. -/
def tooDeep {α : Type} (brackets : List Char) : Reader α := fun cs =>
  match skipSpaces cs with
  | [] => .error .truncated
  | c :: rest => .error (if brackets.contains c then .malformed else kindFault (c :: rest))

end PatternTable.Json
