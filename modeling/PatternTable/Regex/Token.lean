import PatternTable.Text.Pieces

/-!
# Tokens of a regular expression

A pattern is read as a list of tokens, split at the places where the two regex dialects differ. At
every place the longest token is taken. A character that starts no longer token is either a token of
its own, or part of a run of plain text; only a backslash at the very end of a pattern is neither.

Results:
* `step_lexeme`: a token and the rest after it are the text it was read from.
* `scan_lexemes`: the tokens of a pattern spell the pattern.
-/

namespace PatternTable.Regex

/-- A piece of a pattern that is carried over or changed as a whole. -/
inductive Token where
  /-- The option `(?i)`. -/
  | caseless
  /-- The opening `(?<name>` of a named group. -/
  | namedGroup (name : List Char)
  /-- The reference `\k<name>` to a named group. -/
  | backReference (name : List Char)
  /-- A backslash and the character after it. -/
  | escape (c : Char)
  /-- The class `[:name:]`, or `[:^name:]` when `negated`. -/
  | posixClass (negated : Bool) (name : List Char)
  | openBracket
  | closeBracket
  | caret
  | dollar
  | slash
  | openParen
  /-- Text without a character that starts another token. -/
  | run (text : List Char)
  /-- A backslash at the end of the pattern. -/
  | loneBackslash
  deriving DecidableEq, Repr

/-- The text of a token. -/
def Token.lexeme : Token → List Char
  | caseless => ['(', '?', 'i', ')']
  | namedGroup name => '(' :: '?' :: '<' :: (name ++ ['>'])
  | backReference name => '\\' :: 'k' :: '<' :: (name ++ ['>'])
  | escape c => ['\\', c]
  | posixClass negated name =>
    '[' :: ':' :: ((if negated then ['^'] else []) ++ name ++ [':', ']'])
  | openBracket => ['[']
  | closeBracket => [']']
  | caret => ['^']
  | dollar => ['$']
  | slash => ['/']
  | openParen => ['(']
  | run text => text
  | loneBackslash => ['\\']

/-- The characters that a run stops at. -/
def specialCharacters : List Char :=
  ['\\', '[', ']', '^', '$', '/', '(']

/-- Whether a character starts no token but a run. -/
def isPlain (c : Char) : Bool :=
  !specialCharacters.contains c

/-- The token that starts with the parenthesis before `cs`. A group name starts with none of `=`,
    `!` and `>`, which tells it from a look-behind, and extends to the next `>`. -/
def afterParen : List Char → Token × List Char
  | '?' :: 'i' :: ')' :: cs => (.caseless, cs)
  | '?' :: '<' :: c :: cs =>
    if ['=', '!', '>'].contains c then (.openParen, '?' :: '<' :: c :: cs)
    else
      match Text.cutAt? '>' cs with
      | some (name, rest) => (.namedGroup (c :: name), rest)
      | none => (.openParen, '?' :: '<' :: c :: cs)
  | cs => (.openParen, cs)

/-- The token that starts with the backslash before `cs`. -/
def afterBackslash : List Char → Token × List Char
  | [] => (.loneBackslash, [])
  | 'k' :: '<' :: cs =>
    match Text.cutAt? '>' cs with
    | some (name, rest) => (.backReference name, rest)
    | none => (.escape 'k', '<' :: cs)
  | c :: cs => (.escape c, cs)

/-- The POSIX class whose name starts at `cs`, if its end follows, and the rest. -/
def classNamed? (negated : Bool) (cs : List Char) : Option (Token × List Char) :=
  match cs.takeWhile Char.isLower, cs.dropWhile Char.isLower with
  | c :: name, ':' :: ']' :: rest => some (.posixClass negated (c :: name), rest)
  | _, _ => none

/-- The token that starts with the bracket before `cs`. -/
def afterBracket (cs : List Char) : Token × List Char :=
  match cs with
  | ':' :: '^' :: rest => (classNamed? true rest).getD (.openBracket, cs)
  | ':' :: rest => (classNamed? false rest).getD (.openBracket, cs)
  | _ => (.openBracket, cs)

/-- The longest token at the start of `c :: cs`, and the rest after it. -/
def step (c : Char) (cs : List Char) : Token × List Char :=
  match c with
  | '(' => afterParen cs
  | '\\' => afterBackslash cs
  | '[' => afterBracket cs
  | ']' => (.closeBracket, cs)
  | '^' => (.caret, cs)
  | '$' => (.dollar, cs)
  | '/' => (.slash, cs)
  | c => (.run (c :: cs.takeWhile isPlain), cs.dropWhile isPlain)

theorem afterParen_lexeme (cs : List Char) :
    (afterParen cs).1.lexeme ++ (afterParen cs).2 = '(' :: cs := by
  fun_cases afterParen cs with
  | case3 c cs hc name rest h => simp [Token.lexeme, Text.eq_append_of_cutAt? h]
  | _ => simp [Token.lexeme]

theorem afterBackslash_lexeme (cs : List Char) :
    (afterBackslash cs).1.lexeme ++ (afterBackslash cs).2 = '\\' :: cs := by
  fun_cases afterBackslash cs with
  | case2 cs name rest h => simp [Token.lexeme, Text.eq_append_of_cutAt? h]
  | _ => simp [Token.lexeme]

theorem classNamed?_lexeme {negated : Bool} {cs rest : List Char} {token : Token}
    (h : classNamed? negated cs = some (token, rest)) :
    token.lexeme ++ rest = '[' :: ':' :: ((if negated then ['^'] else []) ++ cs) := by
  have hcs := List.takeWhile_append_dropWhile (p := Char.isLower) (l := cs)
  unfold classNamed? at h
  split at h
  · next c name rest' hname hrest =>
    simp only [Option.some.injEq, Prod.mk.injEq] at h
    rw [← h.1, ← h.2, ← hcs, hname, hrest]
    simp [Token.lexeme]
  · simp at h

theorem afterBracket_lexeme (cs : List Char) :
    (afterBracket cs).1.lexeme ++ (afterBracket cs).2 = '[' :: cs := by
  unfold afterBracket
  split
  · next rest =>
    cases h : classNamed? true rest with
    | none => simp [Token.lexeme]
    | some found => simpa using classNamed?_lexeme h
  · next rest _ =>
    cases h : classNamed? false rest with
    | none => simp [Token.lexeme]
    | some found => simpa using classNamed?_lexeme h
  · simp [Token.lexeme]

theorem step_lexeme (c : Char) (cs : List Char) :
    (step c cs).1.lexeme ++ (step c cs).2 = c :: cs := by
  fun_cases step c cs with
  | case1 => exact afterParen_lexeme cs
  | case2 => exact afterBackslash_lexeme cs
  | case3 => exact afterBracket_lexeme cs
  | _ => simp [Token.lexeme]

theorem Token.lexeme_eq_nil {token : Token} (h : token.lexeme = []) : token = .run [] := by
  cases token <;> simp_all [lexeme]

theorem classNamed?_ne_run {negated : Bool} {cs rest : List Char} {token : Token}
    (h : classNamed? negated cs = some (token, rest)) : token ≠ .run [] := by
  unfold classNamed? at h
  split at h
  · simp only [Option.some.injEq, Prod.mk.injEq] at h
    simp [← h.1]
  · simp at h

theorem step_ne_run_nil (c : Char) (cs : List Char) : (step c cs).1 ≠ .run [] := by
  fun_cases step c cs with
  | case1 => fun_cases afterParen cs <;> simp
  | case2 => fun_cases afterBackslash cs <;> simp
  | case3 =>
    unfold afterBracket
    split
    · next rest =>
      cases h : classNamed? true rest with
      | none => simp
      | some found => exact classNamed?_ne_run h
    · next rest _ =>
      cases h : classNamed? false rest with
      | none => simp
      | some found => exact classNamed?_ne_run h
    · simp
  | _ => simp

theorem step_rest_length_le (c : Char) (cs : List Char) : (step c cs).2.length ≤ cs.length := by
  have hne : (step c cs).1.lexeme ≠ [] :=
    fun h => step_ne_run_nil c cs (Token.lexeme_eq_nil h)
  have hlen := congrArg List.length (step_lexeme c cs)
  have hpos := List.length_pos_iff.2 hne
  simp only [List.length_append, List.length_cons] at hlen
  omega

/-- The tokens of a pattern. -/
def scan : List Char → List Token
  | [] => []
  | c :: cs => (step c cs).1 :: scan (step c cs).2
termination_by cs => cs.length
decreasing_by simpa using Nat.lt_succ_of_le (step_rest_length_le c cs)

theorem scan_lexemes (cs : List Char) : (scan cs).flatMap Token.lexeme = cs := by
  fun_induction scan cs with
  | case1 => rfl
  | case2 c cs ih => rw [List.flatMap_cons, ih, step_lexeme]

end PatternTable.Regex
