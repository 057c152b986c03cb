import PatternTable.Proofs.Regex.Delimiters
import PatternTable.Proofs.Regex.Stability

/-!
# Patterns that are kept as they are

The tokens of a pattern are its text from the start to the end, and each of them is as long as a
token can be at its place. Only a backslash at the very end of a pattern belongs to no token. What a
literal changes are bare slashes, a leading `(?i)`, classes inside brackets and the names of groups.
A pattern that has none of them to be changed is its own source.

**Where this fails.** A name is kept if it consists of ASCII letters, digits, `_` and `$` and does
not start with a digit. That goes for a reference without a name, `\k<>`, as well, but there the
name is not kept: an identifier has at least one character, so `_` is put in its place.

* `Token.IsProper`: a token with a text that its kind allows.
* `IsIdentifierName`: a name that is an identifier.
* `hasClassInside`: a POSIX class stands inside brackets.

Results:
* `scan_split`: a token is the longest one at its place.
* `writtenFrom_eq_lexemes`: tokens that are written as they are.
* `scan_lossless`: the tokens of every pattern, and which patterns are their own source.
* `source_of_nameless`: a reference without a name.
-/

namespace PatternTable.Regex

/-! ## Specification -/

/-- A token with a text that its kind allows. -/
inductive Token.IsProper : Token → Prop where
  | caseless : IsProper .caseless
  /-- The opening of a named group, a reference to a group or a POSIX class. -/
  | whole {token : Token} (h : token.IsWhole) : IsProper token
  | escape (c : Char) : IsProper (.escape c)
  | openBracket : IsProper .openBracket
  | closeBracket : IsProper .closeBracket
  | caret : IsProper .caret
  | dollar : IsProper .dollar
  | slash : IsProper .slash
  | openParen : IsProper .openParen
  | run {text : List Char} (hne : text ≠ []) (hplain : ∀ c ∈ text, c ∉ specialCharacters) :
    IsProper (.run text)

/-- A name that is an identifier: it has ASCII letters, digits, `_` and `$`, at least one of them,
    and does not start with a digit. -/
structure IsIdentifierName (name : List Char) : Prop where
  ne_nil : name ≠ []
  characters : name.all fun c => c.isAlphanum || c == '_' || c == '$'
  lead : name.head?.any Char.isDigit = false

instance (name : List Char) : Decidable (IsIdentifierName name) :=
  decidable_of_iff (name ≠ [] ∧ (name.all fun c => c.isAlphanum || c == '_' || c == '$') ∧
      name.head?.any Char.isDigit = false)
    ⟨fun h => ⟨h.1, h.2.1, h.2.2⟩, fun h => ⟨h.ne_nil, h.characters, h.lead⟩⟩

/-- Whether a token is a POSIX class. -/
def Token.isClass : Token → Bool
  | posixClass _ _ => true
  | _ => false

/-- Whether one of the tokens that follow `depth` open brackets is a POSIX class inside brackets. -/
def hasClassInside (depth : Nat) : List Token → Bool
  | [] => false
  | token :: rest =>
    (depth != 0 && token.isClass) || hasClassInside (token.depthAfter depth) rest

/-! ## One token -/

theorem afterParen_isProper (cs : List Char) : (afterParen cs).1.IsProper := by
  fun_cases afterParen cs with
  | case1 cs => exact .caseless
  | case2 c cs hc => exact .openParen
  | case3 c cs hc name rest hcut =>
    simp only [List.contains_eq_mem, List.mem_cons, List.not_mem_nil, or_false,
      decide_eq_true_eq, not_or] at hc
    have hname : IsGroupName (c :: name) :=
      ⟨by simp [Ne.symm hc.2.2, Text.not_mem_of_cutAt? hcut], c, name, rfl, hc.1, hc.2.1⟩
    exact .whole (.namedGroup hname)
  | case4 c cs hc hcut => exact .openParen
  | case5 cs h h' => exact .openParen

/-- A backslash that is not the end of the text is read with the character after it at least. -/
theorem afterBackslash_isProper {cs : List Char} (hne : cs ≠ []) :
    (afterBackslash cs).1.IsProper ∧ 2 ≤ (afterBackslash cs).1.lexeme.length := by
  fun_cases afterBackslash cs with
  | case1 => exact absurd rfl hne
  | case2 cs name rest hcut =>
    exact ⟨.whole (.backReference (Text.not_mem_of_cutAt? hcut)), by simp [Token.lexeme]⟩
  | case3 cs hcut => exact ⟨.escape 'k', by simp [Token.lexeme]⟩
  | case4 c cs h => exact ⟨.escape c, by simp [Token.lexeme]⟩

theorem afterBracket_isProper (cs : List Char) : (afterBracket cs).1.IsProper := by
  have hnamed (negated : Bool) (rest : List Char) :
      ((classNamed? negated rest).getD (.openBracket, cs)).1.IsProper := by
    cases h : classNamed? negated rest with
    | none => exact .openBracket
    | some found => exact .whole (isWhole_of_classNamed? h)
  unfold afterBracket
  split
  · exact hnamed true _
  · exact hnamed false _
  · exact .openBracket

/-- What is read at the start of a text is a token, unless the text is a single backslash. -/
theorem step_isProper (c : Char) (cs : List Char) :
    (step c cs).1.IsProper ∨ (step c cs).1 = .loneBackslash ∧ c :: cs = ['\\'] := by
  fun_cases step c cs with
  | case1 => exact .inl (afterParen_isProper cs)
  | case2 =>
    cases cs with
    | nil => exact .inr ⟨rfl, rfl⟩
    | cons d ds => exact .inl (afterBackslash_isProper (List.cons_ne_nil d ds)).1
  | case3 => exact .inl (afterBracket_isProper cs)
  | case4 => exact .inl .closeBracket
  | case5 => exact .inl .caret
  | case6 => exact .inl .dollar
  | case7 => exact .inl .slash
  | case8 c h1 h2 h3 h4 h5 h6 h7 =>
    refine .inl (.run (List.cons_ne_nil _ _) (List.forall_mem_cons.2 ⟨?_, fun d hd => ?_⟩))
    · simp_all [specialCharacters]
    · simpa [isPlain] using List.all_eq_true.1 List.all_takeWhile d hd

theorem step_of_whole {c : Char} {cs rest : List Char} {token : Token} (h : token.IsWhole)
    (heq : token.lexeme ++ rest = c :: cs) : (step c cs).1 = token := by
  have hscan := scan_whole h rest
  rw [heq, scan] at hscan
  exact (List.cons.inj hscan).1

theorem step_of_plain {c : Char} (hc : c ∉ specialCharacters) (cs : List Char) :
    (step c cs).1 = .run (c :: cs.takeWhile isPlain) := by
  fun_cases step c cs with
  | case8 => rfl
  | _ => exact absurd (by decide) hc

/-- No token that stands at the start of a text is longer than the one that is read. -/
theorem length_le_step {token : Token} (h : token.IsProper) {c : Char} {cs : List Char}
    (hlexeme : token.lexeme <+: c :: cs) :
    token.lexeme.length ≤ (step c cs).1.lexeme.length := by
  have hpos : 1 ≤ (step c cs).1.lexeme.length :=
    List.length_pos_iff.2 fun hnil => step_ne_run_nil c cs (Token.lexeme_eq_nil hnil)
  obtain ⟨rest, heq⟩ := hlexeme
  cases h with
  | whole h => exact step_of_whole h heq ▸ Nat.le_refl _
  | caseless =>
    obtain ⟨rfl, rfl⟩ := List.cons.inj heq
    exact Nat.le_refl _
  | escape d =>
    obtain ⟨rfl, rfl⟩ := List.cons.inj heq
    exact (afterBackslash_isProper (List.cons_ne_nil d rest)).2
  | run hne hplain =>
    obtain ⟨d, ds, rfl⟩ := List.exists_cons_of_ne_nil hne
    obtain ⟨rfl, rfl⟩ := List.cons.inj heq
    rw [List.forall_mem_cons] at hplain
    have hds : ∀ e ∈ ds, isPlain e := fun e he => by simpa [isPlain] using hplain.2 e he
    rw [step_of_plain hplain.1, List.append_eq, List.takeWhile_append_of_pos hds]
    simp [Token.lexeme]
  | openBracket => exact hpos
  | closeBracket => exact hpos
  | caret => exact hpos
  | dollar => exact hpos
  | slash => exact hpos
  | openParen => exact hpos

/-- No token stands at a backslash with nothing after it. -/
theorem not_prefix_lone {token : Token} (h : token.IsProper) : ¬ token.lexeme <+: ['\\'] := by
  cases h with
  | whole h => cases h <;> simp [Token.lexeme]
  | run hne hplain =>
    intro hprefix
    obtain ⟨c, cs, rfl⟩ := List.exists_cons_of_ne_nil hne
    obtain ⟨rfl, -⟩ := List.cons_prefix_cons.1 hprefix
    exact absurd (by decide) (hplain _ List.mem_cons_self)
  | _ => simp [Token.lexeme]

/-! ## All tokens -/

/-- A token is read at the start of what it and the tokens after it spell. -/
theorem scan_eq_of_split {text : List Char} {before after : List Token} {token : Token}
    (h : scan text = before ++ token :: after) :
    ∃ c cs, (token :: after).flatMap Token.lexeme = c :: cs ∧ (step c cs).1 = token ∧
      scan (step c cs).2 = after := by
  induction before generalizing text with
  | nil =>
    cases text with
    | nil => simp [scan] at h
    | cons c cs =>
      have hlexemes := scan_lexemes (c :: cs)
      rw [h] at hlexemes
      rw [scan] at h
      obtain ⟨htoken, hafter⟩ := List.cons.inj h
      exact ⟨c, cs, hlexemes, htoken, hafter⟩
  | cons first before ih =>
    cases text with
    | nil => simp [scan] at h
    | cons c cs =>
      rw [scan] at h
      exact ih (List.cons.inj h).2

/-- Each token of a text is the longest one at its place, unless it is a backslash at the end. -/
theorem scan_split {text : List Char} {before after : List Token} {token : Token}
    (h : scan text = before ++ token :: after) :
    (token.IsProper ∧ ∀ other : Token, other.IsProper →
      other.lexeme <+: (token :: after).flatMap Token.lexeme →
        other.lexeme.length ≤ token.lexeme.length) ∨
    token = .loneBackslash ∧ after = [] := by
  obtain ⟨c, cs, hlexemes, rfl, rfl⟩ := scan_eq_of_split h
  obtain hproper | ⟨hlone, hend⟩ := step_isProper c cs
  · refine .inl ⟨hproper, fun other hother hprefix => ?_⟩
    rw [hlexemes] at hprefix
    exact length_le_step hother hprefix
  · obtain ⟨rfl, rfl⟩ := List.cons.inj hend
    exact .inr ⟨hlone, by rw [step, afterBackslash, scan]⟩

/-! ## Bare slashes -/

/-- After a token, a scan for slashes is not in the middle of an escape. -/
theorem Token.IsProper.endsEscaping_lexeme {token : Token} (h : token.IsProper) :
    endsEscaping false token.lexeme = false := by
  cases h with
  | whole h => exact h.endsEscaping_lexeme
  | escape c => simp [endsEscaping, takesNext, lexeme]
  | run hne hplain =>
    refine (IsComplete.of_forall fun c hc hactive => hplain c hc ?_).unescaping
    have hsub : activeCharacters ⊆ specialCharacters := by decide
    exact hsub hactive
  | _ => rfl

/-- The token of a slash is met as a bare slash. -/
theorem slash_not_mem_scan {text : List Char} (h : meetsSlash false text = false) :
    .slash ∉ scan text := by
  intro hmem
  obtain ⟨before, after, hscan⟩ := List.append_of_mem hmem
  have hbefore : endsEscaping false (before.flatMap Token.lexeme) = false := by
    have hproper : ∀ token ∈ before, token.IsProper := by
      intro token htoken
      obtain ⟨lead, rest, rfl⟩ := List.append_of_mem htoken
      rw [List.append_assoc, List.cons_append] at hscan
      obtain ⟨hproper, -⟩ | ⟨-, hrest⟩ := scan_split hscan
      · exact hproper
      · simp at hrest
    clear hscan
    induction before with
    | nil => rfl
    | cons token before ih =>
      rw [List.forall_mem_cons] at hproper
      rw [List.flatMap_cons, endsEscaping_append, hproper.1.endsEscaping_lexeme]
      exact ih hproper.2
  have hlexemes := scan_lexemes text
  rw [hscan, List.flatMap_append, List.flatMap_cons] at hlexemes
  rw [← hlexemes, meetsSlash_append, hbefore] at h
  simp [Token.lexeme, meetsSlash] at h

/-! ## Tokens that are written as they are -/

theorem groupName_of_isIdentifierName {name : List Char} (h : IsIdentifierName name) :
    groupName name = name := by
  have hcharacters : ∀ c ∈ name, isNameCharacter c := List.all_eq_true.1 h.characters
  have hmap := map_name hcharacters
  obtain ⟨c, cs, rfl⟩ := List.exists_cons_of_ne_nil h.ne_nil
  rw [groupName, hmap]
  exact if_neg (Bool.eq_false_iff.1 h.lead)

theorem Token.written_eq_lexeme {token : Token} {expand inside alone : Bool}
    (hslash : token ≠ .slash) (hclass : (expand && inside && token.isClass) = false)
    (hname : ∀ name ∈ token.name?, IsIdentifierName name) :
    token.written expand inside alone = token.lexeme := by
  cases token with
  | namedGroup name => rw [written, groupName_of_isIdentifierName (hname name rfl), lexeme]
  | backReference name => rw [written, groupName_of_isIdentifierName (hname name rfl), lexeme]
  | slash => exact absurd rfl hslash
  | posixClass negated name => simp_all [written, isClass]
  | _ => simp [written, expansion?]

/-- Tokens are written as they are if there is no slash among them, no class that may be expanded
    and no name that is not an identifier. -/
theorem writtenFrom_eq_lexemes {tokens : List Token} {expand : Bool} (hslash : .slash ∉ tokens)
    (hname : ∀ token ∈ tokens, ∀ name ∈ token.name?, IsIdentifierName name) {depth : Nat}
    (hclass : (expand && hasClassInside depth tokens) = false) (opened : Bool) :
    writtenFrom expand depth opened tokens = tokens.flatMap Token.lexeme := by
  induction tokens generalizing depth opened with
  | nil => rfl
  | cons token tokens ih =>
    rw [List.mem_cons, not_or] at hslash
    rw [List.forall_mem_cons] at hname
    rw [hasClassInside, Bool.and_or_distrib_left, Bool.or_eq_false_iff, ← Bool.and_assoc] at hclass
    rw [writtenFrom, List.flatMap_cons, ih hslash.2 hname.2 hclass.2,
      Token.written_eq_lexeme (Ne.symm hslash.1) hclass.1 hname.1]

/-- A pattern is its own source if there is nothing in it that a literal changes. -/
theorem source_eq_self {pattern : String} {expand : Bool} (captures : Bool) (hne : pattern ≠ "")
    (hslash : meetsSlash false pattern.toList = false)
    (hcaseless : ¬ "(?i)".toList <+: pattern.toList)
    (hclass : (expand && hasClassInside 0 (scan pattern.toList)) = false)
    (hname : ∀ token ∈ scan pattern.toList, ∀ name ∈ token.name?, IsIdentifierName name) :
    (Literal.ofPattern expand captures pattern).source = pattern := by
  have hwritten : writtenFrom expand 0 false (scan pattern.toList) = pattern.toList := by
    rw [writtenFrom_eq_lexemes (slash_not_mem_scan hslash) hname hclass, scan_lexemes]
  obtain ⟨c, cs, hcons⟩ := List.exists_cons_of_ne_nil (mt String.toList_eq_nil_iff.1 hne)
  rw [ofPattern_of_not_caseless hcaseless, sourceOf, hwritten, hcons]
  exact (congrArg String.ofList hcons.symm).trans String.ofList_toList

/-! ## Main results -/

/-- The texts of the tokens of a pattern are not empty and make up the pattern. Each is the longest
    token that stands at its place, but for a single backslash at the end of the pattern, where none
    stands. A pattern that is not empty and has no bare slash, no `(?i)` at the start, no class
    inside brackets, as far as classes are expanded, and only names that are identifiers is its own
    source. -/
theorem scan_lossless :
    (∀ text : List Char, (scan text).flatMap Token.lexeme = text ∧
      ∀ before token after, scan text = before ++ token :: after →
        token.lexeme ≠ [] ∧
        ((token.IsProper ∧ ∀ other : Token, other.IsProper →
            other.lexeme <+: (token :: after).flatMap Token.lexeme →
              other.lexeme.length ≤ token.lexeme.length) ∨
          token = .loneBackslash ∧ after = [] ∧
            ∀ other : Token, other.IsProper → ¬ other.lexeme <+: token.lexeme)) ∧
    ∀ (expand captures : Bool) (pattern : String), pattern ≠ "" →
      meetsSlash false pattern.toList = false → ¬ "(?i)".toList <+: pattern.toList →
      (expand = false ∨ hasClassInside 0 (scan pattern.toList) = false) →
      (∀ token ∈ scan pattern.toList, ∀ name ∈ token.name?, IsIdentifierName name) →
      (Literal.ofPattern expand captures pattern).source = pattern := by
  refine ⟨fun text => ⟨scan_lexemes text, fun before token after h => ⟨?_, ?_⟩⟩,
    fun expand captures pattern hne hslash hcaseless hclass hname => ?_⟩
  · obtain ⟨c, cs, -, rfl, -⟩ := scan_eq_of_split h
    exact fun hnil => step_ne_run_nil c cs (Token.lexeme_eq_nil hnil)
  · obtain hproper | ⟨rfl, hafter⟩ := scan_split h
    · exact .inl hproper
    · exact .inr ⟨rfl, hafter, fun other => not_prefix_lone⟩
  · exact source_eq_self captures hne hslash hcaseless (Bool.and_eq_false_iff.2 hclass) hname

/-- A pattern with a class outside brackets, an escaped slash and a backslash at the end. -/
theorem scan_lossless_group :
    let pattern := "(?<a_1>[^$]\\/|[:digit:])(?i)\\k<a_1>\\"
    (∀ before token after, scan pattern.toList = before ++ token :: after → token.lexeme ≠ []) ∧
      pattern ≠ "" ∧ meetsSlash false pattern.toList = false ∧
      ¬ "(?i)".toList <+: pattern.toList ∧ hasClassInside 0 (scan pattern.toList) = false ∧
      (∀ token ∈ scan pattern.toList, ∀ name ∈ token.name?, IsIdentifierName name) ∧
      (Literal.ofPattern true true pattern).source = pattern := by
  intro pattern
  have hslash : meetsSlash false pattern.toList = false := by decide +kernel
  have hcaseless : ¬ "(?i)".toList <+: pattern.toList := by decide +kernel
  have hclass : hasClassInside 0 (scan pattern.toList) = false := by decide +kernel
  have hname : ∀ token ∈ scan pattern.toList, ∀ name ∈ token.name?, IsIdentifierName name := by
    decide +kernel
  exact ⟨fun before token after h => ((scan_lossless.1 _).2 before token after h).1, by decide,
    hslash, hcaseless, hclass, hname,
    scan_lossless.2 true true pattern (by decide) hslash hcaseless (.inr hclass) hname⟩

/-- The pattern `\k<>` has a reference whose name has no character that an identifier cannot have,
    and is not its own source. -/
theorem source_of_nameless :
    let pattern := "\\k<>"
    pattern ≠ "" ∧ meetsSlash false pattern.toList = false ∧ ¬ "(?i)".toList <+: pattern.toList ∧
      hasClassInside 0 (scan pattern.toList) = false ∧
      (∀ token ∈ scan pattern.toList, ∀ name ∈ token.name?,
        (name.all fun c => c.isAlphanum || c == '_' || c == '$') ∧
          name.head?.any Char.isDigit = false) ∧
      (Literal.ofPattern true false pattern).source = "\\k<_>" ∧
      (Literal.ofPattern true false pattern).source ≠ pattern :=
  ⟨by decide, by decide +kernel, by decide +kernel, by decide +kernel, by decide +kernel,
    by decide +kernel, by decide +kernel⟩

end PatternTable.Regex
