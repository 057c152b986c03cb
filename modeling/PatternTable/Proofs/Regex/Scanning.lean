import PatternTable.Regex.Literal

/-!
# Patterns read character by character

Tokens are as long as they can be, so that a token may reach far beyond the place it starts at. Only
three kinds do so in a way that matters: openings of named groups, references to groups and POSIX
classes. The text of such a token is read as that token wherever it stands outside another one. All
other text is read like its single characters, with a backslash and the character after it as one.

Results:
* `scan_whole`, `scan_escape`: how texts of these kinds are read.
* `scan_induction`: every pattern is built from such pieces.
* `writtenFrom_whole`, `writtenFrom_escape`, `writtenFrom_single`: what is written for each of them.
-/

namespace PatternTable

theorem Text.not_mem_of_cutAt? {c : Char} {text before after : List Char}
    (h : cutAt? c text = some (before, after)) : c ∉ before := by
  rw [cutAt?] at h
  split at h
  · simp at h
  · obtain ⟨rfl, -⟩ := Prod.mk.inj (Option.some.inj h)
    intro hmem
    simpa using List.all_eq_true.1 List.all_takeWhile c hmem

namespace Regex

/-! ## Pieces of a pattern -/

/-- What can stand between `(?<` and `>` in the opening of a named group: it has no `>` and does not
    make a look-behind of it. -/
structure IsGroupName (name : List Char) : Prop where
  unended : '>' ∉ name
  lead : ∃ c cs, name = c :: cs ∧ c ≠ '=' ∧ c ≠ '!'

/-- A token whose text is read as a whole: the opening of a named group, a reference to a group or a
    POSIX class. -/
inductive Token.IsWhole : Token → Prop where
  | namedGroup {name : List Char} (h : IsGroupName name) : IsWhole (.namedGroup name)
  | backReference {name : List Char} (h : '>' ∉ name) : IsWhole (.backReference name)
  | posixClass {name : List Char} (negated : Bool) (hne : name ≠ [])
    (hlower : ∀ c ∈ name, c.isLower) : IsWhole (.posixClass negated name)

/-- Whether a text that is read as a whole stands at the start of another one. -/
def StartsWhole (text : List Char) : Prop :=
  ∃ token rest, Token.IsWhole token ∧ text = token.lexeme ++ rest

theorem Token.IsWhole.lexeme_ne_nil {token : Token} (h : token.IsWhole) : token.lexeme ≠ [] := by
  cases h <;> simp [lexeme]

theorem Token.IsWhole.startsWhole {token : Token} (h : token.IsWhole) (rest : List Char) :
    StartsWhole (token.lexeme ++ rest) :=
  ⟨token, rest, h, rfl⟩

/-- A text that is read as a whole starts with a parenthesis, a backslash or a bracket. -/
theorem head_of_startsWhole {c : Char} {cs : List Char} (h : StartsWhole (c :: cs)) :
    c = '(' ∨ c = '\\' ∨ c = '[' := by
  obtain ⟨token, rest, htoken, heq⟩ := h
  cases htoken with
  | namedGroup h => exact .inl (List.cons.inj heq).1
  | backReference h => exact .inr (.inl (List.cons.inj heq).1)
  | posixClass negated hne hlower => exact .inr (.inr (List.cons.inj heq).1)

theorem not_startsWhole_closeBracket (rest : List Char) : ¬ StartsWhole (']' :: rest) :=
  fun h => absurd (head_of_startsWhole h) (by decide)

/-- Every text is built from texts that are read as a whole, escaped characters and others. -/
theorem scan_induction {motive : List Char → Prop} (nil : motive []) (lone : motive ['\\'])
    (whole : ∀ token rest, Token.IsWhole token → motive rest → motive (token.lexeme ++ rest))
    (escape : ∀ c rest, ¬ StartsWhole ('\\' :: c :: rest) → motive rest →
      motive ('\\' :: c :: rest))
    (single : ∀ c rest, c ≠ '\\' → ¬ StartsWhole (c :: rest) → motive rest → motive (c :: rest))
    (text : List Char) : motive text := by
  by_cases hwhole : StartsWhole text
  · obtain ⟨token, rest, htoken, heq⟩ := hwhole
    have hpos := List.length_pos_iff.2 htoken.lexeme_ne_nil
    have hlength : rest.length < text.length := by
      rw [heq, List.length_append]
      omega
    rw [heq]
    exact whole token rest htoken (scan_induction nil lone whole escape single rest)
  · match text with
    | [] => exact nil
    | c :: rest =>
      by_cases hc : c = '\\'
      · subst hc
        match rest with
        | [] => exact lone
        | d :: rest => exact escape d rest hwhole (scan_induction nil lone whole escape single rest)
      · exact single c rest hc hwhole (scan_induction nil lone whole escape single rest)
termination_by text.length

/-! ## How pieces are read -/

theorem classNamed?_eq_some {name : List Char} (hne : name ≠ []) (hlower : ∀ c ∈ name, c.isLower)
    (negated : Bool) (rest : List Char) :
    classNamed? negated (name ++ ':' :: ']' :: rest) = some (.posixClass negated name, rest) := by
  obtain ⟨c, cs, rfl⟩ := List.exists_cons_of_ne_nil hne
  rw [classNamed?, List.takeWhile_append_of_pos hlower, List.dropWhile_append_of_pos hlower]
  simp

theorem scan_of_step {c : Char} {cs rest : List Char} {token : Token}
    (h : step c cs = (token, rest)) : scan (c :: cs) = token :: scan rest := by
  rw [scan, h]

theorem scan_whole {token : Token} (h : token.IsWhole) (rest : List Char) :
    scan (token.lexeme ++ rest) = token :: scan rest := by
  cases h with
  | namedGroup h =>
    obtain ⟨hend, c, cs, rfl, heq, hne⟩ := h
    simp only [List.mem_cons, not_or] at hend
    have hparen : afterParen ('?' :: '<' :: c :: (cs ++ '>' :: rest)) =
        (.namedGroup (c :: cs), rest) := by
      simp [afterParen, heq, hne, Ne.symm hend.1, Text.cutAt?_append hend.2]
    have htext : (Token.namedGroup (c :: cs)).lexeme ++ rest =
        '(' :: '?' :: '<' :: c :: (cs ++ '>' :: rest) := by
      simp [Token.lexeme]
    rw [htext]
    exact scan_of_step hparen
  | @backReference name h =>
    have hbackslash : afterBackslash ('k' :: '<' :: (name ++ '>' :: rest)) =
        (.backReference name, rest) := by
      simp [afterBackslash, Text.cutAt?_append h]
    have htext : (Token.backReference name).lexeme ++ rest =
        '\\' :: 'k' :: '<' :: (name ++ '>' :: rest) := by
      simp [Token.lexeme]
    rw [htext]
    exact scan_of_step hbackslash
  | @posixClass name negated hne hlower =>
    obtain ⟨c, cs, rfl⟩ := List.exists_cons_of_ne_nil hne
    have hc : c ≠ '^' := by
      rintro rfl
      exact absurd (hlower _ List.mem_cons_self) (by decide)
    have hbracket : afterBracket
        (':' :: ((if negated then ['^'] else []) ++ (c :: cs) ++ ':' :: ']' :: rest)) =
          (.posixClass negated (c :: cs), rest) := by
      have hnamed := classNamed?_eq_some hne hlower negated rest
      cases negated <;> simp_all [afterBracket]
    have htext : (Token.posixClass negated (c :: cs)).lexeme ++ rest =
        '[' :: ':' :: ((if negated then ['^'] else []) ++ (c :: cs) ++ ':' :: ']' :: rest) := by
      simp [Token.lexeme]
    rw [htext]
    exact scan_of_step hbracket

/-- A backslash and the character after it are a token of their own unless they start a reference to
    a group. -/
theorem scan_escape {c : Char} {rest : List Char} (h : ¬ StartsWhole ('\\' :: c :: rest)) :
    scan ('\\' :: c :: rest) = .escape c :: scan rest := by
  refine scan_of_step ?_
  show afterBackslash (c :: rest) = _
  unfold afterBackslash
  split
  · next heq => cases heq
  · next cs heq =>
    cases heq
    split
    · next name rest hcut =>
      refine absurd ?_ h
      rw [Text.eq_append_of_cutAt? hcut]
      simpa [Token.lexeme] using
        (Token.IsWhole.backReference (Text.not_mem_of_cutAt? hcut)).startsWhole rest
    · rfl
  · next heq =>
    cases heq
    rfl

theorem scan_lone : scan ['\\'] = [.loneBackslash] :=
  (scan_of_step (c := '\\') rfl).trans (by rw [scan])

theorem isWhole_of_classNamed? {negated : Bool} {cs rest : List Char} {token : Token}
    (h : classNamed? negated cs = some (token, rest)) : token.IsWhole := by
  rw [classNamed?] at h
  split at h
  · next c name rest hname hrest =>
    obtain ⟨rfl, -⟩ := Prod.mk.inj (Option.some.inj h)
    refine .posixClass negated (List.cons_ne_nil c name) ?_
    rw [← hname]
    exact List.all_eq_true.1 List.all_takeWhile
  · simp at h

/-- A bracket that starts no POSIX class opens a bracket expression. -/
theorem scan_openBracket {rest : List Char} (h : ¬ StartsWhole ('[' :: rest)) :
    scan ('[' :: rest) = .openBracket :: scan rest := by
  have hnone (negated : Bool) (cs : List Char)
      (heq : rest = ':' :: ((if negated then ['^'] else []) ++ cs)) :
      classNamed? negated cs = none := by
    rw [Option.eq_none_iff_forall_ne_some]
    rintro ⟨token, after⟩ hsome
    rw [heq, ← classNamed?_lexeme hsome] at h
    exact h ((isWhole_of_classNamed? hsome).startsWhole after)
  refine scan_of_step ?_
  show afterBracket rest = _
  rw [afterBracket.eq_def]
  split
  · next cs => rw [hnone true cs rfl, Option.getD_none]
  · next cs _ => rw [hnone false cs rfl, Option.getD_none]
  · rfl

/-- A parenthesis that opens no named group is a token of its own or starts the option `(?i)`. -/
theorem scan_openParen {rest : List Char} (h : ¬ StartsWhole ('(' :: rest)) :
    scan ('(' :: rest) = .openParen :: scan rest ∨
      ∃ cs, rest = '?' :: 'i' :: ')' :: cs ∧ scan ('(' :: rest) = .caseless :: scan cs := by
  have hscan : scan ('(' :: rest) = (afterParen rest).1 :: scan (afterParen rest).2 :=
    scan_of_step rfl
  rw [hscan]
  unfold afterParen
  split
  · next cs => exact .inr ⟨cs, rfl, rfl⟩
  · next c cs =>
    split
    · exact .inl rfl
    · next hlead =>
      split
      · next name after hcut =>
        simp only [List.contains_eq_mem, List.mem_cons, List.not_mem_nil, or_false,
          decide_eq_true_eq, not_or] at hlead
        have hname : IsGroupName (c :: name) :=
          ⟨by simp [Ne.symm hlead.2.2, Text.not_mem_of_cutAt? hcut],
            c, name, rfl, hlead.1, hlead.2.1⟩
        refine absurd ?_ h
        rw [Text.eq_append_of_cutAt? hcut]
        simpa [Token.lexeme] using (Token.IsWhole.namedGroup hname).startsWhole after
      · exact .inl rfl
  · exact .inl rfl

/-- A run starts with its first characters and the run of the others, if there are others. -/
theorem scan_plain (lead : List Char) (hne : lead ≠ []) (h : ∀ c ∈ lead, isPlain c)
    (cs : List Char) :
    ∃ text tokens, scan (lead ++ cs) = .run (lead ++ text) :: tokens ∧
      (scan cs = .run text :: tokens ∨ text = [] ∧ scan cs = tokens) := by
  have hrun (d : Char) (ds : List Char) (hd : isPlain d) :
      scan (d :: ds) = .run (d :: ds.takeWhile isPlain) :: scan (ds.dropWhile isPlain) := by
    refine scan_of_step ?_
    fun_cases step d ds with
    | case8 => rfl
    | _ => exact absurd hd (by decide)
  refine ⟨cs.takeWhile isPlain, scan (cs.dropWhile isPlain), ?_, ?_⟩
  · obtain ⟨d, ds, rfl⟩ := List.exists_cons_of_ne_nil hne
    rw [List.forall_mem_cons] at h
    rw [List.cons_append, hrun d _ h.1, List.takeWhile_append_of_pos h.2,
      List.dropWhile_append_of_pos h.2, List.cons_append]
  · cases cs with
    | nil => exact .inr ⟨rfl, rfl⟩
    | cons d ds =>
      by_cases hd : isPlain d
      · refine .inl ?_
        rw [hrun d ds hd, List.takeWhile_cons_of_pos hd, List.dropWhile_cons_of_pos hd]
      · refine .inr ⟨List.takeWhile_cons_of_neg hd, ?_⟩
        rw [List.dropWhile_cons_of_neg hd]

/-- What the tokens of a text whose first character is read on its own have to do with those of the
    text after it. A run that follows is part of the token, and the parenthesis of `(?i)` starts a
    token although the other characters would be read on their own, too. -/
inductive ReadsFirst : (c : Char) → (tokens rest : List Token) → Prop where
  | openBracket {tokens : List Token} : ReadsFirst '[' (.openBracket :: tokens) tokens
  | closeBracket {tokens : List Token} : ReadsFirst ']' (.closeBracket :: tokens) tokens
  | caret {tokens : List Token} : ReadsFirst '^' (.caret :: tokens) tokens
  | dollar {tokens : List Token} : ReadsFirst '$' (.dollar :: tokens) tokens
  | slash {tokens : List Token} : ReadsFirst '/' (.slash :: tokens) tokens
  | openParen {tokens : List Token} : ReadsFirst '(' (.openParen :: tokens) tokens
  | caseless {text : List Char} {tokens : List Token} :
    ReadsFirst '(' (.caseless :: .run text :: tokens) (.run ('?' :: 'i' :: ')' :: text) :: tokens)
  | caselessLast {tokens : List Token} :
    ReadsFirst '(' (.caseless :: tokens) (.run ['?', 'i', ')'] :: tokens)
  | run {c : Char} {text : List Char} {tokens : List Token} (h : isPlain c) :
    ReadsFirst c (.run (c :: text) :: tokens) (.run text :: tokens)
  | runLast {c : Char} {tokens : List Token} (h : isPlain c) :
    ReadsFirst c (.run [c] :: tokens) tokens

/-- A character that starts no longer text is read on its own. -/
theorem scan_single {c : Char} {cs : List Char} (hc : c ≠ '\\') (h : ¬ StartsWhole (c :: cs)) :
    ReadsFirst c (scan (c :: cs)) (scan cs) := by
  by_cases hplain : isPlain c
  · have hlead : ∀ d ∈ [c], isPlain d := by simpa using hplain
    obtain ⟨text, tokens, hscan, hrest | ⟨rfl, hrest⟩⟩ :=
      scan_plain [c] (List.cons_ne_nil c []) hlead cs
    · rw [← List.singleton_append, hscan, hrest]
      exact .run hplain
    · rw [← List.singleton_append, hscan, hrest]
      exact .runLast hplain
  · have hspecial : c ∈ specialCharacters := by simpa [isPlain] using hplain
    simp only [specialCharacters, List.mem_cons, List.not_mem_nil, or_false, hc, false_or]
      at hspecial
    obtain rfl | rfl | rfl | rfl | rfl | rfl := hspecial
    · exact scan_openBracket h ▸ .openBracket
    · exact scan_of_step (c := ']') rfl ▸ .closeBracket
    · exact scan_of_step (c := '^') rfl ▸ .caret
    · exact scan_of_step (c := '$') rfl ▸ .dollar
    · exact scan_of_step (c := '/') rfl ▸ .slash
    · obtain hscan | ⟨rest, rfl, hscan⟩ := scan_openParen h
      · exact hscan ▸ .openParen
      · obtain ⟨text, tokens, hrun, hrest | ⟨rfl, hrest⟩⟩ :=
          scan_plain ['?', 'i', ')'] (by simp) (List.all_eq_true.1 (by decide)) rest
        · rw [hscan, hrest]
          exact hrun ▸ .caseless
        · rw [hscan, hrest]
          exact hrun ▸ .caselessLast

/-! ## What is written for pieces -/

/-- The number of brackets that are open after a character, from the number before it. -/
def depthAfter (depth : Nat) (c : Char) : Nat :=
  if c = '[' then depth + 1 else if c = ']' then depth - 1 else depth

/-- What is written for a character. -/
def writtenCharacter (c : Char) : List Char :=
  if c = '/' then ['\\', '/'] else [c]

/-- The characters that start or end something, or are not written as they are. -/
def activeCharacters : List Char :=
  ['\\', '/', '[', ']', '(']

/-- A character that is not active starts nothing and changes nothing. -/
theorem inert_of_not_active {c : Char} (h : c ∉ activeCharacters) (depth : Nat) :
    c ≠ '\\' ∧ c ≠ '[' ∧ writtenCharacter c = [c] ∧ depthAfter depth c = depth ∧
      ∀ cs, ¬ StartsWhole (c :: cs) := by
  simp only [activeCharacters, List.mem_cons, List.not_mem_nil, or_false, not_or] at h
  obtain ⟨hbackslash, hslash, hopen, hclose, hparen⟩ := h
  refine ⟨hbackslash, hopen, if_neg hslash, ?_, fun cs hwhole => ?_⟩
  · rw [depthAfter, if_neg hopen, if_neg hclose]
  · simpa [hbackslash, hopen, hparen] using head_of_startsWhole hwhole

theorem ne_of_isPlain {c d : Char} (h : isPlain c) (hd : d ∈ specialCharacters) : c ≠ d := by
  rintro rfl
  simp [isPlain, hd] at h

section Written

variable (expand : Bool) (depth : Nat) (opened : Bool)

theorem Token.beq_eq_decide (a b : Token) : (a == b) = decide (a = b) :=
  rfl

theorem ReadsFirst.writtenFrom {c : Char} {tokens rest : List Token}
    (h : ReadsFirst c tokens rest) :
    writtenFrom expand depth opened tokens =
      writtenCharacter c ++ Regex.writtenFrom expand (depthAfter depth c) (c = '[') rest := by
  have hplain (hc : isPlain c) : c ≠ '[' ∧ c ≠ ']' ∧ c ≠ '/' :=
    ⟨ne_of_isPlain hc (by decide), ne_of_isPlain hc (by decide), ne_of_isPlain hc (by decide)⟩
  cases h <;>
    simp_all [Regex.writtenFrom, Token.written, Token.expansion?, Token.depthAfter, Token.lexeme,
      writtenCharacter, depthAfter, Token.beq_eq_decide]

/-- A character that starts no longer text is written on its own. -/
theorem writtenFrom_single {c : Char} {cs : List Char} (hc : c ≠ '\\')
    (h : ¬ StartsWhole (c :: cs)) :
    writtenFrom expand depth opened (scan (c :: cs)) =
      writtenCharacter c ++ writtenFrom expand (depthAfter depth c) (c = '[') (scan cs) :=
  (scan_single hc h).writtenFrom expand depth opened

theorem writtenFrom_escape {c : Char} {rest : List Char}
    (h : ¬ StartsWhole ('\\' :: c :: rest)) :
    writtenFrom expand depth opened (scan ('\\' :: c :: rest)) =
      '\\' :: c :: writtenFrom expand depth false (scan rest) := by
  have hopened : (Token.escape c == .openBracket) = false := rfl
  rw [scan_escape h]
  simp [writtenFrom, Token.written, Token.expansion?, Token.depthAfter, Token.lexeme, hopened]

theorem writtenFrom_lone : writtenFrom expand depth opened (scan ['\\']) = ['\\'] := by
  rw [scan_lone]
  simp [writtenFrom, Token.written, Token.expansion?, Token.lexeme]

theorem writtenFrom_whole {token : Token} (h : token.IsWhole) (rest : List Char) :
    writtenFrom expand depth opened (scan (token.lexeme ++ rest)) =
      token.written expand (depth != 0) (isAlone opened (scan rest)) ++
        writtenFrom expand depth false (scan rest) := by
  rw [scan_whole h]
  cases h <;> rfl

end Written

end Regex

end PatternTable
