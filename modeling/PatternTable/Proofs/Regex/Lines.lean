import PatternTable.Proofs.Regex.CharacterSets
import PatternTable.Proofs.Text.Lines

/-!
# Regex literals on one line

A literal is written with the characters of its pattern, and with printable ASCII characters where a
token is rewritten. So all others in it, line feeds among them, come from the pattern, in the same
order. Only the name of a group loses them, as they become underscores there. A literal ends in its
flags, so that of a pattern without line feed is one line.

Results:
* `Regex.filter_literal`: the characters of a literal that are not printable.
* `Regex.isLine_literal`: the literal of a pattern without line feed.
-/

namespace PatternTable.Regex

open Text

/-- The text of a token, unless it names a group. -/
def Token.unnamed (token : Token) : List Char :=
  if token.name?.isSome then [] else token.lexeme

/-- The text of tokens, but for those that name groups. -/
def unnamed (tokens : List Token) : List Char :=
  tokens.flatMap Token.unnamed

/-- Whether a character is printable ASCII, as all are that are written for others. -/
def isPrintable (c : Char) : Bool :=
  isBetween ' ' '~' c

theorem isPrintable_of_isNameCharacter {c : Char} (h : isNameCharacter c) : isPrintable c := by
  have hranges := PosixClass.alnum.contains_eq c
  simp only [PosixClass.contains, PosixClass.ranges, List.any_cons, List.any_nil] at hranges
  rw [isNameCharacter, hranges] at h
  simp only [isBetween, Bool.or_eq_true, Bool.and_eq_true, decide_eq_true_eq, beq_iff_eq,
    Bool.or_false] at h
  simp only [isPrintable, isBetween, Bool.and_eq_true, decide_eq_true_eq]
  obtain (h | rfl) | rfl := h
  · revert h
    simp only [Char.reduceToNat]
    omega
  · decide
  · decide

section Filter

variable {p : Char → Bool} (hp : ∀ c, isPrintable c → p c = false)

include hp

theorem filter_eq_nil_of_isPrintable {text : List Char} (h : text.all isPrintable) :
    text.filter p = [] :=
  List.filter_eq_nil_iff.2 fun c hc => by simp [hp c (List.all_eq_true.1 h c hc)]

/-- What is written for a class is printable, and so is the class. -/
theorem filter_of_expandClass? {negated alone : Bool} {name ranges : List Char}
    (h : expandClass? negated alone name = some ranges) :
    ranges.filter p = (Token.posixClass negated name).lexeme.filter p := by
  have hprintable : ∀ entry ∈ classRanges, (entry.2.all isPrintable &&
      (Token.posixClass negated entry.1).lexeme.all isPrintable) := by
    refine List.all_eq_true.1 ?_
    cases negated <;> decide
  obtain ⟨found, hlookup, hranges⟩ := expandClass?_eq_some h
  obtain ⟨hfound, hlexeme⟩ :=
    Bool.and_eq_true_iff.1 (hprintable _ (mem_classRanges_of_lookup hlookup))
  rw [filter_eq_nil_of_isPrintable hp hlexeme]
  refine filter_eq_nil_of_isPrintable hp ?_
  obtain ⟨-, rfl⟩ | ⟨-, rfl⟩ | ⟨-, rfl⟩ := hranges
  · exact hfound
  · exact Bool.and_eq_true_iff.2 ⟨by decide, hfound⟩
  · decide

theorem Token.filter_written (token : Token) (expand inside alone : Bool) :
    (token.written expand inside alone).filter p = token.unnamed.filter p := by
  cases hname : token.name? with
  | some name =>
    obtain ⟨lead, hlead, -, hwithName⟩ := Token.lexeme_withName hname
    have hleads : ∀ lead ∈ groupLeads, lead.all isPrintable := List.all_eq_true.1 (by decide)
    have hnew : (groupName name).all isPrintable := List.all_eq_true.2 fun c hc =>
      isPrintable_of_isNameCharacter (isNameCharacter_groupName name c hc)
    rw [Token.written_of_name? hname, hwithName, unnamed, hname, List.filter_append,
      List.filter_append, filter_eq_nil_of_isPrintable hp (hleads lead hlead),
      filter_eq_nil_of_isPrintable hp hnew]
    exact filter_eq_nil_of_isPrintable hp (by decide)
  | none =>
    have hunnamed : token.unnamed = token.lexeme := by simp [unnamed, hname]
    rw [hunnamed]
    cases token with
    | slash =>
      have hslash : ['\\', '/'].filter p = [] := filter_eq_nil_of_isPrintable hp (by decide)
      have hescaped : ['/'].filter p = [] := filter_eq_nil_of_isPrintable hp (by decide)
      exact hslash.trans hescaped.symm
    | posixClass negated name =>
      obtain heq | ⟨alone', hranges⟩ := written_posixClass_eq negated expand inside alone name
      · rw [heq]
      · exact filter_of_expandClass? hp hranges
    | namedGroup name => simp [name?] at hname
    | backReference name => simp [name?] at hname
    | _ => simp [written, expansion?]

theorem filter_writtenFrom (expand : Bool) (depth : Nat) (opened : Bool) (tokens : List Token) :
    (writtenFrom expand depth opened tokens).filter p = (unnamed tokens).filter p := by
  induction tokens generalizing depth opened with
  | nil => rfl
  | cons token tokens ih =>
    rw [writtenFrom, unnamed, List.flatMap_cons, List.filter_append, List.filter_append,
      token.filter_written hp, ih]
    rfl

/-- The characters of a literal that are not printable are those of the pattern, in order, but for
    those in names of groups. -/
theorem filter_literal (expand captures : Bool) (pattern : String) :
    (Literal.ofPattern expand captures pattern).text.toList.filter p =
      (unnamed (scan pattern.toList)).filter p := by
  have hbody : (unnamed (scan pattern.toList)).filter p =
      (unnamed (scan (bodyOf pattern.toList))).filter p := by
    obtain hscan | hscan := scan_bodyOf pattern.toList
    · rw [hscan]
    · have hcaseless : Token.caseless.unnamed.filter p = [] :=
        filter_eq_nil_of_isPrintable hp (by decide)
      rw [hscan, unnamed, List.flatMap_cons, List.filter_append, hcaseless, List.nil_append]
      rfl
  have hsource : (Literal.ofPattern expand captures pattern).source.toList.filter p =
      (unnamed (scan (bodyOf pattern.toList))).filter p := by
    obtain ⟨hnil, hsource⟩ | ⟨-, hsource⟩ := source_cases expand captures pattern
    · rw [hsource, hnil, filter_eq_nil_of_isPrintable hp (by decide)]
      simp [scan, unnamed]
    · rw [hsource, filter_writtenFrom hp]
  have hletters (flags : Flags) : flags.letters.filter p = [] := by
    refine filter_eq_nil_of_isPrintable hp ?_
    rcases flags with ⟨indices, caseless, multiline⟩
    revert indices caseless multiline
    decide
  have hslash : "/".toList.filter p = [] := filter_eq_nil_of_isPrintable hp (by decide)
  simp only [Literal.text, String.toList_append, String.toList_ofList, List.filter_append, hslash,
    hletters, hsource, hbody, List.nil_append, List.append_nil]

end Filter

/-- The literal of a pattern without line feed is one line. -/
theorem isLine_literal {pattern : String} (h : '\n' ∉ pattern.toList) (expand captures : Bool) :
    IsLine (Literal.ofPattern expand captures pattern).text.toList := by
  have hunnamed : '\n' ∉ unnamed (scan pattern.toList) := by
    intro hmem
    obtain ⟨token, htoken, hmem⟩ := List.mem_flatMap.1 hmem
    rw [Token.unnamed] at hmem
    split at hmem
    · cases hmem
    · rw [← scan_lexemes pattern.toList] at h
      exact h (List.mem_flatMap.2 ⟨token, htoken, hmem⟩)
  have hfeed (c : Char) (hc : isPrintable c) : (c == '\n') = false := by
    rw [beq_eq_false_iff_ne]
    rintro rfl
    exact absurd hc (by decide)
  have htext : '\n' ∉ (Literal.ofPattern expand captures pattern).text.toList := by
    intro hmem
    have hfilter : '\n' ∈ (Literal.ofPattern expand captures pattern).text.toList.filter
        (· == '\n') := List.mem_filter.2 ⟨hmem, beq_self_eq_true '\n'⟩
    rw [filter_literal hfeed] at hfilter
    exact hunnamed (List.mem_filter.1 hfilter).1
  -- The flag `g` is always there, so the literal does not end in its source.
  have hletters (flags : Flags) : IsLine flags.letters ∧ flags.letters ≠ [] := by
    rcases flags with ⟨indices, caseless, multiline⟩
    revert indices caseless multiline
    decide
  rw [Literal.text, String.toList_append, String.toList_ofList] at htext ⊢
  exact .append_of_ne_nil (fun hmem => htext (List.mem_append_left _ hmem)) (hletters _).1
    (hletters _).2

end PatternTable.Regex
