import PatternTable.Proofs.Regex.Brackets

/-!
# Where a regex literal ends

A bare slash ends a regex literal. To find one, a text is scanned from left to right, and a
backslash takes the next character along. The pieces that a source is written in are complete: none
of them has a bare slash, and none ends in the middle of an escape, so that nothing changes where
one piece meets the next. Only a lone backslash at the end of the pattern is left in the middle of
an escape.

The name of a group may have backslashes and slashes in the pattern. As it ends in `>`, the scan of
the pattern is in step with the scan of the source again after it.

Results:
* `delimited_writtenFrom`: the scans of a text and of what is written for it.
* `source_delimited`: the same of the source of a literal, which does not start a line comment
  either.
-/

namespace PatternTable.Regex

/-! ## Specification -/

/-- Whether a scan takes the character after `c` along, given whether `c` is taken along itself. -/
def takesNext (taken : Bool) (c : Char) : Bool :=
  !taken && c == '\\'

/-- Whether a scan of a text ends in the middle of an escape. The first character of the text is
    taken along when `taken`. -/
def endsEscaping (taken : Bool) (text : List Char) : Bool :=
  text.foldl takesNext taken

/-- Whether a scan of a text meets a slash that no backslash takes along. -/
def meetsSlash (taken : Bool) : List Char → Bool
  | [] => false
  | c :: cs => (!taken && c == '/') || meetsSlash (takesNext taken c) cs

/-! ## Scans of texts put together -/

theorem endsEscaping_append (taken : Bool) (a b : List Char) :
    endsEscaping taken (a ++ b) = endsEscaping (endsEscaping taken a) b :=
  List.foldl_append

theorem meetsSlash_append (taken : Bool) (a b : List Char) :
    meetsSlash taken (a ++ b) = (meetsSlash taken a || meetsSlash (endsEscaping taken a) b) := by
  induction a generalizing taken with
  | nil => rfl
  | cons c a ih => simp only [List.cons_append, meetsSlash, ih, Bool.or_assoc]; rfl

/-- A text does not end in the middle of an escape if it does not end in a backslash. -/
theorem endsEscaping_of_last {c : Char} (hc : c ≠ '\\') (taken : Bool) (text : List Char) :
    endsEscaping taken (text ++ [c]) = false := by
  simp [endsEscaping, takesNext, hc]

/-- A text that can stand before any other one: it has no bare slash and does not end in the middle
    of an escape. -/
structure IsComplete (text : List Char) : Prop where
  unslashed : meetsSlash false text = false
  unescaping : endsEscaping false text = false

namespace IsComplete

theorem append {a b : List Char} (ha : IsComplete a) (hb : IsComplete b) : IsComplete (a ++ b) where
  unslashed := by rw [meetsSlash_append, ha.unslashed, ha.unescaping, hb.unslashed, Bool.or_false]
  unescaping := by rw [endsEscaping_append, ha.unescaping, hb.unescaping]

theorem of_forall {text : List Char} (h : ∀ c ∈ text, c ∉ activeCharacters) : IsComplete text := by
  induction text with
  | nil => exact ⟨rfl, rfl⟩
  | cons c text ih =>
    obtain ⟨hc, htext⟩ := List.forall_mem_cons.1 h
    have hsingle : IsComplete [c] := by
      simp only [activeCharacters, List.mem_cons, not_or] at hc
      exact ⟨by simp [meetsSlash, hc], by simp [endsEscaping, takesNext, hc]⟩
    exact hsingle.append (ih htext)

/-- A complete text in front changes nothing about a scan. -/
theorem scan_append {a : List Char} (ha : IsComplete a) (b : List Char) :
    meetsSlash false (a ++ b) = meetsSlash false b ∧
      endsEscaping false (a ++ b) = endsEscaping false b := by
  rw [meetsSlash_append, endsEscaping_append, ha.unslashed, ha.unescaping]
  exact ⟨Bool.false_or _, rfl⟩

end IsComplete

/-! ## Pieces of a source -/

/-- What is written for a class is complete. -/
theorem isComplete_of_expandClass? {negated alone : Bool} {name ranges : List Char}
    (h : expandClass? negated alone name = some ranges) : IsComplete ranges := by
  obtain rfl | ⟨hinert, -⟩ := inert_of_expandClass? h
  · exact ⟨rfl, rfl⟩
  · exact .of_forall hinert

/-- What is written for a token that is read as a whole is complete. -/
theorem Token.IsWhole.isComplete_written {token : Token} (h : token.IsWhole)
    (expand inside alone : Bool) : IsComplete (token.written expand inside alone) := by
  obtain ⟨name, hname⟩ | ⟨negated, name, rfl⟩ := h.group_or_posixClass
  · obtain ⟨lead, hlead, -, hwithName⟩ := Token.lexeme_withName hname
    have hnew : IsComplete (groupName name ++ ['>']) :=
      .append (.of_forall (not_active_of_groupName (groupName_groupName name))) ⟨rfl, rfl⟩
    rw [Token.written_of_name? hname, hwithName]
    simp only [groupLeads, List.mem_cons, List.not_mem_nil, or_false] at hlead
    obtain rfl | rfl := hlead
    · exact .append ⟨rfl, rfl⟩ hnew
    · exact .append ⟨rfl, rfl⟩ hnew
  · obtain heq | ⟨alone', hranges⟩ := written_posixClass_eq negated expand inside alone name
    · obtain ⟨lead, hlexeme, hlead⟩ := h.lexeme_posixClass
      rw [heq, hlexeme]
      have hbrackets : IsComplete ['['] ∧ IsComplete [']'] := ⟨⟨rfl, rfl⟩, ⟨rfl, rfl⟩⟩
      exact hbrackets.1.append ((IsComplete.of_forall hlead).append hbrackets.2)
    · exact isComplete_of_expandClass? hranges

/-- A text that is read as a whole does not end in the middle of an escape, whatever backslashes
    there are in it. -/
theorem Token.IsWhole.endsEscaping_lexeme {token : Token} (h : token.IsWhole) :
    endsEscaping false token.lexeme = false := by
  obtain ⟨name, hname⟩ | ⟨negated, name, rfl⟩ := h.group_or_posixClass
  · obtain ⟨lead, -, hlexeme, -⟩ := Token.lexeme_withName hname
    rw [hlexeme, ← List.append_assoc]
    exact endsEscaping_of_last (by decide) false _
  · obtain ⟨lead, hlexeme, -⟩ := h.lexeme_posixClass
    rw [hlexeme, ← List.cons_append]
    exact endsEscaping_of_last (by decide) false _

/-! ## Main results -/

/-- What is written for a text has no bare slash, and ends in the middle of an escape exactly if the
    text does. -/
theorem delimited_writtenFrom (expand : Bool) (text : List Char) : ∀ (depth : Nat) (opened : Bool),
    meetsSlash false (writtenFrom expand depth opened (scan text)) = false ∧
      endsEscaping false (writtenFrom expand depth opened (scan text)) =
        endsEscaping false text := by
  induction text using scan_induction with
  | nil =>
    intro depth opened
    simp [scan, writtenFrom, meetsSlash]
  | lone =>
    intro depth opened
    rw [writtenFrom_lone]
    exact ⟨rfl, rfl⟩
  | whole token rest htoken ih =>
    intro depth opened
    obtain ⟨hslash, hescaping⟩ := (htoken.isComplete_written expand (depth != 0)
      (isAlone opened (scan rest))).scan_append (writtenFrom expand depth false (scan rest))
    rw [writtenFrom_whole expand depth opened htoken, hslash, hescaping, endsEscaping_append,
      htoken.endsEscaping_lexeme]
    exact ih depth false
  | escape c rest hwhole ih =>
    intro depth opened
    rw [writtenFrom_escape expand depth opened hwhole]
    exact ih depth false
  | single c rest hc hwhole ih =>
    intro depth opened
    have hwritten : IsComplete (writtenCharacter c) := by
      rw [writtenCharacter]
      split
      · exact ⟨rfl, rfl⟩
      · next hslash =>
        exact ⟨by simp [meetsSlash, hslash], by simp [endsEscaping, takesNext, hc]⟩
    obtain ⟨hslash, hescaping⟩ :=
      hwritten.scan_append (writtenFrom expand (depthAfter depth c) (c = '[') (scan rest))
    have htext : endsEscaping false (c :: rest) = endsEscaping false rest := by
      rw [← List.singleton_append, endsEscaping_append, ← List.nil_append [c],
        endsEscaping_of_last hc]
    rw [writtenFrom_single expand depth opened hc hwhole, hslash, hescaping, htext]
    exact ih (depthAfter depth c) (c = '[')

/-- A scan of the source of a literal meets no bare slash and ends in the middle of an escape
    exactly if a scan of the pattern does. The source is not empty, so that the literal does not
    start a line comment. -/
theorem source_delimited (expand captures : Bool) (pattern : String) :
    meetsSlash false (Literal.ofPattern expand captures pattern).source.toList = false ∧
      (endsEscaping false (Literal.ofPattern expand captures pattern).source.toList ↔
        endsEscaping false pattern.toList) ∧
      (Literal.ofPattern expand captures pattern).source.toList ≠ [] ∧
      ¬ ['/', '/'] <+: (Literal.ofPattern expand captures pattern).text.toList := by
  have hbody : endsEscaping false (bodyOf pattern.toList) = endsEscaping false pattern.toList := by
    obtain h | h := eq_bodyOf pattern.toList
    · rw [← h]
    · exact .symm ((congrArg (endsEscaping false) h).trans (endsEscaping_append false _ _))
  have hscan :
      meetsSlash false (Literal.ofPattern expand captures pattern).source.toList = false ∧
        endsEscaping false (Literal.ofPattern expand captures pattern).source.toList =
          endsEscaping false pattern.toList := by
    rw [← hbody]
    obtain ⟨hnil, hsource⟩ | ⟨-, hsource⟩ := source_cases expand captures pattern
    · rw [hsource, hnil]
      exact ⟨by decide, by decide⟩
    · rw [hsource]
      exact delimited_writtenFrom expand _ 0 false
  have hne : (Literal.ofPattern expand captures pattern).source.toList ≠ [] :=
    String.toList_ofList (l := sourceOf expand _) ▸ sourceOf_ne_nil expand _
  refine ⟨hscan.1, by rw [hscan.2], hne, ?_⟩
  obtain ⟨c, cs, hcons⟩ := List.exists_cons_of_ne_nil hne
  have hc : c ≠ '/' := by
    rintro rfl
    simp [hcons, meetsSlash] at hscan
  simp [Literal.text, hcons, hc.symm]

end PatternTable.Regex
