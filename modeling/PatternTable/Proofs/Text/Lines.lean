import Mathlib.Data.List.Basic
import PatternTable.Proofs.Identifier
import PatternTable.Text.Blank
import PatternTable.Text.Lines
import PatternTable.Text.Quoted

/-!
# Lines and line feeds

Texts are compared by their lines, and the comparison does not see whether a carriage return stands
before a line feed. To tell what it sees, a text is also cut at its line feeds only, which loses
nothing.

* `Text.rawLines` are the texts between the line feeds of a text.
* `Text.ofLines` puts a line feed after each line.
* `Text.IsLine`: a text is one line, and ends in no carriage return.

Results:
* `Text.rawLines_ofLines`, `Text.ofLines_rawLines`: the one undoes the other.
* `Text.rawLines_between`: the lines of a text in those of a text that it is part of.
* `Text.lines_ofLines`: what the comparison sees of lines.
-/

namespace PatternTable.Text

/-! ## Lines as they are -/

/-- The texts between the line feeds of a text. -/
def rawLines (text : List Char) : List (List Char) :=
  pieces (· == '\n') text

/-- Lines with a line feed after each. -/
def ofLines (lines : List (List Char)) : List Char :=
  lines.flatMap (· ++ ['\n'])

/-- A line without the carriage return at its end, if there is one. -/
def withoutReturn (line : List Char) : List Char :=
  endLine line.reverse

theorem rawLines_append_newline (text rest : List Char) :
    rawLines (text ++ '\n' :: rest) = rawLines text ++ rawLines rest :=
  pieces_append_separator _ text rest '\n' rfl

theorem rawLines_of_not_mem {text : List Char} (h : '\n' ∉ text) : rawLines text = [text] :=
  pieces_eq_singleton _ text fun _ hmem => beq_eq_false_iff_ne.2 fun heq => h (heq ▸ hmem)

theorem not_mem_of_mem_rawLines {text line : List Char} (h : line ∈ rawLines text) :
    '\n' ∉ line := fun hmem => by
  simpa using not_separates_of_mem_pieces h hmem

theorem ofLines_cons (line : List Char) (lines : List (List Char)) :
    ofLines (line :: lines) = line ++ '\n' :: ofLines lines := by
  rw [ofLines, List.flatMap_cons, List.append_assoc]
  rfl

theorem ofLines_append (lines others : List (List Char)) :
    ofLines (lines ++ others) = ofLines lines ++ ofLines others :=
  List.flatMap_append

theorem rawLines_ofLines_append {lines : List (List Char)} (h : ∀ line ∈ lines, '\n' ∉ line)
    (rest : List Char) : rawLines (ofLines lines ++ rest) = lines ++ rawLines rest := by
  induction lines with
  | nil => rfl
  | cons line lines ih =>
    rw [List.forall_mem_cons] at h
    rw [ofLines_cons, List.append_assoc, List.cons_append, rawLines_append_newline,
      rawLines_of_not_mem h.1, ih h.2]
    rfl

theorem rawLines_ofLines {lines : List (List Char)} (h : ∀ line ∈ lines, '\n' ∉ line) :
    rawLines (ofLines lines) = lines ++ [[]] := by
  rw [← List.append_nil (ofLines lines), rawLines_ofLines_append h]
  rfl

theorem ofLines_rawLines (text : List Char) : ofLines (rawLines text) = text ++ ['\n'] := by
  induction text with
  | nil => rfl
  | cons c text ih =>
    rw [rawLines] at ih ⊢
    rw [pieces]
    -- A line feed starts a line of its own, and any other character joins the line that follows.
    split
    · next h => rw [ofLines_cons, ih, beq_iff_eq.1 h]; rfl
    · cases hpieces : pieces (· == '\n') text with
      | nil => exact absurd hpieces (pieces_ne_nil _ text)
      | cons piece rest =>
        rw [hpieces, ofLines_cons] at ih
        rw [ofLines_cons, List.cons_append, ih]
        rfl

/-- A text of several lines with something around it: only its first and its last line are not lines
    of the whole as they are. -/
theorem rawLines_between {text first last : List Char} {lines : List (List Char)}
    (h : rawLines text = first :: lines ++ [last]) (above below : List Char) :
    rawLines (above ++ text ++ below) =
      rawLines (above ++ first) ++ lines ++ rawLines (last ++ below) := by
  have hfeed : ∀ line ∈ lines, '\n' ∉ line := by
    intro line hline
    have hmem : line ∈ rawLines text := by simp [h, hline]
    exact not_mem_of_mem_rawLines hmem
  have htext : text = first ++ '\n' :: (ofLines lines ++ last) := by
    have hlines := ofLines_rawLines text
    rw [h, List.cons_append, ofLines_cons, ofLines_append, ofLines_cons, ← List.append_assoc,
      ← List.cons_append, ← List.append_assoc] at hlines
    exact (List.append_cancel_right hlines).symm
  rw [htext, ← List.append_assoc, List.append_assoc, List.cons_append, rawLines_append_newline,
    List.append_assoc, rawLines_ofLines_append hfeed, List.append_assoc]

/-- Lines that are read back have no carriage return at their ends. -/
theorem lines_ofLines {lines : List (List Char)} (h : ∀ line ∈ lines, '\n' ∉ line) :
    Text.lines (ofLines lines) = lines.map withoutReturn := by
  induction lines with
  | nil => rfl
  | cons line lines ih =>
    rw [List.forall_mem_cons] at h
    rw [ofLines_cons, Text.lines, linesFrom_append_newline [] line _ h.1, List.append_nil,
      List.map_cons, ← ih h.2]
    rfl

/-! ## Texts of one line -/

/-- A text has no line feed, and no carriage return that a line feed after it would hide. -/
structure IsLine (text : List Char) : Prop where
  feed : '\n' ∉ text
  ending : text.getLast? ≠ some '\r'

instance (text : List Char) : Decidable (IsLine text) :=
  decidable_of_iff ('\n' ∉ text ∧ text.getLast? ≠ some '\r')
    ⟨fun h => ⟨h.1, h.2⟩, fun h => ⟨h.feed, h.ending⟩⟩

namespace IsLine

variable {text other : List Char}

theorem append (h : IsLine text) (hother : IsLine other) : IsLine (text ++ other) := by
  refine ⟨fun hmem => (List.mem_append.1 hmem).elim h.feed hother.feed, ?_⟩
  rw [List.getLast?_append]
  cases hlast : other.getLast? with
  | none => exact h.ending
  | some c => rw [Option.some_or, ← hlast]; exact hother.ending

/-- What comes before the end of a line may have carriage returns. -/
theorem append_of_ne_nil (h : '\n' ∉ text) (hother : IsLine other) (hne : other ≠ []) :
    IsLine (text ++ other) := by
  refine ⟨fun hmem => (List.mem_append.1 hmem).elim h hother.feed, ?_⟩
  rw [List.getLast?_append, List.getLast?_eq_some_getLast hne, Option.some_or,
    ← List.getLast?_eq_some_getLast hne]
  exact hother.ending

theorem concat {a b : String} (ha : IsLine a.toList) (hb : IsLine b.toList) :
    IsLine (a ++ b).toList := by
  rw [String.toList_append]
  exact ha.append hb

theorem of_forall (h : ∀ c ∈ text, c ≠ '\n' ∧ c ≠ '\r') : IsLine text :=
  ⟨fun hmem => (h _ hmem).1 rfl, fun hlast => (h _ (List.mem_of_getLast? hlast)).2 rfl⟩

theorem of_isAlphanum (h : ∀ c ∈ text, c.isAlphanum) : IsLine text := by
  refine of_forall fun c hc => ⟨?_, ?_⟩
  · rintro rfl
    exact absurd (h _ hc) (by decide)
  · rintro rfl
    exact absurd (h _ hc) (by decide)

/-- The characters of a text that is spelled out need not be decoded. -/
theorem literal (h : IsLine text) : IsLine (String.ofList text).toList := by
  rwa [String.toList_ofList]

theorem intercalate (separator : String) {texts : List String} (h : IsLine separator.toList)
    (htexts : ∀ text ∈ texts, IsLine text.toList) :
    IsLine (separator.intercalate texts).toList := by
  induction texts with
  | nil => rw [String.intercalate_nil]; exact literal (by decide)
  | cons text texts ih =>
    rw [List.forall_mem_cons] at htexts
    cases texts with
    | nil => rw [String.intercalate_singleton]; exact htexts.1
    | cons next texts =>
      rw [String.intercalate_cons_cons]
      exact (htexts.1.concat h).concat (ih htexts.2)

end IsLine

theorem isLine_toString (n : Nat) : IsLine (toString n).toList := by
  refine .of_isAlphanum fun c hc => ?_
  rw [Nat.toString_eq_ofList_toDigits, String.toList_ofList] at hc
  have hdigit := Nat.isDigit_of_mem_toDigits (by decide) (by decide) hc
  simp [Char.isAlphanum, hdigit]

/-- A quoted text has no line feed and no carriage return. -/
theorem isLine_quote (text : String) : IsLine (quote text).toList := by
  have hdigit : ∀ n < 16, hexDigit n ≠ '\n' ∧ hexDigit n ≠ '\r' := by decide
  have hescaped (c : Char) : ∀ d ∈ escaped c, d ≠ '\n' ∧ d ≠ '\r' := by
    rw [escaped]
    split_ifs with _ _ _ _ hfeed _ hreturn hcontrol
    iterate 7 simp
    · have hhigh := hdigit (c.toNat / 16) (by omega)
      have hlow := hdigit (c.toNat % 16) (by omega)
      simp [hhigh, hlow]
    · simpa using ⟨hfeed, hreturn⟩
  rw [quote]
  refine .literal (.of_forall fun c hc => ?_)
  rw [List.mem_cons, List.mem_append, List.mem_flatMap, List.mem_singleton] at hc
  obtain rfl | ⟨d, -, hc⟩ | rfl := hc
  · decide
  · exact hescaped d c hc
  · decide

theorem not_mem_of_mem_linesFrom {current text line : List Char} (hcurrent : '\n' ∉ current)
    (h : line ∈ linesFrom current text) : '\n' ∉ line := by
  induction text generalizing current with
  | nil =>
    rw [linesFrom] at h
    split at h
    · simp at h
    · rw [List.mem_singleton] at h
      simpa [h] using hcurrent
  | cons c text ih =>
    by_cases hc : c = '\n'
    · subst hc
      rw [linesFrom, List.mem_cons] at h
      obtain rfl | h := h
      · rw [endLine.eq_def]
        split <;> simp_all
      · exact ih List.not_mem_nil h
    · rw [linesFrom.eq_3 _ _ _ hc] at h
      refine ih (fun hmem => ?_) h
      rw [List.mem_cons] at hmem
      exact hmem.elim (fun heq => hc heq.symm) hcurrent

theorem not_mem_of_mem_lines {text line : List Char} (h : line ∈ Text.lines text) :
    '\n' ∉ line :=
  not_mem_of_mem_linesFrom List.not_mem_nil h

/-- A line of a text is one line once the blanks at its end are gone. -/
theorem isLine_trimEnd {text line : List Char} (h : line ∈ Text.lines text) :
    IsLine (trimEnd line) := by
  rw [trimEnd]
  refine ⟨fun hmem => not_mem_of_mem_lines h ?_, fun hlast => ?_⟩
  · exact List.mem_reverse.1 (List.dropWhile_subset _ (List.mem_reverse.1 hmem))
  -- A carriage return at the end would be one of the blanks that are gone.
  · have hblank := List.head?_dropWhile_not isBlank line.reverse
    rw [List.getLast?_reverse] at hlast
    rw [hlast] at hblank
    exact absurd hblank (by decide)

theorem withoutReturn_of_isLine {text : List Char} (h : IsLine text) :
    withoutReturn text = text := by
  rw [withoutReturn]
  cases hreverse : text.reverse with
  | nil => rw [← List.reverse_reverse text, hreverse]; rfl
  | cons c before =>
    have hlast : text.getLast? = some c := by rw [List.getLast?_eq_head?_reverse, hreverse]; rfl
    have hc : c ≠ '\r' := fun heq => h.ending (heq ▸ hlast)
    rw [endLine, ← hreverse, List.reverse_reverse]
    rintro rest ⟨⟩
    exact hc rfl

/-! ## Lines of code -/

/-- A text is one line that does not start like a comment. -/
structure IsCode (text : List Char) : Prop extends IsLine text where
  start : text.head? ≠ some '/'

instance (text : List Char) : Decidable (IsCode text) :=
  decidable_of_iff (IsLine text ∧ text.head? ≠ some '/')
    ⟨fun h => ⟨h.1, h.2⟩, fun h => ⟨h.toIsLine, h.start⟩⟩

namespace IsCode

theorem concat {a b : String} (ha : IsCode a.toList) (hb : IsCode b.toList) :
    IsCode (a ++ b).toList := by
  refine ⟨ha.toIsLine.concat hb.toIsLine, ?_⟩
  rw [String.toList_append, List.head?_append]
  cases hhead : a.toList.head? with
  | none => exact hb.start
  | some c => rw [Option.some_or, ← hhead]; exact ha.start

/-- What comes after the start of a line may start like a comment. -/
theorem concat_of_ne_nil {a b : String} (ha : IsCode a.toList) (hne : a.toList ≠ [])
    (hb : IsLine b.toList) : IsCode (a ++ b).toList := by
  refine ⟨ha.toIsLine.concat hb, ?_⟩
  rw [String.toList_append, List.head?_append, List.head?_eq_some_head hne, Option.some_or,
    ← List.head?_eq_some_head hne]
  exact ha.start

theorem of_isAlphanum {text : List Char} (h : ∀ c ∈ text, c.isAlphanum) : IsCode text := by
  refine ⟨.of_isAlphanum h, fun hhead => ?_⟩
  exact absurd (h _ (List.mem_of_head? hhead)) (by decide)

theorem literal {text : List Char} (h : IsCode text) : IsCode (String.ofList text).toList := by
  rwa [String.toList_ofList]

end IsCode

end PatternTable.Text
