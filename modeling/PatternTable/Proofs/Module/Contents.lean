import PatternTable.Artifact
import PatternTable.Proofs.Text.Lines

/-!
# The contents of an artifact, line by line

The contents of an artifact are the same fixed lines, then the line with the time of generation,
then the lines of the sections after the header. Only the line with the time depends on when the
artifact is generated.

* `Artifact.EqualButTime`: two texts are equal but for the time in the first line that gives one.
* `Artifact.blurred` is what the comparison of artifacts sees of lines.

Results:
* `Artifact.contents_eq`: the lines of an artifact.
* `Artifact.equalButTime_iff`, `Artifact.isUnchanged_iff`: which lines decide whether two artifacts
  are equal but for the time, and which decide whether one is taken for the other.
-/

namespace PatternTable

/-! ## Specification -/

namespace Artifact

/-- Whether a line gives the time of generation. -/
def isTimeLine (line : List Char) : Bool :=
  timeLead.toList.isPrefixOf line

/-- Lines without the time in the first of them that gives one. -/
def untimed : List (List Char) → List (List Char)
  | [] => []
  | line :: lines =>
    if isTimeLine line then timeLead.toList :: lines else line :: untimed lines

/-- Two texts are equal but for the time in the first line that gives one. -/
def EqualButTime (text other : String) : Prop :=
  untimed (Text.rawLines text.toList) = untimed (Text.rawLines other.toList)

instance (text other : String) : Decidable (EqualButTime text other) :=
  inferInstanceAs (Decidable (_ = _))

/-- The lines before the one with the time. -/
def opening : List (List Char) :=
  (directiveLines ++ "" :: headerLines).map String.toList

/-- The sections after the header. -/
def body (config : Config) (linkage : Linkage) : List String :=
  (sections config ⟨0⟩ linkage).drop 2

/-- The lines after the one with the time. -/
def bodyLines (config : Config) (linkage : Linkage) : List (List Char) :=
  (body config linkage).flatMap fun text => [] :: Text.rawLines text.toList

/-- What the comparison of artifacts sees of lines. -/
def blurred (lines : List (List Char)) : List (List Char) :=
  (lines.map Text.withoutReturn).filter fun line => !isTimeLine line

/-- No line gives a time, and none ends in a carriage return. -/
def Plain (lines : List (List Char)) : Prop :=
  ∀ line ∈ lines, isTimeLine line = false ∧ Text.IsLine line

instance (lines : List (List Char)) : Decidable (Plain lines) :=
  inferInstanceAs (Decidable (∀ line ∈ lines, _ ∧ _))

end Artifact

/-! ## The line with the time -/

namespace Calendar

/-- A time has no line feed. -/
theorem not_mem_text (time : Time) : '\n' ∉ time.text.toList := by
  have hpadded (width n : Nat) : '\n' ∉ (padded width n).toList := fun hmem =>
    absurd (isDigit_of_mem_padded hmem) (by decide)
  simp [Time.text, hpadded]

end Calendar

namespace Text

/-- Sections with blank lines between them, line by line. -/
theorem intercalate_sections (first : String) (sections : List String) :
    ("\n\n".intercalate (first :: sections) ++ "\n").toList =
      ofLines (rawLines first.toList ++
        sections.flatMap fun text => [] :: rawLines text.toList) := by
  induction sections generalizing first with
  | nil =>
    rw [List.flatMap_nil, List.append_nil, ofLines_rawLines, String.intercalate_singleton,
      String.toList_append]
    rfl
  | cons next sections ih =>
    rw [String.intercalate_cons_cons, String.append_assoc, String.toList_append, ih,
      List.flatMap_cons, List.cons_append, ofLines_append (rawLines first.toList), ofLines_cons,
      ofLines_rawLines, String.toList_append]
    simp

theorem rawLines_unlines {lines : List String} (hne : lines ≠ []) :
    rawLines (unlines lines).toList = lines.flatMap fun line => rawLines line.toList := by
  cases lines with
  | nil => exact absurd rfl hne
  | cons line lines =>
    clear hne
    induction lines generalizing line with
    | nil => rw [unlines, String.intercalate_singleton, List.flatMap_singleton]
    | cons next lines ih =>
      have hlines : (unlines (line :: next :: lines)).toList =
          line.toList ++ '\n' :: (unlines (next :: lines)).toList := by
        rw [unlines, String.intercalate_cons_cons, String.toList_append, String.toList_append,
          List.append_assoc]
        rfl
      rw [hlines, rawLines_append_newline, ih]
      rfl

/-- Lines without line feeds, read back as they are. -/
theorem rawLines_unlines_of_isLine {lines : List String} (hne : lines ≠ [])
    (h : ∀ line ∈ lines, IsLine line.toList) :
    rawLines (unlines lines).toList = lines.map String.toList := by
  rw [rawLines_unlines hne, List.map_eq_flatMap]
  exact List.flatMap_congr fun line hline => rawLines_of_not_mem (h line hline).feed

end Text

namespace Artifact

/-- The line with the time is one line. -/
theorem isLine_timeLine (now : Calendar.Time) : Text.IsLine (timeLine now).toList := by
  rw [timeLine, String.toList_append, String.toList_append]
  refine .append_of_ne_nil ?_ (by decide) (by decide)
  rw [List.mem_append, not_or]
  exact ⟨by decide, Calendar.not_mem_text now⟩

theorem isTimeLine_timeLine (now : Calendar.Time) : isTimeLine (timeLine now).toList := by
  simp [isTimeLine, timeLine, String.append_assoc]

theorem opening_plain : Plain opening := by
  have hplain {line : List Char} (hline : isTimeLine line = false) (h : Text.IsLine line) :
      isTimeLine (String.ofList line).toList = false ∧
        Text.IsLine (String.ofList line).toList := by
    rw [String.toList_ofList]
    exact ⟨hline, h⟩
  simp only [Plain, opening, directiveLines, headerLines, List.cons_append, List.nil_append,
    List.forall_mem_map, List.forall_mem_cons]
  refine ⟨hplain ?_ ?_, hplain ?_ ?_, hplain ?_ ?_, hplain ?_ ?_, hplain ?_ ?_, hplain ?_ ?_,
    hplain ?_ ?_, by simp⟩
  all_goals decide

theorem rawLines_directives : Text.rawLines directives.toList = directiveLines.map String.toList :=
  Text.rawLines_unlines_of_isLine (by decide) fun line hline =>
    (opening_plain line.toList (List.mem_map_of_mem (List.mem_append_left _ hline))).2

/-- Only the last line of the header depends on the time. -/
theorem rawLines_header (now : Calendar.Time) : Text.rawLines (header now).toList =
    headerLines.map String.toList ++ [(timeLine now).toList] := by
  rw [header, Text.rawLines_unlines_of_isLine (by simp), List.map_append, List.map_singleton]
  intro line hline
  rw [List.mem_append, List.mem_singleton] at hline
  obtain hline | hline := hline
  · refine (opening_plain line.toList (List.mem_map_of_mem ?_)).2
    exact List.mem_append_right _ (List.mem_cons_of_mem _ hline)
  · rw [hline]
    exact isLine_timeLine now

/-! ## Contents -/

theorem sections_eq (config : Config) (now : Calendar.Time) (linkage : Linkage) :
    sections config now linkage = directives :: header now :: body config linkage :=
  rfl

variable (config config' : Config) (now now' : Calendar.Time) (linkage linkage' : Linkage)

/-- The lines of an artifact: only the line with the time depends on the time. -/
theorem contents_eq : (ofLinkage config now linkage).contents.toList =
    Text.ofLines (opening ++ (timeLine now).toList :: bodyLines config linkage) := by
  rw [ofLinkage, sections_eq, Text.intercalate_sections, List.flatMap_cons, rawLines_directives,
    rawLines_header, opening, bodyLines]
  simp

theorem not_mem_of_mem_lines {line : List Char}
    (h : line ∈ opening ++ (timeLine now).toList :: bodyLines config linkage) : '\n' ∉ line := by
  rw [List.mem_append, List.mem_cons] at h
  obtain h | h | h := h
  · exact (opening_plain line h).2.feed
  · rw [h]
    exact (isLine_timeLine now).feed
  · rw [bodyLines, List.mem_flatMap] at h
    obtain ⟨text, -, hline⟩ := h
    rw [List.mem_cons] at hline
    obtain rfl | hline := hline
    · exact List.not_mem_nil
    · exact Text.not_mem_of_mem_rawLines hline

theorem rawLines_contents : Text.rawLines (ofLinkage config now linkage).contents.toList =
    opening ++ (timeLine now).toList :: (bodyLines config linkage ++ [[]]) := by
  rw [contents_eq, Text.rawLines_ofLines fun _ => not_mem_of_mem_lines config now linkage,
    List.append_assoc, List.cons_append]

/-! ## Comparisons -/

theorem blurred_append (lines others : List (List Char)) :
    blurred (lines ++ others) = blurred lines ++ blurred others := by
  rw [blurred, List.map_append, List.filter_append]
  rfl

/-- The comparison sees plain lines as they are. -/
theorem blurred_of_plain {lines : List (List Char)} (h : Plain lines) : blurred lines = lines := by
  -- The lines have no carriage return to lose, and none of them is left out.
  have hmap : lines.map Text.withoutReturn = lines :=
    (List.map_congr_left fun line hline =>
      Text.withoutReturn_of_isLine (h line hline).2).trans (List.map_id _)
  rw [blurred, hmap, List.filter_eq_self]
  intro line hline
  rw [(h line hline).1]
  rfl

theorem blurred_timeLine : blurred [(timeLine now).toList] = [] := by
  rw [blurred, List.map_singleton, Text.withoutReturn_of_isLine (isLine_timeLine now),
    List.filter_cons_of_neg]
  · rfl
  · simp [isTimeLine_timeLine now]

theorem significantLines_contents : significantLines (ofLinkage config now linkage).contents =
    opening ++ blurred (bodyLines config linkage) := by
  have hblurred : significantLines (ofLinkage config now linkage).contents =
      blurred (opening ++ ([(timeLine now).toList] ++ bodyLines config linkage)) := by
    rw [significantLines, contents_eq,
      Text.lines_ofLines fun _ => not_mem_of_mem_lines config now linkage]
    rfl
  rw [hblurred, blurred_append, blurred_append, blurred_of_plain opening_plain, blurred_timeLine,
    List.nil_append]

theorem untimed_append {lines : List (List Char)} (h : ∀ line ∈ lines, isTimeLine line = false)
    {line : List Char} (hline : isTimeLine line) (rest : List (List Char)) :
    untimed (lines ++ line :: rest) = lines ++ timeLead.toList :: rest := by
  induction lines with
  | nil => rw [List.nil_append, untimed, if_pos hline]; rfl
  | cons first lines ih =>
    rw [List.forall_mem_cons] at h
    rw [List.cons_append, untimed, h.1, ih h.2]
    rfl

/-- Two artifacts are equal but for the time if all lines after the one with the time are equal. -/
theorem equalButTime_iff :
    EqualButTime (ofLinkage config now linkage).contents
        (ofLinkage config' now' linkage').contents ↔
      bodyLines config linkage = bodyLines config' linkage' := by
  have huntimed (config : Config) (now : Calendar.Time) (linkage : Linkage) :
      untimed (Text.rawLines (ofLinkage config now linkage).contents.toList) =
        opening ++ timeLead.toList :: (bodyLines config linkage ++ [[]]) := by
    rw [rawLines_contents, untimed_append (fun line hline => (opening_plain line hline).1)
      (isTimeLine_timeLine now)]
  rw [EqualButTime, huntimed, huntimed, List.append_cancel_left_eq, List.cons.injEq,
    List.append_cancel_right_eq, and_iff_right rfl]

/-- An artifact is taken for another if the lines after the one with the time look the same. -/
theorem isUnchanged_iff :
    (ofLinkage config now linkage).isUnchanged (ofLinkage config' now' linkage').contents ↔
      blurred (bodyLines config linkage) = blurred (bodyLines config' linkage') := by
  rw [isUnchanged, beq_iff_eq, significantLines_contents, significantLines_contents,
    List.append_cancel_left_eq]

end Artifact

end PatternTable
