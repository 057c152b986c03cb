import PatternTable.Text.Pieces

/-!
# Lines of a text

A line ends at a line feed, and a carriage return directly before that line feed belongs to the
ending. A lone carriage return ends nothing, and what follows the last line feed is a line only if
it is not empty.

Results:
* `linesFrom_append_newline`: what precedes the first line feed is the first line.
-/

namespace PatternTable.Text

/-- The line before a line feed, from the line in reverse. A carriage return at its end is left
    out. -/
def endLine : List Char → List Char
  | '\r' :: before => before.reverse
  | line => line.reverse

/-- The lines of a text whose current line is `line`, read in reverse. -/
def linesFrom (line : List Char) : List Char → List (List Char)
  | [] => if line.isEmpty then [] else [line.reverse]
  | '\n' :: cs => endLine line :: linesFrom [] cs
  | c :: cs => linesFrom (c :: line) cs

/-- The lines of a text, without their endings. -/
def lines (text : List Char) : List (List Char) :=
  linesFrom [] text

/-- What precedes the first line feed is a line, less a carriage return at its end, and the lines of
    what follows come after it. -/
theorem linesFrom_append_newline (line l rest : List Char) (h : '\n' ∉ l) :
    linesFrom line (l ++ '\n' :: rest) =
      endLine (l.reverse ++ line) :: linesFrom [] rest := by
  induction l generalizing line with
  | nil => simp [linesFrom]
  | cons c l ih =>
    simp only [List.mem_cons, not_or] at h
    rw [List.cons_append, linesFrom, ih (c :: line) h.2]
    · simp
    · exact fun hc => h.1 hc.symm

/-- Texts set one per line: each is followed by a line feed, except the last. -/
def unlines (lines : List String) : String :=
  "\n".intercalate lines

example : lines "a\r\nb\rc\n\nd".toList =
    ["a".toList, "b\rc".toList, [], "d".toList] := by decide

example : lines "a\n".toList = ["a".toList] := by decide

example : lines "a\r".toList = ["a\r".toList] := by decide

end PatternTable.Text
