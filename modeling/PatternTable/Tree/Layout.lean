import PatternTable.Text.Quoted
import PatternTable.Tree

/-!
# Layout of output trees

A tree is laid out as a list of lines, each with its depth below the line that the tree starts on.
Only the joining of the lines writes indentation: four blanks for each level, except for a blank
line and for the first line, which continues what stands before it. So the depth at which a tree is
rendered changes nothing but the indentation.

An array or object takes one line where `Node.isInline` allows it. Otherwise its brackets have lines
of their own, with the entries one level deeper and a comma after each. A blank line is kept only
between two other items, and several in a row are one.

Results:
* `Node.lines_ne_nil`: every tree has a line.
* `Node.length_lines_eq_one_iff`: a tree has exactly one line if and only if it is inline.
-/

namespace PatternTable

/-- A line of a layout. -/
structure Line where
  /-- The number of levels below the first line. -/
  depth : Nat
  text : String
  deriving DecidableEq, Repr

namespace Line

/-- A line one level deeper. -/
def deeper (line : Line) : Line :=
  ⟨line.depth + 1, line.text⟩

/-- Lines whose first has `text` before it. -/
def before (text : String) : List Line → List Line
  | [] => []
  | line :: lines => ⟨line.depth, text ++ line.text⟩ :: lines

/-- Lines whose last has `text` after it. -/
def after (text : String) : List Line → List Line
  | [] => []
  | [line] => [⟨line.depth, line.text ++ text⟩]
  | line :: lines => line :: after text lines

/-- The blanks in front of a line at a depth. -/
def indentation (depth : Nat) : String :=
  String.ofList (List.replicate (4 * depth) ' ')

/-- A line of a tree that starts at `depth`, with its indentation; a blank line has none. -/
def indented (depth : Nat) (line : Line) : String :=
  if line.text.isEmpty then "" else indentation (depth + line.depth) ++ line.text

/-- Lines that follow others, each on a line of its own. -/
def continued (depth : Nat) : List Line → String
  | [] => ""
  | line :: lines => "\n" ++ line.indented depth ++ continued depth lines

/-- The text of the lines of a tree that starts at `depth`. -/
def join (depth : Nat) : List Line → String
  | [] => ""
  | line :: lines => line.text ++ continued depth lines

end Line

/-- Entries between brackets that have lines of their own. -/
def bracketed (opening closing : String) (entries : List Line) : List Line :=
  ⟨0, opening⟩ :: (entries.map Line.deeper ++ [⟨0, closing⟩])

mutual

/-- The lines of a tree. -/
def Node.lines : Node → List Line
  | .raw expression => [⟨0, expression⟩]
  | .text content => [⟨0, Text.quote content⟩]
  | .array [] => [⟨0, "[]"⟩]
  | .array [only] =>
    if only.nestsInline then Line.after "]" (Line.before "[" only.lines)
    else bracketed "[" "]" (Line.after "," only.lines)
  | .array elements => bracketed "[" "]" (Node.elementLines elements)
  | .object [] => [⟨0, "\x7b\x7d"⟩]
  | .object [.member key value remark] =>
    if value.nestsInline then
      Line.after ((remark.map (", " ++ ·)).getD "" ++ " \x7d")
        (Line.before ("\x7b " ++ key ++ ": ") value.lines)
    else
      bracketed "\x7b" "\x7d"
        (Line.after ("," ++ (remark.map (" " ++ ·)).getD "")
          (Line.before (key ++ ": ") value.lines))
  | .object items => bracketed "\x7b" "\x7d" (Node.itemLines false items)

/-- The lines of the elements of an array. -/
def Node.elementLines : List Node → List Line
  | [] => []
  | element :: elements => Line.after "," element.lines ++ Node.elementLines elements

/-- The lines of the items of an object that follow an item other than a blank line
    (`afterContent`), a blank line or the opening bracket. -/
def Node.itemLines (afterContent : Bool) : List Item → List Line
  | [] => []
  | .member key value remark :: items =>
    Line.after ("," ++ (remark.map (" " ++ ·)).getD "")
        (Line.before (key ++ ": ") value.lines) ++
      Node.itemLines true items
  | .comment words :: items =>
    ⟨0, if words.isEmpty then "//" else "// " ++ words⟩ :: Node.itemLines true items
  | .blank :: items =>
    (if afterContent && items.any (fun item => !item.isBlank) then [⟨0, ""⟩] else []) ++
      Node.itemLines false items

end

/-- The text of a tree that starts on a line at `depth`. -/
def Node.render (node : Node) (depth : Nat) : String :=
  Line.join depth node.lines

/-! ## Number of lines -/

theorem Line.length_before (text : String) (lines : List Line) :
    (before text lines).length = lines.length := by
  cases lines <;> simp [before]

theorem Line.length_after (text : String) (lines : List Line) :
    (after text lines).length = lines.length := by
  fun_induction after text lines <;> simp_all

theorem length_bracketed (opening closing : String) (entries : List Line) :
    (bracketed opening closing entries).length = entries.length + 2 := by
  simp [bracketed]

theorem Node.lines_ne_nil : (node : Node) → node.lines ≠ []
  | .raw _ => by simp [lines]
  | .text _ => by simp [lines]
  | .array [] => by simp [lines]
  | .array [only] => by
    have ih := List.length_pos_iff.2 (lines_ne_nil only)
    rw [lines]
    split
    · apply List.length_pos_iff.1
      rwa [Line.length_after, Line.length_before]
    · simp [bracketed]
  | .array (_ :: _ :: _) => by simp [lines, bracketed]
  | .object [] => by simp [lines]
  | .object [.member _ value _] => by
    have ih := List.length_pos_iff.2 (lines_ne_nil value)
    rw [lines]
    split
    · apply List.length_pos_iff.1
      rwa [Line.length_after, Line.length_before]
    · simp [bracketed]
  | .object [.comment _] => by simp [lines, bracketed]
  | .object [.blank] => by simp [lines, bracketed]
  | .object (_ :: _ :: _) => by simp [lines, bracketed]

theorem Node.length_lines_eq_one_iff : (node : Node) →
    (node.lines.length = 1 ↔ node.isInline = true)
  | .raw _ => by simp [lines, isInline]
  | .text _ => by simp [lines, isInline]
  | .array [] => by simp [lines, isInline]
  | .array [only] => by
    have ih := length_lines_eq_one_iff only
    rw [lines, isInline]
    by_cases h : only.nestsInline
    · rw [if_pos h, Line.length_after, Line.length_before, ih]
      simp_all [nestsInline]
    · rw [if_neg h, length_bracketed]
      simp_all [nestsInline]
  | .array (_ :: _ :: _) => by simp [lines, isInline, length_bracketed]
  | .object [] => by simp [lines, isInline]
  | .object [.member _ value _] => by
    have ih := length_lines_eq_one_iff value
    rw [lines, isInline]
    by_cases h : value.nestsInline
    · rw [if_pos h, Line.length_after, Line.length_before, ih]
      simp_all [nestsInline]
    · rw [if_neg h, length_bracketed]
      simp_all [nestsInline]
  | .object [.comment _] => by simp [lines, isInline, length_bracketed]
  | .object [.blank] => by simp [lines, isInline, length_bracketed]
  | .object (_ :: _ :: _) => by simp [lines, isInline, length_bracketed]

example :
    (Node.object
        [.member "token" (.raw "T.A") (some "/*a*/"), .blank,
          .plain "x" (.array [.raw "y"])]).render 1 =
      "\x7b\n        token: T.A, /*a*/\n\n        x: [y],\n    \x7d" := by
  decide +kernel

end PatternTable
