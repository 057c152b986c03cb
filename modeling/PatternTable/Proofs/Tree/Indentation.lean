import PatternTable.Proofs.Module.Contents
import PatternTable.Proofs.Tree.Inline

/-!
# Depth and indentation

The depth at which a tree is rendered is not used by the layout. It only says how many blanks stand
before each line after the first, and an empty line has none. That is told of the lines of the text,
so the expressions, keys and comments in the tree must have no line feed: they are written as they
are, and what follows a line feed in them is not indented.

* `Node.IsFeedless`: no text in the tree has a line feed.
* `Text.indentedAfterFirst`: lines with blanks before all but the first, as far as they are not
  empty.

Results:
* `Node.rawLines_render`: the lines of the text are those of the layout.
* `Node.rawLines_render_eq`: the depth only indents.
-/

namespace PatternTable

open Text

/-! ## Specification -/

namespace Text

/-- A line with blanks before it. An empty line stays empty. -/
def indentedBy (blanks : Nat) (line : List Char) : List Char :=
  if line = [] then [] else List.replicate blanks ' ' ++ line

/-- Lines with blanks before all but the first. -/
def indentedAfterFirst (blanks : Nat) : List (List Char) → List (List Char)
  | [] => []
  | line :: lines => line :: lines.map (indentedBy blanks)

end Text

/-- No text that a tree has in it as it is has a line feed. -/
def Node.IsFeedless (node : Node) : Prop :=
  ∀ word ∈ node.words, '\n' ∉ word.toList

instance (node : Node) : Decidable node.IsFeedless :=
  inferInstanceAs (Decidable (∀ word ∈ node.words, _))

/-! ## The lines of a text -/

theorem isJoined_feedless : IsJoined fun text => '\n' ∉ text.toList where
  concat ha hb := by
    rw [String.toList_append, List.mem_append, not_or]
    exact ⟨ha, hb⟩
  ofLine h := h.feed

namespace Line

/-- The lines of a layout as they are written. -/
def texts (depth : Nat) : List Line → List (List Char)
  | [] => []
  | line :: lines => line.text.toList :: lines.map fun line => (line.indented depth).toList

theorem feed_not_mem_indented {line : Line} (h : '\n' ∉ line.text.toList) (depth : Nat) :
    '\n' ∉ (line.indented depth).toList := by
  rw [indented]
  split
  · exact List.not_mem_nil
  · rw [String.toList_append, List.mem_append, indentation, String.toList_ofList, not_or]
    exact ⟨fun hmem => absurd (List.eq_of_mem_replicate hmem) (by decide), h⟩

theorem rawLines_join {lines : List Line} (hne : lines ≠ [])
    (h : AllLines (fun text => '\n' ∉ text.toList) lines) (depth : Nat) :
    rawLines (join depth lines).toList = texts depth lines := by
  cases lines with
  | nil => exact absurd rfl hne
  | cons line lines =>
    rw [AllLines, List.forall_mem_cons] at h
    rw [join_cons, rawLines_unlines (List.cons_ne_nil _ _), List.flatMap_cons, List.flatMap_map,
      rawLines_of_not_mem h.1, texts, List.singleton_append, List.map_eq_flatMap]
    refine congrArg _ (List.flatMap_congr fun next hnext => ?_)
    exact rawLines_of_not_mem (feed_not_mem_indented (h.2 next hnext) depth)

theorem toList_indented (line : Line) (depth : Nat) :
    (line.indented depth).toList = indentedBy (4 * depth) (line.indented 0).toList := by
  by_cases hempty : line.text.isEmpty
  · rw [indented, indented, if_pos hempty, if_pos hempty]
    rfl
  · have hne : (line.indented 0).toList ≠ [] := by
      rw [indented, if_neg hempty, String.toList_append]
      exact List.append_ne_nil_of_right_ne_nil _ (by simpa using hempty)
    rw [indentedBy, if_neg hne, indented, indented, if_neg hempty, if_neg hempty, indentation,
      indentation, String.toList_append, String.toList_append, String.toList_ofList,
      String.toList_ofList, Nat.mul_add, Nat.zero_add, List.replicate_add, List.append_assoc]

theorem texts_eq (depth : Nat) (lines : List Line) :
    texts depth lines = indentedAfterFirst (4 * depth) (texts 0 lines) := by
  cases lines with
  | nil => rfl
  | cons line lines =>
    rw [texts, texts, indentedAfterFirst, List.map_map]
    exact congrArg _ (List.map_congr_left fun next _ => toList_indented next depth)

end Line

/-- The lines of the text of a tree are the lines of its layout. -/
theorem Node.rawLines_render {node : Node} (h : node.IsFeedless) (depth : Nat) :
    rawLines (node.render depth).toList = Line.texts depth node.lines :=
  Line.rawLines_join node.lines_ne_nil (allLines_lines isJoined_feedless node h) depth

/-- At a depth, all lines of a tree after the first are indented further than at depth zero, if they
    are not empty. -/
theorem Node.rawLines_render_eq {node : Node} (h : node.IsFeedless) (depth : Nat) :
    rawLines (node.render depth).toList =
      indentedAfterFirst (4 * depth) (rawLines (node.render 0).toList) := by
  rw [rawLines_render h, rawLines_render h, Line.texts_eq]

end PatternTable
