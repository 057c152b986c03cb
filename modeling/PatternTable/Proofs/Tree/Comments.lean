import PatternTable.Proofs.Tree.Brackets

/-!
# The line comments of a tree

A tree with a comment in it takes several lines. Its brackets have lines of their own, and so has
the comment, between them. Whatever the tree is part of adds to the lines of its brackets only, so
the comment stays alone on its line and another line follows it.

* `Node.comments`: the comments in a tree, in the order in which they are written.
* `Item.commentLine`: how a comment is written.

Results:
* `Node.isBetween_of_mem_comments`: a comment has a line between the brackets of the tree.
* `Node.commentLine_infix_render`: a comment is written with a line feed after it.
-/

namespace PatternTable

/-! ## Specification -/

mutual

/-- The comments in a tree, in the order in which they are written. -/
def Node.comments : Node → List String
  | .raw _ => []
  | .text _ => []
  | .array elements => Node.elementComments elements
  | .object items => Node.itemComments items

/-- The comments in some elements. -/
def Node.elementComments : List Node → List String
  | [] => []
  | element :: elements => element.comments ++ Node.elementComments elements

/-- The comments in some items. -/
def Node.itemComments : List Item → List String
  | [] => []
  | item :: items => item.comments ++ Node.itemComments items

/-- The comment that an item is, or those in its value. -/
def Item.comments : Item → List String
  | .member _ value _ => value.comments
  | .comment words => [words]
  | .blank => []

end

/-- The line of a comment. -/
def Item.commentLine (words : String) : String :=
  if words.isEmpty then "//" else "// " ++ words

/-! ## Lists of comments -/

theorem Node.elementComments_eq (elements : List Node) :
    elementComments elements = elements.flatMap comments := by
  induction elements with
  | nil => rfl
  | cons element elements ih => rw [elementComments, ih, List.flatMap_cons]

theorem Node.itemComments_eq (items : List Item) :
    itemComments items = items.flatMap Item.comments := by
  induction items with
  | nil => rfl
  | cons item items ih => rw [itemComments, ih, List.flatMap_cons]

theorem Node.mem_comments_array {words : String} {elements : List Node} :
    words ∈ (array elements).comments ↔ ∃ element ∈ elements, words ∈ element.comments := by
  rw [comments, elementComments_eq, List.mem_flatMap]

theorem Node.mem_comments_object {words : String} {items : List Item} :
    words ∈ (object items).comments ↔ ∃ item ∈ items, words ∈ item.comments := by
  rw [comments, itemComments_eq, List.mem_flatMap]

/-- A comment is between the items of an object, or in a node that the tree holds. -/
theorem Node.exists_of_mem_comments {node : Node} {words : String} (h : words ∈ node.comments) :
    (∃ items, node = object items ∧ .comment words ∈ items) ∨
      ∃ inner, node.Holds inner ∧ words ∈ inner.comments := by
  cases node with
  | raw expression => simp [comments] at h
  | text content => simp [comments] at h
  | array elements =>
    obtain ⟨element, helement, hmem⟩ := mem_comments_array.1 h
    exact .inr ⟨element, .element helement, hmem⟩
  | object items =>
    obtain ⟨item, hitem, hmem⟩ := mem_comments_object.1 h
    cases item with
    | member key value remark => exact .inr ⟨value, .value hitem, hmem⟩
    | comment other =>
      obtain rfl := List.mem_singleton.1 hmem
      exact .inl ⟨items, rfl, hitem⟩
    | blank => cases hmem

/-! ## Lines between brackets -/

/-- A line is between the brackets of a layout. -/
def Line.IsBetween (words : String) (lines : List Line) : Prop :=
  ∃ opening closing entries depth, lines = bracketed opening closing entries ∧
    ⟨depth, Item.commentLine words⟩ ∈ entries

namespace Line.IsBetween

variable {words : String} {lines : List Line} {text : String}

theorem after (h : IsBetween words lines) : IsBetween words (Line.after text lines) := by
  obtain ⟨opening, closing, entries, depth, rfl, hmem⟩ := h
  exact ⟨_, _, entries, depth, after_bracketed text opening closing entries, hmem⟩

theorem before (h : IsBetween words lines) : IsBetween words (Line.before text lines) := by
  obtain ⟨opening, closing, entries, depth, rfl, hmem⟩ := h
  exact ⟨_, _, entries, depth, before_bracketed text opening closing entries, hmem⟩

theorem exists_mem (h : IsBetween words lines) :
    ∃ depth, ⟨depth, Item.commentLine words⟩ ∈ lines := by
  obtain ⟨opening, closing, entries, depth, rfl, hmem⟩ := h
  refine ⟨depth + 1, List.mem_cons_of_mem _ (List.mem_append_left _ ?_)⟩
  exact List.mem_map_of_mem hmem

/-- A layout with a line between its brackets takes several lines. -/
theorem not_inline {node : Node} (h : IsBetween words node.lines) : node.nestsInline = false := by
  obtain ⟨opening, closing, entries, depth, hlines, -⟩ := h
  have hlength := congrArg List.length hlines
  rw [length_bracketed] at hlength
  have hinline : node.isInline = false := by
    rw [Bool.eq_false_iff]
    intro hinline
    have := (node.length_lines_eq_one_iff).2 hinline
    omega
  rw [Node.nestsInline, hinline, Bool.and_false]

end Line.IsBetween

/-- A comment has a line between the brackets of the tree. -/
theorem Node.isBetween_of_mem_comments {node : Node} {words : String} (h : words ∈ node.comments) :
    Line.IsBetween words node.lines := by
  induction node using Node.induction with
  | step node ih =>
    obtain ⟨items, rfl, hcomment⟩ | ⟨inner, hholds, hmem⟩ := exists_of_mem_comments h
    · obtain ⟨above, below, hlines⟩ := exists_lines_eq_of_comment hcomment
      exact ⟨_, _, _, 0, hlines, List.mem_append_right _ List.mem_cons_self⟩
    · -- What has a comment in it takes several lines, so the brackets around it do not share them.
      have hinner := ih inner hholds hmem
      have hinline := isInline_of_holds hholds hinner.not_inline
      obtain ⟨above, before, after, below, hlines⟩ := exists_lines_eq_bracketed hinline hholds
      obtain ⟨depth, hline⟩ := hinner.before.after.exists_mem
      exact ⟨_, _, _, depth, hlines, List.mem_append_left _ (List.mem_append_right _ hline)⟩

/-! ## Texts -/

/-- A comment is written with a line feed after it. -/
theorem Node.commentLine_infix_render {node : Node} {words : String} (h : words ∈ node.comments)
    (depth : Nat) : (Item.commentLine words ++ "\n").toList <:+: (node.render depth).toList := by
  obtain ⟨opening, closing, entries, below, hlines, hmem⟩ := isBetween_of_mem_comments h
  obtain ⟨before, after, rfl⟩ := List.append_of_mem hmem
  have hne : (Item.commentLine words).isEmpty = false := by
    rw [Item.commentLine]
    split
    · rfl
    · rw [← Bool.not_eq_true, String.isEmpty_iff]
      simp [← String.toList_inj]
  -- What follows the line of the comment starts with a line feed, since the bracket is still open.
  have hnext (lines : List Line) : ∃ rest,
      (Line.continued depth (lines ++ [⟨0, closing⟩])).toList = '\n' :: rest := by
    have hcons (line : Line) (lines : List Line) : ∃ rest,
        (Line.continued depth (line :: lines)).toList = '\n' :: rest := by
      rw [Line.continued, String.append_assoc, String.toList_append]
      exact ⟨_, rfl⟩
    cases lines with
    | nil => exact hcons _ _
    | cons line lines => exact hcons _ _
  obtain ⟨rest, hrest⟩ := hnext (after.map Line.deeper)
  rw [render, hlines, bracketed, Line.join, List.map_append, List.map_cons, List.append_assoc,
    Line.continued_append, List.cons_append, Line.continued, Line.indented, Line.deeper]
  simp only [hne, Bool.false_eq_true, if_false, String.toList_append, hrest]
  refine ⟨opening.toList ++ ((Line.continued depth (before.map Line.deeper)).toList ++
    ("\n".toList ++ (Line.indentation (depth + (below + 1))).toList)), rest, ?_⟩
  simp

end PatternTable
