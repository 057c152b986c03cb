import PatternTable.Proofs.Tree.Nodes
import PatternTable.Tree.Layout

/-!
# Lines between brackets

A node that takes several lines has brackets with lines of their own. What it holds is between them:
each node with its own lines, whose first has the key of a member before it and whose last has a
comma after it. What is added before or after the lines of a node goes to the lines of its brackets.

* `Node.opening`, `Node.closing`: the brackets of a node.

Results:
* `Node.exists_entries`: a node that takes several lines has its brackets around the others.
* `Node.isInline_of_holds`: it does so if a node directly inside it does, or is not to be nested.
* `Node.exists_lines_eq_bracketed`: a node directly inside it has its lines between the brackets.
* `Node.exists_lines_eq_of_comment`: a comment has a line between the brackets of its object.
-/

namespace PatternTable

/-- The bracket before what a node holds. -/
def Node.opening : Node → String
  | .raw _ => ""
  | .text _ => ""
  | .array _ => "["
  | .object _ => "\x7b"

/-- The bracket after what a node holds. -/
def Node.closing : Node → String
  | .raw _ => ""
  | .text _ => ""
  | .array _ => "]"
  | .object _ => "\x7d"

theorem Node.closing_ne_empty {node inner : Node} (h : node.Holds inner) : node.closing ≠ "" := by
  cases h <;> simp [closing]

/-! ## What is added to brackets -/

theorem Line.before_empty (lines : List Line) : before "" lines = lines := by
  cases lines with
  | nil => rfl
  | cons line lines => rw [before, String.empty_append]

theorem before_bracketed (text opening closing : String) (entries : List Line) :
    Line.before text (bracketed opening closing entries) =
      bracketed (text ++ opening) closing entries :=
  rfl

theorem after_bracketed (text opening closing : String) (entries : List Line) :
    Line.after text (bracketed opening closing entries) =
      bracketed opening (closing ++ text) entries := by
  have hlast (lines : List Line) (last : Line) : Line.after text (lines ++ [last]) =
      lines ++ [⟨last.depth, last.text ++ text⟩] := by
    induction lines with
    | nil => rfl
    | cons line lines ih =>
      rw [List.cons_append, Line.after, ih]
      · rfl
      · simp
  exact hlast (⟨0, opening⟩ :: entries.map Line.deeper) ⟨0, closing⟩

theorem Line.continued_append (depth : Nat) (lines others : List Line) :
    continued depth (lines ++ others) = continued depth lines ++ continued depth others := by
  induction lines with
  | nil => exact String.empty_append.symm
  | cons line lines ih =>
    rw [List.cons_append, continued, continued, ih]
    simp only [String.append_assoc]

namespace Node

/-! ## Nodes on one line -/

theorem isInline_array_iff {elements : List Node} : (array elements).isInline ↔
    elements = [] ∨ ∃ only, elements = [only] ∧ only.nestsInline := by
  rcases elements with _ | ⟨only, _ | ⟨next, rest⟩⟩ <;> simp [isInline, nestsInline]

theorem isInline_object_iff {items : List Item} : (object items).isInline ↔
    items = [] ∨ ∃ key value remark, items = [.member key value remark] ∧ value.nestsInline := by
  rcases items with _ | ⟨⟨key, value, remark⟩ | words | _, _ | ⟨next, rest⟩⟩ <;>
    simp [isInline, nestsInline]

theorem isInline_of_nestsInline {node : Node} (h : node.nestsInline) : node.isInline := by
  rw [nestsInline, Bool.and_eq_true] at h
  exact h.2

/-- A node does not take one line if what it holds cannot share a line with its brackets. -/
theorem isInline_of_holds {node inner : Node} (hholds : node.Holds inner)
    (h : inner.nestsInline = false) : node.isInline = false := by
  rw [Bool.eq_false_iff]
  intro hinline
  have hnests : inner.nestsInline := by
    cases hholds with
    | element hmem =>
      obtain rfl | ⟨only, rfl, hnests⟩ := isInline_array_iff.1 hinline
      · cases hmem
      · rwa [List.mem_singleton.1 hmem]
    | value hmem =>
      obtain rfl | ⟨key, value, remark, rfl, hnests⟩ := isInline_object_iff.1 hinline
      · cases hmem
      · rwa [(Item.member.inj (List.mem_singleton.1 hmem)).2.1]
  rw [h] at hnests
  cases hnests

/-! ## Nodes on several lines -/

theorem lines_array {elements : List Node} (h : (array elements).isInline = false) :
    (array elements).lines = bracketed "[" "]" (elementLines elements) := by
  rcases elements with _ | ⟨only, _ | ⟨next, rest⟩⟩
  · simp [isInline] at h
  · have hnests : only.nestsInline = false := by rwa [isInline] at h
    rw [lines, hnests, elementLines, elementLines, List.append_nil]
    rfl
  · simp only [lines]

theorem lines_object {items : List Item} (h : (object items).isInline = false) :
    (object items).lines = bracketed "\x7b" "\x7d" (itemLines false items) := by
  rcases items with _ | ⟨⟨key, value, remark⟩ | words | _, _ | ⟨next, rest⟩⟩
  · simp [isInline] at h
  · have hnests : value.nestsInline = false := by rwa [isInline] at h
    rw [lines, hnests, itemLines, itemLines, List.append_nil]
    rfl
  all_goals simp only [lines]

/-- A node that takes several lines has the others between the lines of its brackets. -/
theorem exists_entries {node : Node} (h : node.isInline = false) : ∃ entries,
    node.lines = bracketed node.opening node.closing entries ∧ node.opening ≠ "" ∧
      node.closing ≠ "" := by
  cases node with
  | raw expression => simp [isInline] at h
  | text content => simp [isInline] at h
  | array elements => exact ⟨_, lines_array h, by simp [opening], by simp [closing]⟩
  | object items => exact ⟨_, lines_object h, by simp [opening], by simp [closing]⟩

theorem elementLines_append (elements others : List Node) :
    elementLines (elements ++ others) = elementLines elements ++ elementLines others := by
  induction elements with
  | nil => rfl
  | cons element elements ih =>
    rw [List.cons_append, elementLines, elementLines, ih, List.append_assoc]

/-- Whether a blank line is kept depends on what comes before it, and on there being content after
    it. The other lines of an item are the same wherever it stands. -/
theorem exists_itemLines_append (afterContent : Bool) (items : List Item) :
    ∃ above next, ∀ others, (others.any fun item => !item.isBlank) = true →
      itemLines afterContent (items ++ others) = above ++ itemLines next others := by
  induction items generalizing afterContent with
  | nil => exact ⟨[], afterContent, fun _ _ => rfl⟩
  | cons item items ih =>
    have hrest (lines : List Line) (next : Bool) : ∃ above last, ∀ others,
        (others.any fun item => !item.isBlank) = true →
          lines ++ itemLines next (items ++ others) = above ++ itemLines last others := by
      obtain ⟨above, last, heq⟩ := ih next
      exact ⟨lines ++ above, last, fun others h => by rw [heq others h, List.append_assoc]⟩
    simp only [List.cons_append]
    cases item with
    | member key value remark => simp only [itemLines]; exact hrest _ true
    | comment words => simp only [itemLines]; exact hrest [_] true
    | blank =>
      obtain ⟨above, last, heq⟩ := hrest (if afterContent then [⟨0, ""⟩] else []) false
      refine ⟨above, last, fun others h => ?_⟩
      rw [← heq others h, itemLines, List.any_append, h, Bool.or_true, Bool.and_true]

/-- An element of an array on several lines has its lines between the brackets. -/
theorem lines_array_of_element {before after : List Node} {inner : Node}
    (h : (array (before ++ inner :: after)).isInline = false) :
    (array (before ++ inner :: after)).lines = bracketed "[" "]"
      (elementLines before ++ Line.after ("," ++ "") (Line.before "" inner.lines) ++
        elementLines after) := by
  rw [lines_array h, elementLines_append, elementLines, Line.before_empty, String.append_empty,
    List.append_assoc]

/-- The value of a member of an object on several lines has its lines between the brackets. What
    stands above them does not depend on the value. -/
theorem exists_lines_object_of_value (before : List Item) (key : String) (remark : Option String)
    (after : List Item) : ∃ above, ∀ inner : Node,
      (object (before ++ .member key inner remark :: after)).isInline = false →
      (object (before ++ .member key inner remark :: after)).lines = bracketed "\x7b" "\x7d"
        (above ++ Line.after ("," ++ (remark.map (" " ++ ·)).getD "")
          (Line.before (key ++ ": ") inner.lines) ++ itemLines true after) := by
  obtain ⟨above, next, heq⟩ := exists_itemLines_append false before
  refine ⟨above, fun inner h => ?_⟩
  rw [lines_object h, heq _ (by simp [Item.isBlank]), itemLines, List.append_assoc]

/-- If a node takes several lines, a node directly inside it has its lines between the brackets,
    with a comma at their end. -/
theorem exists_lines_eq_bracketed {node inner : Node} (hinline : node.isInline = false)
    (hholds : node.Holds inner) : ∃ above before after below,
      node.lines = bracketed node.opening node.closing
        (above ++ Line.after ("," ++ after) (Line.before before inner.lines) ++ below) := by
  cases hholds with
  | @element elements _ h =>
    obtain ⟨above, below, rfl⟩ := List.append_of_mem h
    exact ⟨_, _, _, _, lines_array_of_element hinline⟩
  | @value items key _ remark h =>
    obtain ⟨items, others, rfl⟩ := List.append_of_mem h
    obtain ⟨above, heq⟩ := exists_lines_object_of_value items key remark others
    exact ⟨_, _, _, _, heq inner hinline⟩

/-- If an object has a comment between its items, the comment has a line between the brackets. -/
theorem exists_lines_eq_of_comment {items : List Item} {words : String}
    (h : .comment words ∈ items) : ∃ above below, (object items).lines = bracketed "\x7b" "\x7d"
      (above ++ ⟨0, if words.isEmpty then "//" else "// " ++ words⟩ :: below) := by
  have hinline : (object items).isInline = false := by
    rw [Bool.eq_false_iff]
    intro hinline
    obtain rfl | ⟨key, value, remark, rfl, -⟩ := isInline_object_iff.1 hinline <;> simp at h
  obtain ⟨items, others, rfl⟩ := List.append_of_mem h
  obtain ⟨above, next, heq⟩ := exists_itemLines_append false items
  exact ⟨above, itemLines true others, by
    rw [lines_object hinline, heq _ (by simp [Item.isBlank]), itemLines]⟩

end Node

end PatternTable
