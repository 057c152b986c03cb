import Mathlib.Data.List.Chain
import PatternTable.Proofs.Tree.Indentation

/-!
# Blank lines

A blank line is kept between two items of an object only, and several in a row are one. So an empty
line has a line with something in it before it and another one after it, and neither is the line of
a bracket: in the text of a tree there are no two empty lines in a row, and none next to the line
that opens an object or to the one that closes it. An object on one line has no lines between its
brackets.

Where an object stands in a tree is told by a place, and the text around the object does not depend
on the object if it takes several lines. So its lines are found again in the text of the tree.

* `Node.Place`: a place in a tree, which `Node.Place.fill` puts a node at.
* `Line.Apart`: lines that neither start nor end with an empty line and have no two in a row.

Results:
* `Node.exists_apart_entries`: the lines between brackets are such lines.
* `Node.Place.exists_render_eq`: the text of a node at a place of a tree.
* `Node.render_indented_and_blanks_apart`: a depth only indents the text of a tree, and empty lines
  are neither in a row nor next to the brackets of an object.
-/

namespace PatternTable

open Text

/-! ## Specification -/

/-- A place in a tree. -/
inductive Node.Place where
  /-- The place of the tree itself. -/
  | here
  /-- A place in an element of an array, with the elements before and after it. -/
  | element (before : List Node) (inner : Place) (after : List Node)
  /-- A place in the value of a member, with the items before and after the member. -/
  | value (before : List Item) (key : String) (inner : Place) (remark : Option String)
    (after : List Item)

/-- The tree with a node at a place. -/
def Node.Place.fill : Node.Place → Node → Node
  | here, node => node
  | element before inner after, node => .array (before ++ inner.fill node :: after)
  | value before key inner remark after, node =>
    .object (before ++ .member key (inner.fill node) remark :: after)

/-! ## Lines with nothing empty around them -/

/-- Lines that neither start nor end with an empty line and have no two empty lines in a row. -/
structure Line.Apart (lines : List Line) : Prop where
  chain : lines.IsChain fun line next => line.text ≠ "" ∨ next.text ≠ ""
  start : ∀ line ∈ lines.head?, line.text ≠ ""
  ending : ∀ line ∈ lines.getLast?, line.text ≠ ""

namespace Line.Apart

variable {lines others : List Line}

theorem nil : Apart [] :=
  ⟨.nil, nofun, nofun⟩

theorem singleton {line : Line} (h : line.text ≠ "") : Apart [line] := by
  refine ⟨.singleton _, ?_, ?_⟩ <;> simpa using h

theorem append (h : Apart lines) (hothers : Apart others) : Apart (lines ++ others) where
  chain := List.isChain_append.2 ⟨h.chain, hothers.chain, fun line hline _ _ =>
    .inl (h.ending line hline)⟩
  start line hline := by
    rw [List.head?_append, Option.mem_def, Option.or_eq_some_iff] at hline
    exact hline.elim (h.start line) fun hline => hothers.start line hline.2
  ending line hline := by
    rw [List.getLast?_append, Option.mem_def, Option.or_eq_some_iff] at hline
    exact hline.elim (hothers.ending line) fun hline => h.ending line hline.2

/-- One empty line between two that are not is none too many. -/
theorem append_blank (h : Apart lines) (hne : lines ≠ []) (hothers : Apart others)
    (hothersNe : others ≠ []) : Apart (lines ++ ⟨0, ""⟩ :: others) where
  chain := by
    refine List.isChain_append.2 ⟨h.chain, List.isChain_cons.2 ⟨fun line hline => ?_,
      hothers.chain⟩, fun line hline _ _ => .inl (h.ending line hline)⟩
    exact .inr (hothers.start line hline)
  start line hline := by
    rw [List.head?_append_of_ne_nil _ hne] at hline
    exact h.start line hline
  ending line hline := by
    rw [List.getLast?_append, List.getLast?_cons, List.getLast?_eq_some_getLast hothersNe,
      Option.getD_some, Option.some_or, ← List.getLast?_eq_some_getLast hothersNe] at hline
    exact hothers.ending line hline

theorem bracketed {opening closing : String} (h : Apart lines) (hopening : opening ≠ "")
    (hclosing : closing ≠ "") : Apart (bracketed opening closing lines) := by
  have hdeeper : Apart (lines.map deeper) := by
    refine ⟨(List.isChain_map _).2 h.chain, fun line hline => ?_, fun line hline => ?_⟩
    · rw [List.head?_map, Option.mem_def, Option.map_eq_some_iff] at hline
      obtain ⟨inner, hinner, rfl⟩ := hline
      exact h.start inner hinner
    · rw [List.getLast?_map, Option.mem_def, Option.map_eq_some_iff] at hline
      obtain ⟨inner, hinner, rfl⟩ := hline
      exact h.ending inner hinner
  exact (singleton hopening).append (hdeeper.append (singleton hclosing))

end Line.Apart

namespace Node

/-! ## Lines of items -/

theorem itemLines_ne_nil {items : List Item} (h : (items.any fun item => !item.isBlank) = true)
    (afterContent : Bool) : itemLines afterContent items ≠ [] := by
  induction items generalizing afterContent with
  | nil => cases h
  | cons item items ih =>
    cases item with
    | member key value remark =>
      have hpos := List.length_pos_iff.2 value.lines_ne_nil
      rw [itemLines, ← List.length_pos_iff, List.length_append, Line.length_after,
        Line.length_before]
      omega
    | comment words => simp [itemLines]
    | blank =>
      rw [itemLines]
      exact List.append_ne_nil_of_right_ne_nil _ (ih (by simpa [Item.isBlank] using h) false)

/-- A blank line is not kept after an opening bracket. -/
theorem itemLines_false_blank (items : List Item) :
    itemLines false (.blank :: items) = itemLines false items := by
  rw [itemLines, Bool.false_and]
  rfl

/-- What comes before some items adds at most an empty line to their lines. -/
theorem itemLines_true_cases (items : List Item) :
    itemLines true items = itemLines false items ∨
      itemLines true items = ⟨0, ""⟩ :: itemLines false items ∧ itemLines false items ≠ [] := by
  cases items with
  | nil => exact .inl rfl
  | cons item items =>
    cases item with
    | member key value remark => exact .inl (by rw [itemLines, itemLines])
    | comment words => exact .inl (by rw [itemLines, itemLines])
    | blank =>
      rw [itemLines_false_blank]
      cases hany : items.any fun item => !item.isBlank with
      | false => exact .inl (by simp [itemLines, hany])
      | true => exact .inr ⟨by simp [itemLines, hany], itemLines_ne_nil hany false⟩

/-- Items may follow lines that end with something. -/
theorem apart_append_itemLines {lines : List Line} {items : List Item} (h : Line.Apart lines)
    (hne : lines ≠ []) (hitems : Line.Apart (itemLines false items)) :
    Line.Apart (lines ++ itemLines true items) := by
  obtain heq | ⟨heq, hitemsNe⟩ := itemLines_true_cases items
  · rw [heq]
    exact h.append hitems
  · rw [heq]
    exact h.append_blank hne hitems hitemsNe

/-! ## Lines between brackets -/

/-- A node has lines between brackets that are apart, if it takes several lines. -/
def BracketsApart (node : Node) : Prop :=
  node.isInline = false → ∃ entries, node.lines = bracketed node.opening node.closing entries ∧
    Line.Apart entries

/-- The lines of an entry, with something before and after it. -/
theorem BracketsApart.entry {node : Node} (h : node.BracketsApart) (before after : String) :
    Line.Apart (Line.after ("," ++ after) (Line.before before node.lines)) := by
  cases hinline : node.isInline with
  | true =>
    obtain ⟨text, hlines, -⟩ := exists_lines_eq hinline
    rw [hlines]
    exact .singleton (by simp)
  | false =>
    obtain ⟨entries, hlines, hentries⟩ := h hinline
    rw [hlines, before_bracketed, after_bracketed]
    have hopening : node.opening ≠ "" := by
      obtain ⟨-, -, hopening, -⟩ := exists_entries hinline
      exact hopening
    exact hentries.bracketed (by simp [hopening]) (by simp)

theorem apart_elementLines {elements : List Node}
    (h : ∀ element ∈ elements, element.BracketsApart) : Line.Apart (elementLines elements) := by
  induction elements with
  | nil => exact .nil
  | cons element elements ih =>
    rw [List.forall_mem_cons] at h
    have hentry := h.1.entry "" ""
    rw [Line.before_empty, String.append_empty] at hentry
    rw [elementLines]
    exact hentry.append (ih h.2)

theorem apart_itemLines {items : List Item}
    (h : ∀ key value remark, .member key value remark ∈ items → value.BracketsApart) :
    Line.Apart (itemLines false items) := by
  induction items with
  | nil => exact .nil
  | cons item items ih =>
    have hitems := ih fun key value remark hmem => h key value remark (List.mem_cons_of_mem _ hmem)
    cases item with
    | member key value remark =>
      rw [itemLines]
      refine apart_append_itemLines ((h key value remark List.mem_cons_self).entry _ _) ?_ hitems
      rw [← List.length_pos_iff, Line.length_after, Line.length_before, List.length_pos_iff]
      exact value.lines_ne_nil
    | comment words =>
      rw [itemLines]
      refine apart_append_itemLines (.singleton ?_) (List.cons_ne_nil _ []) hitems
      split <;> simp
    | blank => rwa [itemLines_false_blank]

/-- The lines between brackets neither start nor end with an empty line and have no two in a row. -/
theorem exists_apart_entries (node : Node) : node.BracketsApart := by
  induction node using Node.induction with
  | step node ih =>
    intro hinline
    cases node with
    | raw expression => cases hinline
    | text content => cases hinline
    | array elements =>
      exact ⟨_, lines_array hinline, apart_elementLines fun element hmem => ih _ (.element hmem)⟩
    | object items =>
      exact ⟨_, lines_object hinline, apart_itemLines fun key value remark hmem =>
        ih _ (.value hmem)⟩

theorem apart_bracketed_or_singleton (node : Node) :
    (∃ text, node.lines = [⟨0, text⟩]) ∨ Line.Apart node.lines := by
  cases hinline : node.isInline with
  | true =>
    obtain ⟨text, hlines, -⟩ := exists_lines_eq hinline
    exact .inl ⟨text, hlines⟩
  | false =>
    obtain ⟨entries, hlines, hentries⟩ := exists_apart_entries node hinline
    obtain ⟨-, -, hopening, hclosing⟩ := exists_entries hinline
    exact .inr (hlines ▸ hentries.bracketed hopening hclosing)

end Node

/-! ## Empty lines in texts -/

/-- A line of a layout is written as an empty line only if there is nothing in it. -/
theorem Line.toList_indented_eq_nil_iff (line : Line) (depth : Nat) :
    (line.indented depth).toList = [] ↔ line.text = "" := by
  rw [indented]
  split
  · next hempty => simpa [String.isEmpty_iff] using hempty
  · next hempty =>
    rw [String.isEmpty_iff] at hempty
    simp [hempty]

theorem Line.not_infix_texts {lines : List Line}
    (h : lines.IsChain fun line next => line.text ≠ "" ∨ next.text ≠ "") (depth : Nat) :
    ¬ [[], []] <:+: texts depth lines := by
  have hchain : (texts depth lines).IsChain fun line next => line ≠ [] ∨ next ≠ [] := by
    cases lines with
    | nil => exact .nil
    | cons line lines =>
      rw [List.isChain_cons] at h
      rw [texts, List.isChain_cons, List.isChain_map]
      simp only [Ne, toList_indented_eq_nil_iff]
      refine ⟨fun next hnext => ?_, h.2⟩
      rw [List.head?_map, Option.mem_def, Option.map_eq_some_iff] at hnext
      obtain ⟨other, hother, rfl⟩ := hnext
      rw [toList_indented_eq_nil_iff, String.toList_eq_nil_iff]
      exact h.1 other hother
  intro hinfix
  have htwo := hchain.infix hinfix
  simp at htwo

/-- No text has two empty lines in a row. -/
theorem Node.not_infix_rawLines {node : Node} (h : node.IsFeedless) (depth : Nat) :
    ¬ [[], []] <:+: rawLines (node.render depth).toList := by
  rw [rawLines_render h]
  refine Line.not_infix_texts ?_ depth
  obtain ⟨text, hlines⟩ | hlines := node.apart_bracketed_or_singleton
  · rw [hlines]
    exact .singleton _
  · exact hlines.chain

/-! ## Objects in trees -/

theorem Node.Place.isInline_fill (place : Node.Place) {node : Node} (h : node.isInline = false) :
    (place.fill node).isInline = false := by
  have hnests {inner : Node} (h : inner.isInline = false) : inner.nestsInline = false := by
    rw [Node.nestsInline, h, Bool.and_false]
  induction place with
  | here => exact h
  | element before inner after ih =>
    exact Node.isInline_of_holds (.element (List.mem_append_right _ List.mem_cons_self)) (hnests ih)
  | value before key inner remark after ih =>
    exact Node.isInline_of_holds (.value (List.mem_append_right _ List.mem_cons_self)) (hnests ih)

/-- A node on several lines has its text at a place of a tree, with the same text around it whatever
    the node is. -/
theorem Node.Place.exists_render_eq (place : Node.Place) (depth : Nat) :
    ∃ inner above below, ∀ node : Node, node.isInline = false →
      (place.fill node).render depth = above ++ node.render inner ++ below := by
  induction place generalizing depth with
  | here => exact ⟨depth, "", "", fun node _ => by simp [fill]⟩
  | element before place after ih =>
    obtain ⟨inner, above, below, hinner⟩ := ih (depth + 1)
    obtain ⟨lead, trail, heq⟩ := Node.exists_render_eq_of_entry "[" "]" "" ""
      (Node.elementLines before) (Node.elementLines after) depth
    refine ⟨inner, lead ++ above, below ++ trail, fun node h => ?_⟩
    have hlines := Node.lines_array_of_element (isInline_fill (.element before place after) h)
    rw [fill, heq _ _ hlines, hinner node h]
    simp only [String.append_assoc]
  | value before key place remark after ih =>
    obtain ⟨inner, above, below, hinner⟩ := ih (depth + 1)
    obtain ⟨entries, hentries⟩ := Node.exists_lines_object_of_value before key remark after
    obtain ⟨lead, trail, heq⟩ := Node.exists_render_eq_of_entry "\x7b" "\x7d" (key ++ ": ")
      ((remark.map (" " ++ ·)).getD "") entries (Node.itemLines true after) depth
    refine ⟨inner, lead ++ above, below ++ trail, fun node h => ?_⟩
    have hlines := hentries _ (isInline_fill (.value before key place remark after) h)
    rw [fill, heq _ _ hlines, hinner node h]
    simp only [String.append_assoc]

/-- The lines of an object on several lines: neither the line after the one with the opening bracket
    nor the one before the one with the closing bracket is empty. -/
theorem Node.exists_rawLines_object {items : List Item} (hinline : (object items).isInline = false)
    (h : (object items).IsFeedless) (depth : Nat) : ∃ entries : List (List Char),
      rawLines ((object items).render depth).toList =
        ['\x7b'] :: entries ++ [List.replicate (4 * depth) ' ' ++ ['\x7d']] ∧
      entries.head? ≠ some [] ∧ entries.getLast? ≠ some [] := by
  obtain ⟨entries, hlines, hentries⟩ := exists_apart_entries _ hinline
  have hne (entry : Line) (hentry : entry.text ≠ "") :
      (entry.deeper.indented depth).toList ≠ [] := by
    rwa [Ne, Line.toList_indented_eq_nil_iff]
  refine ⟨entries.map fun entry => (entry.deeper.indented depth).toList, ?_, ?_, ?_⟩
  · have hclosing : (Line.indented depth ⟨0, "\x7d"⟩).toList =
        List.replicate (4 * depth) ' ' ++ ['\x7d'] := by
      rw [Line.indented_eq (by decide), String.toList_append, Line.indentation,
        String.toList_ofList]
      rfl
    rw [rawLines_render h, hlines, opening, closing, bracketed, Line.texts, List.map_append,
      List.map_map, List.map_singleton, hclosing]
    rfl
  · rw [List.head?_map, Ne, Option.map_eq_some_iff]
    rintro ⟨entry, hentry, hempty⟩
    exact hne entry (hentries.start entry hentry) hempty
  · rw [List.getLast?_map, Ne, Option.map_eq_some_iff]
    rintro ⟨entry, hentry, hempty⟩
    exact hne entry (hentries.ending entry hentry) hempty

/-- The depth of a tree only indents its lines, and no two lines in a row are empty. At whatever
    place of a tree an object stands, its lines are among those of the tree if it takes several. The
    line after the one that opens it is not empty, and neither is the one before the one that closes
    it. -/
theorem Node.render_indented_and_blanks_apart :
    (∀ node : Node, node.IsFeedless → ∀ depth,
      rawLines (node.render depth).toList =
        indentedAfterFirst (4 * depth) (rawLines (node.render 0).toList) ∧
      ¬ [[], []] <:+: rawLines (node.render depth).toList) ∧
    ∀ (place : Place) (depth : Nat), ∃ (inner : Nat) (above below : List Char), ∀ items,
      (object items).isInline = false → (object items).IsFeedless →
      ∃ entries : List (List Char),
        rawLines ((object items).render inner).toList =
          ['\x7b'] :: entries ++ [List.replicate (4 * inner) ' ' ++ ['\x7d']] ∧
        rawLines ((place.fill (object items)).render depth).toList =
          rawLines (above ++ ['\x7b']) ++ entries ++
            rawLines (List.replicate (4 * inner) ' ' ++ '\x7d' :: below) ∧
        entries.head? ≠ some [] ∧ entries.getLast? ≠ some [] := by
  refine ⟨fun node h depth => ⟨rawLines_render_eq h depth, not_infix_rawLines h depth⟩,
    fun place depth => ?_⟩
  obtain ⟨inner, above, below, hrender⟩ := place.exists_render_eq depth
  refine ⟨inner, above.toList, below.toList, fun items hinline h => ?_⟩
  obtain ⟨entries, hlines, hfirst, hlast⟩ := exists_rawLines_object hinline h inner
  refine ⟨entries, hlines, ?_, hfirst, hlast⟩
  rw [hrender _ hinline, String.toList_append, String.toList_append, rawLines_between hlines,
    List.append_assoc (List.replicate _ _)]
  rfl

/-- An object with a blank line between two members, in the pattern list of a rule. -/
theorem Node.render_indented_and_blanks_apart_patterns :
    let rule := Node.object [.blank, .plain "match" (.raw "/a/g"), .blank, .blank,
      .plain "token" (.raw "T.A"), .blank]
    let place := Place.value [] "patterns" (.element [.raw "x"] .here []) none []
    rule.IsFeedless ∧ rule.isInline = false ∧
      (rawLines (rule.render 2).toList =
          indentedAfterFirst 8 (rawLines (rule.render 0).toList) ∧
        ¬ [[], []] <:+: rawLines (rule.render 2).toList) ∧
      ∃ inner above below entries,
        rawLines (rule.render inner).toList =
          ['\x7b'] :: entries ++ [List.replicate (4 * inner) ' ' ++ ['\x7d']] ∧
        rawLines ((place.fill rule).render 0).toList =
          rawLines (above ++ ['\x7b']) ++ entries ++
            rawLines (List.replicate (4 * inner) ' ' ++ '\x7d' :: below) ∧
        entries.head? ≠ some [] ∧ entries.getLast? ≠ some [] := by
  intro rule place
  have hfeed : rule.IsFeedless := by decide
  have hinline : rule.isInline = false := by decide
  obtain ⟨hdepth, hplace⟩ := Node.render_indented_and_blanks_apart
  obtain ⟨inner, above, below, hobject⟩ := hplace place 0
  exact ⟨hfeed, hinline, hdepth rule hfeed 2, inner, above, below, hobject _ hinline hfeed⟩

end PatternTable
