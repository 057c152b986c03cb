import PatternTable.Proofs.Text.Lines
import PatternTable.Proofs.Tree.Brackets

/-!
# The lines of a layout

What a tree has in it as it is, and not quoted, is written into the lines of its layout. If each
such text is one line, so is every line of the layout. The lines after the first are indented or
have the closing bracket of the tree, so none of them starts like a comment.

* `Node.words` are the texts that a tree has in it as they are.

Results:
* `Node.allLines_lines`: what the texts in a tree have, the lines of its layout have.
* `Node.isLine_lines`: the lines of a layout are lines if the texts in the tree are.
* `Node.isCode_render`: a tree that is rendered at the start of a line is made of lines of code.
-/

namespace PatternTable

open Text

/-! ## Specification -/

mutual

/-- The texts that a tree has in it as they are. -/
def Node.words : Node → List String
  | .raw expression => [expression]
  | .text _ => []
  | .array elements => Node.elementWords elements
  | .object items => Node.itemWords items

/-- The texts that some elements have in them. -/
def Node.elementWords : List Node → List String
  | [] => []
  | element :: elements => element.words ++ Node.elementWords elements

/-- The texts that some items have in them. -/
def Node.itemWords : List Item → List String
  | [] => []
  | item :: items => item.words ++ Node.itemWords items

/-- The texts that an item has in it. -/
def Item.words : Item → List String
  | .member key value remark => key :: (value.words ++ remark.toList)
  | .comment words => [words]
  | .blank => []

end

/-- Every text is one line. -/
def AreLines (words : List String) : Prop :=
  ∀ word ∈ words, IsLine word.toList

/-! ## Texts -/

theorem Node.elementWords_eq (elements : List Node) :
    elementWords elements = elements.flatMap words := by
  induction elements with
  | nil => rfl
  | cons element elements ih => rw [elementWords, ih, List.flatMap_cons]

theorem Node.itemWords_eq (items : List Item) : itemWords items = items.flatMap Item.words := by
  induction items with
  | nil => rfl
  | cons item items ih => rw [itemWords, ih, List.flatMap_cons]

section Words

variable {p : String → Prop}

theorem Node.forall_mem_words_array {elements : List Node} :
    (∀ word ∈ (array elements).words, p word) ↔
      ∀ element ∈ elements, ∀ word ∈ element.words, p word := by
  simp only [words, elementWords_eq, List.forall_mem_flatMap]

theorem Node.forall_mem_words_object {items : List Item} :
    (∀ word ∈ (object items).words, p word) ↔ ∀ item ∈ items, ∀ word ∈ item.words, p word := by
  simp only [words, itemWords_eq, List.forall_mem_flatMap]

theorem Item.forall_mem_words_member {key : String} {value : Node} {remark : Option String} :
    (∀ word ∈ (member key value remark).words, p word) ↔
      p key ∧ (∀ word ∈ value.words, p word) ∧ ∀ word ∈ remark.toList, p word := by
  simp only [words, List.forall_mem_cons, List.forall_mem_append]

end Words

theorem areLines_array_iff {elements : List Node} :
    AreLines (Node.array elements).words ↔ ∀ element ∈ elements, AreLines element.words :=
  Node.forall_mem_words_array

theorem areLines_object_iff {items : List Item} :
    AreLines (Node.object items).words ↔ ∀ item ∈ items, AreLines item.words :=
  Node.forall_mem_words_object

theorem areLines_member_iff {key : String} {value : Node} {remark : Option String} :
    AreLines (Item.member key value remark).words ↔
      IsLine key.toList ∧ AreLines value.words ∧ AreLines remark.toList :=
  Item.forall_mem_words_member

theorem areLines_plain_iff {key : String} {value : Node} :
    AreLines (Item.plain key value).words ↔ IsLine key.toList ∧ AreLines value.words := by
  rw [Item.plain, areLines_member_iff]
  simp [AreLines]

theorem areLines_raw_iff {expression : String} :
    AreLines (Node.raw expression).words ↔ IsLine expression.toList := by
  simp [AreLines, Node.words]

/-! ## Lines -/

/-- A property of texts that what a layout writes of its own has, and that texts keep when they are
    put together. -/
structure Text.IsJoined (p : String → Prop) : Prop where
  concat {a b : String} (ha : p a) (hb : p b) : p (a ++ b)
  ofLine {text : String} (h : IsLine text.toList) : p text

namespace Text.IsJoined

variable {p : String → Prop}

theorem literal (hp : IsJoined p) {text : List Char} (h : IsLine text) : p (String.ofList text) :=
  hp.ofLine (.literal h)

/-- What stands after the value of a member has the property if the remark has. -/
theorem remark (hp : IsJoined p) {remark : Option String} {separator : String}
    (h : ∀ words ∈ remark.toList, p words) (hseparator : p separator) :
    p ((remark.map (separator ++ ·)).getD "") := by
  cases remark with
  | none => exact hp.literal (by decide)
  | some words => exact hp.concat hseparator (h words (by simp))

end Text.IsJoined

/-- Every line of a layout has a property. -/
def Line.AllLines (p : String → Prop) (lines : List Line) : Prop :=
  ∀ line ∈ lines, p line.text

namespace Line.AllLines

variable {p : String → Prop} {lines others : List Line} {text : String}

theorem singleton {depth : Nat} (h : p text) : AllLines p [⟨depth, text⟩] := by
  intro line hline
  rw [List.mem_singleton.1 hline]
  exact h

theorem append (h : AllLines p lines) (hothers : AllLines p others) :
    AllLines p (lines ++ others) :=
  fun line hline => (List.mem_append.1 hline).elim (h line) (hothers line)

theorem before (hp : IsJoined p) (h : AllLines p lines) (htext : p text) :
    AllLines p (Line.before text lines) := by
  cases lines with
  | nil => exact h
  | cons line lines =>
    rw [AllLines, List.forall_mem_cons] at h
    rw [AllLines, Line.before, List.forall_mem_cons]
    exact ⟨hp.concat htext h.1, h.2⟩

theorem after (hp : IsJoined p) (h : AllLines p lines) (htext : p text) :
    AllLines p (Line.after text lines) := by
  fun_induction Line.after text lines with
  | case1 => exact h
  | case2 line =>
    rw [AllLines, List.forall_mem_cons] at h
    exact singleton (hp.concat h.1 htext)
  | case3 line lines hne ih =>
    rw [AllLines, List.forall_mem_cons] at h ⊢
    exact ⟨h.1, ih h.2⟩

theorem bracketed {opening closing : String} (h : AllLines p lines) (hopening : p opening)
    (hclosing : p closing) : AllLines p (bracketed opening closing lines) := by
  rw [AllLines, PatternTable.bracketed, List.forall_mem_cons]
  refine ⟨hopening, append (fun line hline => ?_) (singleton hclosing)⟩
  obtain ⟨inner, hinner, rfl⟩ := List.mem_map.1 hline
  exact h inner hinner

end Line.AllLines

section Lines

variable {p : String → Prop} (hp : IsJoined p)

include hp

mutual

/-- What the texts in a tree have, the lines of its layout have. -/
theorem Node.allLines_lines : (node : Node) → (∀ word ∈ node.words, p word) →
    Line.AllLines p node.lines
  | .raw expression, h => by
    rw [lines]
    exact .singleton (h expression (by simp [words]))
  | .text content, _ => by
    rw [lines]
    exact .singleton (hp.ofLine (isLine_quote content))
  | .array [], _ => by
    rw [lines]
    exact .singleton (hp.literal (by decide))
  | .array [only], h => by
    rw [forall_mem_words_array, List.forall_mem_singleton] at h
    have hlines := allLines_lines only h
    rw [lines]
    split
    · exact (hlines.before hp (hp.literal (by decide))).after hp (hp.literal (by decide))
    · exact (hlines.after hp (hp.literal (by decide))).bracketed (hp.literal (by decide))
        (hp.literal (by decide))
  | .array (first :: second :: rest), h => by
    rw [words] at h
    simp only [lines]
    exact (allLines_elementLines (first :: second :: rest) h).bracketed (hp.literal (by decide))
      (hp.literal (by decide))
  | .object [], _ => by
    rw [lines]
    exact .singleton (hp.literal (by decide))
  | .object [.member key value remark], h => by
    rw [forall_mem_words_object, List.forall_mem_singleton, Item.forall_mem_words_member] at h
    obtain ⟨hkey, hvalue, hremark⟩ := h
    have hlines := allLines_lines value hvalue
    rw [lines]
    split
    · exact (hlines.before hp (hp.concat (hp.concat (hp.literal (by decide)) hkey)
        (hp.literal (by decide)))).after hp
          (hp.concat (hp.remark hremark (hp.literal (by decide))) (hp.literal (by decide)))
    · exact ((hlines.before hp (hp.concat hkey (hp.literal (by decide)))).after hp
        (hp.concat (hp.literal (by decide))
          (hp.remark hremark (hp.literal (by decide))))).bracketed
            (hp.literal (by decide)) (hp.literal (by decide))
  | .object [.comment _], h => by
    rw [words] at h
    simp only [lines]
    exact (allLines_itemLines false _ h).bracketed (hp.literal (by decide))
      (hp.literal (by decide))
  | .object [.blank], h => by
    rw [words] at h
    simp only [lines]
    exact (allLines_itemLines false _ h).bracketed (hp.literal (by decide))
      (hp.literal (by decide))
  | .object (first :: second :: rest), h => by
    rw [words] at h
    simp only [lines]
    exact (allLines_itemLines false (first :: second :: rest) h).bracketed
      (hp.literal (by decide)) (hp.literal (by decide))

theorem Node.allLines_elementLines : (elements : List Node) →
    (∀ word ∈ elementWords elements, p word) → Line.AllLines p (elementLines elements)
  | [], _ => by simp [elementLines, Line.AllLines]
  | element :: elements, h => by
    rw [elementWords, List.forall_mem_append] at h
    rw [elementLines]
    exact ((allLines_lines element h.1).after hp (hp.literal (by decide))).append
      (allLines_elementLines elements h.2)

theorem Node.allLines_itemLines : (afterContent : Bool) → (items : List Item) →
    (∀ word ∈ itemWords items, p word) → Line.AllLines p (itemLines afterContent items)
  | _, [], _ => by simp [itemLines, Line.AllLines]
  | afterContent, .member key value remark :: items, h => by
    rw [itemWords, List.forall_mem_append, Item.forall_mem_words_member] at h
    obtain ⟨⟨hkey, hvalue, hremark⟩, hitems⟩ := h
    rw [itemLines]
    exact (((allLines_lines value hvalue).before hp (hp.concat hkey (hp.literal (by decide)))).after
      hp (hp.concat (hp.literal (by decide)) (hp.remark hremark (hp.literal (by decide))))).append
        (allLines_itemLines true items hitems)
  | afterContent, .comment _ :: items, h => by
    rw [itemWords, Item.words, List.forall_mem_append, List.forall_mem_singleton] at h
    rw [itemLines]
    refine (Line.AllLines.singleton ?_).append (allLines_itemLines true items h.2)
    split
    · exact hp.literal (by decide)
    · exact hp.concat (hp.literal (by decide)) h.1
  | afterContent, .blank :: items, h => by
    rw [itemWords, Item.words, List.nil_append] at h
    rw [itemLines]
    refine Line.AllLines.append ?_ (allLines_itemLines false items h)
    split
    · exact .singleton (hp.literal (by decide))
    · simp [Line.AllLines]

end

end Lines

/-- If the texts that a tree has in it are lines, so are the lines of its layout. -/
theorem Node.isLine_lines (node : Node) (h : AreLines node.words) :
    Line.AllLines (fun text => IsLine text.toList) node.lines :=
  allLines_lines ⟨fun ha hb => ha.concat hb, id⟩ node h

/-! ## Lines after the first -/

theorem Node.isCode_closing (node : Node) : IsCode node.closing.toList := by
  cases node <;> exact .literal (by decide)

namespace Line

/-- A line that is indented starts with a blank, if it is not empty. -/
theorem isCode_indented {line : Line} (h : IsLine line.text.toList) (hdepth : 0 < line.depth) :
    IsCode (line.indented 0).toList := by
  rw [indented]
  split
  · exact .literal (by decide)
  · have hblanks : ∀ c ∈ List.replicate (4 * (0 + line.depth)) ' ', c = ' ' :=
      fun c hc => List.eq_of_mem_replicate hc
    have hcode : IsCode (List.replicate (4 * (0 + line.depth)) ' ') := by
      refine ⟨.of_forall fun c hc => ?_, fun hhead => ?_⟩
      · rw [hblanks c hc]
        decide
      · exact absurd (hblanks '/' (List.mem_of_head? hhead)) (by decide)
    have hne : (indentation (0 + line.depth)).toList ≠ [] := by
      rw [indentation, String.toList_ofList, Ne, List.replicate_eq_nil_iff]
      omega
    exact (IsCode.literal hcode).concat_of_ne_nil hne h

/-- A line that is not indented is as it is. -/
theorem isCode_indented_zero {text : String} (h : IsCode text.toList) :
    IsCode (indented 0 ⟨0, text⟩).toList := by
  rw [indented]
  split
  · exact .literal (by decide)
  · have hempty : IsCode (String.ofList []).toList := .literal (by decide)
    exact hempty.concat h

theorem isCode_continued {first last : String} {lines : List Line} (hfirst : IsCode first.toList)
    (hlines : ∀ line ∈ lines, IsCode (line.indented 0).toList) (hlast : IsCode last.toList) :
    ∀ line ∈ rawLines (first ++ continued 0 lines ++ last).toList, IsCode line := by
  induction lines generalizing first with
  | nil =>
    have hline := hfirst.concat hlast
    rw [continued, String.append_empty, rawLines_of_not_mem hline.feed, List.forall_mem_singleton]
    exact hline
  | cons next lines ih =>
    rw [List.forall_mem_cons] at hlines
    have htext : (first ++ continued 0 (next :: lines) ++ last).toList =
        first.toList ++ '\n' :: (next.indented 0 ++ continued 0 lines ++ last).toList := by
      simp [continued]
    rw [htext, rawLines_append_newline, rawLines_of_not_mem hfirst.feed, List.forall_mem_append,
      List.forall_mem_singleton]
    exact ⟨hfirst, ih hlines.1 hlines.2⟩

end Line

/-- A tree that is rendered after a text is made of lines of code, if the text is code and the texts
    in the tree are lines. -/
theorem Node.isCode_render {node : Node} (h : AreLines node.words) {first last : String}
    (hfirst : IsCode first.toList) (hne : first.toList ≠ []) (hlast : IsCode last.toList) :
    ∀ line ∈ rawLines (first ++ node.render 0 ++ last).toList, IsCode line := by
  have hlines := isLine_lines node h
  -- Only the first line goes on from the text. Those after it are the tree's own.
  have htail : ∀ line ∈ node.lines.tail, IsCode (line.indented 0).toList := by
    intro line hline
    cases hinline : node.isInline with
    | true =>
      have hlength := (length_lines_eq_one_iff node).2 hinline
      obtain ⟨only, honly⟩ := List.length_eq_one_iff.1 hlength
      simp [honly] at hline
    | false =>
      obtain ⟨entries, hbracketed, -, -⟩ := exists_entries hinline
      have hmem := hlines line (List.mem_of_mem_tail hline)
      rw [hbracketed, bracketed, List.tail_cons, List.mem_append, List.mem_singleton] at hline
      obtain hline | rfl := hline
      · obtain ⟨entry, -, rfl⟩ := List.mem_map.1 hline
        exact Line.isCode_indented hmem (Nat.succ_pos _)
      · exact Line.isCode_indented_zero (isCode_closing node)
  rw [render]
  cases hnode : node.lines with
  | nil => exact absurd hnode (lines_ne_nil node)
  | cons line lines =>
    rw [hnode] at hlines htail
    rw [Line.AllLines, List.forall_mem_cons] at hlines
    rw [Line.join, ← String.append_assoc]
    exact Line.isCode_continued (hfirst.concat_of_ne_nil hne hlines.1) htail hlast

end PatternTable
