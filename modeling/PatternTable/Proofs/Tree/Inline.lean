import PatternTable.Proofs.Tree.Lines

/-!
# Trees on one line

Whether a tree takes one line is decided before it is laid out, and the layout agrees: the text of a
tree has a line feed exactly if the tree is not inline. The expressions, keys and block comments in
it must not have one of their own, for they are written as they are; texts are quoted, and a line
comment ends its line in any case. An object with a block comment in it is not written between the
brackets of what holds it, even if it takes one line itself: the brackets have lines of their own.

* `Node.IsUnbroken`: what is written as it is has no line feed.

Results:
* `Node.isInline_cases`: a node that takes one line holds no other, or one on the same line.
* `Node.exists_render_infix_of_mem_nodes`: a node has its text in that of the tree.
* `Node.isInline_iff_no_feed_and_remarked_on_own_line`: a tree is inline if its text has no line
  feed, and a remarked object has lines of its own.
-/

namespace PatternTable

/-! ## Specification -/

/-- The expressions, keys and block comments in a tree have no line feed. Its line comments may have
    some. -/
structure Node.IsUnbroken (node : Node) : Prop where
  expression : ∀ expression, .raw expression ∈ node.nodes → '\n' ∉ expression.toList
  key : ∀ items, .object items ∈ node.nodes → ∀ key value remark,
    .member key value remark ∈ items → '\n' ∉ key.toList
  remark : ∀ items, .object items ∈ node.nodes → ∀ key value words,
    .member key value (some words) ∈ items → '\n' ∉ words.toList

/-! ## Nodes on one line -/

theorem Node.IsUnbroken.of_holds {node inner : Node} (h : node.IsUnbroken)
    (hholds : node.Holds inner) : inner.IsUnbroken := by
  have hsub {found : Node} (hfound : found ∈ inner.nodes) : found ∈ node.nodes :=
    mem_nodes_iff.2 (.inr ⟨inner, hholds, hfound⟩)
  exact ⟨fun expression hmem => h.expression expression (hsub hmem),
    fun items hmem => h.key items (hsub hmem), fun items hmem => h.remark items (hsub hmem)⟩

/-- A node that takes one line holds no other, or has the line of the only node that it holds
    between its brackets. -/
theorem Node.isInline_cases {node : Node} (h : node.isInline) :
    (∃ text, node.lines = [⟨0, text⟩] ∧ (∀ inner, ¬ node.Holds inner) ∧
      (node.IsUnbroken → '\n' ∉ text.toList)) ∨
    ∃ only before after, (∀ inner, node.Holds inner ↔ inner = only) ∧ only.nestsInline ∧
      node.lines = Line.after after (Line.before before only.lines) ∧
      (node.IsUnbroken → '\n' ∉ before.toList ∧ '\n' ∉ after.toList) := by
  cases node with
  | raw expression =>
    exact .inl ⟨expression, by rw [lines], nofun, fun h => h.expression _ (mem_nodes_self _)⟩
  | text content =>
    exact .inl ⟨_, by rw [lines], nofun, fun _ => (Text.isLine_quote content).feed⟩
  | array elements =>
    obtain rfl | ⟨only, rfl, hnests⟩ := isInline_array_iff.1 h
    · exact .inl ⟨_, by rw [lines], nofun, fun _ => by decide⟩
    · exact .inr ⟨only, "[", "]", fun inner => holds_array_iff.trans List.mem_singleton, hnests,
        by rw [lines, if_pos hnests], fun _ => by decide⟩
  | object items =>
    obtain rfl | ⟨key, value, remark, rfl, hnests⟩ := isInline_object_iff.1 h
    · exact .inl ⟨_, by rw [lines], nofun, fun _ => by decide⟩
    · refine .inr ⟨value, "\x7b " ++ key ++ ": ", (remark.map (", " ++ ·)).getD "" ++ " \x7d",
        fun inner => ?_, hnests, by rw [lines, if_pos hnests], fun hbroken => ⟨?_, ?_⟩⟩
      · simp [holds_object_iff]
      · simpa using hbroken.key _ (mem_nodes_self _) _ _ _ List.mem_cons_self
      · cases remark with
        | none => decide
        | some words => simpa using hbroken.remark _ (mem_nodes_self _) _ _ _ List.mem_cons_self

/-- A node that takes one line has no line feed in it but those of its expressions, keys and block
    comments. -/
theorem Node.exists_lines_eq {node : Node} (h : node.isInline) : ∃ text : String,
    node.lines = [⟨0, text⟩] ∧ (node.IsUnbroken → '\n' ∉ text.toList) := by
  induction node using Node.induction with
  | step node ih =>
    obtain ⟨text, hlines, -, htext⟩ | ⟨only, before, after, hholds, hnests, hlines, hends⟩ :=
      isInline_cases h
    · exact ⟨text, hlines, htext⟩
    · have honly : node.Holds only := (hholds only).2 rfl
      obtain ⟨text, honlyLines, htext⟩ := ih only honly (isInline_of_nestsInline hnests)
      refine ⟨before ++ text ++ after, by rw [hlines, honlyLines]; rfl, fun hbroken => ?_⟩
      simp [htext (hbroken.of_holds honly), hends hbroken]

namespace Line

theorem join_singleton (depth : Nat) (text : String) : join depth [⟨0, text⟩] = text := by
  rw [join, continued, String.append_empty]

/-- The text of several lines has a line feed. -/
theorem feed_mem_join {depth : Nat} {lines : List Line} (h : 1 < lines.length) :
    '\n' ∈ (join depth lines).toList := by
  rcases lines with _ | ⟨first, _ | ⟨second, rest⟩⟩
  · simp at h
  · simp at h
  · simp [join, continued]

/-- The text of a tree has its first line as it is and the others indented. -/
theorem join_cons (depth : Nat) (line : Line) (lines : List Line) :
    join depth (line :: lines) = Text.unlines (line.text :: lines.map (indented depth)) := by
  have hcontinued (first : String) : first ++ continued depth lines =
      Text.unlines (first :: lines.map (indented depth)) := by
    induction lines generalizing first with
    | nil => rw [continued, String.append_empty]; exact String.intercalate_singleton.symm
    | cons next lines ih =>
      rw [List.map_cons, Text.unlines, String.intercalate_cons_cons, ← Text.unlines, ← ih,
        continued]
      simp only [String.append_assoc]
  exact hcontinued line.text

end Line

/-- A node takes one line exactly if its text has no line feed. -/
theorem Node.isInline_iff {node : Node} (h : node.IsUnbroken) (depth : Nat) :
    node.isInline ↔ '\n' ∉ (node.render depth).toList := by
  constructor
  · intro hinline
    obtain ⟨text, hlines, htext⟩ := exists_lines_eq hinline
    rw [render, hlines, Line.join_singleton]
    exact htext h
  · intro hfeed
    rw [← length_lines_eq_one_iff]
    have hpos := List.length_pos_iff.2 node.lines_ne_nil
    have hlength := mt Line.feed_mem_join hfeed
    omega

/-! ## Nodes between brackets -/

theorem Line.indented_eq {text : String} (h : text ≠ "") (depth below : Nat) :
    indented depth ⟨below, text⟩ = indentation (depth + below) ++ text := by
  rw [indented, if_neg (by rwa [String.isEmpty_iff])]

/-- A node that takes one line and cannot share it with the brackets around it has a line between
    the lines of the brackets. -/
theorem Node.exists_render_eq {node inner : Node} (hholds : node.Holds inner)
    (hremarked : inner.isRemarked) (hinline : inner.isInline) (depth : Nat) :
    ∃ above before after below, node.render depth = Text.unlines ([node.opening] ++ above ++
      [before ++ inner.render (depth + 1) ++ after] ++ below ++
        [Line.indentation depth ++ node.closing]) := by
  obtain ⟨text, htext, -⟩ := exists_lines_eq hinline
  have hnests : inner.nestsInline = false := by rw [nestsInline, hremarked]; rfl
  obtain ⟨above, before, after, below, hlines⟩ :=
    exists_lines_eq_bracketed (isInline_of_holds hholds hnests) hholds
  have hentry : before ++ text ++ ("," ++ after) ≠ "" := by simp
  rw [render, hlines, bracketed, Line.join_cons, render, htext, Line.join_singleton]
  refine ⟨(above.map Line.deeper).map (Line.indented depth), Line.indentation (depth + 1) ++ before,
    "," ++ after, (below.map Line.deeper).map (Line.indented depth), ?_⟩
  have hline : Line.indented depth (Line.deeper ⟨0, before ++ text ++ ("," ++ after)⟩) =
      Line.indentation (depth + 1) ++ before ++ text ++ ("," ++ after) := by
    rw [Line.deeper, Line.indented_eq hentry]
    simp only [String.append_assoc]
  simp only [Line.before, Line.after, List.map_append, List.map_cons, List.map_nil, hline,
    Line.indented_eq (closing_ne_empty hholds), Nat.add_zero, List.append_assoc,
    List.nil_append, List.cons_append]

/-! ## Nodes in trees -/

theorem Line.continued_deeper (depth : Nat) (lines : List Line) :
    continued depth (lines.map deeper) = continued (depth + 1) lines := by
  induction lines with
  | nil => rfl
  | cons line lines ih =>
    have hindented : indented depth line.deeper = indented (depth + 1) line := by
      rw [indented, indented, deeper, Nat.add_assoc, Nat.add_comm 1]
    rw [List.map_cons, continued, continued, ih, hindented]

/-- A node on lines of its own, with something before and after it, has its text there. -/
theorem Node.continued_entry (node : Node) (depth : Nat) (before after : String) :
    Line.continued depth (Line.after ("," ++ after) (Line.before before node.lines)) =
      "\n" ++ (Line.indentation depth ++ before) ++ node.render depth ++ ("," ++ after) := by
  cases hinline : node.isInline with
  | true =>
    obtain ⟨text, hlines, -⟩ := exists_lines_eq hinline
    have hentry : before ++ text ++ ("," ++ after) ≠ "" := by simp
    rw [render, hlines, Line.join_singleton, Line.before, Line.after, Line.continued,
      Line.continued, Line.indented_eq hentry]
    simp only [String.append_assoc, String.append_empty, Nat.add_zero]
  | false =>
    obtain ⟨entries, hlines, hopening, hclosing⟩ := exists_entries hinline
    have hfirst : before ++ node.opening ≠ "" := by simp [hopening]
    have hlast : node.closing ++ ("," ++ after) ≠ "" := by simp
    rw [render, hlines, before_bracketed, after_bracketed, bracketed, bracketed, Line.join,
      Line.continued, Line.continued_append, Line.continued_append, Line.indented_eq hfirst]
    simp only [Line.continued, Line.indented_eq hlast, Line.indented_eq hclosing,
      String.append_assoc, String.append_empty, Nat.add_zero]

/-- If a node has the lines of another one between its brackets, it has its text there. The text
    around it is the same for all nodes with the same lines around. -/
theorem Node.exists_render_eq_of_entry (opening closing before after : String)
    (above below : List Line) (depth : Nat) : ∃ lead trail, ∀ node inner : Node,
      node.lines = bracketed opening closing
        (above ++ Line.after ("," ++ after) (Line.before before inner.lines) ++ below) →
      node.render depth = lead ++ inner.render (depth + 1) ++ trail := by
  refine ⟨opening ++ Line.continued (depth + 1) above ++
      ("\n" ++ (Line.indentation (depth + 1) ++ before)),
    "," ++ after ++ Line.continued (depth + 1) below ++ Line.continued depth [⟨0, closing⟩],
    fun node inner h => ?_⟩
  rw [render.eq_1 node, h, bracketed, Line.join, Line.continued_append, Line.continued_deeper,
    Line.continued_append, Line.continued_append, continued_entry]
  simp only [String.append_assoc]

/-- Whatever depth a node is rendered at, a node directly inside it is rendered at some depth. -/
theorem Node.exists_render_infix {node inner : Node} (hholds : node.Holds inner) (depth : Nat) :
    ∃ below, (inner.render below).toList <:+: (node.render depth).toList := by
  cases hinline : node.isInline with
  | true =>
    obtain ⟨-, -, hnone, -⟩ | ⟨only, before, after, honly, hnests, hlines, -⟩ :=
      isInline_cases hinline
    · exact absurd hholds (hnone inner)
    · obtain rfl := (honly inner).1 hholds
      obtain ⟨text, htext, -⟩ := exists_lines_eq (isInline_of_nestsInline hnests)
      refine ⟨depth, before.toList, after.toList, ?_⟩
      rw [render, render, hlines, htext, Line.before, Line.after, Line.join_singleton,
        Line.join_singleton, String.toList_append, String.toList_append]
  | false =>
    obtain ⟨above, before, after, below, hlines⟩ := exists_lines_eq_bracketed hinline hholds
    obtain ⟨lead, trail, heq⟩ := exists_render_eq_of_entry node.opening node.closing before after
      above below depth
    rw [heq node inner hlines, String.toList_append, String.toList_append]
    exact ⟨depth + 1, _, _, rfl⟩

theorem Node.exists_render_infix_of_mem_nodes {tree node : Node} (h : node ∈ tree.nodes)
    (depth : Nat) : ∃ below, (node.render below).toList <:+: (tree.render depth).toList := by
  induction tree using Node.induction generalizing depth with
  | step tree ih =>
    obtain rfl | ⟨child, hholds, hmem⟩ := mem_nodes_iff.1 h
    · exact ⟨depth, List.infix_refl _⟩
    · obtain ⟨between, hchild⟩ := exists_render_infix hholds depth
      obtain ⟨below, hnode⟩ := ih child hholds hmem between
      exact ⟨below, hnode.trans hchild⟩

/-- A node is inline exactly if its text has no line feed, at whatever depth, unless what is written
    as it is has some. An object on one line that ends in a block comment has a line between those
    of the brackets of the node that holds it. That goes for the node in any tree, for its text is
    part of the text of the tree. -/
theorem Node.isInline_iff_no_feed_and_remarked_on_own_line (node : Node) :
    (node.IsUnbroken → ∀ depth, node.isInline ↔ '\n' ∉ (node.render depth).toList) ∧
    (∀ inner, node.Holds inner → inner.isRemarked → inner.isInline → ∀ depth,
      ∃ above before after below, node.render depth = Text.unlines ([node.opening] ++ above ++
        [before ++ inner.render (depth + 1) ++ after] ++ below ++
          [Line.indentation depth ++ node.closing])) ∧
    ∀ tree : Node, node ∈ tree.nodes → ∀ depth, ∃ below,
      (node.render below).toList <:+: (tree.render depth).toList :=
  ⟨fun h => isInline_iff h, fun _ hholds => exists_render_eq hholds,
    fun _ hmem => exists_render_infix_of_mem_nodes hmem⟩

/-- A capture with a block comment, in a capture field, in an array. -/
theorem Node.isInline_iff_no_feed_and_remarked_on_own_line_capture :
    let capture := Node.object [.member "token" (.raw "KeywordTokenType.Warp") (some "/*warp*/")]
    let captures := Node.object [.plain "1" capture]
    captures.IsUnbroken ∧ captures.Holds capture ∧ capture.isRemarked ∧ capture.isInline ∧
      captures ∈ (array [captures]).nodes ∧
      (captures.isInline ↔ '\n' ∉ (captures.render 1).toList) ∧
      (∃ above before after below, captures.render 1 = Text.unlines ([captures.opening] ++ above ++
        [before ++ capture.render 2 ++ after] ++ below ++
          [Line.indentation 1 ++ captures.closing])) ∧
      ∃ below, (captures.render below).toList <:+: ((array [captures]).render 0).toList := by
  intro capture captures
  have hnodes : captures.nodes = [captures, capture, .raw "KeywordTokenType.Warp"] := by
    simp [captures, capture, nodes, itemNodes, Item.nodes, Item.plain]
  have hbroken : captures.IsUnbroken := by
    constructor <;> rw [hnodes] <;> simp +contextual [captures, capture, Item.plain]
  have hholds : captures.Holds capture := .value List.mem_cons_self
  have hmem : captures ∈ (array [captures]).nodes :=
    mem_nodes_iff.2 (.inr ⟨captures, .element List.mem_cons_self, mem_nodes_self captures⟩)
  obtain ⟨hinline, hline, htree⟩ := isInline_iff_no_feed_and_remarked_on_own_line captures
  exact ⟨hbroken, hholds, rfl, rfl, hmem, hinline hbroken 1, hline capture hholds rfl rfl 1,
    htree _ hmem 0⟩

end PatternTable
