import PatternTable.Proofs.Rule.Scopes
import PatternTable.Proofs.Rule.Soundness
import PatternTable.Proofs.Text.Lines
import PatternTable.Proofs.Tree.Comments

/-!
# The comments of a rule

A comment of a rule is written line by line, each line without the blanks at its end. A line of a
text ends at a line feed. Other characters that end a line of the generated module, such as a lone
carriage return or a line separator, stay inside a line if something else follows them.

* `commentLines`: the lines of a comment.

Results:
* `Rule.mem_comments_node_iff`: the comments in the node of a rule are the lines of the comments of
  the rules that are reached.
* `feed_not_mem_commentLines`: no line has a line feed.
-/

namespace PatternTable

/-! ## Specification -/

/-- The lines of a comment, without the blanks at their ends. -/
def commentLines (comment : String) : List String :=
  (Text.lines comment.toList).map fun line => String.ofList (Text.trimEnd line)

/-- The lines of the comment of a rule, without those of the rules inside it. -/
def Rule.ownComments (rule : Rule) : List String :=
  (rule.comment.map commentLines).getD []

theorem Rule.exists_commentLines_of_mem {rule : Rule} {words : String}
    (h : words ∈ rule.ownComments) : ∃ comment, words ∈ commentLines comment := by
  rw [ownComments] at h
  cases hcomment : rule.comment with
  | none => simp [hcomment] at h
  | some comment => exact ⟨comment, by simpa [hcomment] using h⟩

/-- The line feeds of a comment are what separates its lines. -/
theorem feed_not_mem_commentLines {comment words : String} (h : words ∈ commentLines comment) :
    '\n' ∉ words.toList := by
  obtain ⟨line, hline, rfl⟩ := List.mem_map.1 h
  rw [String.toList_ofList]
  exact (Text.isLine_trimEnd hline).feed

/-! ## Nodes -/

theorem Item.comments_plain (key : String) (value : Node) :
    (plain key value).comments = value.comments := by
  rw [plain, comments]

namespace Context

variable (context : Context)

/-- The items of a rule that hold no other rules have the lines of its comment. -/
theorem comments_ownItems (rule : Rule) (path : AccessPath) :
    (context.ownItems rule path).flatMap Item.comments = rule.ownComments := by
  have hname : (if rule.hasPattern then [Item.plain "debugName" (.text path.text), .blank]
      else []).flatMap Item.comments = [] := by
    split <;> simp [Item.comments_plain, Item.comments, Node.comments]
  have hcomments : ((rule.comment.map commentItems).getD []).flatMap Item.comments =
      rule.ownComments := by
    rw [Rule.ownComments]
    cases rule.comment with
    | none => rfl
    | some comment =>
      rw [Option.map_some, Option.map_some, Option.getD_some, Option.getD_some, commentItems,
        commentLines, List.flatMap_map, List.map_eq_flatMap]
      exact List.flatMap_congr fun line _ => by rw [Item.comments]
  have hmember {text? : Option String} {member : String → Item}
      (h : ∀ text, (member text).comments = []) :
      (text?.map member).toList.flatMap Item.comments = [] := by
    cases text? <;> simp [h]
  have htoken (key scope : String) : (context.tokenMember key scope).comments = [] := by
    rw [tokenMember, Item.comments, Node.comments]
  have hpattern (key : String) (captures : Bool) (pattern : String) :
      (context.patternMember key captures pattern).comments = [] := by
    rw [patternMember, Item.comments_plain, Node.comments]
  simp only [ownItems, List.flatMap_append, hname, hcomments, hmember (htoken _),
    hmember (hpattern _ _), List.nil_append, List.append_nil]

/-- An array has the comments of its rules, and none for its includes. -/
theorem mem_comments_arrayNode {words : String} {array : AccessPath} {rules : List Rule} :
    words ∈ (context.arrayNode array
        (rules.map fun entry => (entry, entry.node context))).comments ↔
      ∃ (index : Nat) (entry : Rule), rules[index]? = some entry ∧ entry.isReference = false ∧
        words ∈ (entry.node context (array.index index)).comments := by
  have hcell (index : Nat) (entry : Rule) (node : Node) :
      (context.cell array index (entry, entry.node context) = some node ∧
          words ∈ node.comments) ↔
        (entry.isReference = false ∧ node = entry.node context (array.index index) ∧
          words ∈ node.comments) := by
    rw [cell, Rule.isReference]
    cases entry.reference with
    | none => simp [eq_comm]
    | some spelling =>
      cases hinlined : context.inlined? spelling with
      | none => simp [hinlined]
      | some identifier =>
        simp only [Option.map_some, hinlined, Option.some.injEq, Option.isSome_some,
          Bool.true_eq_false, false_and, iff_false, not_and]
        rintro rfl
        simp [Node.comments]
  rw [arrayNode, Node.mem_comments_array]
  simp only [List.reduceOption_mem_iff, cells, List.zipIdx_map, List.map_map, List.mem_map,
    Function.comp_apply, Prod.map_apply, Prod.exists, List.mk_mem_zipIdx_iff_getElem?, id_eq]
  constructor
  · rintro ⟨node, ⟨entry, index, hget, hnode⟩, hmem⟩
    obtain ⟨hreference, rfl, hmem⟩ := (hcell index entry node).1 ⟨hnode, hmem⟩
    exact ⟨index, entry, hget, hreference, hmem⟩
  · rintro ⟨index, entry, hget, hreference, hmem⟩
    obtain ⟨hnode, hmem⟩ := (hcell index entry _).2 ⟨hreference, rfl, hmem⟩
    exact ⟨_, ⟨entry, index, hget, hnode⟩, hmem⟩

/-- A capture field whose keys spell different numbers has the comments of its groups. -/
theorem mem_comments_groupsNode {words : String} {path : AccessPath} {groups : List (String × Rule)}
    (hkeys : GroupKeys (groups.map Prod.fst)) :
    words ∈ (groupsNode path
        (groups.map fun group => (group.1, group.2.node context))).comments ↔
      ∃ key inner number, (key, inner) ∈ groups ∧ SpellsGroup key number ∧
        words ∈ (inner.node context (path.group number)).comments := by
  rw [groupsNode, Node.mem_comments_object, sortedGroups_map]
  simp only [List.map_map, List.mem_map, Function.comp_apply, exists_exists_and_eq_and,
    Item.comments_plain]
  constructor
  · rintro ⟨⟨number, inner⟩, hgroup, hmem⟩
    obtain ⟨key, hentry, hnumber⟩ := mem_sortedGroups hgroup
    exact ⟨key, inner, number, hentry, groupNumber?_eq_some_iff.1 hnumber, hmem⟩
  · rintro ⟨key, inner, number, hentry, hnumber, hmem⟩
    exact ⟨(number, inner), mem_sortedGroups_of_mem hkeys hentry hnumber, hmem⟩

end Context

namespace Rule

theorem comments_of_isReference (context : Context) {rule : Rule} (hrule : rule.isReference = true)
    (path : AccessPath) : (rule.node context path).comments = [] := by
  refine List.eq_nil_iff_forall_not_mem.2 fun words hmem => ?_
  rw [node_of_isReference hrule, Node.mem_comments_object] at hmem
  simp only [List.mem_singleton, exists_eq_left, Item.comments_plain,
    context.mem_comments_arrayNode] at hmem
  obtain ⟨index, entry, hget, hentry, -⟩ := hmem
  rw [List.mem_singleton.1 (List.mem_of_getElem? hget), hrule] at hentry
  cases hentry

/-- The comments in the node of a rule are its own, those in its capture fields and those in its
    array. -/
theorem mem_comments_of_not_isReference (context : Context) {rule : Rule}
    (hrule : rule.isReference = false) (path : AccessPath) {words : String} :
    words ∈ (rule.node context path).comments ↔
      words ∈ rule.ownComments ∨
        (∃ field members, rule.groups field = some members ∧
          words ∈ (Context.groupsNode (path.field field)
            (members.map fun group => (group.1, group.2.node context))).comments) ∨
        ∃ rules, rule.patterns = some rules ∧
          words ∈ (context.arrayNode (path.field .patterns)
            (rules.map fun entry => (entry, entry.node context))).comments := by
  rw [node_of_not_isReference hrule, Node.mem_comments_object,
    ← context.comments_ownItems rule path]
  simp only [List.mem_append, List.mem_flatMap, Option.mem_toList, Option.map_eq_some_iff,
    or_and_right, exists_or, or_assoc]
  refine or_congr_right (or_congr ?_ ?_)
  · constructor
    · rintro ⟨_, ⟨field, -, members, hmembers, rfl⟩, hmem⟩
      exact ⟨field, members, hmembers, by rwa [Item.comments_plain] at hmem⟩
    · rintro ⟨field, members, hmembers, hmem⟩
      exact ⟨_, ⟨field, mem_captureFields_of_groups hmembers, members, hmembers, rfl⟩,
        by rwa [Item.comments_plain]⟩
  · constructor
    · rintro ⟨_, ⟨rules, hrules, rfl⟩, hmem⟩
      exact ⟨rules, hrules, by rwa [Item.comments_plain] at hmem⟩
    · rintro ⟨rules, hrules, hmem⟩
      exact ⟨_, ⟨rules, hrules, rfl⟩, by rwa [Item.comments_plain]⟩

/-- The comments in the node of a rule are the lines of the comments of the rules that are reached,
    if these can be built. What an include has for a comment is ignored. -/
theorem mem_comments_node_iff (context : Context) (rule : Rule) (path : AccessPath)
    (hsound : ∀ target below, rule.Reaches path target below → target.Sound context.document)
    (words : String) : words ∈ (rule.node context path).comments ↔
      ∃ target below, rule.Reaches path target below ∧ target.isReference = false ∧
        words ∈ target.ownComments := by
  induction rule using Rule.induction generalizing path with
  | step rule groups entries =>
    cases hrule : rule.isReference with
    | true =>
      rw [comments_of_isReference context hrule]
      refine iff_of_false List.not_mem_nil ?_
      rintro ⟨target, below, hreaches, htarget, -⟩
      cases hreaches with
      | self => rw [hrule] at htarget; cases htarget
      | group hnot => rw [hrule] at hnot; cases hnot
      | entry hnot => rw [hrule] at hnot; cases hnot
    | false =>
      have hkeys := (hsound rule path (.self rule path)).groups hrule
      rw [mem_comments_of_not_isReference context hrule]
      constructor
      · rintro (hown | ⟨field, members, hmembers, hmem⟩ | ⟨rules, hrules, hmem⟩)
        · exact ⟨rule, path, .self rule path, hrule, hown⟩
        · rw [context.mem_comments_groupsNode (hkeys field members hmembers)] at hmem
          obtain ⟨key, inner, number, hinner, hnumber, hmem⟩ := hmem
          obtain ⟨target, below, hreaches, hrest⟩ :=
            (groups field members hmembers (key, inner) hinner _ fun target below hreaches =>
              hsound target below (.group hrule hmembers hinner hnumber hreaches)).1 hmem
          exact ⟨target, below, .group hrule hmembers hinner hnumber hreaches, hrest⟩
        · rw [context.mem_comments_arrayNode] at hmem
          obtain ⟨index, inner, hget, -, hmem⟩ := hmem
          obtain ⟨target, below, hreaches, hrest⟩ :=
            (entries rules hrules inner (List.mem_of_getElem? hget) _ fun target below hreaches =>
              hsound target below (.entry hrule hrules hget hreaches)).1 hmem
          exact ⟨target, below, .entry hrule hrules hget hreaches, hrest⟩
      · rintro ⟨target, below, hreaches, htarget, hmem⟩
        cases hreaches with
        | self => exact .inl hmem
        | @group _ inner _ _ _ field members key number _ hmembers hinner hnumber hreaches =>
          refine .inr (.inl ⟨field, members, hmembers, ?_⟩)
          rw [context.mem_comments_groupsNode (hkeys field members hmembers)]
          refine ⟨key, inner, number, hinner, hnumber, ?_⟩
          exact (groups field members hmembers (key, inner) hinner _ fun target below hreaches =>
            hsound target below (.group hrule hmembers hinner hnumber hreaches)).2
              ⟨target, below, hreaches, htarget, hmem⟩
        | @entry _ inner _ _ _ rules index _ hrules hget hreaches =>
          refine .inr (.inr ⟨rules, hrules, ?_⟩)
          rw [context.mem_comments_arrayNode]
          have hcomments := (entries rules hrules inner (List.mem_of_getElem? hget)
            ((path.field .patterns).index index) fun target below hreaches =>
              hsound target below (.entry hrule hrules hget hreaches)).2
                ⟨target, below, hreaches, htarget, hmem⟩
          -- An include has no comments, so this is none.
          refine ⟨index, inner, hget, Bool.eq_false_iff.2 fun hreference => ?_, hcomments⟩
          rw [comments_of_isReference context hreference] at hcomments
          exact List.not_mem_nil hcomments

end Rule

end PatternTable
