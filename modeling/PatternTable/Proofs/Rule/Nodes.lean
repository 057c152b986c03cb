import PatternTable.Proofs.Rule.Arrays

/-!
# The arrays inside a node

Results:
* `Rule.exists_hasArray_of_node`, `Rule.node_hasArray`: the arrays in the node of a rule, at any
  depth, hold what stands at once in the arrays inside the rule.
-/

namespace PatternTable

/-- A node holds an array with some elements, at any depth. -/
inductive Node.HasArray : Node → List Node → Prop where
  | here (elements : List Node) : HasArray (.array elements) elements
  | element {elements found : List Node} {node : Node} (hmem : node ∈ elements)
    (h : HasArray node found) : HasArray (.array elements) found
  | member {items : List Item} {key : String} {value : Node} {remark : Option String}
    {found : List Node} (hmem : .member key value remark ∈ items) (h : HasArray value found) :
    HasArray (.object items) found

/-- An item with an array in its value. -/
def Item.HasArray (item : Item) (found : List Node) : Prop :=
  ∃ key value remark, item = .member key value remark ∧ value.HasArray found

namespace Node

theorem not_hasArray_raw {expression : String} {found : List Node} :
    ¬ (raw expression).HasArray found := nofun

theorem hasArray_array_iff {elements found : List Node} :
    (array elements).HasArray found ↔
      found = elements ∨ ∃ node ∈ elements, node.HasArray found := by
  constructor
  · intro h
    cases h with
    | here => exact .inl rfl
    | element hmem h => exact .inr ⟨_, hmem, h⟩
  · rintro (rfl | ⟨node, hmem, h⟩)
    · exact .here _
    · exact .element hmem h

theorem hasArray_object_iff {items : List Item} {found : List Node} :
    (object items).HasArray found ↔ ∃ item ∈ items, item.HasArray found := by
  constructor
  · intro h
    cases h with
    | member hmem h => exact ⟨_, hmem, _, _, _, rfl, h⟩
  · rintro ⟨_, hmem, _, _, _, rfl, h⟩
    exact .member hmem h

end Node

theorem Item.hasArray_plain_iff {key : String} {value : Node} {found : List Node} :
    (plain key value).HasArray found ↔ value.HasArray found := by
  constructor
  · rintro ⟨_, _, _, heq, h⟩
    cases heq
    exact h
  · exact fun h => ⟨_, _, _, rfl, h⟩

/-- A line of an object without arrays or objects in it. -/
def Item.IsFlat : Item → Prop
  | .member _ (.raw _) _ => True
  | .member _ (.text _) _ => True
  | .member _ _ _ => False
  | .comment _ => True
  | .blank => True

theorem Item.IsFlat.not_hasArray {item : Item} (h : item.IsFlat) {found : List Node} :
    ¬ item.HasArray found := by
  rintro ⟨key, value, remark, rfl, hfound⟩
  cases hfound <;> exact h

theorem Context.ownItems_flat {context : Context} {rule : Rule} {path : AccessPath} {item : Item}
    (h : item ∈ context.ownItems rule path) : item.IsFlat := by
  simp only [ownItems, List.mem_append, Option.mem_toList, Option.map_eq_some_iff] at h
  obtain (((((h | h) | h) | h) | h) | h) | h := h
  · split at h
    · simp only [List.mem_cons, List.not_mem_nil, or_false] at h
      obtain rfl | rfl := h <;> trivial
    · simp at h
  · cases hcomment : rule.comment with
    | none => simp [hcomment] at h
    | some comment =>
      rw [hcomment, Option.map_some, Option.getD_some, commentItems, List.mem_map] at h
      obtain ⟨line, -, rfl⟩ := h
      trivial
  all_goals
    obtain ⟨_, -, rfl⟩ := h
    trivial

/-- The lines of a rule that hold no other rules have names of their own. -/
theorem Context.ownItems_key {context : Context} {rule : Rule} {path : AccessPath} {key : String}
    {value : Node} {remark : Option String}
    (h : .member key value remark ∈ context.ownItems rule path)
    (field : Field) : key ≠ field.name := by
  have hkeys : key ∈ ["debugName", "token", "contentToken", "match", "begin", "end"] := by
    simp only [ownItems, List.mem_append, Option.mem_toList, Option.map_eq_some_iff] at h
    obtain (((((h | h) | h) | h) | h) | h) | h := h
    · split at h
      · simp only [Item.plain, List.mem_cons, Item.member.injEq, reduceCtorEq, List.not_mem_nil,
          or_self, or_false] at h
        rw [h.1]
        decide
      · simp at h
    · cases hcomment : rule.comment with
      | none => simp [hcomment] at h
      | some comment => simp [hcomment, commentItems] at h
    all_goals
      obtain ⟨_, -, heq⟩ := h
      simp only [tokenMember, patternMember, Item.plain, Item.member.injEq] at heq
      rw [← heq.1]
      decide
  rintro rfl
  revert hkeys
  cases field <;> decide

namespace Rule

variable {context : Context}

theorem node_of_isReference {rule : Rule} (h : rule.isReference = true) (path : AccessPath) :
    rule.node context path = .object [.plain "patterns" (context.arrayNode (path.field .patterns)
      ([rule].map fun entry => (entry, entry.node context)))] := by
  obtain ⟨spelling, hreference⟩ := Option.isSome_iff_exists.1 h
  rw [node, fold_eq, Context.nodeOf, if_pos h]
  simp [Context.arrayNode, Context.cells, Context.cell, hreference]

theorem node_of_not_isReference {rule : Rule} (h : rule.isReference = false) (path : AccessPath) :
    rule.node context path = .object (context.ownItems rule path ++
      (Field.captureFields.flatMap fun field => ((rule.groups field).map fun groups =>
        Item.plain field.name (Context.groupsNode (path.field field)
          (groups.map fun group => (group.1, group.2.node context)))).toList) ++
      (rule.patterns.map fun rules => Item.plain "patterns"
        (context.arrayNode (path.field .patterns)
          (rules.map fun entry => (entry, entry.node context)))).toList) := by
  rw [node, fold_eq, Context.nodeOf, h]
  simp only [Option.map_map]
  rfl

/-- What stands at once in the cells of an array of rules. -/
abbrev cells (context : Context) (array : AccessPath) (entries : List Rule) : List (Option Node) :=
  context.cells array 0 (entries.map fun entry => (entry, entry.node context))

theorem getElem?_cells {array : AccessPath} {entries : List Rule} {index : Nat} :
    (cells context array entries)[index]? = entries[index]?.map fun entry =>
      context.cell array index (entry, entry.node context) := by
  simp only [cells, Context.cells, List.getElem?_map, List.getElem?_zipIdx, Option.map_map]
  cases entries[index]? <;> simp

theorem hasArray_arrayNode {array : AccessPath} {entries : List Rule} {found : List Node}
    (h : (context.arrayNode array (entries.map fun entry => (entry, entry.node context))).HasArray
      found) :
    found = (cells context array entries).reduceOption ∨
      ∃ index, ∃ entry : Rule, entries[index]? = some entry ∧ entry.isReference = false ∧
        (entry.node context (array.index index)).HasArray found := by
  rw [Context.arrayNode, Node.hasArray_array_iff] at h
  obtain rfl | ⟨node, hmem, h⟩ := h
  · exact .inl rfl
  · rw [List.reduceOption_mem_iff] at hmem
    obtain ⟨index, hget⟩ := List.mem_iff_getElem?.1 hmem
    simp only [getElem?_cells, Context.cell, Option.map_eq_some_iff] at hget
    obtain ⟨entry, hentry, hcell⟩ := hget
    obtain hreference | ⟨spelling, hreference⟩ := entry.reference.eq_none_or_eq_some
    · rw [hreference] at hcell
      cases hcell
      exact .inr ⟨index, entry, hentry, by simp [isReference, hreference], h⟩
    · rw [hreference] at hcell
      obtain ⟨identifier, -, rfl⟩ := Option.map_eq_some_iff.1 hcell
      exact absurd h Node.not_hasArray_raw

theorem hasArray_groupsNode {path : AccessPath} {groups : List (String × Rule)} {found : List Node}
    (h : (Context.groupsNode path
      (groups.map fun group => (group.1, group.2.node context))).HasArray found) :
    ∃ number inner, (number, inner) ∈ sortedGroups groups ∧
      (inner.node context (path.group number)).HasArray found := by
  rw [Context.groupsNode, Node.hasArray_object_iff, sortedGroups_map] at h
  obtain ⟨item, hmem, h⟩ := h
  simp only [List.map_map, List.mem_map, Function.comp_apply, Prod.exists] at hmem
  obtain ⟨number, inner, hinner, rfl⟩ := hmem
  exact ⟨number, inner, hinner, Item.hasArray_plain_iff.1 h⟩

/-- Every array in the node of a rule is made of one inside the rule. -/
theorem exists_hasArray_of_node {rule : Rule} {path : AccessPath} {found : List Node}
    (h : (rule.node context path).HasArray found) : ∃ array entries,
      rule.HasArray path array entries ∧ found = (cells context array entries).reduceOption := by
  induction rule using Rule.induction generalizing path with
  | step rule groups entries =>
    cases hrule : rule.isReference with
    | true =>
      rw [node_of_isReference hrule, Node.hasArray_object_iff] at h
      obtain ⟨item, hmem, h⟩ := h
      rw [List.mem_singleton] at hmem
      subst hmem
      obtain rfl | ⟨index, entry, hget, hentry, -⟩ :=
        hasArray_arrayNode (Item.hasArray_plain_iff.1 h)
      · exact ⟨_, _, .lone hrule, rfl⟩
      · have heq := List.mem_of_getElem? hget
        rw [List.mem_singleton] at heq
        rw [heq, hrule] at hentry
        cases hentry
    | false =>
      rw [node_of_not_isReference hrule, Node.hasArray_object_iff] at h
      obtain ⟨item, hmem, h⟩ := h
      rw [List.mem_append, List.mem_append] at hmem
      obtain (hmem | hmem) | hmem := hmem
      · exact absurd h (Context.ownItems_flat hmem).not_hasArray
      · obtain ⟨field, -, hmem⟩ := List.mem_flatMap.1 hmem
        rw [Option.mem_toList, Option.map_eq_some_iff] at hmem
        obtain ⟨members, hgroups, rfl⟩ := hmem
        obtain ⟨number, inner, hinner, h⟩ := hasArray_groupsNode (Item.hasArray_plain_iff.1 h)
        obtain ⟨key, hentry, -⟩ := mem_sortedGroups hinner
        obtain ⟨array, entries, harray, hfound⟩ :=
          groups field members hgroups (key, inner) hentry h
        exact ⟨array, entries, .group hrule hgroups hinner harray, hfound⟩
      · rw [Option.mem_toList, Option.map_eq_some_iff] at hmem
        obtain ⟨rules, hrules, rfl⟩ := hmem
        obtain rfl | ⟨index, entry, hget, hentry, h⟩ :=
          hasArray_arrayNode (Item.hasArray_plain_iff.1 h)
        · exact ⟨_, _, .own hrule hrules, rfl⟩
        · obtain ⟨array, inner, harray, hfound⟩ :=
            entries rules hrules entry (List.mem_of_getElem? hget) h
          exact ⟨array, inner, .entry hrule hrules hget hentry harray, hfound⟩

theorem mem_elements {array : AccessPath} {entries : List Rule} {index : Nat} {entry : Rule}
    (hget : entries[index]? = some entry) (hentry : entry.isReference = false) :
    entry.node context (array.index index) ∈ (cells context array entries).reduceOption := by
  have hreference : entry.reference = none := by simpa [isReference] using hentry
  rw [List.reduceOption_mem_iff]
  refine List.mem_iff_getElem?.2 ⟨index, ?_⟩
  rw [getElem?_cells, hget, Option.map_some, Context.cell]
  simp only [hreference]

theorem hasArray_of_patterns {rule : Rule} {path : AccessPath} {rules : List Rule}
    {found : List Node} (hrule : rule.isReference = false) (hrules : rule.patterns = some rules)
    (h : (context.arrayNode (path.field .patterns)
      (rules.map fun entry => (entry, entry.node context))).HasArray found) :
    (rule.node context path).HasArray found := by
  rw [node_of_not_isReference hrule, Node.hasArray_object_iff]
  refine ⟨.plain "patterns" (context.arrayNode (path.field .patterns)
    (rules.map fun entry => (entry, entry.node context))), List.mem_append_right _ ?_,
    Item.hasArray_plain_iff.2 h⟩
  rw [hrules]
  exact List.mem_singleton_self _

theorem hasArray_of_group {rule inner : Rule} {path : AccessPath} {field : Field}
    {groups : List (String × Rule)} {number : Nat} {found : List Node}
    (hrule : rule.isReference = false) (hgroups : rule.groups field = some groups)
    (hinner : (number, inner) ∈ sortedGroups groups)
    (h : (inner.node context ((path.field field).group number)).HasArray found) :
    (rule.node context path).HasArray found := by
  have hfield := mem_captureFields_of_groups hgroups
  have hgroup : (Context.groupsNode (path.field field)
      (groups.map fun group => (group.1, group.2.node context))).HasArray found := by
    rw [Context.groupsNode, Node.hasArray_object_iff, sortedGroups_map, List.map_map]
    exact ⟨_, List.mem_map_of_mem hinner, Item.hasArray_plain_iff.2 h⟩
  rw [node_of_not_isReference hrule, Node.hasArray_object_iff]
  refine ⟨.plain field.name (Context.groupsNode (path.field field)
    (groups.map fun group => (group.1, group.2.node context))), ?_,
    Item.hasArray_plain_iff.2 hgroup⟩
  refine List.mem_append_left _ (List.mem_append_right _ (List.mem_flatMap.2 ⟨field, hfield, ?_⟩))
  rw [hgroups]
  exact List.mem_singleton_self _

/-- Every array inside a rule makes one in its node. -/
theorem node_hasArray {rule : Rule} {path array : AccessPath} {entries : List Rule}
    (h : rule.HasArray path array entries) :
    (rule.node context path).HasArray (cells context array entries).reduceOption := by
  induction h with
  | lone hrule =>
    rw [node_of_isReference hrule, Node.hasArray_object_iff]
    exact ⟨_, List.mem_singleton_self _, Item.hasArray_plain_iff.2 (.here _)⟩
  | own hrule hrules => exact hasArray_of_patterns hrule hrules (.here _)
  | group hrule hgroups hinner _ ih => exact hasArray_of_group hrule hgroups hinner ih
  | entry hrule hrules hget hinner _ ih =>
    exact hasArray_of_patterns hrule hrules (.element (mem_elements hget hinner) ih)

end Rule

end PatternTable
