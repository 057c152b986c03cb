import PatternTable.Proofs.Rule.Subtrees

/-!
# Debug names

The node of a rule that is no include has a debug name if the rule has a pattern: the text of the
path of the rule. No other node has any. So the debug names in the tree of a rule come in the order
in which building comes to the rules.

* `Node.debugNames`: the debug names of a node.
* `Rule.isMatchOrSpan`: what a rule has if it has a pattern and can be built.

Results:
* `Rule.debugNames_node`: the debug names of the node of a rule.
* `Rule.exists_reaches_of_debugNames`: a node in the tree of a rule that has a debug name is that of
  a rule inside.
* `Rule.debugNames_nodes_node`: the debug names in the tree of a rule.
* `Rule.node_mem_nodes_of_reaches`: every rule that building comes to has its node in the tree,
  except includes.
-/

namespace PatternTable

/-! ## Specification -/

/-- The debug name that a member is. -/
def Item.debugName? : Item → Option String
  | .member key (.text name) _ => if key = "debugName" then some name else none
  | _ => none

/-- The debug names of a node. -/
def Node.debugNames : Node → List String
  | .object items => items.filterMap Item.debugName?
  | _ => []

/-- Whether a rule has a match, or the start and the end of a span. -/
def Rule.isMatchOrSpan (rule : Rule) : Bool :=
  rule.single.isSome || rule.opening.isSome && rule.closing.isSome

/-- The path of the rule that a stop is at, if the rule has a pattern. -/
def Visit.named? : Visit → Option AccessPath
  | .rule path target => if target.hasPattern then some path else none
  | _ => none

theorem Visit.named?_eq_some_iff {visit : Visit} {path : AccessPath} :
    visit.named? = some path ↔ ∃ target : Rule, visit = .rule path target ∧ target.hasPattern := by
  cases visit <;> simp [named?, and_comm]

/-- A rule that can be built does not have the start of a span alone, nor the end. -/
theorem Rule.Sound.hasPattern_eq {document : Document} {rule : Rule} (h : rule.Sound document)
    (hrule : rule.isReference = false) : rule.hasPattern = rule.isMatchOrSpan := by
  have hspan := Bool.eq_iff_iff.2 (h.span hrule)
  rw [hasPattern, isMatchOrSpan, hspan, Bool.or_assoc, Bool.or_self, Bool.and_self]

/-! ## Nodes without a debug name -/

theorem Node.IsLeaf.debugNames_eq_nil {node : Node} (h : node.IsLeaf) : node.debugNames = [] := by
  cases node with
  | raw expression => rfl
  | text content => rfl
  | array elements => rfl
  | object items => exact h.elim

theorem Node.flatMap_debugNames_of_isLeaf {nodes : List Node} (h : ∀ node ∈ nodes, node.IsLeaf) :
    nodes.flatMap debugNames = [] :=
  List.flatMap_eq_nil_iff.2 fun node hmem => (h node hmem).debugNames_eq_nil

namespace Context

theorem debugNames_groupsNode (path : AccessPath) (groups : List (String × (AccessPath → Node))) :
    (groupsNode path groups).debugNames = [] := by
  rw [groupsNode, Node.debugNames, List.filterMap_map, List.filterMap_eq_nil_iff]
  rintro ⟨number, node⟩ -
  dsimp only [Function.comp_apply, Item.plain]
  unfold Item.debugName?
  split
  · next heq =>
    rw [Item.member.injEq] at heq
    rw [← heq.1, if_neg (toString_ne_of_not_digits (by decide) number)]
  · rfl

theorem filterMap_debugName?_ownItems (context : Context) (rule : Rule) (path : AccessPath) :
    (context.ownItems rule path).filterMap Item.debugName? =
      if rule.hasPattern then [path.text] else [] := by
  have hscope (name : String) (scope? : Option String) :
      (scope?.map (context.tokenMember name)).toList.filterMap Item.debugName? = [] := by
    cases scope? <;> rfl
  have hpattern (name : String) (captures : Bool) (pattern? : Option String) :
      (pattern?.map (context.patternMember name captures)).toList.filterMap
        Item.debugName? = [] := by
    cases pattern? <;> rfl
  have hcomment : ((rule.comment.map commentItems).getD []).filterMap Item.debugName? = [] := by
    cases rule.comment with
    | none => rfl
    | some comment =>
      rw [Option.map_some, Option.getD_some, commentItems, List.filterMap_map,
        List.filterMap_eq_nil_iff]
      exact fun line _ => rfl
  simp only [ownItems, List.filterMap_append, hscope, hpattern, hcomment, List.append_nil]
  cases rule.hasPattern <;> rfl

end Context

namespace Rule

variable {context : Context}

/-! ## Nodes of rules -/

/-- An include has no debug name, whatever else it has. -/
theorem debugNames_node (rule : Rule) (path : AccessPath) :
    (rule.node context path).debugNames =
      if rule.isReference = false ∧ rule.hasPattern then [path.text] else [] := by
  cases hrule : rule.isReference with
  | true =>
    rw [node_of_isReference hrule, if_neg (by simp)]
    rfl
  | false =>
    have hgroups : (Field.captureFields.flatMap fun field => ((rule.groups field).map fun groups =>
        Item.plain field.name (Context.groupsNode (path.field field)
          (groups.map fun group => (group.1, group.2.node context)))).toList).filterMap
            Item.debugName? = [] := by
      rw [List.filterMap_flatMap, List.flatMap_eq_nil_iff]
      intro field _
      cases rule.groups field <;> rfl
    have hpatterns : (rule.patterns.map fun rules => Item.plain "patterns"
        (context.arrayNode (path.field .patterns)
          (rules.map fun entry => (entry, entry.node context)))).toList.filterMap
            Item.debugName? = [] := by
      cases rule.patterns <;> rfl
    rw [node_of_not_isReference hrule, Node.debugNames, List.filterMap_append,
      List.filterMap_append, hgroups, hpatterns, Context.filterMap_debugName?_ownItems,
      List.append_nil, List.append_nil]
    simp

/-- A node in the tree of a rule that has a debug name is that of a rule that building comes to. -/
theorem exists_reaches_of_debugNames {rule : Rule} {path : AccessPath} {node : Node}
    (hnode : node ∈ (rule.node context path).nodes) (hnames : node.debugNames ≠ []) :
    ∃ target below, rule.Reaches path target below ∧ target.node context below = node := by
  revert hnames
  refine forall_mem_nodes_node (p := fun node => node.debugNames ≠ [] →
    ∃ target below, rule.Reaches path target below ∧ target.node context below = node)
    ?_ ?_ ?_ ?_ node hnode
  · exact fun node hleaf hnames => absurd hleaf.debugNames_eq_nil hnames
  · exact fun elements hnames => absurd rfl hnames
  · exact fun path entries hnames => absurd (Context.debugNames_groupsNode _ _) hnames
  · exact fun target below hreaches _ => ⟨target, below, hreaches, rfl⟩

/-! ## The tree of a rule -/

theorem debugNames_nodes_groupsNode {groups : Captures} (h : ∀ group ∈ groups, ∀ path,
      (group.2.node context path).nodes.flatMap Node.debugNames =
        ((group.2.visits path).filterMap Visit.named?).map AccessPath.text) (path : AccessPath) :
    (Context.groupsNode path
        (groups.map fun group => (group.1, group.2.node context))).nodes.flatMap Node.debugNames =
      ((groupVisits path (groups.map fun group => (group.1, group.2.visits))).filterMap
        Visit.named?).map AccessPath.text := by
  rw [Context.nodes_groupsNode, List.flatMap_cons, Context.debugNames_groupsNode, List.nil_append,
    groupVisits, List.filterMap_cons_none rfl, sortedGroups_map, List.flatMap_map,
    List.flatMap_assoc, List.filterMap_flatMap, List.map_flatMap]
  refine List.flatMap_congr fun group hmem => ?_
  obtain ⟨key, hentry, -⟩ := mem_sortedGroups hmem
  exact h (key, group.2) hentry _

theorem debugNames_nodes_arrayNode {rules : List Rule} (h : ∀ entry ∈ rules, ∀ path,
      (entry.node context path).nodes.flatMap Node.debugNames =
        ((entry.visits path).filterMap Visit.named?).map AccessPath.text) (array : AccessPath) :
    (context.arrayNode array
        (rules.map fun entry => (entry, entry.node context))).nodes.flatMap Node.debugNames =
      ((arrayVisits array (rules.map fun entry => (entry, entry.visits))).filterMap
        Visit.named?).map AccessPath.text := by
  rw [Context.nodes_arrayNode, List.flatMap_cons, arrayVisits, List.filterMap_append,
    List.filterMap_append, List.filterMap_cons_none rfl, List.filterMap_nil, List.append_nil,
    List.filterMap_flatMap, List.filterMap_map, List.filterMap_eq_nil_iff.2 ?_, List.nil_append,
    List.zipIdx_map, List.flatMap_map, List.flatMap_assoc, List.map_flatMap]
  · refine List.flatMap_congr ?_
    rintro ⟨entry, index⟩ hmem
    dsimp only [Prod.map]
    cases hentry : entry.isReference with
    | true =>
      exact Node.flatMap_debugNames_of_isLeaf fun node => Context.isLeaf_of_mem_cellNodes hentry
    | false =>
      rw [Context.cellNodes_of_not_isReference hentry]
      exact h entry (List.fst_mem_of_mem_zipIdx hmem) _
  · -- A stop at an entry is not at a rule of its own.
    exact fun _ _ => rfl

/-- The debug names in the tree of a rule are the texts of the paths of the rules with a pattern, in
    the order in which building comes to them. -/
theorem debugNames_nodes_node (rule : Rule) (path : AccessPath) :
    (rule.node context path).nodes.flatMap Node.debugNames =
      ((rule.visits path).filterMap Visit.named?).map AccessPath.text := by
  induction rule using Rule.induction generalizing path with
  | step rule groups entries =>
    cases hrule : rule.isReference with
    | true =>
      have hcell : (context.cellNodes (path.field .patterns) 0 rule).flatMap Node.debugNames = [] :=
        Node.flatMap_debugNames_of_isLeaf fun node => Context.isLeaf_of_mem_cellNodes hrule
      have harray (elements : List Node) : (Node.array elements).debugNames = [] := rfl
      rw [nodes_node_of_isReference hrule, visits_of_isReference hrule, List.flatMap_cons,
        List.flatMap_cons, debugNames_node, if_neg (by simp [hrule]), hcell, Context.arrayNode,
        harray]
      rfl
    | false =>
      have hown : ((context.ownItems rule path).flatMap Item.nodes).flatMap
          Node.debugNames = [] := by
        refine Node.flatMap_debugNames_of_isLeaf fun node hmem => ?_
        obtain ⟨item, hitem, hmem⟩ := List.mem_flatMap.1 hmem
        exact (Context.ownItems_flat hitem).isLeaf_of_mem_nodes hmem
      rw [visits_of_not_isReference hrule, List.cons_append, ← List.singleton_append,
        List.filterMap_append, List.filterMap_append, List.map_append, List.map_append,
        nodes_node hrule, List.flatMap_cons, List.flatMap_append, List.flatMap_append, hown,
        List.nil_append, debugNames_node, List.flatMap_assoc, List.filterMap_flatMap,
        List.map_flatMap]
      refine congrArg₂ _ ?_ (congrArg₂ _ (List.flatMap_congr fun field _ => ?_) ?_)
      · cases hpattern : rule.hasPattern <;> simp [Visit.named?, hrule, hpattern]
      · cases hgroups : rule.groups field with
        | none => rfl
        | some members => exact debugNames_nodes_groupsNode (groups field members hgroups) _
      · cases hrules : rule.patterns with
        | none => rfl
        | some rules => exact debugNames_nodes_arrayNode (entries rules hrules) _

/-- If every rule that building comes to is sound, each of them that is no include has its node in
    the tree. -/
theorem node_mem_nodes_of_reaches {document : Document} {rule target : Rule}
    {path below : AccessPath} (hreaches : rule.Reaches path target below)
    (htarget : target.isReference = false)
    (hsound : ∀ inner within, rule.Reaches path inner within → inner.Sound document) :
    target.node context below ∈ (rule.node context path).nodes := by
  induction hreaches with
  | self rule path =>
    rw [nodes_node htarget]
    exact List.mem_cons_self
  | @group rule inner _ path _ field members _ number hrule hgroups hentry hnumber _ ih =>
    have hmem := ih htarget fun target below hinner =>
      hsound target below (.group hrule hgroups hentry hnumber hinner)
    have hkeys := (hsound rule path (.self rule path)).groups hrule field members hgroups
    rw [nodes_node hrule]
    refine List.mem_cons_of_mem _ (List.mem_append_left _ (List.mem_append_right _
      (List.mem_flatMap.2 ⟨field, mem_captureFields_of_groups hgroups, ?_⟩)))
    rw [hgroups, Option.map_some, Option.getD_some, Context.nodes_groupsNode]
    exact List.mem_cons_of_mem _
      (List.mem_flatMap.2 ⟨(number, inner), mem_sortedGroups_of_mem hkeys hentry hnumber, hmem⟩)
  | @entry rule inner _ path _ rules index hrule hrules hget h ih =>
    have hinner : inner.isReference = false := by
      cases h with
      | self => exact htarget
      | group hinner => exact hinner
      | entry hinner => exact hinner
    have hmem := ih htarget fun target below hinner =>
      hsound target below (.entry hrule hrules hget hinner)
    rw [nodes_node hrule, hrules, Option.map_some, Option.getD_some, Context.nodes_arrayNode]
    refine List.mem_cons_of_mem _ (List.mem_append_right _ (List.mem_cons_of_mem _
      (List.mem_flatMap.2 ⟨(inner, index), List.mk_mem_zipIdx_iff_getElem?.2 hget, ?_⟩)))
    dsimp only
    rwa [Context.cellNodes_of_not_isReference hinner]

end Rule

end PatternTable
