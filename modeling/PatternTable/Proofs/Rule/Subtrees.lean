import PatternTable.Proofs.Rule.Nodes
import PatternTable.Proofs.Rule.Soundness
import PatternTable.Proofs.Tree.Nodes

/-!
# The nodes in the tree of a rule

The node of a rule is an object. In it are leaves, the objects of capture fields, the arrays, and
the nodes of the rules that are inside the rule.

Results:
* `Rule.nodes_node`: the nodes of a rule that is not an include.
* `Rule.forall_mem_nodes_node`: what holds of each kind of node holds of all nodes in the tree.
-/

namespace PatternTable

/-- A node has no other nodes in it and no members. -/
def Node.IsLeaf : Node → Prop
  | .raw _ => True
  | .text _ => True
  | .array _ => False
  | .object _ => False

theorem Item.IsFlat.isLeaf_of_mem_nodes {item : Item} (h : item.IsFlat) {node : Node}
    (hmem : node ∈ item.nodes) : node.IsLeaf := by
  rcases item with ⟨key, _ | _ | _ | _, remark⟩ | _ | _
  · rw [Item.nodes, Node.nodes, List.mem_singleton] at hmem
    subst hmem
    trivial
  · rw [Item.nodes, Node.nodes, List.mem_singleton] at hmem
    subst hmem
    trivial
  · exact h.elim
  · exact h.elim
  · exact absurd hmem List.not_mem_nil
  · exact absurd hmem List.not_mem_nil

namespace Context

/-- The nodes in the value of what stands at once in an array for an entry. -/
def cellNodes (context : Context) (array : AccessPath) (index : Nat) (entry : Rule) : List Node :=
  ((context.cell array index (entry, entry.node context)).map Node.nodes).getD []

/-- What stands for an include at once is a leaf. -/
theorem isLeaf_of_mem_cellNodes {context : Context} {array : AccessPath} {index : Nat}
    {entry : Rule} (h : entry.isReference = true) {node : Node}
    (hmem : node ∈ context.cellNodes array index entry) : node.IsLeaf := by
  obtain ⟨spelling, hreference⟩ := Option.isSome_iff_exists.1 h
  simp only [cellNodes, cell, hreference] at hmem
  cases hinlined : context.inlined? spelling with
  | none => simp [hinlined] at hmem
  | some identifier =>
    simp only [hinlined, Option.map_some, Option.getD_some, Node.nodes, List.mem_singleton] at hmem
    subst hmem
    trivial

theorem cellNodes_of_not_isReference {context : Context} {entry : Rule}
    (h : entry.isReference = false) (array : AccessPath) (index : Nat) :
    context.cellNodes array index entry = (entry.node context (array.index index)).nodes := by
  have hreference : entry.reference = none := by simpa [Rule.isReference] using h
  simp only [cellNodes, cell, hreference, Option.map_some, Option.getD_some]

theorem nodes_arrayNode (context : Context) (array : AccessPath) (rules : List Rule) :
    (context.arrayNode array (rules.map fun entry => (entry, entry.node context))).nodes =
      context.arrayNode array (rules.map fun entry => (entry, entry.node context)) ::
        rules.zipIdx.flatMap fun (entry, index) => context.cellNodes array index entry := by
  rw [arrayNode, Node.nodes_array_reduceOption, cells, List.zipIdx_map, List.map_map,
    List.flatMap_map]
  rfl

theorem nodes_groupsNode (context : Context) (path : AccessPath) (groups : Captures) :
    (groupsNode path (groups.map fun group => (group.1, group.2.node context))).nodes =
      groupsNode path (groups.map fun group => (group.1, group.2.node context)) ::
        (sortedGroups groups).flatMap fun (number, inner) =>
          (inner.node context (path.group number)).nodes := by
  rw [groupsNode, Node.nodes_object, sortedGroups_map, List.map_map, List.flatMap_map]
  rfl

end Context

namespace Rule

variable {context : Context}

/-- The nodes of a rule that is not an include. -/
theorem nodes_node {rule : Rule} (h : rule.isReference = false) (path : AccessPath) :
    (rule.node context path).nodes = rule.node context path ::
      (((context.ownItems rule path).flatMap Item.nodes ++
        Field.captureFields.flatMap fun field => ((rule.groups field).map fun groups =>
          (Context.groupsNode (path.field field)
            (groups.map fun group => (group.1, group.2.node context))).nodes).getD []) ++
        (rule.patterns.map fun rules => (context.arrayNode (path.field .patterns)
          (rules.map fun entry => (entry, entry.node context))).nodes).getD []) := by
  have hplain {α : Type} (key : String) (node : α → Node) (value : Option α) :
      (value.map fun a => Item.plain key (node a)).toList.flatMap Item.nodes =
        (value.map fun a => (node a).nodes).getD [] := by
    cases value with
    | none => rfl
    | some a =>
      rw [Option.map_some, Option.toList_some, List.flatMap_singleton, Item.nodes_plain]
      rfl
  rw [node_of_not_isReference h, Node.nodes_object, List.flatMap_append, List.flatMap_append,
    List.flatMap_assoc, hplain]
  simp only [hplain]

/-- The nodes of an include. -/
theorem nodes_node_of_isReference {rule : Rule} (h : rule.isReference = true) (path : AccessPath) :
    (rule.node context path).nodes = rule.node context path ::
      context.arrayNode (path.field .patterns) ([rule].map fun entry => (entry, entry.node context))
        :: context.cellNodes (path.field .patterns) 0 rule := by
  rw [node_of_isReference h, Node.nodes_object, List.flatMap_singleton, Item.nodes_plain,
    Context.nodes_arrayNode]
  simp

/-- What holds of leaves, of arrays, of the objects of capture fields and of the nodes of the rules
    that building comes to holds of every node in the tree of a rule. -/
theorem forall_mem_nodes_node {p : Node → Prop} (leaf : ∀ node : Node, node.IsLeaf → p node)
    (array : ∀ elements, p (.array elements))
    (groups : ∀ (path : AccessPath) (entries : Captures),
      p (Context.groupsNode path (entries.map fun group => (group.1, group.2.node context))))
    {rule : Rule} {path : AccessPath}
    (own : ∀ target below, rule.Reaches path target below → p (target.node context below)) :
    ∀ node ∈ (rule.node context path).nodes, p node := by
  induction rule using Rule.induction generalizing path with
  | step rule ihGroups ihEntries =>
    cases hrule : rule.isReference with
    | true =>
      rw [nodes_node_of_isReference hrule, List.forall_mem_cons, List.forall_mem_cons]
      exact ⟨own rule path (.self rule path), array _, fun node hmem =>
        leaf node (Context.isLeaf_of_mem_cellNodes hrule hmem)⟩
    | false =>
      rw [nodes_node hrule, List.forall_mem_cons, List.forall_mem_append, List.forall_mem_append]
      refine ⟨own rule path (.self rule path),
        ⟨fun node hmem => ?_, fun node hmem => ?_⟩, fun node hmem => ?_⟩
      · obtain ⟨item, hitem, hmem⟩ := List.mem_flatMap.1 hmem
        exact leaf node ((Context.ownItems_flat hitem).isLeaf_of_mem_nodes hmem)
      · obtain ⟨field, -, hmem⟩ := List.mem_flatMap.1 hmem
        cases hgroups : rule.groups field with
        | none => simp [hgroups] at hmem
        | some members =>
          rw [hgroups, Option.map_some, Option.getD_some, Context.nodes_groupsNode, List.mem_cons,
            List.mem_flatMap] at hmem
          obtain rfl | ⟨⟨number, inner⟩, hinner, hmem⟩ := hmem
          · exact groups _ members
          · obtain ⟨key, hentry, hnumber⟩ := mem_sortedGroups hinner
            refine ihGroups field members hgroups (key, inner) hentry ?_ node hmem
            exact fun target below hreaches => own target below
              (.group hrule hgroups hentry (groupNumber?_eq_some_iff.1 hnumber) hreaches)
      · cases hrules : rule.patterns with
        | none => simp [hrules] at hmem
        | some rules =>
          rw [hrules, Option.map_some, Option.getD_some, Context.nodes_arrayNode, List.mem_cons,
            List.mem_flatMap] at hmem
          obtain rfl | ⟨⟨entry, index⟩, hentry, hmem⟩ := hmem
          · exact array _
          · cases hreference : entry.isReference with
            | true => exact leaf node (Context.isLeaf_of_mem_cellNodes hreference hmem)
            | false =>
              dsimp only at hmem
              rw [Context.cellNodes_of_not_isReference hreference] at hmem
              refine ihEntries rules hrules entry (List.fst_mem_of_mem_zipIdx hentry) ?_ node hmem
              exact fun target below hreaches => own target below
                (.entry hrule hrules (List.mk_mem_zipIdx_iff_getElem?.1 hentry) hreaches)

end Rule

end PatternTable
