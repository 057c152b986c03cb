import PatternTable.Proofs.Module.Values
import PatternTable.Proofs.Rule.Nodes

/-!
# A module after its definitions

Results:
* `Value.ofNode_node`: the node of a rule evaluates to the value of the rule in which those includes
  are missing that do not stand at once.
-/

namespace PatternTable

/-- The step that a member of an object stands for: a field, or the number of a group. -/
def Step.ofKey (key : String) : Step :=
  match Field.all.find? fun candidate => candidate.name == key with
  | some found => .field found
  | none => .group (Nat.ofDigitChars 10 key.toList 0)

namespace Value

mutual

/-- What the node at a path evaluates to, when `native` gives the source indices of the elements of
    each array. -/
def ofNode (native : AccessPath → List Nat) (path : AccessPath) : Node → Value
  | .raw code => .expression code
  | .text content => .text content
  | .array elements => .array path (ofElements native path (native path) elements)
  | .object items => .object (ofItems native path items)

/-- The elements of an array, with the source indices of some of them. -/
def ofElements (native : AccessPath → List Nat) (array : AccessPath) :
    List Nat → List Node → List Value
  | _, [] => []
  | indices, node :: nodes =>
    ofNode native (array.index (indices.headD 0)) node :: ofElements native array indices.tail nodes

/-- The members of an object. -/
def ofItems (native : AccessPath → List Nat) (path : AccessPath) : List Item → List (String × Value)
  | [] => []
  | item :: items => ofItem native path item ++ ofItems native path items

/-- The member for a line of an object, if it has one. -/
def ofItem (native : AccessPath → List Nat) (path : AccessPath) : Item → List (String × Value)
  | .member key value _ => [(key, ofNode native (path.extend (.ofKey key)) value)]
  | .comment _ => []
  | .blank => []

end

theorem ofItems_append (native : AccessPath → List Nat) (path : AccessPath)
    (items others : List Item) :
    ofItems native path (items ++ others) =
      ofItems native path items ++ ofItems native path others := by
  induction items with
  | nil => rfl
  | cons item items ih => rw [List.cons_append, ofItems, ofItems, ih, List.append_assoc]

theorem ofItems_flatMap {α : Type} (native : AccessPath → List Nat) (path : AccessPath)
    (list : List α) (items : α → List Item) :
    ofItems native path (list.flatMap items) =
      list.flatMap fun a => ofItems native path (items a) := by
  induction list with
  | nil => rfl
  | cons a list ih => rw [List.flatMap_cons, ofItems_append, ih, List.flatMap_cons]

theorem ofItem_plain (native : AccessPath → List Nat) (path : AccessPath) (key : String)
    (node : Node) : ofItem native path (.plain key node) =
      [(key, ofNode native (path.extend (.ofKey key)) node)] := by
  rw [Item.plain, ofItem]

theorem ofItems_flat {native : AccessPath → List Nat} {path : AccessPath} {items : List Item}
    (h : ∀ item ∈ items, item.IsFlat) :
    ofItems native path items = items.filterMap Item.member? := by
  induction items with
  | nil => rfl
  | cons item items ih =>
    rw [List.forall_mem_cons] at h
    rw [ofItems, ih h.2]
    rcases item with ⟨key, value, remark⟩ | text | _
    · cases value with
      | raw => simp [ofItem, ofNode, Item.member?]
      | text => simp [ofItem, ofNode, Item.member?]
      | array => exact h.1.elim
      | object => exact h.1.elim
    · simp [ofItem, Item.member?, List.filterMap_cons]
    · simp [ofItem, Item.member?, List.filterMap_cons]

theorem ofElements_filled (native : AccessPath → List Nat) (array : AccessPath) (start : Nat)
    (cells : List (Option Node)) :
    ofElements native array (Cells.filledFrom start cells) cells.reduceOption =
      ((cells.zipIdx start).map fun (cell, index) =>
        cell.map (ofNode native (array.index index))).reduceOption := by
  induction cells generalizing start with
  | nil => rfl
  | cons cell cells ih =>
    cases cell with
    | none =>
      rw [Cells.filledFrom_cons_none, List.reduceOption_cons_of_none, ih]
      simp only [List.zipIdx_cons, List.map_cons, Option.map_none, List.reduceOption_cons_of_none]
    | some node =>
      rw [Cells.filledFrom_cons_some, List.reduceOption_cons_of_some, ofElements, List.tail_cons,
        ih]
      simp only [List.zipIdx_cons, List.map_cons, Option.map_some, List.reduceOption_cons_of_some,
        List.headD_cons]

end Value

theorem Step.ofKey_name (field : Field) : ofKey field.name = .field field := by
  cases field <;> decide

theorem Step.ofKey_number (number : Nat) : ofKey (toString number) = .group number := by
  have hfind : (Field.all.find? fun candidate => candidate.name == toString number) = none := by
    rw [List.find?_eq_none]
    rintro candidate - heq
    rw [beq_iff_eq, eq_comm] at heq
    exact toString_ne_of_not_digits (by cases candidate <;> decide) number heq
  rw [ofKey, hfind, Nat.toString_eq_ofList_toDigits, String.toList_ofList,
    Nat.ofDigitChars_ten_toDigits]

/-! ## Rules -/

/-- The includes that stand in the arrays of a rule at once are those that a standing says, and the
    source indices of the elements of its arrays are known. -/
def Rule.Loads (context : Context) (standing : Standing) (native : AccessPath → List Nat)
    (rule : Rule) (path : AccessPath) : Prop :=
  ∀ array entries, rule.HasArray path array entries →
    native array = Cells.filled (Rule.cells context array entries) ∧
      ∀ index entry spelling, entries[index]? = some entry → entry.reference = some spelling →
        context.inlined? spelling = standing array index spelling

namespace Value

variable {context : Context} {standing : Standing} {native : AccessPath → List Nat}

theorem ofNode_arrayNode {array : AccessPath} {entries : List Rule}
    (hnative : native array = Cells.filled (Rule.cells context array entries))
    (hincludes : ∀ index, ∀ entry : Rule, ∀ spelling, entries[index]? = some entry →
      entry.reference = some spelling →
        context.inlined? spelling = standing array index spelling)
    (hentries : ∀ index, ∀ entry : Rule, entries[index]? = some entry →
      entry.isReference = false →
        ofNode native (array.index index) (entry.node context (array.index index)) =
          entry.valueWith context standing (array.index index)) :
    ofNode native array
        (context.arrayNode array (entries.map fun entry => (entry, entry.node context))) =
      .array array (Rule.cellsWith context standing array entries).reduceOption := by
  rw [Context.arrayNode, ofNode, hnative, Cells.filled, ofElements_filled]
  congr 2
  refine List.ext_getElem? fun index => ?_
  rw [List.getElem?_map, List.getElem?_zipIdx, Rule.getElem?_cells, Rule.getElem?_cellsWith]
  cases hget : entries[index]? with
  | none => rfl
  | some entry =>
    simp only [Option.map_some, Nat.zero_add, Option.some.injEq, Context.cell, Standing.cell]
    obtain hreference | ⟨spelling, hreference⟩ := entry.reference.eq_none_or_eq_some
    · simp only [hreference, Option.map_some]
      rw [hentries index entry hget (by simp [Rule.isReference, hreference])]
    · simp only [hreference, hincludes index entry spelling hget hreference]
      cases standing array index spelling <;> rfl

theorem ofNode_groupsNode {path : AccessPath} {groups : List (String × Rule)}
    (h : ∀ group ∈ groups, ∀ number, (number, group.2) ∈ sortedGroups groups →
      ofNode native (path.group number) (group.2.node context (path.group number)) =
        group.2.valueWith context standing (path.group number)) :
    ofNode native path (Context.groupsNode path
        (groups.map fun group => (group.1, group.2.node context))) =
      .object ((sortedGroups groups).map fun (number, inner) =>
        (toString number, inner.valueWith context standing (path.group number))) := by
  rw [Context.groupsNode, ofNode, sortedGroups_map]
  congr 1
  have hall : ∀ group ∈ sortedGroups groups,
      ofNode native (path.group group.1) (group.2.node context (path.group group.1)) =
        group.2.valueWith context standing (path.group group.1) := by
    intro group hmem
    obtain ⟨key, hentry, -⟩ := mem_sortedGroups hmem
    exact h _ hentry group.1 hmem
  generalize sortedGroups groups = sorted at hall
  induction sorted with
  | nil => rfl
  | cons group sorted ih =>
    rw [List.forall_mem_cons] at hall
    simp only [List.map_cons, ofItems, ofItem_plain, List.singleton_append, Step.ofKey_number]
    rw [ih hall.2, ← hall.1]
    rfl

theorem ofItems_groups {rule : Rule} {path : AccessPath} {field : Field}
    (hfield : field ∈ Field.captureFields) (h : ∀ members, rule.groups field = some members →
      ofNode native (path.field field) (Context.groupsNode (path.field field)
        (members.map fun group => (group.1, group.2.node context))) =
      .object ((sortedGroups members).map fun (number, inner) => (toString number,
        inner.valueWith context standing ((path.field field).group number)))) :
    ofItems native path ((rule.groups field).map fun members => Item.plain field.name
        (Context.groupsNode (path.field field)
          (members.map fun group => (group.1, group.2.node context)))).toList =
      ((rule.fieldMember context standing path field).map fun value =>
        (field.name, value)).toList := by
  have hne : field ≠ .patterns := by
    rintro rfl
    simp [Field.captureFields] at hfield
  rw [Rule.fieldMember_of_ne hne]
  cases hmembers : rule.groups field with
  | none => rfl
  | some members =>
    simp only [Option.map_some, Option.toList_some, ofItems, ofItem_plain, List.append_nil,
      Step.ofKey_name]
    exact congrArg (fun value => [(field.name, value)]) (h members hmembers)

theorem ofItems_patterns {rule : Rule} {path : AccessPath}
    (h : ∀ rules, rule.patterns = some rules →
      ofNode native (path.field .patterns) (context.arrayNode (path.field .patterns)
        (rules.map fun entry => (entry, entry.node context))) =
      .array (path.field .patterns)
        (Rule.cellsWith context standing (path.field .patterns) rules).reduceOption) :
    ofItems native path (rule.patterns.map fun rules => Item.plain "patterns"
        (context.arrayNode (path.field .patterns)
          (rules.map fun entry => (entry, entry.node context)))).toList =
      ((rule.fieldMember context standing path .patterns).map fun value =>
        ("patterns", value)).toList := by
  have hkey : Step.ofKey "patterns" = .field .patterns := Step.ofKey_name .patterns
  rw [Rule.fieldMember]
  cases hrules : rule.patterns with
  | none => rfl
  | some rules =>
    simp only [Option.map_some, Option.toList_some, ofItems, ofItem_plain, List.append_nil, hkey]
    exact congrArg (fun value => [("patterns", value)]) (h rules hrules)

theorem ofNode_node {rule : Rule} {path : AccessPath}
    (h : rule.Loads context standing native path) :
    ofNode native path (rule.node context path) = rule.valueWith context standing path := by
  induction rule using Rule.induction generalizing path with
  | step rule groups entries =>
    cases hrule : rule.isReference with
    | true =>
      have hkey : Step.ofKey "patterns" = .field .patterns := Step.ofKey_name .patterns
      obtain ⟨hnative, hincludes⟩ := h _ _ (.lone hrule)
      have harray := ofNode_arrayNode hnative hincludes fun index entry hget hentry => by
        rw [List.mem_singleton.1 (List.mem_of_getElem? hget), hrule] at hentry
        cases hentry
      rw [Rule.node_of_isReference hrule, Rule.valueWith_of_isReference hrule, ofNode, ofItems,
        ofItem_plain, ofItems, List.append_nil, hkey, ← harray]
      rfl
    | false =>
      have hpatterns := ofItems_patterns fun rules hrules =>
        have ⟨hnative, hincludes⟩ := h _ _ (.own hrule hrules)
        ofNode_arrayNode hnative hincludes fun index entry hget hentry =>
          entries rules hrules entry (List.mem_of_getElem? hget) fun array inner harray =>
            h array inner (.entry hrule hrules hget hentry harray)
      have hgroups : ∀ field ∈ Field.captureFields, _ := fun field hfield =>
        ofItems_groups hfield fun members hmembers =>
          ofNode_groupsNode fun group hmem number hsorted =>
            groups field members hmembers group hmem fun array inner harray =>
              h array inner (.group hrule hmembers hsorted harray)
      rw [Rule.node_of_not_isReference hrule, Rule.valueWith_of_not_isReference hrule, ofNode,
        ofItems_append, ofItems_append, ofItems_flat fun item hitem => Context.ownItems_flat hitem,
        ofItems_flatMap, Rule.fieldMembers, Field.all, List.flatMap_append, List.append_assoc,
        Context.ownMembers, List.flatMap_congr hgroups, hpatterns, List.flatMap_singleton]
      rfl

end Value

end PatternTable
