import PatternTable.Proofs.Rule.Nodes

/-!
# The scope names of a rule

A rule may have a scope name for what it matches and one for what is inside, and so may the rules in
its capture fields and in its array. An include has none: what else it has is ignored.

* `Rule.scopes` are the scope names in the rule at a path, in the order in which it is built.
* `Node.tokens` are the token types in a node, in the order in which they are written.

Results:
* `Rule.flatMap_visits_scopes`: the scope names are met in this order on the way through the rule.
* `Rule.tokens_node`: the token types in the node of a rule are those of its scope names.
-/

namespace PatternTable

/-! ## Specification -/

/-- A scope name where it is used. -/
structure ScopeUse where
  /-- The path of the rule that has the scope name. -/
  path : AccessPath
  scope : String
  deriving DecidableEq, Repr

namespace Rule

/-- The scope names of a rule, without those of the rules inside it. -/
def ownScopes (rule : Rule) : List String :=
  rule.name.toList ++ rule.contentName.toList

/-- The scope names in a rule, from those in the rules inside it. -/
def scopesOf (rule : Rule) (children : Children (AccessPath → List ScopeUse)) (path : AccessPath) :
    List ScopeUse :=
  if rule.isReference then []
  else
    rule.ownScopes.map (ScopeUse.mk path) ++
      (Field.captureFields.flatMap fun field =>
        (sortedGroups ((children.groups field).getD [])).flatMap fun (number, uses) =>
          uses ((path.field field).group number)) ++
      (children.patterns.getD []).zipIdx.flatMap fun (entry, index) =>
        entry.2 ((path.field .patterns).index index)

/-- The scope names in the rule at a path: its own, then those in its capture fields by ascending
    group number, then those in its array. -/
def scopes (rule : Rule) : AccessPath → List ScopeUse :=
  rule.fold scopesOf

end Rule

/-- The expression that a node is, if it is one. -/
def Node.expression? : Node → Option String
  | .raw expression => some expression
  | _ => none

/-- Whether a key is that of a token type. -/
def Item.isTokenKey (key : String) : Bool :=
  key == "token" || key == "contentToken"

mutual

/-- The token types in a node, in the order in which they are written. -/
def Node.tokens : Node → List String
  | .raw _ => []
  | .text _ => []
  | .array elements => Node.elementTokens elements
  | .object items => Node.itemTokens items

/-- The token types in some elements. -/
def Node.elementTokens : List Node → List String
  | [] => []
  | element :: elements => element.tokens ++ Node.elementTokens elements

/-- The token types in some items. -/
def Node.itemTokens : List Item → List String
  | [] => []
  | item :: items => item.tokens ++ Node.itemTokens items

/-- The token type that an item gives, and those in its value. -/
def Item.tokens : Item → List String
  | .member key value _ =>
    (if Item.isTokenKey key then value.expression?.toList else []) ++ value.tokens
  | .comment _ => []
  | .blank => []

end

/-! ## The way through a rule -/

/-- The scope names that are met at a stop. -/
def Visit.scopes : Visit → List ScopeUse
  | .rule path entered => entered.ownScopes.map (ScopeUse.mk path)
  | .groups _ _ => []
  | .entry _ _ _ => []
  | .filled _ _ => []

namespace Rule

theorem scopes_of_isReference {rule : Rule} (h : rule.isReference = true) (path : AccessPath) :
    rule.scopes path = [] := by
  rw [scopes, fold_eq, scopesOf, if_pos h]

theorem scopes_of_not_isReference {rule : Rule} (h : rule.isReference = false) (path : AccessPath) :
    rule.scopes path = rule.ownScopes.map (ScopeUse.mk path) ++
      (Field.captureFields.flatMap fun field =>
        (sortedGroups ((rule.groups field).getD [])).flatMap fun (number, inner) =>
          inner.scopes ((path.field field).group number)) ++
      (rule.patterns.getD []).zipIdx.flatMap fun (entry, index) =>
        entry.scopes ((path.field .patterns).index index) := by
  have hgroups (entries? : Option (List (String × Rule))) :
      (entries?.map (List.map fun entry => (entry.1, entry.2.fold scopesOf))).getD [] =
        (entries?.getD []).map fun entry => (entry.1, entry.2.fold scopesOf) :=
    Option.getD_map _ [] _
  have hentries (rules? : Option (List Rule)) :
      (rules?.map (List.map fun entry => (entry, entry.fold scopesOf))).getD [] =
        (rules?.getD []).map fun entry => (entry, entry.fold scopesOf) :=
    Option.getD_map _ [] _
  rw [scopes, fold_eq, scopesOf, h]
  simp only [hgroups, hentries, sortedGroups_map, List.zipIdx_map, List.flatMap_map]
  rfl

theorem flatMap_groupVisits_scopes {groups : List (String × Rule)}
    (h : ∀ entry ∈ groups, ∀ path, (entry.2.visits path).flatMap Visit.scopes =
      entry.2.scopes path) (path : AccessPath) :
    (groupVisits path (groups.map fun group => (group.1, group.2.visits))).flatMap Visit.scopes =
      (sortedGroups groups).flatMap fun (number, inner) => inner.scopes (path.group number) := by
  rw [groupVisits, List.flatMap_cons, sortedGroups_map, List.flatMap_map, List.flatMap_assoc]
  refine List.flatMap_congr fun group hgroup => ?_
  obtain ⟨key, hentry, -⟩ := mem_sortedGroups hgroup
  exact h (key, group.2) hentry _

theorem flatMap_arrayVisits_scopes {rules : List Rule}
    (h : ∀ entry ∈ rules, ∀ path, (entry.visits path).flatMap Visit.scopes = entry.scopes path)
    (array : AccessPath) :
    (arrayVisits array (rules.map fun entry => (entry, entry.visits))).flatMap Visit.scopes =
      rules.zipIdx.flatMap fun (entry, index) => entry.scopes (array.index index) := by
  have hentries : rules.zipIdx.flatMap (fun entry =>
      Visit.scopes (.entry array entry.2 entry.1)) = [] :=
    List.flatMap_eq_nil_iff.2 fun _ _ => rfl
  have hinner : ∀ entry ∈ rules.zipIdx,
      (if entry.1.isReference then [] else entry.1.visits (array.index entry.2)).flatMap
        Visit.scopes = entry.1.scopes (array.index entry.2) := by
    intro entry hentry
    split
    · next hreference => rw [scopes_of_isReference hreference, List.flatMap_nil]
    · exact h entry.1 (List.fst_mem_of_mem_zipIdx hentry) _
  rw [arrayVisits, List.flatMap_append, List.flatMap_append, List.zipIdx_map, List.map_map,
    List.flatMap_map, List.flatMap_map, List.flatMap_assoc, ← List.flatMap_congr hinner]
  exact (List.append_nil _).trans (congrArg (· ++ _) hentries)

/-- The scope names in a rule are met on the way through it. -/
theorem flatMap_visits_scopes (rule : Rule) (path : AccessPath) :
    (rule.visits path).flatMap Visit.scopes = rule.scopes path := by
  induction rule using Rule.induction generalizing path with
  | step rule groups entries =>
    cases hrule : rule.isReference with
    | true =>
      rw [visits_of_isReference hrule, scopes_of_isReference hrule]
      rfl
    | false =>
      rw [visits_of_not_isReference hrule, scopes_of_not_isReference hrule, List.cons_append,
        List.flatMap_cons, List.flatMap_append, List.append_assoc, List.flatMap_assoc]
      refine congrArg₂ (· ++ ·) rfl (congrArg₂ (· ++ ·) ?_ ?_)
      · refine List.flatMap_congr fun field _ => ?_
        cases hgroups : rule.groups field with
        | none => simp
        | some members => exact flatMap_groupVisits_scopes (groups field members hgroups) _
      · cases hrules : rule.patterns with
        | none => rfl
        | some rules => exact flatMap_arrayVisits_scopes (entries rules hrules) _

end Rule

/-! ## The node of a rule -/

namespace Node

theorem elementTokens_eq (elements : List Node) :
    elementTokens elements = elements.flatMap tokens := by
  induction elements with
  | nil => rfl
  | cons element elements ih => rw [elementTokens, ih, List.flatMap_cons]

theorem itemTokens_eq (items : List Item) : itemTokens items = items.flatMap Item.tokens := by
  induction items with
  | nil => rfl
  | cons item items ih => rw [itemTokens, ih, List.flatMap_cons]

theorem tokens_object (items : List Item) :
    (object items).tokens = items.flatMap Item.tokens := by
  rw [tokens, itemTokens_eq]

/-- The token types in the elements that there are. -/
theorem tokens_array_reduceOption (cells : List (Option Node)) :
    (array cells.reduceOption).tokens = cells.flatMap fun cell => (cell.map tokens).getD [] := by
  rw [tokens, elementTokens_eq]
  induction cells with
  | nil => rfl
  | cons cell cells ih =>
    cases cell with
    | none => rw [List.reduceOption_cons_of_none, ih]; rfl
    | some node =>
      rw [List.reduceOption_cons_of_some, List.flatMap_cons, List.flatMap_cons, ih]
      rfl

end Node

theorem Item.isTokenKey_number (number : Nat) : isTokenKey (toString number) = false := by
  have htoken : toString number ≠ "token" := toString_ne_of_not_digits (by decide) number
  have hcontent : toString number ≠ "contentToken" := toString_ne_of_not_digits (by decide) number
  rw [isTokenKey, beq_eq_false_iff_ne.2 htoken, beq_eq_false_iff_ne.2 hcontent]
  rfl

theorem Item.tokens_plain {key : String} (h : isTokenKey key = false) (value : Node) :
    (plain key value).tokens = value.tokens := by
  rw [plain, tokens, h]
  rfl

namespace Context

/-- The expression of the token type of a scope name. -/
def tokenExpression (context : Context) (scope : String) : String :=
  (context.config.classifier.classify scope).expression

theorem tokens_tokenMember (context : Context) {key : String} (h : Item.isTokenKey key = true)
    (scope? : Option String) : (scope?.map (context.tokenMember key)).toList.flatMap Item.tokens =
      scope?.toList.map context.tokenExpression := by
  cases scope? with
  | none => rfl
  | some scope =>
    rw [Option.map_some, Option.toList_some, List.flatMap_singleton, tokenMember, Item.tokens, h]
    rfl

theorem tokens_patternMember (context : Context) {key : String}
    (h : Item.isTokenKey key = false) (captures : Bool) (pattern? : Option String) :
    (pattern?.map (context.patternMember key captures)).toList.flatMap Item.tokens = [] := by
  cases pattern? with
  | none => rfl
  | some pattern =>
    rw [Option.map_some, Option.toList_some, List.flatMap_singleton, patternMember,
      Item.tokens_plain h]
    rfl

/-- The items of a rule that hold no other rules have the token types of its own scope names. -/
theorem tokens_ownItems (context : Context) (rule : Rule) (path : AccessPath) :
    (context.ownItems rule path).flatMap Item.tokens =
      rule.ownScopes.map context.tokenExpression := by
  have hname : (if rule.hasPattern then [Item.plain "debugName" (.text path.text), .blank]
      else []).flatMap Item.tokens = [] := by
    split <;> rfl
  have hcomments : ((rule.comment.map commentItems).getD []).flatMap Item.tokens = [] := by
    cases rule.comment with
    | none => rfl
    | some comment =>
      rw [Option.map_some, Option.getD_some, commentItems, List.flatMap_map]
      exact List.flatMap_eq_nil_iff.2 fun _ _ => rfl
  have htoken := context.tokens_tokenMember (by decide : Item.isTokenKey "token" = true)
  have hcontent := context.tokens_tokenMember (by decide : Item.isTokenKey "contentToken" = true)
  have hmatch := context.tokens_patternMember (by decide : Item.isTokenKey "match" = false)
  have hbegin := context.tokens_patternMember (by decide : Item.isTokenKey "begin" = false)
  have hend := context.tokens_patternMember (by decide : Item.isTokenKey "end" = false)
  simp only [ownItems, List.flatMap_append, hname, hcomments, htoken, hcontent, hmatch, hbegin,
    hend, List.nil_append, List.append_nil, Rule.ownScopes, List.map_append]

/-- A capture field has the token types of its groups. -/
theorem tokens_groupsNode (context : Context) (path : AccessPath) (groups : List (String × Rule)) :
    (groupsNode path (groups.map fun group => (group.1, group.2.node context))).tokens =
      (sortedGroups groups).flatMap fun (number, inner) =>
        (inner.node context (path.group number)).tokens := by
  rw [groupsNode, Node.tokens_object, sortedGroups_map, List.map_map, List.flatMap_map]
  exact List.flatMap_congr fun group _ => Item.tokens_plain (Item.isTokenKey_number _) _

/-- An array has the token types of its rules, and none for its includes. -/
theorem tokens_arrayNode (context : Context) (array : AccessPath) (rules : List Rule) :
    (context.arrayNode array (rules.map fun entry => (entry, entry.node context))).tokens =
      rules.zipIdx.flatMap fun (entry, index) =>
        if entry.isReference then [] else (entry.node context (array.index index)).tokens := by
  rw [arrayNode, Node.tokens_array_reduceOption, cells, List.zipIdx_map, List.map_map,
    List.flatMap_map]
  refine List.flatMap_congr fun entry _ => ?_
  obtain hreference | ⟨spelling, hreference⟩ := entry.1.reference.eq_none_or_eq_some
  · simp [cell, hreference, Rule.isReference]
  · cases hinlined : context.inlined? spelling <;>
      simp [cell, hreference, Rule.isReference, hinlined, Node.tokens]

end Context

namespace Rule

/-- The token types in the node of a rule are those of the scope names in the rule. -/
theorem tokens_node (context : Context) (rule : Rule) (path : AccessPath) :
    (rule.node context path).tokens =
      (rule.scopes path).map fun use => context.tokenExpression use.scope := by
  induction rule using Rule.induction generalizing path with
  | step rule groups entries =>
    cases hrule : rule.isReference with
    | true =>
      rw [node_of_isReference hrule, scopes_of_isReference hrule, Node.tokens_object,
        List.flatMap_singleton, Item.tokens_plain (by decide), Context.tokens_arrayNode]
      simp [hrule]
    | false =>
      rw [node_of_not_isReference hrule, scopes_of_not_isReference hrule, Node.tokens_object,
        List.flatMap_append, List.flatMap_append, Context.tokens_ownItems, List.map_append,
        List.map_append, List.map_map, List.flatMap_assoc, List.map_flatMap]
      refine congrArg₂ (· ++ ·) (congrArg₂ (· ++ ·) rfl ?_) ?_
      · refine List.flatMap_congr fun field _ => ?_
        cases hgroups : rule.groups field with
        | none => simp
        | some members =>
          rw [Option.map_some, Option.toList_some, List.flatMap_singleton,
            Item.tokens_plain (by cases field <;> decide), Context.tokens_groupsNode,
            Option.getD_some, List.map_flatMap]
          refine List.flatMap_congr fun group hgroup => ?_
          obtain ⟨key, hentry, -⟩ := mem_sortedGroups hgroup
          exact groups field members hgroups (key, group.2) hentry _
      · cases hrules : rule.patterns with
        | none => rfl
        | some rules =>
          rw [Option.map_some, Option.toList_some, List.flatMap_singleton,
            Item.tokens_plain (by decide), Context.tokens_arrayNode, Option.getD_some,
            List.map_flatMap]
          refine List.flatMap_congr fun entry hentry => ?_
          dsimp only
          split
          · next hreference => rw [scopes_of_isReference hreference, List.map_nil]
          · exact entries rules hrules entry.1 (List.fst_mem_of_mem_zipIdx hentry) _

end Rule

end PatternTable
