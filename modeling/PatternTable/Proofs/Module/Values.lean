import PatternTable.Proofs.Module.Runtime
import PatternTable.Proofs.Rule.Arrays

/-!
# The values of rules

A rule has a value once it is known what stands in its arrays: `Rule.value` takes the way of making
an array. In source order, every entry of an array has an element. Before that, some includes are
missing from their arrays, and what is there keeps its order.

Results:
* `Rule.valueWith_congr`: the value of a rule depends only on what stands in the arrays inside it.
* `Rule.valueWith_eq_value`: a rule from which nothing is missing has its value in source order.
-/

namespace PatternTable

/-! ## References -/

/-- The expression of what an include refers to, in the module of a document. -/
def Reference.expression (document : Document) : Reference → String
  | .internal target => target.identifier document
  | .external other target =>
    if other.sameFamily document then target.identifier other
    else other.namespaceAlias ++ "." ++ target.identifier other

/-- The expression for an include that is well formed. -/
def includeExpression (document : Document) (spelling : String) : String :=
  ((Reference.parse? document spelling).map (Reference.expression document)).getD ""

/-! ## Values -/

/-- The member that a line of an object stands for, if it has no array or object in it. -/
def Item.member? : Item → Option (String × Value)
  | .member key (.raw expression) _ => some (key, .expression expression)
  | .member key (.text content) _ => some (key, .text content)
  | _ => none

namespace Context

/-- The members of a rule that hold no other rules. -/
def ownMembers (context : Context) (rule : Rule) (path : AccessPath) : List (String × Value) :=
  (context.ownItems rule path).filterMap Item.member?

/-- The object of the groups of a capture field. -/
def groupsValue (path : AccessPath) (entries : List (String × (AccessPath → Value))) : Value :=
  .object ((sortedGroups entries).map fun (number, value) =>
    (toString number, value (path.group number)))

/-- The value of a rule, from those of the rules inside it. -/
def valueOf (context : Context)
    (makeArray : AccessPath → List (Rule × (AccessPath → Value)) → Value) (rule : Rule)
    (children : Children (AccessPath → Value)) (path : AccessPath) : Value :=
  if rule.isReference then
    .object [("patterns", makeArray (path.field .patterns) [(rule, fun _ => .object [])])]
  else
    .object (context.ownMembers rule path ++
      (Field.captureFields.flatMap fun field =>
        ((children.groups field).map fun entries =>
          (field.name, groupsValue (path.field field) entries)).toList) ++
      (children.patterns.map fun entries =>
        ("patterns", makeArray (path.field .patterns) entries)).toList)

/-- The array with one element for each entry: a rule of its own, or the expression of an
    include. -/
def sourceArray (context : Context) (array : AccessPath)
    (entries : List (Rule × (AccessPath → Value))) : Value :=
  .array array (entries.zipIdx.map fun (entry, index) =>
    match entry.1.reference with
    | some spelling => .expression (includeExpression context.document spelling)
    | none => entry.2 (array.index index))

end Context

/-- The value of the rule at a path when its arrays are made in some way. -/
def Rule.value (context : Context)
    (makeArray : AccessPath → List (Rule × (AccessPath → Value)) → Value) (rule : Rule) :
    AccessPath → Value :=
  rule.fold (context.valueOf makeArray)

/-! ## Missing includes -/

/-- What stands for the include with a spelling at an index of an array. -/
abbrev Standing := AccessPath → Nat → String → Option String

/-- What stands when the includes at some entries are missing from their arrays. -/
def Standing.without (document : Document) (missing : List (AccessPath × Nat)) : Standing :=
  fun array index spelling =>
    if missing.contains (array, index) then none else some (includeExpression document spelling)

namespace Standing

/-- What is in the cell of an entry. -/
def cell (standing : Standing) (array : AccessPath) (index : Nat)
    (entry : Rule × (AccessPath → Value)) : Option Value :=
  match entry.1.reference with
  | some spelling => (standing array index spelling).map .expression
  | none => some (entry.2 (array.index index))

/-- What is in the cells of an array, from an index on. -/
def cells (standing : Standing) (array : AccessPath) (start : Nat)
    (entries : List (Rule × (AccessPath → Value))) : List (Option Value) :=
  (entries.zipIdx start).map fun (entry, index) => standing.cell array index entry

/-- The array of what stands in the cells. -/
def makeArray (standing : Standing) (array : AccessPath)
    (entries : List (Rule × (AccessPath → Value))) : Value :=
  .array array (standing.cells array 0 entries).reduceOption

end Standing

namespace Rule

/-- The value of a rule when some includes may be missing from their arrays. -/
def valueWith (context : Context) (standing : Standing) (rule : Rule) : AccessPath → Value :=
  rule.value context standing.makeArray

/-- What is in the cells of an array of rules. -/
def cellsWith (context : Context) (standing : Standing) (array : AccessPath)
    (entries : List Rule) : List (Option Value) :=
  standing.cells array 0 (entries.map fun entry => (entry, entry.valueWith context standing))

variable {context : Context} {standing : Standing}

theorem getElem?_cellsWith {array : AccessPath} {entries : List Rule} {index : Nat} :
    (cellsWith context standing array entries)[index]? = entries[index]?.map fun entry =>
      standing.cell array index (entry, entry.valueWith context standing) := by
  simp only [cellsWith, Standing.cells, List.getElem?_map, List.getElem?_zipIdx, Option.map_map]
  cases entries[index]? <;> simp

theorem length_cellsWith (context : Context) (standing : Standing) (array : AccessPath)
    (entries : List Rule) : (cellsWith context standing array entries).length = entries.length := by
  simp [cellsWith, Standing.cells]

theorem valueWith_of_isReference {rule : Rule} (h : rule.isReference = true) (path : AccessPath) :
    rule.valueWith context standing path = .object [("patterns",
      .array (path.field .patterns)
        (cellsWith context standing (path.field .patterns) [rule]).reduceOption)] := by
  obtain ⟨spelling, hreference⟩ := Option.isSome_iff_exists.1 h
  rw [valueWith, value, fold_eq, Context.valueOf, if_pos h]
  simp [Standing.makeArray, cellsWith, Standing.cells, Standing.cell, hreference]

/-- The member for a field of a rule, if the rule has the field. -/
def fieldMember (context : Context) (standing : Standing) (rule : Rule) (path : AccessPath) :
    Field → Option Value
  | .patterns => rule.patterns.map fun rules => .array (path.field .patterns)
      (cellsWith context standing (path.field .patterns) rules).reduceOption
  | field => (rule.groups field).map fun groups =>
      .object ((sortedGroups groups).map fun (number, inner) =>
        (toString number, inner.valueWith context standing ((path.field field).group number)))

/-- The members for some fields of a rule. -/
def fieldMembers (context : Context) (standing : Standing) (rule : Rule) (path : AccessPath)
    (fields : List Field) : List (String × Value) :=
  fields.flatMap fun field =>
    ((rule.fieldMember context standing path field).map fun value => (field.name, value)).toList

theorem valueWith_of_not_isReference {rule : Rule} (h : rule.isReference = false)
    (path : AccessPath) : rule.valueWith context standing path =
      .object (context.ownMembers rule path ++
        rule.fieldMembers context standing path Field.all) := by
  rw [valueWith, value, fold_eq, Context.valueOf, h]
  simp only [Bool.false_eq_true, ↓reduceIte, Field.all, Field.captureFields, List.cons_append,
    List.nil_append, List.flatMap_cons, List.flatMap_nil, List.append_assoc, fieldMembers,
    fieldMember, Rule.groups, Option.map_map, Function.comp_def, Context.groupsValue,
    sortedGroups_map, List.map_map, List.append_nil]
  rfl

variable {other : Standing}

/-- The cells of an array depend on what stands in it and on the values of the rules in it. -/
theorem cellsWith_congr {array : AccessPath} {entries : List Rule}
    (hstanding : ∀ index spelling, standing array index spelling = other array index spelling)
    (hentries : ∀ index, ∀ entry : Rule, entries[index]? = some entry →
      entry.isReference = false → entry.valueWith context standing (array.index index) =
        entry.valueWith context other (array.index index)) :
    cellsWith context standing array entries = cellsWith context other array entries := by
  refine List.ext_getElem? fun index => ?_
  rw [getElem?_cellsWith, getElem?_cellsWith]
  cases hget : entries[index]? with
  | none => rfl
  | some entry =>
    rw [Option.map_some, Option.map_some, Standing.cell, Standing.cell]
    obtain hreference | ⟨spelling, hreference⟩ := entry.reference.eq_none_or_eq_some
    · simp only [hreference]
      rw [hentries index entry hget (by simp [isReference, hreference])]
    · simp only [hreference, hstanding]

theorem fieldMember_of_ne {rule : Rule} {field : Field} (h : field ≠ .patterns)
    (path : AccessPath) : rule.fieldMember context standing path field =
      (rule.groups field).map fun groups => .object ((sortedGroups groups).map
        fun (number, inner) => (toString number,
          inner.valueWith context standing ((path.field field).group number))) := by
  cases field with
  | patterns => exact absurd rfl h
  | captures => rfl
  | openingCaptures => rfl
  | closingCaptures => rfl

theorem fieldMember_of_groups {rule : Rule} {field : Field} {groups : List (String × Rule)}
    (h : rule.groups field = some groups) (path : AccessPath) :
    rule.fieldMember context standing path field =
      some (.object ((sortedGroups groups).map fun (number, inner) => (toString number,
        inner.valueWith context standing ((path.field field).group number)))) := by
  have hfield : field ≠ .patterns := by
    rintro rfl
    simp [Rule.groups] at h
  rw [fieldMember_of_ne hfield, h, Option.map_some]

theorem fieldMember_of_patterns {rule : Rule} {rules : List Rule} (h : rule.patterns = some rules)
    (path : AccessPath) : rule.fieldMember context standing path .patterns =
      some (.array (path.field .patterns)
        (cellsWith context standing (path.field .patterns) rules).reduceOption) := by
  rw [fieldMember, h, Option.map_some]

/-- The member for a field depends on the values of the rules in the field. -/
theorem fieldMember_congr {rule : Rule} {path : AccessPath} {field : Field}
    (hgroups : ∀ groups, rule.groups field = some groups → ∀ number, ∀ inner : Rule,
      (number, inner) ∈ sortedGroups groups →
        inner.valueWith context standing ((path.field field).group number) =
          inner.valueWith context other ((path.field field).group number))
    (hpatterns : field = .patterns → ∀ rules, rule.patterns = some rules →
      cellsWith context standing (path.field .patterns) rules =
        cellsWith context other (path.field .patterns) rules) :
    rule.fieldMember context standing path field = rule.fieldMember context other path field := by
  by_cases hfield : field = .patterns
  · subst hfield
    exact Option.map_congr fun rules hrules => by rw [hpatterns rfl rules hrules]
  · rw [fieldMember_of_ne hfield, fieldMember_of_ne hfield]
    refine Option.map_congr fun groups hrule => congrArg Value.object (List.map_congr_left ?_)
    rintro ⟨number, inner⟩ hmem
    simp only
    rw [hgroups groups hrule number inner hmem]

theorem valueWith_congr {rule : Rule} {path : AccessPath}
    (h : ∀ array entries, rule.HasArray path array entries → ∀ index spelling,
      standing array index spelling = other array index spelling) :
    rule.valueWith context standing path = rule.valueWith context other path := by
  induction rule using Rule.induction generalizing path with
  | step rule groups entries =>
    cases hrule : rule.isReference with
    | true =>
      rw [valueWith_of_isReference hrule, valueWith_of_isReference hrule,
        cellsWith_congr (h _ _ (.lone hrule))]
      intro index entry hget hentry
      rw [List.mem_singleton.1 (List.mem_of_getElem? hget), hrule] at hentry
      cases hentry
    | false =>
      have hfields : rule.fieldMember context standing path =
          rule.fieldMember context other path := by
        funext field
        refine fieldMember_congr ?_ ?_
        · intro members hmembers number inner hmem
          obtain ⟨key, hentry, -⟩ := mem_sortedGroups hmem
          exact groups field members hmembers _ hentry fun array inner harray =>
            h array inner (.group hrule hmembers hmem harray)
        · rintro rfl rules hrules
          exact cellsWith_congr (h _ _ (.own hrule hrules)) fun index entry hget hentry =>
            entries rules hrules entry (List.mem_of_getElem? hget) fun array inner harray =>
              h array inner (.entry hrule hrules hget hentry harray)
      rw [valueWith_of_not_isReference hrule, valueWith_of_not_isReference hrule, fieldMembers,
        fieldMembers, hfields]

/-- An array from which nothing is missing is in source order. -/
theorem makeArray_without_nil (context : Context) :
    (Standing.without context.document []).makeArray = context.sourceArray := by
  funext array entries
  rw [Standing.makeArray, Context.sourceArray, List.reduceOption, Standing.cells,
    List.filterMap_map, ← List.filterMap_eq_map]
  congr 2
  funext entry
  simp only [Function.comp_apply, id_eq, Standing.cell, Standing.without]
  cases entry.1.1.reference <;> rfl

theorem valueWith_eq_value (context : Context) (rule : Rule) :
    rule.valueWith context (Standing.without context.document []) =
      rule.value context context.sourceArray := by
  rw [valueWith, makeArray_without_nil]

end Rule

end PatternTable
