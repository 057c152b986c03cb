import PatternTable.Proofs.Array.Cells
import PatternTable.Proofs.Rule.Fold
import PatternTable.Proofs.Rule.Groups

/-!
# Visits

Building a rule goes through it in a fixed order. At each stop it leaves a trail that depends on
nothing but the stop, and it may end there with a failure. What it makes of the rule if it does not
end, the node, can be told without going through it.

* `Rule.visits` are the stops of a rule at a path.
* `Context.trail` and `Context.cause?` are the trail and the failure of a stop.
* `Rule.node` is the node of a rule at a path.
-/

namespace PatternTable

/-! ## Stops -/

/-- A stop on the way through a rule. -/
inductive Visit where
  /-- A rule that is not an include, before the rules inside it. -/
  | rule (path : AccessPath) (rule : Rule)
  /-- A capture field with its keys, before the rules of its groups. -/
  | groups (path : AccessPath) (keys : List String)
  /-- An entry of an array, before the rules in the array. -/
  | entry (array : AccessPath) (index : Nat) (entry : Rule)
  /-- An array, after the rules in it. -/
  | filled (array : AccessPath) (entries : List Rule)

/-- The fields of a rule that hold captures, in the order in which they are built. -/
def Field.captureFields : List Field :=
  [.captures, .openingCaptures, .closingCaptures]

theorem Rule.mem_captureFields_of_groups {rule : Rule} {field : Field} {entries : Captures}
    (h : rule.groups field = some entries) : field ∈ Field.captureFields := by
  cases field with
  | patterns => simp [groups] at h
  | captures => decide
  | openingCaptures => decide
  | closingCaptures => decide

/-- The fields of a rule that hold other rules, in the order in which they are built. -/
def Field.all : List Field :=
  captureFields ++ [.patterns]

/-- The way through an array. Its includes are resolved before its other rules are built. -/
def arrayVisits (array : AccessPath) (entries : List (Rule × (AccessPath → List Visit))) :
    List Visit :=
  (entries.zipIdx.map fun (entry, index) => .entry array index entry.1) ++
    (entries.zipIdx.flatMap fun (entry, index) =>
      if entry.1.isReference then [] else entry.2 (array.index index)) ++
    [.filled array (entries.map Prod.fst)]

/-- The way through the groups of a capture field. -/
def groupVisits (path : AccessPath) (entries : List (String × (AccessPath → List Visit))) :
    List Visit :=
  .groups path (entries.map Prod.fst) ::
    (sortedGroups entries).flatMap fun (number, visits) => visits (path.group number)

namespace Rule

/-- The way through a rule, from the ways through the rules inside it. An include where a rule is
    expected is the only entry of an array. -/
def visitsOf (rule : Rule) (children : Children (AccessPath → List Visit)) (path : AccessPath) :
    List Visit :=
  if rule.isReference then arrayVisits (path.field .patterns) [(rule, fun _ => [])]
  else
    .rule path rule ::
      (Field.captureFields.flatMap fun field =>
          ((children.groups field).map (groupVisits (path.field field))).getD []) ++
        (children.patterns.map (arrayVisits (path.field .patterns))).getD []

/-- The way through the rule at a path, in the order in which it is built. -/
def visits (rule : Rule) : AccessPath → List Visit :=
  rule.fold visitsOf

end Rule

namespace Context

/-! ## Includes -/

/-- The identifier that stands for an include at once, if one does. -/
def inlined? (context : Context) (spelling : String) : Option String :=
  match Reference.parse? context.document spelling with
  | some (.internal target) =>
    if context.isDefined target then some (target.identifier context.document) else none
  | _ => none

/-- Whether an entry of an array stands in it at once. -/
def stands (context : Context) (entry : Rule) : Bool :=
  match entry.reference with
  | some spelling => (context.inlined? spelling).isSome
  | none => true

/-- The patch for an entry of an array that refers to a target of its document. -/
def internalPatch? (context : Context) (array : AccessPath) (index : Nat) (entry : Rule) :
    Option (Patch Target) :=
  match entry.reference with
  | none => none
  | some spelling =>
    match Reference.parse? context.document spelling with
    | some (.internal target) =>
      if context.isDefined target then none else some ⟨array, index, target, spelling⟩
    | _ => none

/-- The patch for an entry of an array that refers to a target of another document. -/
def externalPatch? (context : Context) (array : AccessPath) (index : Nat) (entry : Rule) :
    Option (Patch External) :=
  match entry.reference with
  | none => none
  | some spelling =>
    match Reference.parse? context.document spelling with
    | some (.external document target) => some ⟨array, index, ⟨document, target⟩, spelling⟩
    | _ => none

/-- The trail of an entry of an array. -/
def entryTrail (context : Context) (array : AccessPath) (index : Nat) (entry : Rule) : Trail where
  internalPatches := (context.internalPatch? array index entry).toList
  externalPatches := (context.externalPatch? array index entry).toList
  findings :=
    match entry.reference with
    | none => []
    | some spelling =>
      if entry.hasIgnoredFields then
        [⟨.ignoredFields, context.document, (array.index index).text, some spelling⟩]
      else []

/-! ## Own items -/

/-- The member for a scope name. -/
def tokenMember (context : Context) (name scope : String) : Item :=
  let token := context.config.classifier.classify scope
  .member name (.raw token.expression) (some (token.remark scope))

/-- The member for a pattern. -/
def patternMember (context : Context) (name : String) (captures : Bool) (pattern : String) : Item :=
  .plain name (.raw (Regex.Literal.ofPattern context.config.expandClasses captures pattern).text)

/-- The trail of a scope name. -/
def tokenTrail (context : Context) (path : AccessPath) (scope : String) : Trail :=
  let token := context.config.classifier.classify scope
  { tokens := [(scope, token)]
    findings :=
      if token.isResolved then []
      else [⟨.unclassifiedScope, context.document, path.text, some scope⟩]
    notices :=
      if token.isResolved then [] else [.unclassified context.document path scope] }

/-- The trail of a pattern. -/
def patternTrail (context : Context) (pattern : String) : Trail where
  notices := (Regex.notices context.config.expandClasses pattern).map .regex

/-- The items of a rule that hold no other rules. -/
def ownItems (context : Context) (rule : Rule) (path : AccessPath) : List Item :=
  (if rule.hasPattern then [.plain "debugName" (.text path.text), .blank] else []) ++
    (rule.comment.map commentItems).getD [] ++
    (rule.name.map (context.tokenMember "token")).toList ++
    (rule.contentName.map (context.tokenMember "contentToken")).toList ++
    (rule.single.map (context.patternMember "match" rule.captures.isSome)).toList ++
    (rule.opening.map (context.patternMember "begin"
      (rule.captures.isSome || rule.openingCaptures.isSome))).toList ++
    (rule.closing.map (context.patternMember "end"
      (rule.captures.isSome || rule.closingCaptures.isSome))).toList

/-- Whether a rule makes an object without items. -/
def isEmptyRule (context : Context) (rule : Rule) (path : AccessPath) : Bool :=
  (context.ownItems rule path).isEmpty && rule.captures.isNone && rule.openingCaptures.isNone &&
    rule.closingCaptures.isNone && rule.patterns.isNone

/-- The trail of the items of a rule that hold no other rules. -/
def ownTrail (context : Context) (rule : Rule) (path : AccessPath) : Trail :=
  (rule.name.map (context.tokenTrail path)).getD {} ++
    (rule.contentName.map (context.tokenTrail path)).getD {} ++
    (rule.single.map context.patternTrail).getD {} ++
    (rule.opening.map context.patternTrail).getD {} ++
    (rule.closing.map context.patternTrail).getD {} ++
    (if context.isEmptyRule rule path then
      { findings := [⟨.emptyRule, context.document, path.text, some path.text⟩] }
    else {})

/-! ## What is done at a stop -/

/-- Why building ends at a stop. -/
def cause? (context : Context) : Visit → Option Cause
  | .rule path rule => rule.defect?.map (.defect path)
  | .groups path keys =>
    match numbered [] (keys.map fun key => (key, ())) with
    | .error key => some (.defect path (.invalidGroup key))
    | .ok _ => none
  | .entry array index entry =>
    (entry.reference.filter fun spelling =>
      (Reference.parse? context.document spelling).isNone).map fun spelling =>
        .defect (array.index index) (.unrecognizedInclude spelling)
  | .filled _ _ => none

/-- The trail of a stop. -/
def trail (context : Context) : Visit → Trail
  | .rule path rule => if rule.defect?.isSome then {} else context.ownTrail rule path
  | .groups _ _ => {}
  | .entry array index entry => context.entryTrail array index entry
  | .filled array entries =>
    { arrays := [(array, Cells.filled (entries.map fun entry =>
        if context.stands entry then some () else none))] }

/-- What is done at a stop. -/
def visit (context : Context) (visit : Visit) : Build Unit :=
  ⟨match context.cause? visit with
    | some cause => .error cause
    | none => .ok (),
    context.trail visit⟩

/-- What is done on the way through some stops. -/
def visitAll (context : Context) (visits : List Visit) : Build Unit :=
  forM visits context.visit

/-! ## Nodes -/

/-- What stands at once in the cell of an entry of an array. -/
def cell (context : Context) (array : AccessPath) (index : Nat)
    (entry : Rule × (AccessPath → Node)) : Option Node :=
  match entry.1.reference with
  | some spelling => (context.inlined? spelling).map .raw
  | none => some (entry.2 (array.index index))

/-- What stands at once in the cells of an array, from an index on. -/
def cells (context : Context) (array : AccessPath) (start : Nat)
    (entries : List (Rule × (AccessPath → Node))) : List (Option Node) :=
  (entries.zipIdx start).map fun (entry, index) => context.cell array index entry

/-- The array that some entries make. -/
def arrayNode (context : Context) (array : AccessPath)
    (entries : List (Rule × (AccessPath → Node))) : Node :=
  .array (context.cells array 0 entries).reduceOption

/-- The object that the groups of a capture field make. -/
def groupsNode (path : AccessPath) (entries : List (String × (AccessPath → Node))) : Node :=
  .object ((sortedGroups entries).map fun (number, node) =>
    .plain (toString number) (node (path.group number)))

/-- The node of a rule, from those of the rules inside it. -/
def nodeOf (context : Context) (rule : Rule) (children : Children (AccessPath → Node))
    (path : AccessPath) : Node :=
  if rule.isReference then
    .object [.plain "patterns"
      (context.arrayNode (path.field .patterns) [(rule, fun _ => .object [])])]
  else
    .object (context.ownItems rule path ++
      (Field.captureFields.flatMap fun field =>
        ((children.groups field).map fun entries =>
          .plain field.name (groupsNode (path.field field) entries)).toList) ++
      (children.patterns.map fun entries =>
        .plain "patterns" (context.arrayNode (path.field .patterns) entries)).toList)

end Context

/-- The node that the rule at a path makes, if it can be built. -/
def Rule.node (context : Context) (rule : Rule) : AccessPath → Node :=
  rule.fold context.nodeOf

end PatternTable
