import PatternTable.Config
import PatternTable.Regex.Literal
import PatternTable.Table.Build
import PatternTable.Text.Blank
import PatternTable.Text.Lines

/-!
# Tables from grammars

The rules of the repository are built in order, then the top-level patterns. A key counts as defined
once its whole rule has been built, so a rule that includes itself is patched like any forward
reference. The includes of an array are resolved before its other rules are built, and the rules of
a capture field are built in the order of their group numbers.

A rule is taken apart by recursion into the ways of building the rules inside it (`Plan`); building
them in the right order is then no matter of recursion.
-/

namespace PatternTable

/-- What is known while the rules of a document are built. -/
structure Context where
  document : Document
  config : Config
  /-- The repository keys that are defined so far. -/
  keys : List String

namespace Context

/-- Whether a target of the document is defined. The top-level patterns come last, so they are not
    while anything is built. -/
def isDefined (context : Context) : Target → Bool
  | .key name => context.keys.contains name
  | .root => false

end Context

/-- How a rule is built, given its path. -/
abbrev Plan := AccessPath → Build Node

/-- How the rules inside a rule are built. -/
structure Inner where
  captures : Option (List (String × Plan))
  openingCaptures : Option (List (String × Plan))
  closingCaptures : Option (List (String × Plan))
  patterns : Option (List (Rule × Plan))

/-! ## Arrays -/

/-- What becomes of an entry of an array. -/
inductive Slot where
  /-- An include whose target is defined: a reference to it. -/
  | inlined (identifier : String)
  /-- An include that is left to a patch. -/
  | patched
  /-- A rule of its own. -/
  | nested (plan : Plan)

namespace Context

/-- The slot of an include at a position of an array. -/
def includeSlot (context : Context) (array : AccessPath) (index : Nat) (rule : Rule)
    (spelling : String) : Build Slot := do
  let path := array.index index
  if rule.hasIgnoredFields then
    Build.leave { findings := [⟨.ignoredFields, context.document, path.text, some spelling⟩] }
  match Reference.parse? context.document spelling with
  | none => Build.fail (.defect path (.unrecognizedInclude spelling))
  | some (.internal target) =>
    if context.isDefined target then
      return .inlined (target.identifier context.document)
    else
      Build.leave { internalPatches := [⟨array, index, target, spelling⟩] }
      return .patched
  | some (.external document target) =>
    Build.leave { externalPatches := [⟨array, index, ⟨document, target⟩, spelling⟩] }
    return .patched

/-- The slots of the entries of an array, from a position on. -/
def slots (context : Context) (array : AccessPath) (index : Nat) :
    List (Rule × Plan) → Build (List Slot)
  | [] => pure []
  | (rule, plan) :: entries => do
    let slot ←
      match rule.reference with
      | some spelling => context.includeSlot array index rule spelling
      | none => pure (Slot.nested plan)
    let rest ← context.slots array (index + 1) entries
    return slot :: rest

end Context

/-- The elements that stand in an array at once, with their source indices. -/
def fillSlots (array : AccessPath) (index : Nat) : List Slot → Build (List (Nat × Node))
  | [] => pure []
  | .inlined identifier :: slots => do
    let rest ← fillSlots array (index + 1) slots
    return (index, .raw identifier) :: rest
  | .patched :: slots => fillSlots array (index + 1) slots
  | .nested plan :: slots => do
    let node ← plan (array.index index)
    let rest ← fillSlots array (index + 1) slots
    return (index, node) :: rest

/-- The array that the slots make. -/
def arrayOfSlots (array : AccessPath) (slots : List Slot) : Build Node := do
  let elements ← fillSlots array 0 slots
  Build.leave { arrays := [(array, elements.map Prod.fst)] }
  return .array (elements.map Prod.snd)

/-- The array of some rules. -/
def Context.array (context : Context) (entries : List (Rule × Plan)) (array : AccessPath) :
    Build Node := do
  let slots ← context.slots array 0 entries
  arrayOfSlots array slots

/-! ## Captures -/

/-- The group number that a capture key spells: decimal digits, after white space and one plus sign
    if any, for a number of at most 32 bits. -/
def groupNumber? (key : String) : Option Nat :=
  let spelled := Text.trim key.toList
  let digits := (Text.dropLeading? ['+'] spelled).getD spelled
  let number := digits.foldl (fun n c => n * 10 + (c.toNat - 0x30)) 0
  if !digits.isEmpty && digits.all Char.isDigit && number < UInt32.size then some number else none

/-- The entries of a capture field with their group numbers, none of which is in `seen`; otherwise
    the key of the first entry whose group number is missing or not new. -/
def numbered {α : Type} (seen : List Nat) : List (String × α) → Except String (List (Nat × α))
  | [] => .ok []
  | (key, value) :: entries =>
    match groupNumber? key with
    | none => .error key
    | some number =>
      if seen.contains number then .error key
      else
        match numbered (number :: seen) entries with
        | .error key => .error key
        | .ok rest => .ok ((number, value) :: rest)

/-- The members of a capture field, in the order of the entries. -/
def groupItems (path : AccessPath) : List (Nat × Plan) → Build (List Item)
  | [] => pure []
  | (number, plan) :: groups => do
    let node ← plan (path.group number)
    let rest ← groupItems path groups
    return .plain (toString number) node :: rest

/-- A capture field, with its groups in ascending order. -/
def captureField (entries : List (String × Plan)) (path : AccessPath) : Build Node := do
  match numbered [] entries with
  | .error key => Build.fail (.defect path (.invalidGroup key))
  | .ok groups =>
    let items ← groupItems path (groups.mergeSort fun a b => a.1 ≤ b.1)
    return .object items

/-! ## Rules -/

/-- What is wrong with the patterns that a rule has and lacks. -/
def Rule.defect? (rule : Rule) : Option Defect :=
  match rule.single, rule.opening, rule.closing with
  | some _, some _, _ => some .singleAndOpening
  | _, none, some _ => some .closingWithoutOpening
  | _, some _, none => some .openingWithoutClosing
  | _, _, _ => none

/-- The line comments for the comment of a rule. -/
def commentItems (comment : String) : List Item :=
  (Text.lines comment.toList).map fun line => .comment (String.ofList (Text.trimEnd line))

namespace Context

/-- The member for a scope name. -/
def tokenItem (context : Context) (path : AccessPath) (name scope : String) : Build Item := do
  let token := context.config.classifier.classify scope
  Build.leave { tokens := [(scope, token)] }
  if !token.isResolved then
    Build.leave
      { findings := [⟨.unclassifiedScope, context.document, path.text, some scope⟩]
        notices := [.unclassified context.document path scope] }
  return .member name (.raw token.expression) (some (token.remark scope))

/-- The member for a pattern. -/
def patternItem (context : Context) (name : String) (captures : Bool) (pattern : String) :
    Build Item := do
  let expand := context.config.expandClasses
  Build.leave { notices := (Regex.notices expand pattern).map .regex }
  return .plain name (.raw (Regex.Literal.ofPattern expand captures pattern).text)

/-- The member for a capture field. -/
def captureItem (path : AccessPath) (field : Field) (entries : List (String × Plan)) :
    Build Item := do
  let node ← captureField entries (path.field field)
  return .plain field.name node

/-- The object of a rule that is not an include. -/
def ownRule (context : Context) (rule : Rule) (inner : Inner) (path : AccessPath) :
    Build Node := do
  if let some defect := rule.defect? then
    Build.fail (.defect path defect)
  let name : List Item :=
    if rule.hasPattern then [.plain "debugName" (.text path.text), .blank] else []
  let comments := (rule.comment.map commentItems).getD []
  let token ← Build.optionally rule.name (context.tokenItem path "token")
  let contentToken ← Build.optionally rule.contentName (context.tokenItem path "contentToken")
  let shared := rule.captures.isSome
  let single ← Build.optionally rule.single (context.patternItem "match" shared)
  let opening ←
    Build.optionally rule.opening
      (context.patternItem "begin" (shared || rule.openingCaptures.isSome))
  let closing ←
    Build.optionally rule.closing
      (context.patternItem "end" (shared || rule.closingCaptures.isSome))
  let captures ← Build.optionally inner.captures (captureItem path .captures)
  let openingCaptures ← Build.optionally inner.openingCaptures (captureItem path .openingCaptures)
  let closingCaptures ← Build.optionally inner.closingCaptures (captureItem path .closingCaptures)
  let patterns ←
    Build.optionally inner.patterns fun entries => do
      let node ← context.array entries (path.field .patterns)
      return Item.plain "patterns" node
  let items :=
    name ++ comments ++ token ++ contentToken ++ single ++ opening ++ closing ++ captures ++
      openingCaptures ++ closingCaptures ++ patterns
  if items.isEmpty then
    Build.leave { findings := [⟨.emptyRule, context.document, path.text, some path.text⟩] }
  return .object items

/-- The object of a rule. An include where a rule is expected is the only entry of an array. -/
def ruleObject (context : Context) (rule : Rule) (inner : Inner) (path : AccessPath) :
    Build Node :=
  match rule.reference with
  | none => context.ownRule rule inner path
  | some spelling => do
    let array := path.field .patterns
    let slot ← context.includeSlot array 0 rule spelling
    let node ← arrayOfSlots array [slot]
    return .object [.plain "patterns" node]

end Context

mutual

/-- How a rule is built. -/
def Rule.plan (context : Context) : Rule → Plan
  | .mk reference name contentName comment single opening closing captures openingCaptures
      closingCaptures patterns =>
    context.ruleObject
      (.mk reference name contentName comment single opening closing captures openingCaptures
        closingCaptures patterns)
      ⟨Rule.groupPlans? context captures, Rule.groupPlans? context openingCaptures,
        Rule.groupPlans? context closingCaptures, Rule.entryPlans? context patterns⟩

/-- How the rules of a capture field, if there is one, are built. -/
def Rule.groupPlans? (context : Context) : Option (List (String × Rule)) →
    Option (List (String × Plan))
  | none => none
  | some entries => some (Rule.groupPlans context entries)

/-- How the rules of a capture field are built. -/
def Rule.groupPlans (context : Context) : List (String × Rule) → List (String × Plan)
  | [] => []
  | (key, rule) :: entries => (key, rule.plan context) :: Rule.groupPlans context entries

/-- How the rules of an array, if there is one, are built. -/
def Rule.entryPlans? (context : Context) : Option (List Rule) → Option (List (Rule × Plan))
  | none => none
  | some rules => some (Rule.entryPlans context rules)

/-- How the rules of an array are built. -/
def Rule.entryPlans (context : Context) : List Rule → List (Rule × Plan)
  | [] => []
  | rule :: rules => (rule, rule.plan context) :: Rule.entryPlans context rules

end

/-! ## Documents -/

/-- What is wrong with the identifiers of some keys, when the identifiers in `taken` already belong
    to the names beside them. -/
def keyCause? (taken : List (String × String)) : List String → Option Cause
  | [] => none
  | key :: keys =>
    let identifier := Identifier.camel key
    if identifier.isEmpty || Identifier.startsWithDigit identifier.toList then
      some (.defect ⟨key, []⟩ (.invalidKey key))
    else if Identifier.isReserved identifier then
      some (.defect ⟨key, []⟩ (.reservedKey key identifier))
    else
      match taken.lookup identifier with
      | some first => some (.identifierCollision identifier first key)
      | none => keyCause? ((identifier, key) :: taken) keys

/-- The definitions of repository rules, after those of the keys in `defined`. -/
def keyDefinitions (document : Document) (config : Config) (defined : List String) :
    List (String × Rule) → Build (List Definition)
  | [] => pure []
  | (key, rule) :: entries => do
    let identifier := Identifier.camel key
    let value ← rule.plan ⟨document, config, defined⟩ ⟨identifier, []⟩
    let rest ← keyDefinitions document config (defined ++ [key]) entries
    return ⟨identifier, some key, value⟩ :: rest

/-- The definition of top-level patterns. -/
def rootDefinition (document : Document) (config : Config) (keys : List String)
    (patterns : List Rule) : Build Definition := do
  let context : Context := ⟨document, config, keys⟩
  let identifier := document.rootIdentifier
  let path : AccessPath := ⟨identifier, []⟩
  let node ← context.array (Rule.entryPlans context patterns) (path.field .patterns)
  return ⟨identifier, none, .object [.plain "patterns" node]⟩

/-- The definitions of a grammar. -/
def Grammar.definitions (config : Config) (document : Document) (grammar : Grammar) :
    Build (List Definition) :=
  match grammar.repository with
  | none => Build.fail .missingRepository
  | some repository =>
    let keys := repository.map Prod.fst
    let taken := if grammar.patterns.isSome then [(document.rootIdentifier, "$self")] else []
    match keyCause? taken keys with
    | some cause => Build.fail cause
    | none => do
      let rules ← keyDefinitions document config [] repository
      let root ← Build.optionally grammar.patterns (rootDefinition document config keys)
      return rules ++ root

/-- The table of a document, or why there is none, and the notices given on the way. -/
def Table.ofGrammar (config : Config) (document : Document) (grammar : Grammar) :
    Except Failure Table × List Notice :=
  let build := grammar.definitions config document
  match build.result with
  | .error cause => (.error ⟨document, cause⟩, build.trail.notices)
  | .ok definitions => (.ok ⟨document, definitions, build.trail⟩, build.trail.notices)

end PatternTable
