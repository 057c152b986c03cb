/-!
# Grammars

A grammar document has a repository of named rules and a list of top-level patterns. A rule is an
include, a single-line match, a span between two matches, or a mere container of other rules. Maps
keep the order of their entries.
-/

namespace PatternTable

/-- A lexical rule. A capture map leads from group numbers, as they are spelled, to rules. -/
structure Rule where
  /-- The text of an include. -/
  reference : Option String := none
  name : Option String := none
  contentName : Option String := none
  comment : Option String := none
  /-- The pattern of a single-line match. -/
  single : Option String := none
  /-- The pattern that starts a span. -/
  opening : Option String := none
  /-- The pattern that ends a span. -/
  closing : Option String := none
  captures : Option (List (String × Rule)) := none
  openingCaptures : Option (List (String × Rule)) := none
  closingCaptures : Option (List (String × Rule)) := none
  patterns : Option (List Rule) := none

/-- The rules of a capture map, by the spelling of their group numbers. -/
abbrev Captures := List (String × Rule)

instance : Inhabited Rule := ⟨{}⟩

namespace Rule

/-- Whether a rule only refers to another rule. -/
def isReference (rule : Rule) : Bool :=
  rule.reference.isSome

/-- Whether a rule has a pattern of its own. -/
def hasPattern (rule : Rule) : Bool :=
  rule.single.isSome || rule.opening.isSome || rule.closing.isSome

/-- Whether an include has fields that say something about a rule of its own. -/
def hasIgnoredFields (rule : Rule) : Bool :=
  rule.name.isSome || rule.contentName.isSome || rule.hasPattern || rule.captures.isSome ||
    rule.openingCaptures.isSome || rule.closingCaptures.isSome || rule.patterns.isSome

end Rule

/-- A grammar document. -/
structure Grammar where
  scopeName : Option String := none
  name : Option String := none
  patterns : Option (List Rule) := none
  repository : Option (List (String × Rule)) := none

instance : Inhabited Grammar := ⟨{}⟩

namespace Grammar

/-- The keys of the repository, in order. -/
def ruleKeys (grammar : Grammar) : List String :=
  (grammar.repository.getD []).map Prod.fst

/-- Whether the repository has a rule with a key. -/
def hasRule (grammar : Grammar) (key : String) : Bool :=
  grammar.ruleKeys.contains key

/-- Whether the grammar has top-level patterns. -/
def hasRootPatterns (grammar : Grammar) : Bool :=
  grammar.patterns.isSome

end Grammar

end PatternTable
