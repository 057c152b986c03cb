import PatternTable.Finding
import PatternTable.Grammar.Basic
import PatternTable.Notice
import PatternTable.Reference
import PatternTable.Scope.Token
import PatternTable.Tree

/-!
# Pattern tables

The table of a document has one definition for each rule of its repository, then one for its
top-level patterns. An include that cannot stand in its array at once, because its target is defined
later or in another document, is left out of the array and recorded as a patch.

Results:
* `Trail.append_assoc`, `Trail.append_empty`, `Trail.empty_append`: trails compose like lists.
-/

namespace PatternTable

/-! ## Patches -/

/-- A target of another document. -/
structure External where
  document : Document
  target : Target
  deriving DecidableEq, Repr

/-- An include that is missing from its array, and what it refers to. -/
structure Patch (α : Type) where
  /-- The path of the array. -/
  array : AccessPath
  /-- The position of the include in the array, as in the source. -/
  index : Nat
  target : α
  /-- The text of the include. -/
  spelling : String
  deriving DecidableEq, Repr

/-- The path of the include itself. -/
def Patch.origin {α : Type} (patch : Patch α) : AccessPath :=
  patch.array.index patch.index

/-! ## Trails -/

/-- What building rules leaves behind besides their nodes, in the order in which it comes up. -/
structure Trail where
  /-- The scope names that were met, with their token types. -/
  tokens : List (String × Scope.Token) := []
  internalPatches : List (Patch Target) := []
  externalPatches : List (Patch External) := []
  /-- The arrays that were built, with the source indices of the elements that they hold. -/
  arrays : List (AccessPath × List Nat) := []
  findings : List Finding := []
  notices : List Notice := []
  deriving DecidableEq, Repr

namespace Trail

/-- One trail, then another. -/
def append (a b : Trail) : Trail where
  tokens := a.tokens ++ b.tokens
  internalPatches := a.internalPatches ++ b.internalPatches
  externalPatches := a.externalPatches ++ b.externalPatches
  arrays := a.arrays ++ b.arrays
  findings := a.findings ++ b.findings
  notices := a.notices ++ b.notices

instance : Append Trail := ⟨append⟩

theorem append_def (a b : Trail) : a ++ b = append a b := rfl

theorem append_empty (a : Trail) : a ++ {} = a := by
  simp [append_def, append]

theorem empty_append (a : Trail) : {} ++ a = a := by
  simp [append_def, append]

theorem append_assoc (a b c : Trail) : a ++ b ++ c = a ++ (b ++ c) := by
  simp [append_def, append]

end Trail

/-! ## Tables -/

/-- An exported constant of a module. -/
structure Definition where
  identifier : String
  /-- The repository key that it is built from; none for the top-level patterns. -/
  key : Option String
  value : Node

/-- What is built from the grammar of a document. -/
structure Table where
  document : Document
  definitions : List Definition
  trail : Trail

namespace Table

/-- The repository keys that are defined. -/
def keys (table : Table) : List String :=
  table.definitions.filterMap Definition.key

/-- Whether the top-level patterns are defined. -/
def hasRoot (table : Table) : Bool :=
  table.definitions.any fun definition => definition.key.isNone

/-- Whether a target is defined. -/
def isDefined (table : Table) : Target → Bool
  | .key name => table.keys.contains name
  | .root => table.hasRoot

/-- The identifiers of the definitions. -/
def identifiers (table : Table) : List String :=
  table.definitions.map Definition.identifier

/-- The scope names that were met, with their token types, in the order of their first use. -/
def scopes (table : Table) : List (String × Scope.Token) :=
  table.trail.tokens.eraseDups

/-- The enumerations that the token types belong to, in the order of their first use. -/
def categories (table : Table) : List Scope.Category :=
  (table.trail.tokens.map fun entry => entry.2.category).eraseDups

/-- The documents that are referred to, in the order of the first reference. -/
def dependencies (table : Table) : List Document :=
  (table.trail.externalPatches.map fun patch => patch.target.document).eraseDups

/-- The source indices of the elements that the array at a path holds. -/
def nativeIndices (table : Table) (array : AccessPath) : List Nat :=
  (table.trail.arrays.lookup array).getD []

end Table

end PatternTable
