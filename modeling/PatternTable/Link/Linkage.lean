import PatternTable.Link.Exports
import PatternTable.Link.Statement

/-!
# Linked tables

Linking checks every patch of a table and plans the statements that make them. References within the
document are made when its module is loaded. References to other documents are made later, by a
function of the module, in one group for each document; they need imports. A document of the same
family is imported by the names of the targets, any other as a namespace.

A table can be linked exactly if none of its patches is at fault. What is planned does not depend on
the check.

Results:
* `link_ok_iff`: linking succeeds exactly if no patch is at fault.
-/

namespace PatternTable

/-- An import of another document's module. -/
inductive Import where
  /-- Some of its definitions, by their names. -/
  | named (document : Document) (names : List String)
  /-- All of its definitions, under an alias. -/
  | whole (document : Document) (localName : String)
  deriving DecidableEq, Repr

/-- The statements that make the references to one document. -/
structure PatchGroup where
  document : Document
  statements : List PatchStatement
  deriving DecidableEq, Repr

/-- A table whose patches are planned. -/
structure Linkage where
  table : Table
  imports : List Import
  /-- The statements for references within the document. -/
  internalBlock : List PatchStatement
  /-- The statements for references to other documents. -/
  externalBlock : List PatchGroup

namespace Table

/-! ## Faults -/

/-- Why an include is not resolved. -/
def unresolved {α : Type} (patch : Patch α) (refusal : Refusal) : Cause :=
  .unresolvedInclude patch.origin patch.spelling refusal.message

/-- What is wrong with a patch within the document. -/
def internalCause? (table : Table) (patch : Patch Target) : Option Cause :=
  if table.isDefined patch.target then none
  else
    some <|
      match patch.target with
      | .key name => unresolved patch (.noOwnRule name)
      | .root => unresolved patch .noOwnPatterns

/-- The patches into another document. -/
def patchesInto (table : Table) (document : Document) : List (Patch External) :=
  table.trail.externalPatches.filter fun patch => patch.target.document == document

/-- The patches into other documents, document by document. -/
def groupedPatches (table : Table) : List (Patch External) :=
  table.dependencies.flatMap table.patchesInto

/-- The identifier that a patch refers to in its document. -/
def targetIdentifier (patch : Patch External) : String :=
  patch.target.target.identifier patch.target.document

/-- The name that a patch needs to import: the identifier that it refers to, or the alias of its
    document. -/
def importedName (table : Table) (patch : Patch External) : String :=
  if patch.target.document.sameFamily table.document then targetIdentifier patch
  else patch.target.document.namespaceAlias

/-- What a patch into another document adds to its array. -/
def externalReference (table : Table) (patch : Patch External) : String :=
  if patch.target.document.sameFamily table.document then targetIdentifier patch
  else patch.target.document.namespaceAlias ++ "." ++ targetIdentifier patch

/-- What is wrong with a patch into another document, when the names in `taken` are imported from
    the documents beside them. -/
def externalCause? (table : Table) (exports : Exports) (taken : List (String × Document))
    (patch : Patch External) : Option Cause :=
  match exports.check patch.target.document patch.target.target with
  | .error refusal => some (unresolved patch refusal)
  | .ok () =>
    let name := table.importedName patch
    if patch.target.document.sameFamily table.document && Identifier.isReserved name then
      some (unresolved patch (.reservedIdentifier name))
    else if table.identifiers.contains name ||
        taken.any (fun entry => entry.1 == name && entry.2 != patch.target.document) then
      some (.importCollision name patch.target.document)
    else none

/-- What is wrong with the first of some patches into other documents that is at fault. -/
def externalCauseFrom? (table : Table) (exports : Exports) (taken : List (String × Document)) :
    List (Patch External) → Option Cause
  | [] => none
  | patch :: patches =>
    match table.externalCause? exports taken patch with
    | some cause => some cause
    | none =>
      table.externalCauseFrom? exports ((table.importedName patch, patch.target.document) :: taken)
        patches

/-- What is wrong with the first patch of a table that is at fault. Patches within the document come
    first, then those into other documents, document by document. -/
def linkCause? (table : Table) (exports : Exports) : Option Cause :=
  match table.trail.internalPatches.findSome? table.internalCause? with
  | some cause => some cause
  | none => table.externalCauseFrom? exports [] table.groupedPatches

/-! ## Plans -/

/-- The imports that the patches of a table need: by name first, then as namespaces. -/
def imports (table : Table) : List Import :=
  let (near, far) := table.dependencies.partition fun document =>
    document.sameFamily table.document
  (near.map fun document =>
      .named document ((table.patchesInto document).map targetIdentifier).eraseDups) ++
    far.map fun document => .whole document document.namespaceAlias

/-- The statements of the patches into some documents, and the arrays after them. -/
def externalGroups (table : Table) (arrays : Arrays) : List Document → List PatchGroup
  | [] => []
  | document :: documents =>
    let patches := (table.patchesInto document).map fun patch =>
      (patch, table.externalReference patch)
    let (statements, after) := arrays.run patches
    ⟨document, PatchStatement.merge statements⟩ :: table.externalGroups after documents

/-- A table with the statements that make its patches. -/
def plan (table : Table) : Linkage :=
  let patches := table.trail.internalPatches.map fun patch =>
    (patch, patch.target.identifier table.document)
  let (statements, after) := (Arrays.ofTable table).run patches
  { table
    imports := table.imports
    internalBlock := PatchStatement.merge statements
    externalBlock := table.externalGroups after table.dependencies }

/-- A table with its patches planned, or why one of them cannot be made. -/
def link (exports : Exports) (table : Table) : Except Failure Linkage :=
  match table.linkCause? exports with
  | some cause => .error ⟨table.document, cause⟩
  | none => .ok table.plan

theorem link_ok_iff (exports : Exports) (table : Table) (linkage : Linkage) :
    table.link exports = .ok linkage ↔
      table.linkCause? exports = none ∧ linkage = table.plan := by
  unfold link
  cases table.linkCause? exports <;> simp [eq_comm]

end Table

end PatternTable
