import PatternTable.Table.Basic

/-!
# Exports

What is known of each document that others can refer to: the keys and top-level patterns that its
table defines, or only that its module is written by hand. A reference into a hand-written module is
taken on trust.

Results:
* `check_ok_iff`: a reference is accepted exactly if the document is known and, unless its module is
  hand-written, defines the target.
-/

namespace PatternTable

/-- What is known of a document's module. -/
inductive Exported where
  /-- The module is generated from a table with these keys, and with top-level patterns or not. -/
  | generated (keys : List String) (root : Bool)
  /-- The module is written by hand. -/
  | handwritten
  deriving DecidableEq, Repr

/-- The documents that others can refer to. -/
structure Exports where
  documents : List (Document × Exported) := []
  deriving DecidableEq, Repr

/-- Why a reference to another document is refused, or a reference to the own one. -/
inductive Refusal where
  | noDocument (document : Document)
  | noRule (document : Document) (key : String)
  | noPatterns (document : Document)
  /-- The own repository has no such rule. -/
  | noOwnRule (key : String)
  /-- The own document has no top-level patterns. -/
  | noOwnPatterns
  /-- The identifier of the target cannot be imported by name. -/
  | reservedIdentifier (identifier : String)
  deriving DecidableEq, Repr

/-- The text of a refusal. -/
def Refusal.message : Refusal → String
  | noDocument document => "document `" ++ document.id ++ "` is not available"
  | noRule document key => "document `" ++ document.id ++ "` has no rule `" ++ key ++ "`"
  | noPatterns document => "document `" ++ document.id ++ "` has no top-level patterns"
  | noOwnRule key => "no rule `" ++ key ++ "` in the repository"
  | noOwnPatterns => "document has no top-level patterns"
  | reservedIdentifier identifier =>
    "`" ++ identifier ++ "` is a reserved word and cannot be imported"

namespace Exports

/-- What is known of a document. -/
def find? (exports : Exports) (document : Document) : Option Exported :=
  exports.documents.lookup document

/-- Whether a document is known. -/
def contains (exports : Exports) (document : Document) : Bool :=
  (exports.find? document).isSome

/-- Adds the document of a table. What the table defines takes the place of what was known. -/
def addTable (exports : Exports) (table : Table) : Exports :=
  ⟨(table.document, .generated table.keys table.hasRoot) :: exports.documents⟩

/-- Adds a document whose module is written by hand, unless it is known. -/
def addHandwritten (exports : Exports) (document : Document) : Exports :=
  if exports.contains document then exports
  else ⟨exports.documents ++ [(document, .handwritten)]⟩

/-- Accepts or refuses a reference to a target of a document. -/
def check (exports : Exports) (document : Document) (target : Target) : Except Refusal Unit :=
  match exports.find? document, target with
  | none, _ => .error (.noDocument document)
  | some .handwritten, _ => .ok ()
  | some (.generated keys _), .key name =>
    if keys.contains name then .ok () else .error (.noRule document name)
  | some (.generated _ root), .root => if root then .ok () else .error (.noPatterns document)

theorem check_ok_iff (exports : Exports) (document : Document) (target : Target) :
    exports.check document target = .ok () ↔
      exports.find? document = some .handwritten ∨
        ∃ keys root, exports.find? document = some (.generated keys root) ∧
          match target with
          | .key name => name ∈ keys
          | .root => root = true := by
  unfold check
  cases hfind : exports.find? document with
  | none => simp
  | some exported =>
    cases exported with
    | handwritten => simp
    | generated keys root => cases target <;> simp

end Exports

end PatternTable
