import PatternTable.Document

/-!
# Includes

An include refers to a repository rule or to the top-level patterns, of the document it stands in or
of another one. It is written `#key`, `$self`, `$base`, `source.x` or `source.x#key`.
-/

namespace PatternTable

/-- What an include refers to inside a document. -/
inductive Target where
  /-- The repository rule with this key. -/
  | key (key : String)
  /-- The top-level patterns. -/
  | root
  deriving DecidableEq, Repr

/-- The identifier under which a document defines a target. -/
def Target.identifier (document : Document) : Target → String
  | .key name => Identifier.camel name
  | .root => document.rootIdentifier

/-- What an include refers to. -/
inductive Reference where
  /-- A target of the document the include stands in. -/
  | internal (target : Target)
  /-- A target of another document. -/
  | external (document : Document) (target : Target)
  deriving DecidableEq, Repr

namespace Reference

/-- The reference to a target of a document, from within `current`. -/
def within (current document : Document) (target : Target) : Reference :=
  if document = current then internal target else external document target

/-- The reference that an include in `current` makes, if it is well formed. -/
def parse? (current : Document) (text : String) : Option Reference :=
  match Text.dropLeading? ['#'] text.toList with
  | some [] => none
  | some key => some (internal (.key (String.ofList key)))
  | none =>
    if text = "$self" ∨ text = "$base" then some (internal .root)
    else if (Text.dropLeading? "source.".toList text.toList).isNone then none
    else
      match Text.cutAt? '#' text.toList with
      | none => some (within current ⟨text⟩ .root)
      | some (_, []) => none
      | some (id, key) => some (within current ⟨String.ofList id⟩ (.key (String.ofList key)))

end Reference

end PatternTable
