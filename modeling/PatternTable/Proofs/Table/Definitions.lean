import PatternTable.Proofs.Identifier
import PatternTable.Proofs.Table.Origins

/-!
# The definitions of a table

A table has a definition for each key of the repository, in the order of the keys, and then one for
the top-level patterns if the grammar has any. Camel case drops separators and letters outside
ASCII, and it forgets the case of most of the others. So keys that differ may well make one
identifier; but then the grammar has no table.

* `Table.Mirrors`: the definitions of a table are those that a grammar asks for.

Results:
* `Identifier.OfKey.of_keyNames`: how the identifier of a key that passes the check is written.
* `Table.isDefined_table_iff`: the targets that a table defines.
* `Table.mirrors_of_ofGrammar`: a table that is built mirrors its grammar.
-/

namespace PatternTable

/-! ## Specification -/

/-- An identifier is written as that of a key is. -/
structure Identifier.OfKey (identifier : String) : Prop where
  /-- The first character is a lower-case letter. -/
  lead : identifier.toList.head?.any Char.isLower
  alphanum : ∀ c ∈ identifier.toList, c.isAlphanum
  unreserved : ¬ isReserved identifier

/-- A grammar has a target: a key of its repository, or its top-level patterns. -/
def Grammar.HasTarget (grammar : Grammar) : Target → Prop
  | .key key => key ∈ grammar.ruleKeys
  | .root => grammar.patterns.isSome

/-- The definitions of a table are those that a grammar asks for. -/
structure Table.Mirrors (table : Table) (document : Document) (grammar : Grammar) : Prop where
  /-- There is one definition for each key, in order, then one for the top-level patterns, if there
      are any. -/
  definitions :
    table.definitions.map (fun definition => (definition.key, definition.identifier)) =
      grammar.ruleKeys.map (fun key => (some key, Identifier.camel key)) ++
        if grammar.patterns.isSome then [(none, document.rootIdentifier)] else []
  distinct : table.identifiers.Nodup
  named : ∀ key ∈ grammar.ruleKeys, Identifier.OfKey (Identifier.camel key)
  /-- What the grammar has is what the table defines. -/
  targets : ∀ target, table.isDefined target ↔ grammar.HasTarget target
  /-- Two keys, or a key and the top-level patterns, have different identifiers. -/
  apart : ∀ a b, grammar.HasTarget a → grammar.HasTarget b → a ≠ b →
    a.identifier document ≠ b.identifier document

/-! ## Identifiers of keys -/

namespace Identifier

/-- The identifier of a key starts with a letter, and that letter is in lower case. -/
theorem OfKey.of_keyNames {key : String} (h : KeyNames key) : OfKey (camel key) := by
  refine ⟨?_, camel_isAlphanum key, h.unreserved⟩
  have hhead := head?_camel key
  cases hfirst : first? key with
  | none =>
    rw [hfirst, Option.map_none, List.head?_eq_none_iff, String.toList_eq_nil_iff] at hhead
    exact absurd hhead h.nonempty
  | some c =>
    have hlead := h.lead
    rw [hfirst, Option.map_some] at hhead
    obtain ⟨cs, hcamel⟩ := List.head?_eq_some_iff.1 hhead
    have hc : c.toLower.isAlphanum := (isAlphanum_cases (List.find?_some hfirst)).2
    rw [hcamel, startsWithDigit, isDigit_eq hc, Char.isAlpha_toLower_eq_isAlpha] at hlead
    rw [hhead, Option.any_some, Char.isLower_toLower_eq_isAlpha]
    simpa using hlead

end Identifier

/-! ## Definitions -/

namespace Grammar

variable (config : Config) {document : Document} {grammar : Grammar}

theorem definitions_table_map (document : Document) (grammar : Grammar) :
    (grammar.table config document).definitions.map
        (fun definition => (definition.key, definition.identifier)) =
      grammar.ruleKeys.map (fun key => (some key, Identifier.camel key)) ++
        if grammar.patterns.isSome then [(none, document.rootIdentifier)] else [] := by
  have horigins : (grammar.table config document).definitions.map
      (fun definition => (definition.key, definition.identifier)) =
        (grammar.origins document).map fun origin => (origin.key, origin.identifier) := by
    rw [table, List.map_map]
    rfl
  rw [horigins, origins, List.map_append, keyOrigins_map]
  cases grammar.patterns <;> rfl

/-- A table defines what its grammar has. -/
theorem isDefined_table_iff (document : Document) (grammar : Grammar) (target : Target) :
    (grammar.table config document).isDefined target ↔ grammar.HasTarget target := by
  cases target with
  | key key => rw [Table.isDefined, keys_table, List.contains_iff_mem, HasTarget]
  | root =>
    have hkeys := congrArg (List.any · fun entry => entry.1.isNone)
      (definitions_table_map config document grammar)
    simp only [List.any_map, List.any_append, Function.comp_def, Option.isNone_some] at hkeys
    rw [Table.isDefined, Table.hasRoot, hkeys, HasTarget]
    cases grammar.patterns <;> simp

/-- Keys that pass the check make identifiers of their own, which the top-level patterns do not
    have. -/
theorem identifier_ne_of_hasTarget (hkeys : grammar.keyCause? document = none) {a b : Target}
    (ha : grammar.HasTarget a) (hb : grammar.HasTarget b) (hne : a ≠ b) :
    a.identifier document ≠ b.identifier document := by
  cases a with
  | key key =>
    cases b with
    | key other =>
      intro heq
      exact hne (congrArg Target.key (List.inj_on_of_nodup_map (camel_nodup hkeys) ha hb heq))
    | root => exact camel_ne_root hkeys hb ha
  | root =>
    cases b with
    | key other => exact (camel_ne_root hkeys ha hb).symm
    | root => exact absurd rfl hne

end Grammar

namespace Table

/-- Whatever the grammar that a table is built from, the definitions are those that the grammar asks
    for. Each has an identifier of its own, so a target can be told by its identifier. -/
theorem mirrors_of_ofGrammar {config : Config} {document : Document} {grammar : Grammar}
    {table : Table} (hbuild : (ofGrammar config document grammar).1 = .ok table) :
    table.Mirrors document grammar := by
  obtain ⟨-, hkeys, -, rfl⟩ := ofGrammar_ok_iff.1 hbuild
  have hfaultless := Grammar.faultless_keyFault_iff.1 (Grammar.keyCause?_eq_none_iff.1 hkeys)
  have hidentifiers : (grammar.table config document).identifiers =
      (grammar.origins document).map Origin.identifier := by
    rw [identifiers, Grammar.table, List.map_map]
    rfl
  constructor
  · exact Grammar.definitions_table_map config document grammar
  · rw [hidentifiers]
    exact Grammar.origins_identifiers_nodup hkeys
  · exact fun key hkey => .of_keyNames (hfaultless.1 key hkey).1
  · exact Grammar.isDefined_table_iff config document grammar
  · exact fun a b => Grammar.identifier_ne_of_hasTarget hkeys

/-- Keys with separators, capitals, an acronym and a letter outside ASCII, and top-level
    patterns. -/
theorem mirrors_of_ofGrammar_keys :
    let document : Document := ⟨"source.list"⟩
    let grammar : Grammar :=
      { repository := some [("list-item", {}), ("list.Item2", {}), ("menu_ATLé", {})]
        patterns := some [{ reference := some "#list-item" }] }
    let table := grammar.table {} document
    (ofGrammar {} document grammar).1 = .ok table ∧
      table.identifiers = ["listItem", "listItem2", "menuATL", "listRoot"] ∧
      table.Mirrors document grammar := by
  intro document grammar table
  have hbuild : (ofGrammar {} document grammar).1 = .ok table :=
    ofGrammar_ok_iff.2 ⟨rfl, by decide +kernel, by decide +kernel, rfl⟩
  exact ⟨hbuild, by decide +kernel, mirrors_of_ofGrammar hbuild⟩

/-- Two keys that only differ in a separator make one identifier. -/
example : (ofGrammar {} ⟨"source.list"⟩
      { repository := some [("list-item", {}), ("list.item", {})] }).1.map (fun _ => ()) =
    .error ⟨⟨"source.list"⟩, .identifierCollision "listItem" "list-item" "list.item"⟩ := by
  decide +kernel

end Table

end PatternTable
