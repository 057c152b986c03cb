import PatternTable.Proofs.Identifier
import PatternTable.Proofs.Module.Access
import PatternTable.Proofs.Module.Statements
import PatternTable.Proofs.Rule.Nodes
import PatternTable.Proofs.Table.Linking

/-!
# Local bindings of a module

A module is loaded from top to bottom, so an element of an array can only name a definition that
comes before its own. Every other include is left out, and the statements that make it run when all
definitions are there.

Results:
* `Table.localsInitialized_of_link`: no array names a definition that does not come before its own,
  and the statements name nothing but definitions.
-/

namespace PatternTable

/-- What an include has to refer to for a definition to stand for it. -/
def Definition.target (definition : Definition) : Target :=
  match definition.key with
  | some key => .key key
  | none => .root

theorem Table.exists_definition_of_isDefined {table : Table} {target : Target}
    (h : table.isDefined target) :
    ∃ definition ∈ table.definitions, definition.target = target := by
  cases target with
  | key name =>
    simp only [isDefined, keys, List.contains_iff_mem, List.mem_filterMap] at h
    obtain ⟨definition, hmem, hkey⟩ := h
    exact ⟨definition, hmem, by rw [Definition.target, hkey]⟩
  | root =>
    simp only [isDefined, hasRoot, List.any_eq_true, Option.isNone_iff_eq_none] at h
    obtain ⟨definition, hmem, hkey⟩ := h
    exact ⟨definition, hmem, by rw [Definition.target, hkey]⟩

/-- The rule that a target of a grammar is defined by. Top-level patterns are those of a rule with
    nothing else. -/
def Grammar.rule? (grammar : Grammar) : Target → Option Rule
  | .key key => (grammar.repository.getD []).lookup key
  | .root => grammar.patterns.map fun patterns => { patterns := some patterns }

/-- What stands in the cell of an entry of an array at once, when the definitions in `earlier` come
    before. -/
inductive StandsAtOnce (document : Document) (earlier : List Definition) : Rule → Option Node → Prop
  /-- A rule of its own always does. -/
  | own {entry : Rule} {items : List Item} (h : entry.reference = none) :
    StandsAtOnce document earlier entry (some (.object items))
  /-- An include of an earlier definition stands as its identifier. -/
  | earlier {entry : Rule} {spelling : String} {definition : Definition}
    (h : entry.reference = some spelling)
    (hparse : Reference.parse? document spelling = some (.internal definition.target))
    (hmem : definition ∈ earlier) :
    StandsAtOnce document earlier entry (some (.raw definition.identifier))
  /-- Any other include does not. -/
  | later {entry : Rule} {spelling : String} (h : entry.reference = some spelling)
    (hparse : ∀ definition ∈ earlier,
      Reference.parse? document spelling ≠ some (.internal definition.target)) :
    StandsAtOnce document earlier entry none

/-- What an array with some entries holds at once, when the definitions in `earlier` come before. -/
def LoadedAs (document : Document) (earlier : List Definition) (entries : List Rule)
    (elements : List Node) : Prop :=
  ∃ cells, List.Forall₂ (StandsAtOnce document earlier) entries cells ∧
    elements = cells.reduceOption

theorem Rule.exists_object (context : Context) (rule : Rule) (path : AccessPath) :
    ∃ items, rule.node context path = .object items := by
  cases h : rule.isReference with
  | true => exact ⟨_, node_of_isReference h path⟩
  | false => exact ⟨_, node_of_not_isReference h path⟩

namespace Grammar

variable {config : Config} {document : Document} {grammar : Grammar}

theorem getElem?_definitions (index : Nat) : (grammar.table config document).definitions[index]? =
    (grammar.origins document)[index]?.map (Origin.definition config document) := by
  simp [table]

theorem rule?_of_origin (h : grammar.keyCause? document = none) {origin : Origin}
    (horigin : origin ∈ grammar.origins document) :
    grammar.rule? (origin.definition config document).target = some origin.rule := by
  rw [origins, List.mem_append] at horigin
  obtain hmem | hmem := horigin
  · obtain ⟨key, hkey, -, hentry⟩ := exists_of_mem_keyOrigins hmem
    have hnodup : ((grammar.repository.getD []).map Prod.fst).Nodup :=
      (camel_nodup h).of_map
    simp only [Definition.target, Origin.definition, hkey]
    exact lookup_eq_some_of_mem hnodup hentry
  · rw [Option.mem_toList, Option.map_eq_some_iff] at hmem
    obtain ⟨patterns, hpatterns, rfl⟩ := hmem
    simp only [Definition.target, Origin.definition, rootOrigin, rule?, hpatterns, Option.map_some]

theorem isDefined_iff_mem_take {index : Nat} {origin : Origin}
    (h : (grammar.origins document)[index]? = some origin) {target : Target} :
    (origin.context config document).isDefined target = true ↔
      ∃ definition ∈ (grammar.table config document).definitions.take index,
        definition.target = target := by
  have hindex := (List.getElem?_eq_some_iff.1 h).1
  have hdefinitions : (grammar.table config document).definitions.take index =
      ((grammar.origins document).take index).map (Origin.definition config document) := by
    rw [List.map_take]
    rfl
  rw [hdefinitions, Origin.context, keys_of_origin h]
  simp only [Context.isDefined, List.mem_map, exists_exists_and_eq_and]
  cases target with
  | key name =>
    simp only [List.contains_iff_mem, List.mem_filterMap]
    refine exists_congr fun other => and_congr_right fun _ => ?_
    simp only [Definition.target, Origin.definition]
    cases other.key <;> simp
  | root =>
    simp only [Bool.false_eq_true, false_iff]
    rintro ⟨other, hmem, htarget⟩
    obtain ⟨key, hkey⟩ := Option.isSome_iff_exists.1 (key_of_mem_take hindex hmem)
    simp [Definition.target, Origin.definition, hkey] at htarget

theorem identifier_of_mem_definitions {definition : Definition}
    (h : definition ∈ (grammar.table config document).definitions) :
    definition.identifier = definition.target.identifier document := by
  obtain ⟨origin, horigin, rfl⟩ := List.mem_map.1 h
  have hidentifier := identifier_of_origin horigin
  simp only [Origin.definition, Definition.target] at hidentifier ⊢
  rw [hidentifier]
  cases origin.key <;> rfl

/-- What stands in the cell of an entry while a definition is built. -/
theorem standsAtOnce_cell {index : Nat} {origin : Origin}
    (h : (grammar.origins document)[index]? = some origin) (array : AccessPath) (position : Nat)
    (entry : Rule) : StandsAtOnce document ((grammar.table config document).definitions.take index)
      entry ((origin.context config document).cell array position
        (entry, entry.node (origin.context config document))) := by
  rw [Context.cell]
  obtain hreference | ⟨spelling, hreference⟩ := entry.reference.eq_none_or_eq_some
  · obtain ⟨items, hitems⟩ := entry.exists_object (origin.context config document)
      (array.index position)
    simp only [hreference, hitems]
    exact .own hreference
  · simp only [hreference, Context.inlined?]
    have hdocument : (origin.context config document).document = document := rfl
    rw [hdocument]
    split
    · next target hparse =>
      cases hdefined : (origin.context config document).isDefined target with
      | true =>
        obtain ⟨definition, hmem, rfl⟩ := (isDefined_iff_mem_take h).1 hdefined
        have hidentifier := identifier_of_mem_definitions (List.mem_of_mem_take hmem)
        simp only [↓reduceIte, Option.map_some]
        rw [← hidentifier]
        exact .earlier hreference hparse hmem
      | false =>
        refine .later hreference fun definition hmem heq => ?_
        rw [hparse, Option.some.injEq, Reference.internal.injEq] at heq
        rw [(isDefined_iff_mem_take h).2 ⟨definition, hmem, heq.symm⟩] at hdefined
        cases hdefined
    · next hparse => exact .later hreference fun definition _ heq => hparse _ heq

theorem standsAtOnce_cells {index : Nat} {origin : Origin}
    (h : (grammar.origins document)[index]? = some origin) (array : AccessPath)
    (entries : List Rule) :
    List.Forall₂ (StandsAtOnce document ((grammar.table config document).definitions.take index))
      entries (Rule.cells (origin.context config document) array entries) := by
  rw [Rule.cells, Context.cells]
  generalize 0 = start
  induction entries generalizing start with
  | nil => exact .nil
  | cons entry entries ih => exact .cons (standsAtOnce_cell h array start entry) (ih (start + 1))

theorem mem_identifiers_of_isDefined {target : Target}
    (h : (grammar.table config document).isDefined target) :
    target.identifier document ∈ (grammar.table config document).identifiers := by
  obtain ⟨definition, hmem, rfl⟩ := Table.exists_definition_of_isDefined h
  rw [← identifier_of_mem_definitions hmem]
  exact List.mem_map_of_mem hmem

theorem identifiers_table_nodup (h : grammar.keyCause? document = none) :
    (grammar.table config document).identifiers.Nodup := by
  rw [Table.identifiers, table, List.map_map]
  exact origins_identifiers_nodup h

theorem targets_table_nodup (h : grammar.keyCause? document = none) :
    ((grammar.table config document).definitions.map Definition.target).Nodup := by
  refine List.Nodup.of_map (Target.identifier document) ?_
  have hidentifiers : (grammar.table config document).identifiers.Nodup := identifiers_table_nodup h
  rw [Table.identifiers, List.map_congr_left fun _ => identifier_of_mem_definitions] at hidentifiers
  rw [List.map_map]
  exact hidentifiers

/-- The definition that an array is part of is there, and the array's expression starts with it. -/
theorem root_mem_identifiers {origin : Origin} {array : AccessPath} {index : Nat} {entry : Rule}
    (h : (origin, .entry array index entry) ∈ grammar.stops document)
    (position : AccessPath → Nat → Nat) :
    Access.root (array.renderWith position) ∈ (grammar.table config document).identifiers := by
  obtain ⟨horigin, hvisit⟩ := mem_stops_iff.1 h
  obtain ⟨entries, harray, -⟩ := Rule.entry_mem_visits_iff.1 hvisit
  have hroot : array.root = origin.identifier := (Rule.hasArray_below harray).root
  rw [Access.root_renderWith, hroot]
  · refine List.mem_map.2 ⟨origin.definition config document, List.mem_map_of_mem horigin, rfl⟩
  · rw [hroot]
    exact isRoot_of_origin horigin

end Grammar

theorem Table.isDefined_of_link {exports : Exports} {table : Table}
    (h : table.linkCause? exports = none) {patch : Patch Target}
    (hpatch : patch ∈ table.trail.internalPatches) : table.isDefined patch.target :=
  (linkCause?_eq_none_iff.1 h).defined patch hpatch

/-- What a module needs in order to load: no array names a definition that does not come before its
    own, and the statements name nothing but definitions. -/
structure LocalsInitialized (grammar : Grammar) (table : Table) (linkage : Linkage) : Prop where
  identifiers : table.identifiers.Nodup
  /-- No include refers to two definitions: one that refers to the definition it is in, or to a
      later one, does not refer to an earlier one. -/
  unambiguous : (table.definitions.map Definition.target).Nodup
  /-- The arrays in the definition of a rule are the arrays inside the rule, and hold an include at
      once exactly if it refers to an earlier definition. -/
  arrays : ∀ index definition, table.definitions[index]? = some definition →
    ∃ rule, grammar.rule? definition.target = some rule ∧
      (∀ elements, definition.value.HasArray elements → ∃ array entries,
        rule.HasArray ⟨definition.identifier, []⟩ array entries ∧
          LoadedAs table.document (table.definitions.take index) entries elements) ∧
      ∀ array entries, rule.HasArray ⟨definition.identifier, []⟩ array entries →
        ∃ elements, definition.value.HasArray elements ∧
          LoadedAs table.document (table.definitions.take index) entries elements
  references : ∀ statement ∈ linkage.internalBlock, ∀ reference ∈ statement.references,
    reference ∈ table.identifiers
  targets : ∀ statement ∈ linkage.statements, Access.root statement.target ∈ table.identifiers

namespace Table

/-- A module that is built and linked uses no definition before it is there. -/
theorem localsInitialized_of_link {config : Config} {document : Document} {grammar : Grammar}
    {exports : Exports} {table : Table} {linkage : Linkage}
    (hbuild : (ofGrammar config document grammar).1 = .ok table)
    (hlink : table.link exports = .ok linkage) : LocalsInitialized grammar table linkage := by
  obtain ⟨-, hkeys, -, rfl⟩ := ofGrammar_ok_iff.1 hbuild
  obtain ⟨hcause, rfl⟩ := (link_ok_iff _ _ _).1 hlink
  refine ⟨Grammar.identifiers_table_nodup hkeys, Grammar.targets_table_nodup hkeys, ?_, ?_, ?_⟩
  · intro index definition hget
    rw [Grammar.getElem?_definitions, Option.map_eq_some_iff] at hget
    obtain ⟨origin, horigin, rfl⟩ := hget
    refine ⟨origin.rule, Grammar.rule?_of_origin hkeys (List.mem_of_getElem? horigin),
      fun elements hfound => ?_, fun array entries harray => ?_⟩
    · obtain ⟨array, entries, harray, rfl⟩ := Rule.exists_hasArray_of_node hfound
      exact ⟨array, entries, harray, _, Grammar.standsAtOnce_cells horigin array entries, rfl⟩
    · exact ⟨_, Rule.node_hasArray harray, _,
        Grammar.standsAtOnce_cells horigin array entries, rfl⟩
  · intro statement hmem reference hreference
    obtain ⟨-, hreferences⟩ := exists_of_mem_internalBlock hmem
    obtain ⟨patch, hpatch, rfl⟩ := hreferences reference hreference
    exact Grammar.mem_identifiers_of_isDefined (isDefined_of_link hcause hpatch)
  · intro statement hmem
    obtain hmem | hmem := List.mem_append.1 hmem
    · obtain ⟨⟨patch, hpatch, position, htarget⟩, -⟩ := exists_of_mem_internalBlock hmem
      obtain ⟨origin, entry, hstop, -⟩ := Grammar.mem_internalPatches_iff.1 hpatch
      rw [htarget]
      exact Grammar.root_mem_identifiers hstop position
    · obtain ⟨patch, hpatch, position, htarget⟩ := exists_of_mem_externalGroups hmem
      obtain ⟨origin, entry, hstop, -⟩ := Grammar.mem_externalPatches_iff.1 hpatch
      rw [htarget]
      exact Grammar.root_mem_identifiers hstop position

/-- Of three includes, only the one of the earlier rule stands in its array at once. -/
theorem localsInitialized_of_link_list :
    let grammar : Grammar :=
      { repository := some [("item", { patterns := some [] }),
          ("list", { patterns := some [{ reference := some "#item" }, { reference := some "#list" },
            { reference := some "$self" }] })]
        patterns := some [{ reference := some "#list" }] }
    let table := grammar.table {} ⟨"source.list"⟩
    (ofGrammar {} ⟨"source.list"⟩ grammar).1 = .ok table ∧ table.link {} = .ok table.plan ∧
      LocalsInitialized grammar table table.plan := by
  intro grammar table
  have hbuild : (ofGrammar {} ⟨"source.list"⟩ grammar).1 = .ok table :=
    ofGrammar_ok_iff.2 ⟨rfl, by decide +kernel, by decide +kernel, rfl⟩
  have hlink : table.link {} = .ok table.plan :=
    (link_ok_iff _ _ _).2 ⟨by decide +kernel, rfl⟩
  exact ⟨hbuild, hlink, localsInitialized_of_link hbuild hlink⟩

end Table

end PatternTable
