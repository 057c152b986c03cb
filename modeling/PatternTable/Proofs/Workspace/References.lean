import PatternTable.Proofs.Module.Locals
import PatternTable.Proofs.Workspace.Imports

/-!
# References between the documents of a workspace

A document that refers to another one computes the name of the definition from the include; the
other document computes it from its repository key. The two agree, and no other definition of that
document has the name. The name is reached through the only import of the document, and every name
that is imported is used.

* `Import.Provides`: how an import makes a definition of its document available.
* `Linkage.Defines`: the definition that a module has for a target of its document.
* `Linkage.Binds`: how the references of a module to another one are bound.

Results:
* `Workspace.references_bind`: of any two documents that have artifacts, the references of the one
  to the other are bound.
-/

namespace PatternTable

/-! ## Specification -/

/-- How an import into a document makes a definition available: the name that is imported for it,
    its identifier, and the expression that refers to it. -/
inductive Import.Provides (importer : Document) : Import → String → String → String → Prop where
  | named {document : Document} {names : List String} {identifier : String}
    (hfamily : document.sameFamily importer) (h : identifier ∈ names) :
    Provides importer (.named document names) identifier identifier identifier
  | whole {document : Document} {identifier : String} (hfamily : ¬ document.sameFamily importer) :
    Provides importer (.whole document document.namespaceAlias) document.namespaceAlias identifier
      (document.namespaceAlias ++ "." ++ identifier)

/-- The line of an import, from a specifier. -/
def Import.line (specifier : String) : Import → String
  | .named _ names => Artifact.importNames names specifier
  | .whole _ localName =>
    "import * as " ++ localName ++ " from " ++ Text.quote specifier ++ ";"

namespace Linkage

/-- A definition is the one that a linked table of a workspace has for a target of its document. -/
structure Defines (config : Config) (workspace : Workspace) (linkage : Linkage) (target : Target)
    (definition : Definition) : Prop where
  /-- No other definition has its identifier. -/
  only : (linkage.table.definitions.filter fun other =>
    other.identifier == definition.identifier) = [definition]
  defines : definition.target = target
  /-- It is built from the rule of the target in the grammar of the document. -/
  built : ∃ source ∈ workspace, source.document = linkage.table.document ∧
    ∃ grammar rule keys, source.grammar = .ok grammar ∧ grammar.rule? target = some rule ∧
      (rule.plan ⟨source.document, config, keys⟩ ⟨definition.identifier, []⟩).result =
        .ok definition.value

/-- How the references of a linked table to the document of another one are bound. -/
structure Binds (config : Config) (now : Calendar.Time) (workspace : Workspace)
    (importer exporter : Linkage) : Prop where
  /-- Every patch adds its reference, in order. -/
  references : (importer.externalBlock.filter fun group =>
      group.document == exporter.table.document).flatMap PatchGroup.references =
    (importer.table.patchesInto exporter.table.document).map importer.table.externalReference
  /-- The reference of a patch is to the definition of its target, through the only import of the
      document. -/
  bound : ∀ patch ∈ importer.table.patchesInto exporter.table.document,
    ∃ imported definition name,
      (importer.imports.filter fun other => other.document == exporter.table.document) =
        [imported] ∧
      exporter.Defines config workspace patch.target.target definition ∧
      Artifact.definitionText definition ∈ Artifact.sections config now exporter ∧
      imported.Provides importer.table.document name definition.identifier
        (importer.table.externalReference patch)
  /-- The import is of the module that the other artifact is the file of. -/
  specifier : ∃ stem, (Artifact.ofLinkage config now exporter).fileName = stem ++ ".ts" ∧
    ∀ imported ∈ importer.imports, imported.document = exporter.table.document →
      Artifact.importLine config imported = imported.line ("./" ++ stem) ∧
        Artifact.importLine config imported ∈ Artifact.importLines config importer
  /-- Every name that is imported is used. -/
  used : ∀ imported ∈ importer.imports, imported.document = exporter.table.document →
    ∀ name ∈ imported.names, ∃ group ∈ importer.externalBlock,
      group.document = exporter.table.document ∧ ∃ statement ∈ group.statements,
        ∃ reference ∈ statement.references, ∃ identifier,
          imported.Provides importer.table.document name identifier reference

end Linkage

/-! ## References of a table -/

namespace Table

variable {table : Table} {document : Document}

/-- The import of a document provides what the patches into it refer to. -/
theorem provides_importOf {patch : Patch External} (h : patch ∈ table.patchesInto document) :
    (table.importOf document).Provides table.document (table.importedName patch)
      (targetIdentifier patch) (table.externalReference patch) := by
  obtain ⟨-, rfl⟩ := mem_patchesInto_iff.1 h
  rw [importOf, importedName, externalReference]
  split
  · next hfamily =>
    refine .named hfamily ?_
    rw [List.mem_eraseDups]
    exact List.mem_map_of_mem h
  · next hfamily => exact .whole hfamily

theorem mem_dependencies_of_mem_patchesInto {patch : Patch External}
    (h : patch ∈ table.patchesInto document) : document ∈ table.dependencies :=
  mem_dependencies_iff.2 ⟨patch, mem_patchesInto_iff.1 h⟩

/-- The import of a document that is referred to is the only one of the document. -/
theorem filter_imports (h : document ∈ table.dependencies) :
    (table.imports.filter fun imported => imported.document == document) =
      [table.importOf document] := by
  have hmem : table.importOf document ∈ table.imports := mem_imports_iff.2 ⟨document, h, rfl⟩
  have hfilter := filter_eq_singleton (imports_documents_nodup table) hmem
  rwa [document_importOf] at hfilter

/-- The statements for a document make the references of the patches into it. -/
theorem references_externalBlock (table : Table) (document : Document) :
    (table.plan.externalBlock.filter fun group => group.document == document).flatMap
        PatchGroup.references =
      (table.patchesInto document).map table.externalReference := by
  have hpairs : (table.plan.externalBlock.filter fun group =>
      group.document == document).flatMap PatchGroup.references =
      ((table.plan.externalBlock.map fun group => (group.document, group.references)).filter
        fun entry => entry.1 == document).flatMap Prod.snd := by
    rw [List.filter_map, List.flatMap_map]
    rfl
  -- A document is among the dependencies at most once, so it has at most one group.
  have hdependencies : ((table.dependencies.filter fun other => other == document).flatMap
      fun other => (table.patchesInto other).map table.externalReference) =
      (table.patchesInto document).map table.externalReference := by
    by_cases hmem : document ∈ table.dependencies
    · have hkey : (table.dependencies.map id).Nodup := by
        rw [List.map_id]
        exact nodup_eraseDups _
      have honly : (table.dependencies.filter fun other => other == document) = [document] :=
        filter_eq_singleton hkey hmem
      rw [honly, List.flatMap_singleton]
    · have hnone : table.patchesInto document = [] := by
        refine List.eq_nil_iff_forall_not_mem.2 fun patch hpatch => ?_
        exact hmem (mem_dependencies_of_mem_patchesInto hpatch)
      have hothers : (table.dependencies.filter fun other => other == document) = [] := by
        rw [List.filter_eq_nil_iff]
        intro other hother heq
        rw [beq_iff_eq] at heq
        exact hmem (heq ▸ hother)
      rw [hnone, hothers]
      rfl
  rw [hpairs, plan, references_externalGroups, List.filter_map, List.flatMap_map]
  exact hdependencies

/-- Every name that is imported from a document is used by a statement for the document. -/
theorem exists_reference_of_mem_names {imported : Import} (himported : imported ∈ table.imports)
    {name : String} (hname : name ∈ imported.names) :
    ∃ group ∈ table.plan.externalBlock, group.document = imported.document ∧
      ∃ statement ∈ group.statements, ∃ reference ∈ statement.references, ∃ identifier,
        imported.Provides table.document name identifier reference := by
  obtain ⟨document, hdocument, rfl⟩ := mem_imports_iff.1 himported
  obtain ⟨patch, hpatch, rfl⟩ := (mem_names_importOf_iff hdocument).1 hname
  have hreference : table.externalReference patch ∈
      (table.patchesInto document).map table.externalReference :=
    List.mem_map_of_mem hpatch
  rw [← references_externalBlock, List.mem_flatMap] at hreference
  obtain ⟨group, hgroup, hreference⟩ := hreference
  obtain ⟨hgroup, hgroupDocument⟩ := List.mem_filter.1 hgroup
  obtain ⟨statement, hstatement, hreference⟩ := List.mem_flatMap.1 hreference
  refine ⟨group, hgroup, ?_, statement, hstatement, _, hreference, _, provides_importOf hpatch⟩
  rw [document_importOf]
  exact beq_iff_eq.1 hgroupDocument

end Table

theorem Artifact.importLine_eq (config : Config) (imported : Import) :
    importLine config imported = imported.line (config.moduleSpecifier imported.document) := by
  cases imported <;> rfl

/-! ## Definitions of a workspace -/

namespace Grammar

variable {config : Config} {document : Document} {grammar : Grammar}

/-- A definition is built from the rule of its target. -/
theorem exists_plan_of_mem_definitions (hkeys : grammar.keyCause? document = none)
    (hsucceeds : ∀ origin ∈ grammar.origins document, origin.Succeeds config document)
    {definition : Definition} (h : definition ∈ (grammar.table config document).definitions) :
    ∃ rule keys, grammar.rule? definition.target = some rule ∧
      (rule.plan ⟨document, config, keys⟩ ⟨definition.identifier, []⟩).result =
        .ok definition.value := by
  obtain ⟨origin, horigin, rfl⟩ := List.mem_map.1 h
  refine ⟨origin.rule, origin.keys, rule?_of_origin hkeys horigin, ?_⟩
  have hvisits := Context.visitAll_ok_iff.2 (hsucceeds origin horigin)
  have hplan := Rule.plan_eq_visits (origin.context config document) origin.rule origin.path
  have hresult : (origin.rule.plan (origin.context config document) origin.path).result =
      .ok (origin.rule.node (origin.context config document) origin.path) := by
    rw [hplan]
    exact Build.result_bind_of_ok hvisits _
  exact hresult

end Grammar

namespace Workspace

variable {config : Config} {workspace : Workspace}

/-- A linked table of a workspace has a definition for every target that a reference to its document
    may have. -/
theorem exists_defines {exporter : Linkage} (hexporter : exporter ∈ workspace.linked config)
    {target : Target}
    (h : (workspace.exports config).check exporter.table.document target = .ok ()) :
    ∃ definition ∈ exporter.table.definitions,
      exporter.Defines config workspace target definition ∧
      definition.identifier = target.identifier exporter.table.document := by
  obtain ⟨table, htable, hlink⟩ := mem_linked_iff.1 hexporter
  obtain ⟨-, rfl⟩ := (Table.link_ok_iff _ _ _).1 hlink
  obtain ⟨definition, hmem, rfl⟩ :=
    Table.exists_definition_of_isDefined ((check_exports_of_mem htable).1 h)
  obtain ⟨source, hsource, grammar, hgrammar, hbuild⟩ := exists_source_of_mem_tables htable
  obtain ⟨-, hkeys, hsucceeds, rfl⟩ := Table.ofGrammar_ok_iff.1 hbuild
  obtain ⟨rule, keys, hrule, hplan⟩ :=
    Grammar.exists_plan_of_mem_definitions hkeys hsucceeds hmem
  refine ⟨definition, hmem, ⟨?_, rfl, ?_⟩, Grammar.identifier_of_mem_definitions hmem⟩
  · exact filter_eq_singleton (Grammar.identifiers_table_nodup hkeys) hmem
  · exact ⟨source, hsource, rfl, grammar, rule, keys, hgrammar, hrule, hplan⟩

/-- The artifacts are those of the linked tables. Of any two linked tables, every reference that the
    one makes to the document of the other is to the definition of its target there, through the
    only import of that document, and every name that is imported is used. -/
theorem references_bind (config : Config) (now : Calendar.Time) (workspace : Workspace) :
    (workspace.compile config now).artifacts =
        (workspace.linked config).map (Artifact.ofLinkage config now) ∧
      ∀ importer ∈ workspace.linked config, ∀ exporter ∈ workspace.linked config,
        importer.Binds config now workspace exporter := by
  refine ⟨artifacts_compile config now workspace, fun importer himporter exporter hexporter => ?_⟩
  obtain ⟨table, htable, hlink⟩ := mem_linked_iff.1 himporter
  obtain ⟨hcause, rfl⟩ := (Table.link_ok_iff _ _ _).1 hlink
  refine ⟨table.references_externalBlock _, fun patch hpatch => ?_, ?_, ?_⟩
  · obtain ⟨hexternal, hdocument⟩ := Table.mem_patchesInto_iff.1 hpatch
    have hcheck := (Table.linkCause?_eq_none_iff.1 hcause).accepted patch hexternal
    rw [hdocument] at hcheck
    obtain ⟨definition, hmem, hdefines, hidentifier⟩ := exists_defines hexporter hcheck
    refine ⟨table.importOf exporter.table.document, definition, table.importedName patch,
      Table.filter_imports (Table.mem_dependencies_of_mem_patchesInto hpatch), hdefines, ?_, ?_⟩
    · simp only [Artifact.sections, List.mem_append]
      exact .inl (.inl (.inr (List.mem_map_of_mem hmem)))
    · have hprovides := Table.provides_importOf hpatch
      rwa [Table.targetIdentifier, hdocument, ← hidentifier] at hprovides
  · refine ⟨config.moduleName exporter.table.document, rfl, fun imported himported hdocument => ?_⟩
    have hline := Artifact.importLine_eq config imported
    rw [hdocument] at hline
    exact ⟨hline, List.mem_append_right _ (List.mem_map_of_mem himported)⟩
  · intro imported himported hdocument name hname
    rw [← hdocument]
    exact Table.exists_reference_of_mem_names himported hname

/-- A document refers to one rule of its own family by name, and to one of another family through
    the namespace of its document. -/
theorem references_bind_families :
    let workspace : Workspace :=
      [.ofGrammar "a.tmLanguage.json"
        { scopeName := some "source.renpy.a"
          repository := some
            [("u", { patterns := some [{ reference := some "source.renpy.b#x-y" },
              { reference := some "source.c#z" }] })] },
      .ofGrammar "b.tmLanguage.json"
        { scopeName := some "source.renpy.b"
          repository := some [("x-y", { single := some "x" })] },
      .ofGrammar "c.tmLanguage.json"
        { scopeName := some "source.c", repository := some [("z", { single := some "z" })] }]
    ∃ importer ∈ workspace.linked {}, ∃ near ∈ workspace.linked {}, ∃ far ∈ workspace.linked {},
      near.table.document = ⟨"source.renpy.b"⟩ ∧ far.table.document = ⟨"source.c"⟩ ∧
        importer.externalBlock.flatMap PatchGroup.references = ["xY", "CPatterns.z"] ∧
        importer.Binds {} ⟨1685631468⟩ workspace near ∧
        importer.Binds {} ⟨1685631468⟩ workspace far := by
  intro workspace
  have hlinked : (workspace.linked {}).map (fun linkage => linkage.table.document) =
      [⟨"source.renpy.a"⟩, ⟨"source.renpy.b"⟩, ⟨"source.c"⟩] := by
    decide +kernel
  have hreferences : ["xY", "CPatterns.z"] ∈ (workspace.linked {}).map fun linkage =>
      linkage.externalBlock.flatMap PatchGroup.references := by
    decide +kernel
  obtain ⟨importer, himporter, hblock⟩ := List.mem_map.1 hreferences
  have hexporter (document : Document) (h : document ∈ [(⟨"source.renpy.b"⟩ : Document),
      ⟨"source.c"⟩]) : ∃ exporter ∈ workspace.linked {}, exporter.table.document = document := by
    rw [← List.mem_map, hlinked]
    exact List.mem_cons_of_mem _ h
  obtain ⟨near, hnear, hnearDocument⟩ := hexporter ⟨"source.renpy.b"⟩ (by simp)
  obtain ⟨far, hfar, hfarDocument⟩ := hexporter ⟨"source.c"⟩ (by simp)
  have hbind := (references_bind {} ⟨1685631468⟩ workspace).2 importer himporter
  exact ⟨importer, himporter, near, hnear, far, hfar, hnearDocument, hfarDocument, hblock,
    hbind near hnear, hbind far hfar⟩

end Workspace

end PatternTable
