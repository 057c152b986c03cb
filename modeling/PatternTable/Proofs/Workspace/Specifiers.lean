import PatternTable.Proofs.Reference
import PatternTable.Proofs.Workspace.References

/-!
# The specifiers of a workspace

The specifier of a module is made from the language of its document, which is only the last segment
of the document's id. No two tables are generated to one file, so that the specifiers of documents
with tables are different. Documents of other families that share a language share an alias, so that
they are not imported together. Nothing compares the language of any other document without a table:
its specifier can be that of another document, or that of the module itself.

* `Linkage.specifiers`: the specifiers that a module imports other modules by.
* `Linkage.AvoidsOwn`, `Linkage.KeepsApart`: what languages the documents without tables must not
  have.

Results:
* `Workspace.specifiers_nodup_iff`: the specifiers of a module are different from each other and
  from its own exactly if the languages of documents without tables are.
-/

namespace PatternTable

/-! ## Specification -/

/-- A document of a workspace has a table. -/
def Workspace.HasTable (config : Config) (workspace : Workspace) (document : Document) : Prop :=
  ∃ table ∈ workspace.tables config, table.document = document

namespace Linkage

/-- The specifiers of the modules of other documents that a module imports. -/
def specifiers (config : Config) (linkage : Linkage) : List String :=
  linkage.imports.map fun imported => config.moduleSpecifier imported.document

/-- No document without a table is imported that has the language of the module's own document. -/
def AvoidsOwn (config : Config) (workspace : Workspace) (linkage : Linkage) : Prop :=
  ∀ imported ∈ linkage.imports, ¬ workspace.HasTable config imported.document →
    imported.document.language ≠ linkage.table.document.language

/-- No document without a table is imported together with another one of its language, unless
    neither is of the family of the module's document. -/
def KeepsApart (config : Config) (workspace : Workspace) (linkage : Linkage) : Prop :=
  ∀ imported ∈ linkage.imports, ∀ other ∈ linkage.imports, imported.document ≠ other.document →
    ¬ workspace.HasTable config imported.document →
    (imported.document.sameFamily linkage.table.document ∨
      other.document.sameFamily linkage.table.document) →
    imported.document.language ≠ other.document.language

/-- What can be said of the specifiers that the module of a linked table imports other modules
    by. -/
structure SpecifiersAre (config : Config) (now : Calendar.Time) (workspace : Workspace)
    (linkage : Linkage) : Prop where
  /-- They are the ones in the lines of its imports. -/
  lines : linkage.imports.map (Artifact.importLine config) =
    List.zipWith Import.line (linkage.specifiers config) linkage.imports
  /-- None of them is that of the file it is generated to exactly if it avoids its own language. -/
  own_iff : ∃ stem, (Artifact.ofLinkage config now linkage).fileName = stem ++ ".ts" ∧
    ("./" ++ stem ∉ linkage.specifiers config ↔ linkage.AvoidsOwn config workspace)
  /-- They are different exactly if it keeps languages apart. -/
  nodup_iff : (linkage.specifiers config).Nodup ↔ linkage.KeepsApart config workspace

end Linkage

/-! ## Specifiers and languages -/

namespace Config

variable {config : Config} {document other : Document}

theorem moduleSpecifier_eq_iff : config.moduleSpecifier document = config.moduleSpecifier other ↔
    document.language = other.language := by
  simp [moduleSpecifier, moduleName, Document.moduleName]

theorem fileName_eq_of_language (config : Config) (h : document.language = other.language) :
    config.fileName document = config.fileName other := by
  rw [fileName, fileName, moduleName, moduleName, Document.moduleName, Document.moduleName, h]

end Config

/-! ## Documents with and without tables -/

namespace Workspace

variable {config : Config} {workspace : Workspace}

/-- Documents that have tables are told by their languages. -/
theorem eq_of_language {document other : Document} (h : workspace.HasTable config document)
    (hother : workspace.HasTable config other) (hlanguage : document.language = other.language) :
    document = other := by
  obtain ⟨table, htable, rfl⟩ := h
  obtain ⟨table', htable', rfl⟩ := hother
  have hfile := Config.fileName_eq_of_language config hlanguage
  have hinjective := List.inj_on_of_nodup_map (tables_files_nodup config workspace)
  rw [hinjective htable htable' hfile]

end Workspace

namespace Table

variable {table : Table} {exports : Exports}

/-- Documents of other families that are imported are told by their languages, which make their
    aliases. -/
theorem eq_of_language_of_far (hlinkable : table.Linkable exports) {document other : Document}
    (hdocument : document ∈ table.dependencies) (hother : other ∈ table.dependencies)
    (hfar : ¬ document.sameFamily table.document) (hfar' : ¬ other.sameFamily table.document)
    (hlanguage : document.language = other.language) : document = other := by
  obtain ⟨patch, hpatch, rfl⟩ := mem_dependencies_iff.1 hdocument
  obtain ⟨patch', hpatch', rfl⟩ := mem_dependencies_iff.1 hother
  have hname : table.importedName patch = table.importedName patch' := by
    rw [importedName, importedName, if_neg hfar, if_neg hfar', Document.namespaceAlias,
      Document.namespaceAlias, hlanguage]
  exact hlinkable.unambiguous patch hpatch patch' hpatch' hname

end Table

/-- No document is imported by its own module. -/
theorem Grammar.document_not_mem_dependencies {config : Config} {document : Document}
    {grammar : Grammar} : document ∉ (grammar.table config document).dependencies := by
  intro h
  obtain ⟨patch, hpatch, hdocument⟩ := Table.mem_dependencies_iff.1 h
  obtain ⟨origin, entry, -, hexternal⟩ := mem_externalPatches_iff.1 hpatch
  obtain ⟨-, -, -, hparse⟩ := Context.externalPatch?_eq_some_iff.1 hexternal
  exact (Reference.parse?_external hparse).2.2 hdocument

namespace Workspace

variable {config : Config} {workspace : Workspace}

/-- The specifier of a module's own document is not among those that it imports exactly if the
    module avoids its own language. -/
theorem own_not_mem_specifiers_iff {document : Document} {grammar : Grammar}
    (htable : grammar.table config document ∈ workspace.tables config) :
    config.moduleSpecifier document ∉ (grammar.table config document).plan.specifiers config ↔
      (grammar.table config document).plan.AvoidsOwn config workspace := by
  have hspecifier : config.moduleSpecifier document ∉
      (grammar.table config document).plan.specifiers config ↔
      ∀ imported ∈ (grammar.table config document).plan.imports,
        imported.document.language ≠ document.language := by
    rw [Linkage.specifiers, List.mem_map, not_exists]
    refine forall_congr' fun imported => ?_
    rw [not_and, Config.moduleSpecifier_eq_iff]
  rw [hspecifier]
  refine forall₂_congr fun imported himported => ?_
  constructor
  · exact fun hlanguage _ => hlanguage
  -- A document with a table that has the same language would be the module's own.
  · intro havoids hlanguage
    have hknown : workspace.HasTable config imported.document := by
      by_contra huntabled
      exact havoids huntabled hlanguage
    have hown : workspace.HasTable config document := ⟨_, htable, rfl⟩
    have hdependency : imported.document ∈ (grammar.table config document).dependencies :=
      Table.exists_import_iff.1 ⟨imported, himported, rfl⟩
    rw [eq_of_language hknown hown hlanguage] at hdependency
    exact Grammar.document_not_mem_dependencies hdependency

/-- The specifiers that a linked table imports are different exactly if it keeps languages apart. -/
theorem nodup_specifiers_iff {table : Table}
    (hlinkable : table.Linkable (workspace.exports config)) :
    (table.plan.specifiers config).Nodup ↔ table.plan.KeepsApart config workspace := by
  have hdependency {imported : Import} (h : imported ∈ table.plan.imports) :
      imported.document ∈ table.dependencies :=
    Table.exists_import_iff.1 ⟨imported, h, rfl⟩
  constructor
  · intro hnodup imported himported other hother hne _ _ hlanguage
    have hinjective := List.inj_on_of_nodup_map hnodup
    have hsame := hinjective himported hother (Config.moduleSpecifier_eq_iff.2 hlanguage)
    exact hne (congrArg Import.document hsame)
  · intro hapart
    have hdocuments := table.imports_documents_nodup
    rw [List.Nodup, List.pairwise_map] at hdocuments
    rw [Linkage.specifiers, List.Nodup, List.pairwise_map]
    refine hdocuments.imp_of_mem fun {imported other} himported hother hne hspecifier => hne ?_
    have hlanguage := Config.moduleSpecifier_eq_iff.1 hspecifier
    by_cases hnear : imported.document.sameFamily table.document ∨
        other.document.sameFamily table.document
    · have hknown : workspace.HasTable config imported.document := by
        by_contra huntabled
        exact hapart imported himported other hother hne huntabled hnear hlanguage
      have hknown' : workspace.HasTable config other.document := by
        by_contra huntabled
        exact hapart other hother imported himported hne.symm huntabled hnear.symm hlanguage.symm
      exact eq_of_language hknown hknown' hlanguage
    · obtain ⟨hfar, hfar'⟩ := not_or.1 hnear
      exact Table.eq_of_language_of_far hlinkable (hdependency himported) (hdependency hother) hfar
        hfar' hlanguage

/-- The artifacts are those of the linked tables. The specifiers that the module of a linked table
    imports other modules by are different exactly if, of two documents with one language, it
    imports none without a table that is of its family or together with one of its family. None of
    the specifiers is its own exactly if it imports no document without a table that has the
    language of its own document. -/
theorem specifiers_nodup_iff (config : Config) (now : Calendar.Time) (workspace : Workspace) :
    (workspace.compile config now).artifacts =
        (workspace.linked config).map (Artifact.ofLinkage config now) ∧
      ∀ linkage ∈ workspace.linked config, linkage.SpecifiersAre config now workspace := by
  refine ⟨artifacts_compile config now workspace, fun linkage hlinkage => ?_⟩
  obtain ⟨table, htable, hlink⟩ := mem_linked_iff.1 hlinkage
  obtain ⟨hcause, rfl⟩ := (Table.link_ok_iff _ _ _).1 hlink
  have hlinkable := Table.linkCause?_eq_none_iff.1 hcause
  obtain ⟨source, -, grammar, -, hbuild⟩ := exists_source_of_mem_tables htable
  obtain ⟨-, -, -, rfl⟩ := Table.ofGrammar_ok_iff.1 hbuild
  constructor
  · rw [Linkage.specifiers, List.zipWith_map_left, List.zipWith_self]
    exact List.map_congr_left fun imported _ => Artifact.importLine_eq config imported
  · exact ⟨_, rfl, own_not_mem_specifiers_iff htable⟩
  · exact nodup_specifiers_iff hlinkable

/-- A document that imports one with a table and one without. -/
theorem specifiers_nodup_iff_families :
    let workspace : Workspace :=
      [.ofGrammar "a.tmLanguage.json"
        { scopeName := some "source.renpy.a"
          repository := some
            [("u", { patterns := some [{ reference := some "source.renpy.b#x-y" },
              { reference := some "source.c#z" }] })] },
      .ofGrammar "b.tmLanguage.json"
        { scopeName := some "source.renpy.b"
          repository := some [("x-y", { single := some "x" })] }]
    let config : Config := { handwritten := [⟨"source.c"⟩] }
    ∃ linkage ∈ workspace.linked config,
      linkage.specifiers config = ["./b-token-patterns.g", "./c-token-patterns.g"] ∧
        linkage.KeepsApart config workspace := by
  intro workspace config
  have hspecifiers : ["./b-token-patterns.g", "./c-token-patterns.g"] ∈
      (workspace.linked config).map (Linkage.specifiers config) := by
    decide +kernel
  obtain ⟨linkage, hlinkage, heq⟩ := List.mem_map.1 hspecifiers
  have hnodup : (linkage.specifiers config).Nodup := by
    rw [heq]
    decide
  have hare := (specifiers_nodup_iff config ⟨1685631468⟩ workspace).2 linkage hlinkage
  exact ⟨linkage, hlinkage, heq, hare.nodup_iff.1 hnodup⟩

/-- A document imports one of another family that is written by hand and has its language. The
    specifier is that of the file that the document itself is generated to. -/
theorem own_mem_specifiers :
    let workspace : Workspace :=
      [.ofGrammar "renpy.x.tmLanguage.json"
        { scopeName := some "source.renpy.x"
          repository := some
            [("u", { patterns := some [{ reference := some "source.python.x#y" }] })] }]
    let config : Config := { handwritten := [⟨"source.python.x"⟩] }
    ∃ linkage ∈ workspace.linked config,
      (Artifact.ofLinkage config ⟨1685631468⟩ linkage).fileName = "x-token-patterns.g.ts" ∧
        "./x-token-patterns.g" ∈ linkage.specifiers config := by
  decide +kernel

end Workspace

end PatternTable
