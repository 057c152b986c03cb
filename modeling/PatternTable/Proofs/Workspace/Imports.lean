import PatternTable.Proofs.Table.Imports
import PatternTable.Proofs.Table.Linking
import PatternTable.Proofs.Workspace.Exports

/-!
# Imports of a workspace

A reference to another document is checked against what is known of the document when all tables are
built. Documents that have no table by then, and no hand-written module, are not known, so whatever
refers to one of them fails as well. A table that cannot be linked has been known, though: a module
that refers to its document is generated, and imports a module that is not.

Results:
* `Workspace.import_module_iff`: when the module that an artifact imports is there.
-/

namespace PatternTable

namespace Table

/-- Every document that a linked table refers to is known. -/
theorem find?_ne_none_of_link {exports : Exports} {table : Table}
    (h : table.linkCause? exports = none) {document : Document}
    (hdocument : document ∈ table.dependencies) : exports.find? document ≠ none := by
  obtain ⟨patch, hpatch, rfl⟩ := mem_dependencies_iff.1 hdocument
  have hcheck := (linkCause?_eq_none_iff.1 h).accepted patch hpatch
  intro hfind
  simp [Exports.check, hfind] at hcheck

end Table

namespace Workspace

variable {config : Config} {workspace : Workspace}

/-- A document has a module if it is written by hand or there is an artifact of it. -/
def HasModule (config : Config) (now : Calendar.Time) (workspace : Workspace)
    (document : Document) : Prop :=
  document ∈ config.handwritten ∨
    ∃ artifact ∈ (workspace.compile config now).artifacts, artifact.document = document

instance (config : Config) (now : Calendar.Time) (workspace : Workspace) (document : Document) :
    Decidable (HasModule config now workspace document) :=
  inferInstanceAs (Decidable (_ ∨ _))

/-- A document is built, but cannot be linked. -/
def FailsToLink (config : Config) (workspace : Workspace) (document : Document) : Prop :=
  ∃ table ∈ workspace.tables config, table.document = document ∧
    table.linkCause? (workspace.exports config) ≠ none

/-- A document has an artifact if it has a table that can be linked. -/
theorem exists_artifact_iff {now : Calendar.Time} {document : Document} :
    (∃ artifact ∈ (workspace.compile config now).artifacts, artifact.document = document) ↔
      ∃ table ∈ workspace.tables config, table.document = document ∧
        table.linkCause? (workspace.exports config) = none := by
  simp only [artifacts_compile, List.mem_map, mem_linked_iff, Table.link_ok_iff]
  constructor
  · rintro ⟨_, ⟨_, ⟨table, htable, hcause, rfl⟩, rfl⟩, hdocument⟩
    exact ⟨table, htable, hdocument, hcause⟩
  · rintro ⟨table, htable, hdocument, hcause⟩
    exact ⟨_, ⟨_, ⟨table, htable, hcause, rfl⟩, rfl⟩, hdocument⟩

/-- A document that is built has an artifact exactly if it does not fail to link. -/
theorem exists_artifact_iff_not_failsToLink {now : Calendar.Time} {table : Table}
    (htable : table ∈ workspace.tables config) :
    (∃ artifact ∈ (workspace.compile config now).artifacts, artifact.document = table.document) ↔
      ¬ workspace.FailsToLink config table.document := by
  have hunique := List.inj_on_of_nodup_map (tables_nodup config workspace)
  rw [exists_artifact_iff]
  constructor
  · rintro ⟨other, hother, hdocument, hcause⟩ ⟨failed, hfailed, hdocument', hfailure⟩
    rw [hunique hother hfailed (hdocument.trans hdocument'.symm)] at hcause
    exact hfailure hcause
  · intro h
    refine ⟨table, htable, rfl, ?_⟩
    by_contra hcause
    exact h ⟨table, htable, rfl, hcause⟩

/-- The artifacts are those of the linked tables, and what a linked table imports is written by hand
    or has been built. Its module is there, unless it is not written by hand and fails to link. -/
theorem import_module_iff (config : Config) (now : Calendar.Time) (workspace : Workspace) :
    (workspace.compile config now).artifacts =
        (workspace.linked config).map (Artifact.ofLinkage config now) ∧
      ∀ linkage ∈ workspace.linked config, ∀ imported ∈ linkage.imports,
        (imported.document ∈ config.handwritten ∨
          ∃ table ∈ workspace.tables config, table.document = imported.document) ∧
        (workspace.HasModule config now imported.document ↔
          ¬ (imported.document ∉ config.handwritten ∧
            workspace.FailsToLink config imported.document)) := by
  refine ⟨artifacts_compile config now workspace, fun linkage hlinkage imported himported => ?_⟩
  obtain ⟨table, htable, hlink⟩ := mem_linked_iff.1 hlinkage
  obtain ⟨hcause, rfl⟩ := (Table.link_ok_iff _ _ _).1 hlink
  have hdocument : imported.document ∈ table.dependencies :=
    Table.exists_import_iff.1 ⟨imported, himported, rfl⟩
  have hknown := find?_exportsOf_ne_none_iff.1 (Table.find?_ne_none_of_link hcause hdocument)
  refine ⟨hknown, ?_⟩
  rw [HasModule]
  obtain hhandwritten | ⟨other, hother, heq⟩ := hknown
  · exact ⟨fun _ hfails => hfails.1 hhandwritten, fun _ => .inl hhandwritten⟩
  · rw [← heq, exists_artifact_iff_not_failsToLink hother]
    tauto

/-- Of two documents that refer to each other's rules, both are generated. -/
theorem import_module_iff_mutual :
    let workspace : Workspace :=
      [.ofGrammar "a.tmLanguage.json"
        { scopeName := some "source.renpy.a"
          repository := some
            [("u", { patterns := some [{ reference := some "source.renpy.b#x" }] })] },
      .ofGrammar "b.tmLanguage.json"
        { scopeName := some "source.renpy.b"
          repository := some
            [("x", { patterns := some [{ reference := some "source.renpy.a#u" }] })] }]
    ∃ linkage ∈ workspace.linked {}, Import.named ⟨"source.renpy.b"⟩ ["x"] ∈ linkage.imports ∧
      workspace.HasModule {} ⟨1685631468⟩ ⟨"source.renpy.b"⟩ := by
  intro workspace
  have himports : [Import.named ⟨"source.renpy.b"⟩ ["x"]] ∈
      (workspace.linked {}).map Linkage.imports := by
    decide +kernel
  obtain ⟨linkage, hlinkage, heq⟩ := List.mem_map.1 himports
  have himported : Import.named ⟨"source.renpy.b"⟩ ["x"] ∈ linkage.imports := by
    rw [heq]
    exact List.mem_cons_self
  have hlinks : ∀ table ∈ workspace.tables {},
      table.linkCause? (workspace.exports {}) = none := by
    decide +kernel
  refine ⟨linkage, hlinkage, himported, ?_⟩
  refine ((import_module_iff {} ⟨1685631468⟩ workspace).2 linkage hlinkage _ himported).2.2 ?_
  rintro ⟨-, table, htable, -, hcause⟩
  exact hcause (hlinks table htable)

/-- A document whose only rule refers to a rule that it does not have is built, but not linked. The
    module of a document that refers to it is generated, and imports a module that is not there. -/
theorem import_without_module :
    let workspace : Workspace :=
      [.ofGrammar "a.tmLanguage.json"
        { scopeName := some "source.renpy.a"
          repository := some
            [("u", { patterns := some [{ reference := some "source.renpy.b#x" }] })] },
      .ofGrammar "b.tmLanguage.json"
        { scopeName := some "source.renpy.b"
          repository := some [("x", { patterns := some [{ reference := some "#missing" }] })] }]
    ∃ linkage ∈ workspace.linked {}, ∃ imported ∈ linkage.imports,
      ¬ workspace.HasModule {} ⟨1685631468⟩ imported.document := by
  decide +kernel

end Workspace

end PatternTable
