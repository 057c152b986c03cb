import PatternTable.Proofs.Table.Patches

/-!
# What a table imports

A table imports every document that it refers to, once: by the identifiers that its patches refer
to, or as a namespace.

Results:
* `Table.mem_imports_iff`: which imports a table needs.
* `Table.imports_documents_nodup`: no document is imported twice.
* `Table.mem_names_importOf_iff`: an import binds the names that the patches into its document need.
-/

namespace PatternTable

/-- The document whose module is imported. -/
def Import.document : Import → Document
  | .named document _ => document
  | .whole document _ => document

/-- The names that an import binds. -/
def Import.names : Import → List String
  | .named _ names => names
  | .whole _ localName => [localName]

namespace Table

variable {table : Table}

/-- The import that the patches into a document need. -/
def importOf (table : Table) (document : Document) : Import :=
  if document.sameFamily table.document then
    .named document ((table.patchesInto document).map targetIdentifier).eraseDups
  else .whole document document.namespaceAlias

theorem document_importOf (table : Table) (document : Document) :
    (table.importOf document).document = document := by
  rw [importOf]
  split <;> rfl

theorem mem_dependencies_iff {document : Document} : document ∈ table.dependencies ↔
    ∃ patch ∈ table.trail.externalPatches, patch.target.document = document := by
  rw [dependencies, List.mem_eraseDups, List.mem_map]

theorem mem_patchesInto_iff {document : Document} {patch : Patch External} :
    patch ∈ table.patchesInto document ↔
      patch ∈ table.trail.externalPatches ∧ patch.target.document = document := by
  rw [patchesInto, List.mem_filter, beq_iff_eq]

/-! ## Imports -/

/-- The imports of a table are those of its dependencies, in another order. -/
theorem imports_perm (table : Table) :
    table.imports.Perm (table.dependencies.map table.importOf) := by
  have hnear : (table.dependencies.filter fun document => document.sameFamily table.document).map
      table.importOf = (table.dependencies.filter fun document =>
        document.sameFamily table.document).map fun document =>
          .named document ((table.patchesInto document).map targetIdentifier).eraseDups :=
    List.map_congr_left fun document hmem => if_pos (List.mem_filter.1 hmem).2
  have hfar : (table.dependencies.filter fun document => !document.sameFamily table.document).map
      table.importOf = (table.dependencies.filter fun document =>
        !document.sameFamily table.document).map fun document =>
          .whole document document.namespaceAlias := by
    refine List.map_congr_left fun document hmem => if_neg ?_
    simpa using (List.mem_filter.1 hmem).2
  rw [imports, List.partition_eq_filter_filter]
  dsimp only
  rw [← hnear, Function.comp_def, ← hfar, ← List.map_append]
  exact (List.filter_append_perm _ _).map _

theorem mem_imports_iff {imported : Import} : imported ∈ table.imports ↔
    ∃ document ∈ table.dependencies, table.importOf document = imported := by
  rw [(imports_perm table).mem_iff, List.mem_map]

/-- The imports of a table are of the documents that it refers to. -/
theorem exists_import_iff {document : Document} :
    (∃ imported ∈ table.imports, imported.document = document) ↔
      document ∈ table.dependencies := by
  simp only [mem_imports_iff, exists_exists_and_eq_and, document_importOf, exists_eq_right]

/-- No document is imported twice. -/
theorem imports_documents_nodup (table : Table) : (table.imports.map Import.document).Nodup := by
  have hdocuments : Import.document ∘ table.importOf = id := funext table.document_importOf
  rw [((imports_perm table).map _).nodup_iff, List.map_map, hdocuments, List.map_id]
  exact nodup_eraseDups _

/-! ## Names -/

/-- An import binds the names that the patches into its document need. -/
theorem mem_names_importOf_iff {document : Document} (h : document ∈ table.dependencies)
    {name : String} : name ∈ (table.importOf document).names ↔
      ∃ patch ∈ table.patchesInto document, table.importedName patch = name := by
  have hdocument {patch : Patch External} (hpatch : patch ∈ table.patchesInto document) :
      patch.target.document = document :=
    (mem_patchesInto_iff.1 hpatch).2
  rw [importOf]
  split
  · next hfamily =>
    rw [Import.names, List.mem_eraseDups, List.mem_map]
    refine exists_congr fun patch => and_congr_right fun hpatch => ?_
    rw [importedName, hdocument hpatch, if_pos hfamily]
  · next hfamily =>
    rw [Import.names, List.mem_singleton]
    constructor
    · rintro rfl
      obtain ⟨patch, hpatch, rfl⟩ := mem_dependencies_iff.1 h
      refine ⟨patch, mem_patchesInto_iff.2 ⟨hpatch, rfl⟩, ?_⟩
      rw [importedName, if_neg hfamily]
    · rintro ⟨patch, hpatch, rfl⟩
      rw [importedName, hdocument hpatch, if_neg hfamily]

end Table

end PatternTable
