import PatternTable.Artifact
import PatternTable.Proofs.Module.Locals
import PatternTable.Proofs.Table.Imports

/-!
# The names at the top level of a module

A module binds the identifiers of its definitions, the names that it imports and the names of its
library, and exports a function that makes its references to other modules. Definitions and imports
are compared with each other when a table is linked. The names of the library start in upper case
and have endings of their own. The name of the function is compared with nothing: a repository key
or a rule that is imported can make the same name.

* `Linkage.boundNames`: the names of definitions, imports and library.
* `Linkage.names`: these, and the name of the function if there is one.
* `Table.LeavesLinkFunction`: no key makes the name of the function.

Results:
* `Table.names_nodup_iff`: the bound names are different, and the function has a name of its own
  exactly if no key makes it.
-/

namespace PatternTable

/-! ## Specification -/

namespace Linkage

/-- The names that a module imports from its library. -/
def libraryNames (linkage : Linkage) : List String :=
  (Artifact.usedCategories linkage.table).map Scope.Category.typeName ++ ["TokenPattern"]

/-- The names that a module defines and imports. -/
def boundNames (linkage : Linkage) : List String :=
  linkage.table.identifiers ++ linkage.imports.flatMap Import.names ++ linkage.libraryNames

/-- The names at the top level of a module. -/
def names (linkage : Linkage) : List String :=
  linkage.boundNames ++
    if linkage.externalBlock.isEmpty then [] else [linkage.table.document.linkFunction]

end Linkage

/-- No key makes the name of the link function: neither one of the repository nor one that is
    imported by name. -/
structure Table.LeavesLinkFunction (table : Table) : Prop where
  keys : ∀ key ∈ table.keys, Identifier.camel key ≠ table.document.linkFunction
  imports : ∀ patch ∈ table.trail.externalPatches, patch.target.document.sameFamily table.document →
    ∀ key, patch.target.target = .key key → Identifier.camel key ≠ table.document.linkFunction

/-! ## Names of the library -/

/-- The names that a module can import from its library. -/
def Artifact.libraryNames : List String :=
  Scope.Category.all.map Scope.Category.typeName ++ ["TokenPattern"]

theorem Artifact.libraryNames_nodup : libraryNames.Nodup := by
  decide

/-- A name of the library starts in upper case, and does not end like a name of a document. -/
theorem Artifact.ends_of_mem_libraryNames {name : String} (h : name ∈ libraryNames) :
    (∃ c, name.toList.head? = some c ∧ c.isUpper = true) ∧
      name.toList.getLast? ≠ some 't' ∧ name.toList.getLast? ≠ some 's' := by
  have hall : ∀ name ∈ libraryNames, (name.toList.head?.any Char.isUpper = true) ∧
      name.toList.getLast? ≠ some 't' ∧ name.toList.getLast? ≠ some 's' := by
    decide
  obtain ⟨hhead, hlast⟩ := hall name h
  exact ⟨(Option.any_eq_true _ _).1 hhead, hlast⟩

namespace Linkage

/-- A module imports names of the library in the order in which the library has them. -/
theorem libraryNames_sublist (linkage : Linkage) :
    linkage.libraryNames.Sublist Artifact.libraryNames :=
  (List.filter_sublist.map _).append (List.Sublist.refl _)

end Linkage

theorem Target.identifier_not_mem_libraryNames (document : Document) (target : Target) :
    target.identifier document ∉ Artifact.libraryNames := by
  intro h
  obtain ⟨⟨c, hhead, hupper⟩, hlast, -⟩ := Artifact.ends_of_mem_libraryNames h
  cases target with
  | key name =>
    have hlower := Identifier.head_camel hhead
    rw [hupper] at hlower
    cases hlower
  | root => exact hlast document.last_rootIdentifier

theorem Document.namespaceAlias_not_mem_libraryNames (document : Document) :
    document.namespaceAlias ∉ Artifact.libraryNames := by
  intro h
  exact (Artifact.ends_of_mem_libraryNames h).2.2 document.last_namespaceAlias

theorem Document.linkFunction_not_mem_libraryNames (document : Document) :
    document.linkFunction ∉ Artifact.libraryNames := by
  intro h
  exact (Artifact.ends_of_mem_libraryNames h).2.2 document.last_linkFunction

/-! ## Imported names -/

namespace Table

variable {table : Table} {exports : Exports}

theorem mem_flatMap_names_iff {name : String} : name ∈ table.imports.flatMap Import.names ↔
    ∃ patch ∈ table.trail.externalPatches, table.importedName patch = name := by
  rw [List.mem_flatMap]
  constructor
  · rintro ⟨_, himported, hname⟩
    obtain ⟨document, hdocument, rfl⟩ := mem_imports_iff.1 himported
    obtain ⟨patch, hpatch, heq⟩ := (mem_names_importOf_iff hdocument).1 hname
    exact ⟨patch, (mem_patchesInto_iff.1 hpatch).1, heq⟩
  · rintro ⟨patch, hpatch, heq⟩
    have hdocument : patch.target.document ∈ table.dependencies :=
      mem_dependencies_iff.2 ⟨patch, hpatch, rfl⟩
    refine ⟨_, mem_imports_iff.2 ⟨_, hdocument, rfl⟩, (mem_names_importOf_iff hdocument).2 ?_⟩
    exact ⟨patch, mem_patchesInto_iff.2 ⟨hpatch, rfl⟩, heq⟩

/-- No name is imported twice. -/
theorem flatMap_names_nodup (h : table.Linkable exports) :
    (table.imports.flatMap Import.names).Nodup := by
  have hdocuments := imports_documents_nodup table
  rw [List.Nodup, List.pairwise_map] at hdocuments
  rw [List.nodup_flatMap]
  constructor
  · intro imported himported
    obtain ⟨document, -, rfl⟩ := mem_imports_iff.1 himported
    rw [importOf]
    split
    · exact nodup_eraseDups _
    · exact List.nodup_singleton _
  -- A name that two imports bind would be needed from two documents.
  · refine hdocuments.imp_of_mem fun {imported other} himported hother hne name hname hname' => ?_
    obtain ⟨document, hdocument, rfl⟩ := mem_imports_iff.1 himported
    obtain ⟨document', hdocument', rfl⟩ := mem_imports_iff.1 hother
    obtain ⟨patch, hpatch, heq⟩ := (mem_names_importOf_iff hdocument).1 hname
    obtain ⟨patch', hpatch', heq'⟩ := (mem_names_importOf_iff hdocument').1 hname'
    obtain ⟨hmem, rfl⟩ := mem_patchesInto_iff.1 hpatch
    obtain ⟨hmem', rfl⟩ := mem_patchesInto_iff.1 hpatch'
    have hsame := h.unambiguous patch hmem patch' hmem' (heq.trans heq'.symm)
    rw [document_importOf, document_importOf] at hne
    exact hne hsame

theorem importedName_not_mem_libraryNames (table : Table) (patch : Patch External) :
    table.importedName patch ∉ Artifact.libraryNames := by
  rw [importedName]
  split
  · exact Target.identifier_not_mem_libraryNames _ _
  · exact Document.namespaceAlias_not_mem_libraryNames _

/-- The name of the link function is an imported name exactly if an imported key makes it. -/
theorem importedName_eq_linkFunction_iff (table : Table) (patch : Patch External) :
    table.importedName patch = table.document.linkFunction ↔
      patch.target.document.sameFamily table.document ∧ ∃ key, patch.target.target = .key key ∧
        Identifier.camel key = table.document.linkFunction := by
  have halias : patch.target.document.namespaceAlias ≠ table.document.linkFunction := by
    intro heq
    have hhead := table.document.head_linkFunction
    rw [← heq] at hhead
    have hlower := Document.head_namespaceAlias hhead
    simp at hlower
  have hroot : patch.target.document.rootIdentifier ≠ table.document.linkFunction := by
    intro heq
    have hlast := table.document.last_linkFunction
    rw [← heq, Document.last_rootIdentifier] at hlast
    simp at hlast
  rw [importedName]
  by_cases hfamily : patch.target.document.sameFamily table.document
  · rw [if_pos hfamily, targetIdentifier]
    cases htarget : patch.target.target with
    | key key => simp [Target.identifier, hfamily]
    | root => simp [Target.identifier, hroot]
  · simp [hfamily, halias]

theorem flatMap_names_disjoint_libraryNames (table : Table) :
    List.Disjoint (table.imports.flatMap Import.names) Artifact.libraryNames := by
  intro name hname hlibrary
  obtain ⟨patch, -, rfl⟩ := mem_flatMap_names_iff.1 hname
  exact table.importedName_not_mem_libraryNames patch hlibrary

end Table

/-! ## Names of definitions -/

namespace Grammar

variable {config : Config} {document : Document} {grammar : Grammar}

theorem exists_target_of_mem_identifiers {name : String}
    (h : name ∈ (grammar.table config document).identifiers) :
    ∃ definition ∈ (grammar.table config document).definitions,
      definition.target.identifier document = name := by
  obtain ⟨definition, hmem, rfl⟩ := List.mem_map.1 h
  exact ⟨definition, hmem, (identifier_of_mem_definitions hmem).symm⟩

/-- The name of the link function is that of a definition exactly if a repository key makes it. -/
theorem linkFunction_mem_identifiers_iff :
    document.linkFunction ∈ (grammar.table config document).identifiers ↔
      ∃ key ∈ (grammar.table config document).keys,
        Identifier.camel key = document.linkFunction := by
  constructor
  · intro h
    obtain ⟨definition, hmem, heq⟩ := exists_target_of_mem_identifiers h
    rw [Definition.target] at heq
    cases hkey : definition.key with
    | some key =>
      rw [hkey] at heq
      exact ⟨key, List.mem_filterMap.2 ⟨definition, hmem, hkey⟩, heq⟩
    | none =>
      have hlast := document.last_rootIdentifier
      rw [hkey] at heq
      rw [show document.rootIdentifier = document.linkFunction from heq,
        Document.last_linkFunction] at hlast
      simp at hlast
  · rintro ⟨key, hkey, heq⟩
    have hdefined : (grammar.table config document).isDefined (.key key) := by
      rw [Table.isDefined, List.contains_iff_mem]
      exact hkey
    rw [← heq]
    exact mem_identifiers_of_isDefined hdefined

end Grammar

/-! ## Modules -/

namespace Grammar

variable {config : Config} {document : Document} {grammar : Grammar} {exports : Exports}

/-- The names that a module defines and imports are different. -/
theorem boundNames_nodup (hkeys : grammar.keyCause? document = none)
    (hlinkable : (grammar.table config document).Linkable exports) :
    (grammar.table config document).plan.boundNames.Nodup := by
  let table := grammar.table config document
  have hlibrary : ∀ name ∈ table.plan.libraryNames, name ∈ Artifact.libraryNames :=
    table.plan.libraryNames_sublist.subset
  have hdefined : table.identifiers.Disjoint (table.imports.flatMap Import.names) := by
    intro name hname himported
    obtain ⟨patch, hpatch, rfl⟩ := Table.mem_flatMap_names_iff.1 himported
    exact hlinkable.unclaimed patch hpatch hname
  have houter : (table.identifiers ++ table.imports.flatMap Import.names).Disjoint
      table.plan.libraryNames := by
    intro name hname hmem
    obtain hname | hname := List.mem_append.1 hname
    · obtain ⟨definition, -, rfl⟩ := exists_target_of_mem_identifiers hname
      exact Target.identifier_not_mem_libraryNames _ _ (hlibrary _ hmem)
    · exact table.flatMap_names_disjoint_libraryNames hname (hlibrary _ hmem)
  refine List.Nodup.append (List.Nodup.append ?_ ?_ hdefined) ?_ houter
  · exact identifiers_table_nodup hkeys
  · exact Table.flatMap_names_nodup hlinkable
  · exact Artifact.libraryNames_nodup.sublist table.plan.libraryNames_sublist

/-- No definition or import has the name of the link function exactly if no key makes it. -/
theorem linkFunction_not_mem_boundNames_iff :
    document.linkFunction ∉ (grammar.table config document).plan.boundNames ↔
      (grammar.table config document).LeavesLinkFunction := by
  let table := grammar.table config document
  have hlibrary : document.linkFunction ∉ table.plan.libraryNames := fun h =>
    document.linkFunction_not_mem_libraryNames (table.plan.libraryNames_sublist.subset h)
  have himports : document.linkFunction ∈ table.imports.flatMap Import.names ↔
      ∃ patch ∈ table.trail.externalPatches, patch.target.document.sameFamily document ∧
        ∃ key, patch.target.target = .key key ∧ Identifier.camel key = document.linkFunction := by
    rw [Table.mem_flatMap_names_iff]
    refine exists_congr fun patch => and_congr_right fun _ => ?_
    exact table.importedName_eq_linkFunction_iff patch
  have hbound : document.linkFunction ∈ table.plan.boundNames ↔
      document.linkFunction ∈ table.identifiers ∨
        document.linkFunction ∈ table.imports.flatMap Import.names := by
    rw [Linkage.boundNames, List.mem_append, List.mem_append, or_iff_left hlibrary]
    rfl
  rw [hbound, himports, linkFunction_mem_identifiers_iff]
  constructor
  · intro h
    rw [not_or] at h
    obtain ⟨hdefined, himported⟩ := h
    constructor
    · exact fun key hkey heq => hdefined ⟨key, hkey, heq⟩
    · exact fun patch hpatch hfamily key htarget heq =>
        himported ⟨patch, hpatch, hfamily, key, htarget, heq⟩
  · rintro hleaves (⟨key, hkey, heq⟩ | ⟨patch, hpatch, hfamily, key, htarget, heq⟩)
    · exact hleaves.keys key hkey heq
    · exact hleaves.imports patch hpatch hfamily key htarget heq

end Grammar

namespace Table

/-- The names that a module that is built and linked defines and imports are different. If it
    exports a link function, that has a name of its own exactly if no key makes the name. -/
theorem names_nodup_iff {config : Config} {document : Document} {grammar : Grammar}
    {exports : Exports} {table : Table} {linkage : Linkage}
    (hbuild : (ofGrammar config document grammar).1 = .ok table)
    (hlink : table.link exports = .ok linkage) :
    linkage.boundNames.Nodup ∧
      (linkage.names.Nodup ↔ (linkage.externalBlock ≠ [] → table.LeavesLinkFunction)) := by
  obtain ⟨-, hkeys, -, rfl⟩ := ofGrammar_ok_iff.1 hbuild
  obtain ⟨hcause, rfl⟩ := (link_ok_iff _ _ _).1 hlink
  have hnodup := Grammar.boundNames_nodup hkeys (linkCause?_eq_none_iff.1 hcause)
  refine ⟨hnodup, ?_⟩
  rw [← Grammar.linkFunction_not_mem_boundNames_iff, Linkage.names]
  by_cases hblock : (grammar.table config document).plan.externalBlock = []
  · simp [hblock, hnodup]
  · rw [if_neg (by simpa using hblock), List.nodup_append]
    simp only [hnodup, List.nodup_singleton, List.mem_singleton, true_and, ne_eq, hblock,
      not_false_eq_true, forall_true_left, forall_eq]
    exact ⟨fun h hmem => h _ hmem rfl, fun h name hname heq => h (heq ▸ hname)⟩

/-- A module with names of every kind, all of them different. -/
theorem names_nodup_iff_kinds :
    let grammar : Grammar :=
      { repository := some [("word", { name := some "meta.word", single := some "x" }),
          ("list", { patterns := some [{ reference := some "source.renpy.screen#item" },
            { reference := some "source.python#string" }] })]
        patterns := some [{ reference := some "#list" }] }
    let exports : Exports :=
      ⟨[(⟨"source.renpy.screen"⟩, .handwritten), (⟨"source.python"⟩, .handwritten)]⟩
    let table := grammar.table {} ⟨"source.renpy.atl"⟩
    (ofGrammar {} ⟨"source.renpy.atl"⟩ grammar).1 = .ok table ∧
      table.link exports = .ok table.plan ∧
      table.plan.names = ["word", "list", "atlRoot", "item", "PythonPatterns", "MetaTokenType",
        "TokenPattern", "linkATLPatterns"] ∧
      table.plan.names.Nodup := by
  intro grammar exports table
  have hbuild : (ofGrammar {} ⟨"source.renpy.atl"⟩ grammar).1 = .ok table :=
    ofGrammar_ok_iff.2 ⟨rfl, by decide +kernel, by decide +kernel, rfl⟩
  have hlink : table.link exports = .ok table.plan :=
    (link_ok_iff _ _ _).2 ⟨by decide +kernel, rfl⟩
  have hkeys : ∀ key ∈ table.keys, Identifier.camel key ≠ table.document.linkFunction := by
    decide +kernel
  have himports : ∀ patch ∈ table.trail.externalPatches,
      targetIdentifier patch ≠ table.document.linkFunction := by
    decide +kernel
  refine ⟨hbuild, hlink, by decide +kernel, (names_nodup_iff hbuild hlink).2.2 fun _ => ?_⟩
  refine ⟨hkeys, fun patch hpatch _ key htarget heq => himports patch hpatch ?_⟩
  rw [targetIdentifier, htarget]
  exact heq

/-- A repository key makes the name of the link function. The document is built and linked, and its
    module has a constant and a function of one name. -/
theorem names_not_nodup_of_key :
    let grammar : Grammar :=
      { repository := some [("link-atl-patterns", { single := some "x" }),
          ("u", { patterns := some [{ reference := some "source.python#x" }] })] }
    let exports : Exports := ⟨[(⟨"source.python"⟩, .handwritten)]⟩
    let table := grammar.table {} ⟨"source.renpy.atl"⟩
    (ofGrammar {} ⟨"source.renpy.atl"⟩ grammar).1 = .ok table ∧
      table.link exports = .ok table.plan ∧ ¬ table.plan.names.Nodup := by
  intro grammar exports table
  refine ⟨ofGrammar_ok_iff.2 ⟨rfl, by decide +kernel, by decide +kernel, rfl⟩,
    (link_ok_iff _ _ _).2 ⟨by decide +kernel, rfl⟩, by decide +kernel⟩

end Table

end PatternTable
