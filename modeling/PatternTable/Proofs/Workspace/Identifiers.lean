import PatternTable.Proofs.Module.Names
import PatternTable.Proofs.Workspace.Exports

/-!
# The identifiers of a workspace

The names in a module are made from repository keys, from the keys in includes, and from the
languages of documents. All of them have ASCII letters and digits only, and what a module binds is
no reserved word unless it is an alias. Whether a name starts with a letter is checked for the keys
of a repository. Nothing checks it for the language of a document, nor for a key of a document that
has no table: what is made from those is not always an identifier.

* `Linkage.writtenNames`: the names of definitions and imports, and those that references take from
  an alias.
* `Table.Misnamed`: which of these names are no identifiers.

Results:
* `Workspace.identifiers_legal_iff`: a name in a module is no identifier exactly if it is made from
  a language that leads with a digit, or from a key without a table that does not lead with a
  letter.
-/

namespace PatternTable

/-! ## Specification -/

namespace Linkage

/-- The names that a module imports one by one. -/
def importedByName (linkage : Linkage) : List String :=
  linkage.imports.flatMap fun
    | .named _ names => names
    | .whole _ _ => []

/-- The names that references take from an alias: what is written after the dot. -/
def members (linkage : Linkage) : List String :=
  (linkage.externalBlock.flatMap PatchGroup.references).filterMap fun reference =>
    (Text.cutAt? '.' reference.toList).map fun parts => String.ofList parts.2

/-- The names that a module defines and imports, and those that it takes from an alias. -/
def writtenNames (linkage : Linkage) : List String :=
  linkage.table.identifiers ++ linkage.imports.flatMap Import.names ++ linkage.members

end Linkage

/-- The names in the module of a table that are no identifiers. -/
inductive Table.Misnamed (config : Config) (workspace : Workspace) (table : Table) :
    String → Prop where
  /-- The definition of the top-level patterns, if the language leads with a digit. -/
  | root (hroot : table.hasRoot) (h : Identifier.leadsWithDigit table.document.language) :
    Misnamed config workspace table table.document.rootIdentifier
  /-- The top-level patterns of another document, if its language leads with a digit. -/
  | otherRoot {patch : Patch External} (hpatch : patch ∈ table.trail.externalPatches)
    (htarget : patch.target.target = .root)
    (h : Identifier.leadsWithDigit patch.target.document.language) :
    Misnamed config workspace table patch.target.document.rootIdentifier
  /-- A key of a document without a table, if the key does not lead with a letter. -/
  | otherKey {patch : Patch External} (hpatch : patch ∈ table.trail.externalPatches) {key : String}
    (htarget : patch.target.target = .key key)
    (huntabled : ∀ other ∈ workspace.tables config, other.document ≠ patch.target.document)
    (h : ¬ Identifier.leadsWithLetter key) :
    Misnamed config workspace table (Identifier.camel key)
  /-- The alias of a document of another family, if its language leads with a digit. -/
  | otherAlias {patch : Patch External} (hpatch : patch ∈ table.trail.externalPatches)
    (hfamily : ¬ patch.target.document.sameFamily table.document)
    (h : Identifier.leadsWithDigit patch.target.document.language) :
    Misnamed config workspace table patch.target.document.namespaceAlias

/-- What can be said of the names in the module of a linked table. -/
structure Linkage.NamesAre (config : Config) (workspace : Workspace) (linkage : Linkage) :
    Prop where
  /-- They have ASCII letters and digits only. -/
  alphanum : ∀ name ∈ linkage.writtenNames, ∀ c ∈ name.toList, c.isAlphanum
  /-- Those of definitions, and those that are imported one by one, are no reserved words. -/
  unreserved : ∀ name ∈ linkage.table.identifiers ++ linkage.importedByName,
    ¬ Identifier.isReserved name
  /-- Exactly the misnamed ones are no identifiers. -/
  illegal_iff : ∀ name, name ∈ linkage.writtenNames ∧ ¬ Identifier.IsLegal name ↔
    linkage.table.Misnamed config workspace name

/-! ## Names of references -/

namespace Table

variable {table : Table}

/-- A reference takes the identifier of its target from an alias, or has no dot. -/
theorem cutAt?_externalReference (table : Table) (patch : Patch External) :
    (Text.cutAt? '.' (table.externalReference patch).toList).map
        (fun parts => String.ofList parts.2) =
      if patch.target.document.sameFamily table.document then none
      else some (targetIdentifier patch) := by
  have hdot {name : String} (h : ∀ c ∈ name.toList, c.isAlphanum) : '.' ∉ name.toList := by
    intro hmem
    have hdot := h '.' hmem
    simp at hdot
  rw [externalReference]
  split
  · have hidentifier : '.' ∉ (targetIdentifier patch).toList :=
      hdot (Target.identifier_isAlphanum _ _)
    rw [Text.cutAt?_eq_none_iff.2 hidentifier, Option.map_none]
  · have halias := hdot patch.target.document.namespaceAlias_isAlphanum
    have hlist : (patch.target.document.namespaceAlias ++ "." ++ targetIdentifier patch).toList =
        patch.target.document.namespaceAlias.toList ++ '.' :: (targetIdentifier patch).toList := by
      simp
    rw [hlist, Text.cutAt?_append halias, Option.map_some, String.ofList_toList]

theorem mem_members_iff {name : String} : name ∈ table.plan.members ↔
    ∃ patch ∈ table.trail.externalPatches, ¬ patch.target.document.sameFamily table.document ∧
      targetIdentifier patch = name := by
  rw [Linkage.members, references_externalBlock_all, List.filterMap_map, List.mem_filterMap]
  refine exists_congr fun patch => ?_
  rw [mem_groupedPatches_iff, Function.comp_apply, cutAt?_externalReference]
  refine and_congr_right fun _ => ?_
  split <;> simp [*]

theorem mem_importedByName_iff {name : String} : name ∈ table.plan.importedByName ↔
    ∃ patch ∈ table.trail.externalPatches, patch.target.document.sameFamily table.document ∧
      targetIdentifier patch = name := by
  rw [Linkage.importedByName, List.mem_flatMap]
  constructor
  · rintro ⟨_, himported, hname⟩
    obtain ⟨document, hdocument, rfl⟩ := mem_imports_iff.1 himported
    by_cases hfamily : document.sameFamily table.document
    · simp only [importOf, if_pos hfamily, List.mem_eraseDups, List.mem_map] at hname
      obtain ⟨patch, hpatch, rfl⟩ := hname
      obtain ⟨hmem, rfl⟩ := mem_patchesInto_iff.1 hpatch
      exact ⟨patch, hmem, hfamily, rfl⟩
    · simp [importOf, hfamily] at hname
  · rintro ⟨patch, hpatch, hfamily, rfl⟩
    have hdocument : patch.target.document ∈ table.dependencies :=
      mem_dependencies_iff.2 ⟨patch, hpatch, rfl⟩
    refine ⟨_, mem_imports_iff.2 ⟨_, hdocument, rfl⟩, ?_⟩
    rw [importOf, if_pos hfamily, List.mem_eraseDups]
    exact List.mem_map_of_mem (mem_patchesInto_iff.2 ⟨hpatch, rfl⟩)

/-- The names in a module are those of its definitions, those that patches need to import, and the
    identifiers that patches refer to. -/
theorem mem_writtenNames_iff {name : String} : name ∈ table.plan.writtenNames ↔
    name ∈ table.identifiers ∨ ∃ patch ∈ table.trail.externalPatches,
      table.importedName patch = name ∨ targetIdentifier patch = name := by
  rw [Linkage.writtenNames, List.mem_append, List.mem_append, mem_members_iff, or_assoc]
  refine or_congr Iff.rfl ?_
  rw [show table.plan.imports = table.imports from rfl, mem_flatMap_names_iff]
  constructor
  · rintro (⟨patch, hpatch, heq⟩ | ⟨patch, hpatch, -, heq⟩)
    · exact ⟨patch, hpatch, .inl heq⟩
    · exact ⟨patch, hpatch, .inr heq⟩
  · rintro ⟨patch, hpatch, heq | heq⟩
    · exact .inl ⟨patch, hpatch, heq⟩
    · by_cases hfamily : patch.target.document.sameFamily table.document
      · exact .inl ⟨patch, hpatch, by rw [importedName, if_pos hfamily, heq]⟩
      · exact .inr ⟨patch, hpatch, hfamily, heq⟩

end Table

/-! ## Names of definitions -/

/-- A key that passes the check leads with a letter. -/
theorem KeyNames.leadsWithLetter {key : String} (h : KeyNames key) :
    Identifier.leadsWithLetter key :=
  (Identifier.isLegal_camel_iff key).1 ⟨h.nonempty, Identifier.camel_isAlphanum key, h.lead⟩

namespace Grammar

variable {config : Config} {document : Document} {grammar : Grammar}

theorem keyNames_of_mem_keys (hkeys : grammar.keyCause? document = none) {key : String}
    (h : key ∈ (grammar.table config document).keys) : KeyNames key := by
  rw [keys_table] at h
  exact ((faultless_keyFault_iff.1 (keyCause?_eq_none_iff.1 hkeys)).1 key h).1

/-- The only definition whose name may be no identifier is that of top-level patterns. -/
theorem illegal_identifier_iff (hkeys : grammar.keyCause? document = none) {name : String} :
    name ∈ (grammar.table config document).identifiers ∧ ¬ Identifier.IsLegal name ↔
      (grammar.table config document).hasRoot ∧
        Identifier.leadsWithDigit document.language ∧ document.rootIdentifier = name := by
  constructor
  · rintro ⟨hname, hillegal⟩
    obtain ⟨definition, hmem, rfl⟩ := exists_target_of_mem_identifiers hname
    rw [Definition.target] at hillegal ⊢
    cases hkey : definition.key with
    | some key =>
      have hnames := keyNames_of_mem_keys hkeys (List.mem_filterMap.2 ⟨definition, hmem, hkey⟩)
      rw [hkey] at hillegal
      exact absurd ((Identifier.isLegal_camel_iff key).2 hnames.leadsWithLetter) hillegal
    | none =>
      rw [hkey] at hillegal
      have hdigit := not_not.1 (mt document.isLegal_rootIdentifier_iff.2 hillegal)
      exact ⟨List.any_eq_true.2 ⟨definition, hmem, by rw [hkey]; rfl⟩, hdigit, rfl⟩
  · rintro ⟨hroot, hdigit, rfl⟩
    have hdefined : (grammar.table config document).isDefined .root := hroot
    have hmem : Target.root.identifier document ∈ (grammar.table config document).identifiers :=
      mem_identifiers_of_isDefined hdefined
    refine ⟨hmem, fun hlegal => ?_⟩
    exact document.isLegal_rootIdentifier_iff.1 hlegal hdigit

/-- No definition has a reserved word for a name. -/
theorem not_isReserved_of_mem_identifiers (hkeys : grammar.keyCause? document = none)
    {name : String} (h : name ∈ (grammar.table config document).identifiers) :
    ¬ Identifier.isReserved name := by
  obtain ⟨definition, hmem, rfl⟩ := exists_target_of_mem_identifiers h
  rw [Definition.target]
  cases hkey : definition.key with
  | some key =>
    exact (keyNames_of_mem_keys hkeys (List.mem_filterMap.2 ⟨definition, hmem, hkey⟩)).unreserved
  | none => exact document.not_isReserved_rootIdentifier

end Grammar

/-! ## Names of other documents -/

namespace Workspace

variable {config : Config} {workspace : Workspace}

/-- A key that is referred to leads with a letter if its document has a table. -/
theorem leadsWithLetter_of_check {other : Table} (hother : other ∈ workspace.tables config)
    {key : String}
    (h : (workspace.exports config).check other.document (.key key) = .ok ()) :
    Identifier.leadsWithLetter key := by
  have hdefined := (check_exports_of_mem hother).1 h
  obtain ⟨source, -, grammar, -, hbuild⟩ := exists_source_of_mem_tables hother
  obtain ⟨-, hkeys, -, rfl⟩ := Table.ofGrammar_ok_iff.1 hbuild
  rw [Table.isDefined, List.contains_iff_mem] at hdefined
  exact (Grammar.keyNames_of_mem_keys hkeys hdefined).leadsWithLetter

end Workspace

namespace Table

variable {config : Config} {workspace : Workspace} {table : Table}

theorem alphanum_of_mem_writtenNames {document : Document} {grammar : Grammar} {name : String}
    (h : name ∈ (grammar.table config document).plan.writtenNames) :
    ∀ c ∈ name.toList, c.isAlphanum := by
  obtain h | ⟨patch, -, rfl | rfl⟩ := mem_writtenNames_iff.1 h
  · obtain ⟨definition, -, rfl⟩ := Grammar.exists_target_of_mem_identifiers h
    exact Target.identifier_isAlphanum _ _
  · rw [importedName]
    split
    · exact Target.identifier_isAlphanum _ _
    · exact Document.namespaceAlias_isAlphanum _
  · exact Target.identifier_isAlphanum _ _

/-- Of the names that a patch needs, the misnamed ones are no identifiers. -/
theorem misnamed_of_patch (hlinkable : table.Linkable (workspace.exports config))
    {patch : Patch External} (hpatch : patch ∈ table.trail.externalPatches) {name : String}
    (hname : table.importedName patch = name ∨ targetIdentifier patch = name)
    (hillegal : ¬ Identifier.IsLegal name) : table.Misnamed config workspace name := by
  by_cases halias : ¬ patch.target.document.sameFamily table.document ∧
      table.importedName patch = name
  · obtain ⟨hfamily, rfl⟩ := halias
    rw [importedName, if_neg hfamily, Document.isLegal_namespaceAlias_iff, not_not] at hillegal
    rw [importedName, if_neg hfamily]
    exact .otherAlias hpatch hfamily hillegal
  · have htarget : targetIdentifier patch = name := by
      obtain hname | hname := hname
      · have hfamily := not_not.1 fun hfamily => halias ⟨hfamily, hname⟩
        rwa [importedName, if_pos hfamily] at hname
      · exact hname
    subst htarget
    rw [targetIdentifier] at hillegal ⊢
    cases htarget : patch.target.target with
    | key key =>
      rw [htarget] at hillegal
      have hlead := mt (Identifier.isLegal_camel_iff key).2 hillegal
      refine .otherKey hpatch htarget (fun other hother hdocument => hlead ?_) hlead
      have hcheck := hlinkable.accepted patch hpatch
      rw [htarget, ← hdocument] at hcheck
      exact Workspace.leadsWithLetter_of_check hother hcheck
    | root =>
      rw [htarget] at hillegal
      have hdigit := not_not.1 (mt patch.target.document.isLegal_rootIdentifier_iff.2 hillegal)
      exact .otherRoot hpatch htarget hdigit

theorem illegal_of_misnamed {name : String} (h : table.Misnamed config workspace name) :
    ¬ Identifier.IsLegal name := by
  cases h with
  | root _ hdigit | otherRoot _ _ hdigit =>
    exact fun hlegal => (Document.isLegal_rootIdentifier_iff _).1 hlegal hdigit
  | otherKey _ _ _ hletter =>
    exact fun hlegal => hletter ((Identifier.isLegal_camel_iff _).1 hlegal)
  | otherAlias _ _ hdigit =>
    exact fun hlegal => (Document.isLegal_namespaceAlias_iff _).1 hlegal hdigit

end Table

namespace Workspace

/-- The artifacts are those of the linked tables. The names in the module of a linked table have
    letters and digits only, and what it binds is not reserved. A name is no identifier exactly if
    it is made from a language that leads with a digit, or from a key of a document without a table
    that does not lead with a letter. -/
theorem identifiers_legal_iff (config : Config) (now : Calendar.Time) (workspace : Workspace) :
    (workspace.compile config now).artifacts =
        (workspace.linked config).map (Artifact.ofLinkage config now) ∧
      ∀ linkage ∈ workspace.linked config, linkage.NamesAre config workspace := by
  refine ⟨artifacts_compile config now workspace, fun linkage hlinkage => ?_⟩
  obtain ⟨table, htable, hlink⟩ := mem_linked_iff.1 hlinkage
  obtain ⟨hcause, rfl⟩ := (Table.link_ok_iff _ _ _).1 hlink
  have hlinkable := Table.linkCause?_eq_none_iff.1 hcause
  obtain ⟨source, -, grammar, -, hbuild⟩ := exists_source_of_mem_tables htable
  obtain ⟨-, hkeys, -, rfl⟩ := Table.ofGrammar_ok_iff.1 hbuild
  refine ⟨fun name => Table.alphanum_of_mem_writtenNames, fun name hname => ?_, fun name => ?_⟩
  · obtain hname | hname := List.mem_append.1 hname
    · exact Grammar.not_isReserved_of_mem_identifiers hkeys hname
    · obtain ⟨patch, hpatch, hfamily, rfl⟩ := Table.mem_importedByName_iff.1 hname
      exact hlinkable.importable patch hpatch hfamily
  · constructor
    · rintro ⟨hname, hillegal⟩
      obtain hname | ⟨patch, hpatch, hname⟩ := Table.mem_writtenNames_iff.1 hname
      · obtain ⟨hroot, hdigit, rfl⟩ := (Grammar.illegal_identifier_iff hkeys).1 ⟨hname, hillegal⟩
        exact .root hroot hdigit
      · exact Table.misnamed_of_patch hlinkable hpatch hname hillegal
    · intro h
      refine ⟨Table.mem_writtenNames_iff.2 ?_, Table.illegal_of_misnamed h⟩
      cases h with
      | root hroot hdigit =>
        exact .inl ((Grammar.illegal_identifier_iff hkeys).2 ⟨hroot, hdigit, rfl⟩).1
      | otherRoot hpatch htarget _ =>
        exact .inr ⟨_, hpatch, .inr (by rw [Table.targetIdentifier, htarget]; rfl)⟩
      | otherKey hpatch htarget _ _ =>
        exact .inr ⟨_, hpatch, .inr (by rw [Table.targetIdentifier, htarget]; rfl)⟩
      | otherAlias hpatch hfamily _ =>
        exact .inr ⟨_, hpatch, .inl (if_neg hfamily)⟩

/-- The names that a document writes for its keys and those of others, and the one name that is no
    identifier. -/
theorem identifiers_legal_iff_digit :
    let workspace : Workspace :=
      [.ofGrammar "renpy.3d.tmLanguage.json"
        { scopeName := some "source.renpy.3d"
          repository := some
            [("in-list", { patterns := some [{ reference := some "source.renpy.b#x-y" },
              { reference := some "source.c#2-z" }] })]
          patterns := some [{ reference := some "#in-list" }] },
      .ofGrammar "b.tmLanguage.json"
        { scopeName := some "source.renpy.b"
          repository := some [("x-y", { single := some "x" })] }]
    let config : Config := { handwritten := [⟨"source.c"⟩] }
    ∃ linkage ∈ workspace.linked config,
      linkage.writtenNames = ["inList", "3DRoot", "xY", "CPatterns", "2Z"] ∧
        linkage.table.Misnamed config workspace "3DRoot" ∧
        linkage.table.Misnamed config workspace "2Z" ∧
        ¬ linkage.table.Misnamed config workspace "CPatterns" := by
  intro workspace config
  have hnames : ["inList", "3DRoot", "xY", "CPatterns", "2Z"] ∈
      (workspace.linked config).map Linkage.writtenNames := by
    decide +kernel
  obtain ⟨linkage, hlinkage, heq⟩ := List.mem_map.1 hnames
  have hnamesAre := (identifiers_legal_iff config ⟨1685631468⟩ workspace).2 linkage hlinkage
  refine ⟨linkage, hlinkage, heq, (hnamesAre.illegal_iff _).1 ⟨?_, by decide⟩,
    (hnamesAre.illegal_iff _).1 ⟨?_, by decide⟩, fun h => ?_⟩
  · simp [heq]
  · simp [heq]
  · exact ((hnamesAre.illegal_iff _).2 h).2 (by decide)

/-- The language of a document leads with a digit. The document is built and linked, and the name
    of the definition of its top-level patterns is no identifier. -/
theorem definition_not_legal :
    let workspace : Workspace :=
      [.ofGrammar "renpy.3d.tmLanguage.json"
        { scopeName := some "source.renpy.3d", repository := some []
          patterns := some [{ single := some "x" }] }]
    ∃ linkage ∈ workspace.linked {}, ∃ name ∈ linkage.table.identifiers,
      ¬ Identifier.IsLegal name := by
  decide +kernel

end Workspace

end PatternTable
