import PatternTable.Proofs.Table.Patches
import PatternTable.Workspace

/-!
# The exports of a workspace

Every document that has a table exports it under its own id, and no two tables are generated to one
file, so that no two have one document. Hand-written modules come after the tables.

Results:
* `find?_exportsOf`: what is known of a document.
* `Workspace.tables_files_nodup`, `Workspace.tables_nodup`: no two tables of a workspace have one
  file, or one document.
* `Workspace.check_exports_of_mem`: a reference to a document with a table is accepted exactly if
  the table defines its target.
* `Workspace.mem_linked_iff`: which linked tables a workspace has.
* `Workspace.artifacts_compile`: a workspace has an artifact for every linked table.
-/

namespace PatternTable

/-! ## What is known of a document -/

namespace Exports

theorem addHandwritten_find? (exports : Exports) (document other : Document) :
    (exports.addHandwritten other).find? document =
      (exports.find? document).or (if document = other then some .handwritten else none) := by
  rw [addHandwritten, contains]
  cases hfind : exports.find? other with
  | some exported =>
    by_cases heq : document = other
    · simp [heq, hfind]
    · simp [heq]
  | none =>
    simp only [Option.isSome_none, Bool.false_eq_true, ↓reduceIte, find?, List.lookup_append]
    by_cases heq : document = other
    · simp [heq]
    · simp [heq, List.lookup_cons, beq_eq_false_iff_ne.2 heq]

theorem foldl_addHandwritten_find? (exports : Exports) (documents : List Document)
    (document : Document) : (documents.foldl addHandwritten exports).find? document =
      (exports.find? document).or (if document ∈ documents then some .handwritten else none) := by
  induction documents generalizing exports with
  | nil => simp
  | cons other documents ih =>
    rw [List.foldl_cons, ih, addHandwritten_find?, Option.or_assoc]
    congr 1
    by_cases heq : document = other <;> simp [heq]

end Exports

/-- What a table exports. -/
def Table.exported (table : Table) : Exported :=
  .generated table.keys table.hasRoot

theorem foldl_addTable_documents (exports : Exports) (tables : List Table) :
    (tables.foldl Exports.addTable exports).documents =
      (tables.map fun table => (table.document, table.exported)).reverse ++ exports.documents := by
  induction tables generalizing exports with
  | nil => rfl
  | cons table tables ih =>
    rw [List.foldl_cons, ih, List.map_cons, List.reverse_cons, List.append_assoc]
    rfl

theorem find?_exportsOf (config : Config) (tables : List (Staged Table)) (document : Document) :
    (exportsOf config tables).find? document =
      (((Staged.values tables).map fun table => (table.document, table.exported)).reverse.lookup
        document).or (if document ∈ config.handwritten then some .handwritten else none) := by
  rw [exportsOf, Exports.foldl_addHandwritten_find?, Exports.find?, foldl_addTable_documents]
  simp

/-- A document is known if it has a table or a hand-written module. -/
theorem find?_exportsOf_ne_none_iff {config : Config} {tables : List (Staged Table)}
    {document : Document} : (exportsOf config tables).find? document ≠ none ↔
      document ∈ config.handwritten ∨
        ∃ table ∈ Staged.values tables, table.document = document := by
  rw [find?_exportsOf, Ne, Option.or_eq_none_iff, lookup_eq_none_iff_not_mem, not_and_or, not_not,
    List.map_reverse, List.mem_reverse, List.map_map, List.mem_map, or_comm]
  refine or_congr ?_ Iff.rfl
  by_cases hmem : document ∈ config.handwritten <;> simp [hmem]

/-! ## Tables -/

theorem Staged.mem_values {α : Type} {documents : List (Staged α)} {value : α} :
    value ∈ values documents ↔ ∃ staged ∈ documents, staged.stage = .ok value := by
  rw [values, List.mem_filterMap]
  refine exists_congr fun staged => and_congr_right fun _ => ?_
  cases staged.stage <;> simp [Except.toOption]

theorem Table.document_of_ofGrammar {config : Config} {document : Document} {grammar : Grammar}
    {table : Table} (h : (ofGrammar config document grammar).1 = .ok table) :
    table.document = document := by
  obtain ⟨-, -, -, rfl⟩ := ofGrammar_ok_iff.1 h
  rfl

/-- The table of a document, or why it has none, when the documents in `seen` come before it and the
    files in `files` are taken. -/
def Source.stage (config : Config) (seen : List Document) (files : List (String × Document))
    (source : Source) : Except Failure Table :=
  source.grammar.bind fun grammar =>
    match Workspace.duplicateCause? config seen files source.document with
    | some cause => .error ⟨source.document, cause⟩
    | none => (Table.ofGrammar config source.document grammar).1

/-- The files that are taken after a document. -/
def Source.filesAfter (config : Config) (seen : List Document) (files : List (String × Document))
    (source : Source) : List (String × Document) :=
  if source.grammar.isOk &&
      (Workspace.duplicateCause? config seen files source.document).isNone then
    (config.fileName source.document, source.document) :: files
  else files

namespace Workspace

theorem buildFrom_cons (config : Config) (seen : List Document) (files : List (String × Document))
    (source : Source) (sources : Workspace) : (buildFrom config seen files (source :: sources)).1 =
      ⟨source.name, source.document, source.stage config seen files⟩ ::
        (buildFrom config (source.document :: seen) (source.filesAfter config seen files)
          sources).1 := by
  rw [buildFrom, Source.stage, Source.filesAfter]
  cases source.grammar with
  | error failure => rfl
  | ok grammar =>
    simp only [Except.bind]
    cases duplicateCause? config seen files source.document <;> rfl

/-- The tables that the documents of a workspace have. -/
def tables (config : Config) (workspace : Workspace) : List Table :=
  Staged.values (workspace.build config).1

/-- A document has a table if it can be read, is not a duplicate and can be built. -/
theorem stage_eq_ok_iff {config : Config} {seen : List Document}
    {files : List (String × Document)} {source : Source} {table : Table} :
    source.stage config seen files = .ok table ↔ ∃ grammar, source.grammar = .ok grammar ∧
      duplicateCause? config seen files source.document = none ∧
        (Table.ofGrammar config source.document grammar).1 = .ok table := by
  rw [Source.stage]
  cases source.grammar with
  | error failure => simp [Except.bind]
  | ok grammar =>
    simp only [Except.bind, Except.ok.injEq, exists_eq_left']
    cases duplicateCause? config seen files source.document <;> simp

/-- A document that has a table takes a file that no document before it takes. -/
theorem file_of_table {config : Config} {seen : List Document}
    {files : List (String × Document)} {source : Source} {table : Table}
    (h : source.stage config seen files = .ok table) :
    table.document = source.document ∧ config.fileName source.document ∉ files.map Prod.fst ∧
      source.filesAfter config seen files =
        (config.fileName source.document, source.document) :: files := by
  obtain ⟨grammar, hgrammar, hduplicate, hbuild⟩ := stage_eq_ok_iff.1 h
  refine ⟨Table.document_of_ofGrammar hbuild, ?_, ?_⟩
  · rw [duplicateCause?] at hduplicate
    split at hduplicate
    · simp at hduplicate
    · rwa [Option.map_eq_none_iff, lookup_eq_none_iff_not_mem] at hduplicate
  · rw [Source.filesAfter, hgrammar, hduplicate]
    rfl

theorem subset_filesAfter (config : Config) (seen : List Document)
    (files : List (String × Document)) (source : Source) :
    files ⊆ source.filesAfter config seen files := by
  rw [Source.filesAfter]
  split
  · exact List.subset_cons_self _ _
  · exact List.Subset.refl _

/-- A document whose file is taken has no table, and two tables are generated to different files. -/
theorem buildFrom_files_nodup (config : Config) (seen : List Document)
    (files : List (String × Document)) (workspace : Workspace) :
    ((Staged.values (buildFrom config seen files workspace).1).map
        fun table => config.fileName table.document).Nodup ∧
      ∀ table ∈ Staged.values (buildFrom config seen files workspace).1,
        config.fileName table.document ∉ files.map Prod.fst := by
  induction workspace generalizing seen files with
  | nil => exact ⟨List.nodup_nil, by simp [buildFrom, Staged.values]⟩
  | cons source sources ih =>
    obtain ⟨hnodup, hfresh⟩ := ih (source.document :: seen) (source.filesAfter config seen files)
    have hlater : ∀ table ∈ Staged.values (buildFrom config (source.document :: seen)
        (source.filesAfter config seen files) sources).1,
          config.fileName table.document ∉ files.map Prod.fst :=
      fun table hmem htaken => hfresh table hmem
        (List.map_subset _ (subset_filesAfter config seen files source) htaken)
    rw [buildFrom_cons]
    cases hstage : source.stage config seen files with
    | error failure => exact ⟨hnodup, hlater⟩
    | ok table =>
      obtain ⟨hdocument, hfile, hafter⟩ := file_of_table hstage
      refine ⟨List.nodup_cons.2 ⟨fun hmem => ?_, hnodup⟩, List.forall_mem_cons.2 ⟨?_, hlater⟩⟩
      · obtain ⟨other, hother, heq⟩ := List.mem_map.1 hmem
        have hsame : config.fileName other.document = config.fileName source.document :=
          hdocument ▸ heq
        refine hfresh other hother ?_
        rw [hsame, hafter]
        exact List.mem_cons_self
      · rwa [hdocument]

/-- No two tables are generated to one file. -/
theorem tables_files_nodup (config : Config) (workspace : Workspace) :
    ((workspace.tables config).map fun table => config.fileName table.document).Nodup :=
  (buildFrom_files_nodup config [] [] workspace).1

theorem tables_nodup (config : Config) (workspace : Workspace) :
    ((workspace.tables config).map Table.document).Nodup := by
  refine List.Nodup.of_map config.fileName ?_
  rw [List.map_map]
  exact tables_files_nodup config workspace

/-- A table is made from the grammar of a document. -/
theorem exists_source_of_mem_tables {config : Config} {workspace : Workspace} {table : Table}
    (h : table ∈ workspace.tables config) : ∃ source ∈ workspace, ∃ grammar,
      source.grammar = .ok grammar ∧
        (Table.ofGrammar config source.document grammar).1 = .ok table := by
  rw [tables, build] at h
  generalize ([] : List Document) = seen, ([] : List (String × Document)) = files at h
  induction workspace generalizing seen files with
  | nil => simp [buildFrom, Staged.values] at h
  | cons source sources ih =>
    obtain ⟨staged, hmem, hstage⟩ := Staged.mem_values.1 h
    rw [buildFrom_cons, List.mem_cons] at hmem
    obtain rfl | hmem := hmem
    · obtain ⟨grammar, hgrammar, -, hbuild⟩ := stage_eq_ok_iff.1 hstage
      exact ⟨source, List.mem_cons_self, grammar, hgrammar, hbuild⟩
    · obtain ⟨other, hother, hrest⟩ := ih _ _ (Staged.mem_values.2 ⟨staged, hmem, hstage⟩)
      exact ⟨other, List.mem_cons_of_mem _ hother, hrest⟩

/-! ## Linked tables -/

/-- What the tables of a workspace are linked against. -/
def exports (config : Config) (workspace : Workspace) : Exports :=
  exportsOf config (workspace.build config).1

/-- The linked tables that the documents of a workspace have. -/
def linked (config : Config) (workspace : Workspace) : List Linkage :=
  Staged.values (linkAll config (workspace.build config).1)

theorem mem_linked_iff {config : Config} {workspace : Workspace} {linkage : Linkage} :
    linkage ∈ workspace.linked config ↔ ∃ table ∈ workspace.tables config,
      table.link (workspace.exports config) = .ok linkage := by
  simp only [linked, tables, Staged.mem_values, linkAll, List.mem_map, exists_exists_and_eq_and]
  constructor
  · rintro ⟨staged, hmem, hstage⟩
    cases htable : staged.stage with
    | error failure => simp [htable, Except.bind] at hstage
    | ok table =>
      rw [htable] at hstage
      exact ⟨table, ⟨staged, hmem, htable⟩, hstage⟩
  · rintro ⟨table, ⟨staged, hmem, htable⟩, hlink⟩
    refine ⟨staged, hmem, ?_⟩
    rw [htable]
    exact hlink

/-- What is known of a document with a table is what the table exports. -/
theorem find?_exports_of_mem {config : Config} {workspace : Workspace} {table : Table}
    (h : table ∈ workspace.tables config) :
    (workspace.exports config).find? table.document = some table.exported := by
  have hkeys : ((((workspace.tables config).map fun table =>
      (table.document, table.exported)).reverse).map Prod.fst).Nodup := by
    rw [List.map_reverse, List.nodup_reverse, List.map_map]
    exact tables_nodup config workspace
  rw [exports, find?_exportsOf, ← tables, lookup_eq_some_of_mem hkeys, Option.some_or]
  rw [List.mem_reverse]
  exact List.mem_map_of_mem h

theorem check_exports_of_mem {config : Config} {workspace : Workspace} {table : Table}
    (h : table ∈ workspace.tables config) {target : Target} :
    (workspace.exports config).check table.document target = .ok () ↔ table.isDefined target := by
  rw [Exports.check_ok_iff, find?_exports_of_mem h, Table.exported]
  cases target <;> simp [Table.isDefined]

/-- The artifacts of a workspace are those of its linked tables. -/
theorem artifacts_compile (config : Config) (now : Calendar.Time) (workspace : Workspace) :
    (workspace.compile config now).artifacts =
      (workspace.linked config).map (Artifact.ofLinkage config now) := by
  rw [Compilation.artifacts, compile, linked, Staged.values, List.filterMap_map,
    List.map_filterMap]
  refine List.filterMap_congr fun staged _ => ?_
  simp only [Function.comp_apply, Compiled.ofLinkage]
  cases staged.stage <;> rfl

/-- An artifact is made from a grammar of its document. -/
theorem exists_grammar_of_mem_artifacts {config : Config} {now : Calendar.Time}
    {workspace : Workspace} {artifact : Artifact}
    (h : artifact ∈ (workspace.compile config now).artifacts) :
    ∃ source ∈ workspace, source.document = artifact.document ∧ ∃ grammar,
      source.grammar = .ok grammar ∧
        artifact = .ofLinkage config now (grammar.table config artifact.document).plan := by
  rw [artifacts_compile, List.mem_map] at h
  obtain ⟨linkage, hlinkage, rfl⟩ := h
  obtain ⟨table, htable, hlink⟩ := mem_linked_iff.1 hlinkage
  obtain ⟨-, rfl⟩ := (Table.link_ok_iff _ _ _).1 hlink
  obtain ⟨source, hsource, grammar, hgrammar, hbuild⟩ := exists_source_of_mem_tables htable
  obtain ⟨-, -, -, rfl⟩ := Table.ofGrammar_ok_iff.1 hbuild
  exact ⟨source, hsource, rfl, grammar, hgrammar, rfl⟩

/-- A document that is alone has an artifact if its grammar can be built and its table linked. -/
theorem mem_artifacts_singleton {config : Config} (now : Calendar.Time) {source : Source}
    {grammar : Grammar} {table : Table} (hgrammar : source.grammar = .ok grammar)
    (hbuild : (Table.ofGrammar config source.document grammar).1 = .ok table)
    (hlink : table.linkCause? (exports config [source]) = none) :
    .ofLinkage config now table.plan ∈ (compile config now [source]).artifacts := by
  have hstage : source.stage config [] [] = .ok table :=
    stage_eq_ok_iff.2 ⟨grammar, hgrammar, rfl, hbuild⟩
  have hmem : table ∈ tables config [source] := by
    refine Staged.mem_values.2 ⟨⟨source.name, source.document, .ok table⟩, ?_, rfl⟩
    rw [build, buildFrom_cons, hstage]
    exact List.mem_cons_self
  have hlinked : table.plan ∈ linked config [source] :=
    mem_linked_iff.2 ⟨table, hmem, (Table.link_ok_iff _ _ _).2 ⟨hlink, rfl⟩⟩
  rw [artifacts_compile]
  exact List.mem_map_of_mem hlinked

end Workspace

end PatternTable
