import PatternTable.Proofs.Workspace.Exports

/-!
# Isolation of documents

The outcome of a document depends on the document itself and on what is known of the documents that
it refers to, as long as no other document has its id or its file. It does not depend on which other
documents there are, in which order they come, or which of them are written by hand.

Results:
* `Workspace.outcome_isolated`: in two workspaces, a document has the same outcome.
-/

namespace PatternTable

/-! ## Hand-written modules -/

/-- The settings with other documents written by hand. -/
def Config.withHandwritten (config : Config) (documents : List Document) : Config :=
  { config with handwritten := documents }

/-- Which documents are written by hand does not matter to the table of a document. -/
theorem Table.ofGrammar_withHandwritten (config : Config) (documents : List Document)
    (document : Document) (grammar : Grammar) :
    ofGrammar (config.withHandwritten documents) document grammar =
      ofGrammar config document grammar := by
  have hbuild : buildAll (config.withHandwritten documents) document =
    buildAll config document := rfl
  have hdefinition : Origin.definition (config.withHandwritten documents) document =
    Origin.definition config document := rfl
  have hdefinitions : grammar.definitions (config.withHandwritten documents) document =
      grammar.definitions config document := by
    by_cases h : grammar.repository.isSome ∧ grammar.keyCause? document = none
    · rw [Grammar.definitions_eq h.1 h.2, Grammar.definitions_eq h.1 h.2, hbuild, hdefinition]
    · rw [Grammar.definitions, Grammar.definitions]
      cases hrepository : grammar.repository with
      | none => rfl
      | some repository =>
        simp only
        split
        · rfl
        · next hcause =>
          refine absurd ⟨by simp [hrepository], ?_⟩ h
          rw [Grammar.keyCause?, Grammar.ruleKeys, hrepository]
          exact hcause
  rw [ofGrammar, ofGrammar, hdefinitions]

/-- The table of a document whose id and file are its own. -/
def Source.table (config : Config) (source : Source) : Except Failure Table :=
  source.grammar.bind fun grammar => (Table.ofGrammar config source.document grammar).1

theorem Source.table_withHandwritten (config : Config) (documents : List Document)
    (source : Source) :
    source.table (config.withHandwritten documents) = source.table config := by
  simp only [table, Table.ofGrammar_withHandwritten]

/-! ## Exports -/

namespace Table

theorem externalCauseFrom?_congr {table : Table} {exports others : Exports}
    {patches : List (Patch External)} (h : ∀ patch ∈ patches,
      exports.check patch.target.document patch.target.target =
        others.check patch.target.document patch.target.target)
    (taken : List (String × Document)) : table.externalCauseFrom? exports taken patches =
      table.externalCauseFrom? others taken patches := by
  induction patches generalizing taken with
  | nil => rfl
  | cons patch patches ih =>
    rw [List.forall_mem_cons] at h
    have hcause : table.externalCause? exports taken patch =
        table.externalCause? others taken patch := by
      rw [externalCause?, externalCause?, h.1]
    rw [externalCauseFrom?, externalCauseFrom?, hcause]
    simp only [ih h.2]

/-- Linking a table depends only on what is known of the documents that the table refers to. -/
theorem link_congr {table : Table} {exports others : Exports}
    (h : ∀ document ∈ table.dependencies, ∀ target,
      exports.check document target = others.check document target) :
    table.link exports = table.link others := by
  have hcause : table.linkCause? exports = table.linkCause? others := by
    rw [linkCause?, linkCause?, externalCauseFrom?_congr fun patch hpatch => h _ ?_ _]
    rw [dependencies, List.mem_eraseDups]
    exact List.mem_map_of_mem (mem_groupedPatches_iff.1 hpatch)
  rw [link, link, hcause]

end Table

namespace Workspace

variable {config : Config} {workspace workspace' : Workspace}

/-- No other document of a workspace has the id or the file of the one at an index. -/
def Alone (config : Config) (workspace : Workspace) (index : Nat) : Prop :=
  ∀ source other : Source, ∀ position, workspace[index]? = some source →
    workspace[position]? = some other → position ≠ index →
      other.document ≠ source.document ∧
        config.fileName other.document ≠ config.fileName source.document

/-! ## Tables -/

/-- A document has its table if no document before it has its id or its file. -/
theorem buildFrom_getElem? {seen : List Document} {files : List (String × Document)} {index : Nat}
    {source : Source} (hget : workspace[index]? = some source)
    (hbefore : ∀ position other, position < index → workspace[position]? = some other →
      other.document ≠ source.document ∧
        config.fileName other.document ≠ config.fileName source.document)
    (hseen : source.document ∉ seen)
    (hfiles : config.fileName source.document ∉ files.map Prod.fst) :
    (buildFrom config seen files workspace).1[index]? =
      some ⟨source.name, source.document, source.table config⟩ := by
  induction workspace generalizing index seen files with
  | nil => simp at hget
  | cons first sources ih =>
    rw [buildFrom_cons]
    cases index with
    | zero =>
      obtain rfl : first = source := by simpa using hget
      have hlookup : files.lookup (config.fileName first.document) = none :=
        lookup_eq_none_iff_not_mem.2 hfiles
      rw [List.getElem?_cons_zero, Source.stage, Source.table]
      simp [duplicateCause?, hseen, hlookup]
    | succ index =>
      obtain ⟨hdocument, hfile⟩ := hbefore 0 first (Nat.zero_lt_succ index) rfl
      rw [List.getElem?_cons_succ] at hget ⊢
      refine ih hget (fun position other hlt hother => hbefore (position + 1) other
        (Nat.succ_lt_succ hlt) hother) (by simp [Ne.symm hdocument, hseen]) ?_
      rw [Source.filesAfter]
      split
      · rw [List.map_cons, List.mem_cons, not_or]
        exact ⟨Ne.symm hfile, hfiles⟩
      · exact hfiles

theorem Alone.build_getElem? {index : Nat} {source : Source} (h : workspace.Alone config index)
    (hget : workspace[index]? = some source) : (workspace.build config).1[index]? =
      some ⟨source.name, source.document, source.table config⟩ :=
  buildFrom_getElem? hget
    (fun position other hlt hother => h source other position hget hother (Nat.ne_of_lt hlt))
    List.not_mem_nil List.not_mem_nil

/-! ## Outcomes -/

/-- The outcome of a document whose id and file are its own. -/
def outcome (config : Config) (now : Calendar.Time) (exports : Exports) (source : Source) :
    Compiled :=
  Compiled.ofLinkage config now
    ⟨source.name, source.document, (source.table config).bind (Table.link exports)⟩

theorem Alone.compile_getElem? {index : Nat} {source : Source} (h : workspace.Alone config index)
    (hget : workspace[index]? = some source) (now : Calendar.Time) :
    (workspace.compile config now).documents[index]? =
      some (outcome config now (workspace.exports config) source) := by
  simp only [compile, linkAll, List.getElem?_map, h.build_getElem? hget, Option.map_some]
  rfl

theorem outcome_withHandwritten (config : Config) (documents : List Document) (now : Calendar.Time)
    (exports : Exports) (source : Source) :
    outcome (config.withHandwritten documents) now exports source =
      outcome config now exports source := by
  rw [outcome, outcome, Source.table_withHandwritten]
  rfl

/-- The outcome of a document depends only on what is known of the documents that it refers to. -/
theorem outcome_congr {now : Calendar.Time} {exports others : Exports} {source : Source}
    (h : ∀ table, source.table config = .ok table → ∀ document ∈ table.dependencies, ∀ target,
      exports.check document target = others.check document target) :
    outcome config now exports source = outcome config now others source := by
  have hlink : (source.table config).bind (Table.link exports) =
      (source.table config).bind (Table.link others) := by
    cases htable : source.table config with
    | error failure => rfl
    | ok table => exact Table.link_congr (h table htable)
  rw [outcome, outcome, hlink]

/-! ## Permutations -/

theorem alone_of_nodup (hdocuments : (workspace.map Source.document).Nodup)
    (hfiles : (workspace.map fun source => config.fileName source.document).Nodup) (index : Nat) :
    workspace.Alone config index := by
  have hne {α : Type} {f : Source → α} (hnodup : (workspace.map f).Nodup) {source other : Source}
      {position : Nat} (hsource : workspace[index]? = some source)
      (hother : workspace[position]? = some other) (hposition : position ≠ index) :
      f other ≠ f source := by
    have hlt : position < (workspace.map f).length := by
      rw [List.length_map]
      exact (List.getElem?_eq_some_iff.1 hother).1
    intro heq
    refine hposition ((List.getElem?_inj hlt hnodup).1 ?_)
    rw [List.getElem?_map, List.getElem?_map, hsource, hother, Option.map_some, Option.map_some,
      heq]
  exact fun source other position hsource hother hposition =>
    ⟨hne hdocuments hsource hother hposition, hne hfiles hsource hother hposition⟩

/-- If ids and files are different, every document has its table. -/
theorem tables_eq (hdocuments : (workspace.map Source.document).Nodup)
    (hfiles : (workspace.map fun source => config.fileName source.document).Nodup) :
    workspace.tables config =
      workspace.filterMap fun source => (source.table config).toOption := by
  have hbuild : (workspace.build config).1 = workspace.map fun source =>
      ⟨source.name, source.document, source.table config⟩ := by
    refine List.ext_getElem? fun index => ?_
    rw [List.getElem?_map]
    cases hget : workspace[index]? with
    | none =>
      rw [List.getElem?_eq_none_iff] at hget
      rw [Option.map_none, List.getElem?_eq_none_iff, build, buildFrom_length]
      exact hget
    | some source => exact (alone_of_nodup hdocuments hfiles index).build_getElem? hget
  rw [tables, hbuild, Staged.values, List.filterMap_map]
  rfl

/-- The order of documents does not matter to what is known of them. -/
theorem find?_exports_of_perm (hperm : workspace.Perm workspace')
    (hdocuments : (workspace.map Source.document).Nodup)
    (hfiles : (workspace.map fun source => config.fileName source.document).Nodup)
    (document : Document) : (workspace.exports config).find? document =
      (workspace'.exports config).find? document := by
  have htables : (workspace.tables config).Perm (workspace'.tables config) := by
    rw [tables_eq hdocuments hfiles,
      tables_eq ((hperm.map _).nodup_iff.1 hdocuments) ((hperm.map _).nodup_iff.1 hfiles)]
    exact hperm.filterMap _
  have hnodup := tables_nodup config workspace
  rw [exports, exports, find?_exportsOf, find?_exportsOf]
  refine congrArg (Option.or · _) (lookup_eq_of_perm ?_ ?_ document)
  · exact (List.reverse_perm _).trans ((htables.map _).trans (List.reverse_perm _).symm)
  · rw [List.map_reverse, List.nodup_reverse, List.map_map]
    exact hnodup

/-- A document has the same outcome in two workspaces if no other document has its id or file in
    either, and the same is known of what it refers to; the documents that are written by hand may
    differ. In particular, permuting documents with different ids and files changes no outcome. -/
theorem outcome_isolated (config : Config) (now : Calendar.Time) :
    (∀ (handwritten : List Document) (workspace workspace' : Workspace) (index index' : Nat)
        (source : Source), workspace[index]? = some source → workspace'[index']? = some source →
      workspace.Alone config index → workspace'.Alone config index' →
      (∀ table, source.table config = .ok table → ∀ document ∈ table.dependencies, ∀ target,
        (workspace.exports config).check document target =
          (workspace'.exports (config.withHandwritten handwritten)).check document target) →
      (workspace.compile config now).documents[index]? =
        (workspace'.compile (config.withHandwritten handwritten) now).documents[index']?) ∧
    ∀ (workspace workspace' : Workspace) (index index' : Nat) (source : Source),
      workspace.Perm workspace' → (workspace.map Source.document).Nodup →
      (workspace.map fun source => config.fileName source.document).Nodup →
      workspace[index]? = some source → workspace'[index']? = some source →
      (workspace.compile config now).documents[index]? =
        (workspace'.compile config now).documents[index']? := by
  constructor
  · intro handwritten workspace workspace' index index' source hget hget' halone halone' hchecks
    have halone' : workspace'.Alone (config.withHandwritten handwritten) index' := halone'
    rw [halone.compile_getElem? hget, halone'.compile_getElem? hget', outcome_withHandwritten,
      outcome_congr hchecks]
  · intro workspace workspace' index index' source hperm hdocuments hfiles hget hget'
    have halone := alone_of_nodup hdocuments hfiles index
    have halone' := alone_of_nodup ((hperm.map _).nodup_iff.1 hdocuments)
      ((hperm.map _).nodup_iff.1 hfiles) index'
    rw [halone.compile_getElem? hget, halone'.compile_getElem? hget', outcome_congr]
    intro table _ document _ target
    simp only [Exports.check, find?_exports_of_perm hperm hdocuments hfiles]

/-- A document has one outcome beside another version of the document that it refers to, with a
    third document and a hand-written one, and in another order. -/
theorem outcome_isolated_pair :
    let user : Source := .ofGrammar "a.tmLanguage.json"
      { scopeName := some "source.renpy.a"
        repository := some
          [("u", { patterns := some [{ reference := some "source.renpy.b#x" }] })] }
    let used : Source := .ofGrammar "b.tmLanguage.json"
      { scopeName := some "source.renpy.b", repository := some [("x", { patterns := some [] })] }
    let changed : Source := .ofGrammar "b.tmLanguage.json"
      { scopeName := some "source.renpy.b"
        repository := some [("x", { patterns := some [{ reference := some "#x" }] })] }
    let failed : Source := .ofGrammar "c.tmLanguage.json" { scopeName := some "source.renpy.c" }
    let config : Config := {}
    let other := config.withHandwritten [⟨"source.renpy.d"⟩]
    (compile config ⟨0⟩ [user, used]).documents[0]? =
        (compile other ⟨0⟩ [failed, changed, user]).documents[2]? ∧
      (compile config ⟨0⟩ [user, used]).documents[0]? =
        (compile config ⟨0⟩ [used, user]).documents[1]? := by
  intro user used changed failed config other
  have halone : Alone config [user, used] 0 :=
    alone_of_nodup (by decide +kernel) (by decide +kernel) 0
  have halone' : Alone config [failed, changed, user] 2 :=
    alone_of_nodup (by decide +kernel) (by decide +kernel) 2
  have hdependencies : (user.table config).toOption.map Table.dependencies =
      some [⟨"source.renpy.b"⟩] := by
    decide +kernel
  have hfind : (exports config [user, used]).find? ⟨"source.renpy.b"⟩ =
      some (.generated ["x"] false) := by
    decide +kernel
  have hfind' : (exports (config.withHandwritten [⟨"source.renpy.d"⟩])
      [failed, changed, user]).find? ⟨"source.renpy.b"⟩ = some (.generated ["x"] false) := by
    decide +kernel
  constructor
  · refine (outcome_isolated config ⟨0⟩).1 [⟨"source.renpy.d"⟩] _ _ 0 2 user rfl rfl halone
      halone' ?_
    intro table htable document hdocument target
    rw [htable] at hdependencies
    have hdocuments : table.dependencies = [⟨"source.renpy.b"⟩] := Option.some.inj hdependencies
    rw [hdocuments, List.mem_singleton] at hdocument
    subst hdocument
    simp only [Exports.check, hfind, hfind']
  · exact (outcome_isolated config ⟨0⟩).2 _ _ 0 1 user (.swap _ _ _) (by decide +kernel)
      (by decide +kernel) rfl rfl

end Workspace

end PatternTable
