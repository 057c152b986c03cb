import PatternTable.Proofs.Module.Patching

/-!
# Replaying the patches of a module

A linked module is loaded with some includes missing. The statements of its plan bring them back one
after the other, first those within the document, then those into other documents, and in the end
every array is as in the source.

Results:
* `Table.run_of_link`: what the statements of a linked table do to its module.
-/

namespace PatternTable

namespace Table

/-- The entries that the statements of a table are for. -/
def patchSites (table : Table) : List (AccessPath × Nat) :=
  table.trail.internalPatches.map Patch.site ++ table.groupedPatches.map Patch.site

/-- The module of a table after its definitions: every array holds its native elements. -/
def loaded (table : Table) : Value :=
  .object (table.definitions.map fun definition => (definition.identifier,
    Value.ofNode table.nativeIndices ⟨definition.identifier, []⟩ definition.value))

end Table

/-! ## Includes -/

theorem Context.inlined?_eq_some {context : Context} {spelling expression : String}
    (h : context.inlined? spelling = some expression) :
    expression = includeExpression context.document spelling := by
  rw [inlined?] at h
  split at h
  · next target hparse =>
    split at h
    · rw [Option.some.injEq] at h
      rw [includeExpression, hparse, ← h]
      rfl
    · simp at h
  · simp at h

namespace Grammar

variable {config : Config} {document : Document} {grammar : Grammar}

theorem includes_of_internalPatch {patch : Patch Target}
    (h : patch ∈ (grammar.table config document).trail.internalPatches) :
    grammar.Includes document patch.site (patch.target.identifier document) := by
  obtain ⟨origin, entry, hstop, hpatch⟩ := mem_internalPatches_iff.1 h
  obtain ⟨horigin, hvisit⟩ := mem_stops_iff.1 hstop
  obtain ⟨entries, harray, hget⟩ := Rule.entry_mem_visits_iff.1 hvisit
  obtain ⟨-, -, hreference, hparse, -⟩ := Context.internalPatch?_eq_some_iff.1 hpatch
  have hparse : Reference.parse? document patch.spelling = some (.internal patch.target) := hparse
  refine ⟨origin, horigin, entries, entry, patch.spelling, harray, hget, hreference, ?_⟩
  rw [includeExpression, hparse]
  rfl

theorem includes_of_externalPatch {patch : Patch External}
    (h : patch ∈ (grammar.table config document).trail.externalPatches) :
    grammar.Includes document patch.site
      ((grammar.table config document).externalReference patch) := by
  obtain ⟨origin, entry, hstop, hpatch⟩ := mem_externalPatches_iff.1 h
  obtain ⟨horigin, hvisit⟩ := mem_stops_iff.1 hstop
  obtain ⟨entries, harray, hget⟩ := Rule.entry_mem_visits_iff.1 hvisit
  obtain ⟨-, -, hreference, hparse⟩ := Context.externalPatch?_eq_some_iff.1 hpatch
  have hparse : Reference.parse? document patch.spelling =
    some (.external patch.target.document patch.target.target) := hparse
  refine ⟨origin, horigin, entries, entry, patch.spelling, harray, hget, hreference, ?_⟩
  rw [includeExpression, hparse]
  rfl

theorem patchSites_nodup (h : grammar.keyCause? document = none) :
    (grammar.table config document).patchSites.Nodup := by
  refine List.nodup_append.2
    ⟨internalSites_nodup h, Table.groupedSites_nodup (externalSites_nodup h), ?_⟩
  rintro site hinternal other hexternal rfl
  obtain ⟨patch, hpatch, rfl⟩ := List.mem_map.1 hinternal
  obtain ⟨other, hother, hsite⟩ := List.mem_map.1 hexternal
  exact internalSite_ne_externalSite h hpatch (Table.mem_groupedPatches_iff.1 hother) hsite.symm

/-- A stop at an include leaves a patch exactly if the include does not stand at once. -/
theorem mem_patchSites_iff (h : grammar.keyCause? document = none) {origin : Origin}
    (hsucceeds : origin.Succeeds config document) {array : AccessPath} {index : Nat} {entry : Rule}
    {spelling : String} (hstop : (origin, .entry array index entry) ∈ grammar.stops document)
    (hreference : entry.reference = some spelling) :
    (array, index) ∈ (grammar.table config document).patchSites ↔
      (origin.context config document).inlined? spelling = none := by
  have hcause := hsucceeds _ (mem_stops_iff.1 hstop).2
  rw [Context.inlined?_eq_none_iff hcause hreference, ← exists_internalPatch_iff h hstop,
    ← exists_externalPatch_iff h hstop, Table.patchSites, List.mem_append, List.mem_map,
    List.mem_map]
  simp only [Table.mem_groupedPatches_iff]

theorem inlined?_eq_without (h : grammar.keyCause? document = none) {origin : Origin}
    (horigin : origin ∈ grammar.origins document) (hsucceeds : origin.Succeeds config document)
    {array : AccessPath} {entries : List Rule}
    (harray : origin.rule.HasArray origin.path array entries) {index : Nat} {entry : Rule}
    {spelling : String} (hget : entries[index]? = some entry)
    (hreference : entry.reference = some spelling) :
    (origin.context config document).inlined? spelling =
      Standing.without document (grammar.table config document).patchSites array index
        spelling := by
  have hstop : (origin, .entry array index entry) ∈ grammar.stops document :=
    mem_stops_iff.2 ⟨horigin, Rule.entry_mem_visits_iff.2 ⟨entries, harray, hget⟩⟩
  have hiff := mem_patchSites_iff h hsucceeds hstop hreference
  by_cases hmem : (array, index) ∈ (grammar.table config document).patchSites
  · rw [Standing.without_of_mem hmem, hiff.1 hmem]
  · obtain ⟨expression, hinlined⟩ := Option.ne_none_iff_exists'.1 (mt hiff.2 hmem)
    rw [Standing.without_of_not_mem hmem, hinlined, Context.inlined?_eq_some hinlined]
    rfl

/-! ## The module before its statements -/

/-- The native indices of an array are those of its cells that are filled at once. -/
theorem nativeIndices_eq (h : grammar.keyCause? document = none) {origin : Origin}
    (horigin : origin ∈ grammar.origins document) {array : AccessPath} {entries : List Rule}
    (harray : origin.rule.HasArray origin.path array entries) :
    (grammar.table config document).nativeIndices array =
      Cells.filled (Rule.cells (origin.context config document) array entries) := by
  rw [Table.nativeIndices, lookup_arrays h horigin harray, Option.getD_some, Rule.cells,
    Context.filled_cells, Context.map_fst_pair]

theorem loads (h : grammar.keyCause? document = none)
    (hsucceeds : ∀ origin ∈ grammar.origins document, origin.Succeeds config document)
    {origin : Origin} (horigin : origin ∈ grammar.origins document) :
    origin.rule.Loads (origin.context config document)
      (Standing.without document (grammar.table config document).patchSites)
      (grammar.table config document).nativeIndices origin.path :=
  fun _ _ harray => ⟨nativeIndices_eq h horigin harray, fun _ _ _ hget hreference =>
    inlined?_eq_without h horigin (hsucceeds origin horigin) harray hget hreference⟩

theorem loaded_table (h : grammar.keyCause? document = none)
    (hsucceeds : ∀ origin ∈ grammar.origins document, origin.Succeeds config document) :
    (grammar.table config document).loaded = grammar.moduleWith config document
      (Standing.without document (grammar.table config document).patchSites) := by
  rw [Table.loaded, moduleWith, table, List.map_map]
  refine congrArg Value.object (List.map_congr_left fun origin horigin => ?_)
  exact congrArg (Prod.mk origin.identifier)
    (Value.ofNode_node (loads h hsucceeds horigin))

/-- The statements are planned from arrays that hold what stands after the definitions. -/
theorem follows_ofTable (h : grammar.keyCause? document = none)
    (hsucceeds : ∀ origin ∈ grammar.origins document, origin.Succeeds config document) :
    grammar.Follows config document
      (Standing.without document (grammar.table config document).patchSites)
      (Arrays.ofTable (grammar.table config document)) := by
  intro origin horigin array entries harray
  rw [Arrays.lookup_ofTable, lookup_arrays h horigin harray, Option.map_some,
    Cells.foldr_insertIndex_filled]
  refine congrArg some (Cells.filledFrom_congr ?_ 0)
  rw [Rule.map_isSome_cellsWith]
  refine List.ext_getElem? fun index => ?_
  simp only [List.getElem?_map, List.getElem?_zipIdx, Option.map_map, Nat.zero_add]
  refine Option.map_congr fun entry hget => ?_
  simp only [Function.comp_apply, Context.stands]
  obtain hreference | ⟨spelling, hreference⟩ := entry.reference.eq_none_or_eq_some
  · simp [hreference]
  · simp only [hreference, Option.all_some,
      inlined?_eq_without h horigin (hsucceeds origin horigin) harray hget hreference]
    cases Standing.without document (grammar.table config document).patchSites array index
      spelling <;> rfl

/-! ## The module after its statements -/

/-- The module of a grammar with one element for each entry of each array, in source order. -/
def inSourceOrder (config : Config) (document : Document) (grammar : Grammar) : Value :=
  .object ((grammar.origins document).map fun origin =>
    let context := origin.context config document
    (origin.identifier, origin.rule.value context context.sourceArray origin.path))

theorem moduleWith_nil : grammar.moduleWith config document (Standing.without document []) =
    grammar.inSourceOrder config document := by
  refine congrArg Value.object (List.map_congr_left fun origin _ => ?_)
  exact congrArg (fun value => (origin.identifier, value origin.path))
    (Rule.valueWith_eq_value (origin.context config document) origin.rule)

end Grammar

namespace Table

/-- The references that the statements of a table add, each with the array that its patch is for. -/
def replayed (table : Table) : List (AccessPath × String) :=
  table.trail.internalPatches.map (fun patch =>
    (patch.array, patch.target.identifier table.document)) ++
  table.groupedPatches.map fun patch => (patch.array, table.externalReference patch)

/-- The statements are those of two runs: the second starts with the arrays after the first. -/
theorem statements_plan (table : Table) :
    let patches := table.trail.internalPatches.map fun patch =>
      (patch, patch.target.identifier table.document)
    table.plan.statements =
      PatchStatement.merge ((Arrays.ofTable table).run patches).1 ++
        (table.externalGroups ((Arrays.ofTable table).run patches).2
          table.dependencies).flatMap PatchGroup.statements := rfl

/-- The statements of a linked table can all be executed. Every target evaluates to the array that
    its patches are for, and in the end every array is in source order. -/
theorem run_of_link {config : Config} {document : Document} {grammar : Grammar} {exports : Exports}
    {table : Table} {linkage : Linkage} (hbuild : (ofGrammar config document grammar).1 = .ok table)
    (hlink : table.link exports = .ok linkage) :
    PatchStatement.run linkage.statements table.loaded =
      some (table.replayed, grammar.inSourceOrder config document) := by
  obtain ⟨-, hkeys, hsucceeds, rfl⟩ := ofGrammar_ok_iff.1 hbuild
  obtain ⟨-, rfl⟩ := (link_ok_iff _ _ _).1 hlink
  have hloaded := Grammar.loaded_table hkeys hsucceeds
  have hfollows := Grammar.follows_ofTable hkeys hsucceeds
  have hnodup : (grammar.table config document).patchSites.Nodup := Grammar.patchSites_nodup hkeys
  have hsites : (grammar.table config document).patchSites =
      ((grammar.table config document).trail.internalPatches.map fun patch =>
        (patch, patch.target.identifier document)).map (fun patch => patch.1.site) ++
      (grammar.table config document).groupedPatches.map Patch.site := by
    rw [List.map_map]
    rfl
  rw [hsites] at hloaded hfollows hnodup
  have hinternal : ∀ patch ∈ (grammar.table config document).trail.internalPatches.map
      fun patch => (patch, patch.target.identifier document),
      grammar.Includes document patch.1.site patch.2 := by
    intro patch hpatch
    obtain ⟨patch, hmem, rfl⟩ := List.mem_map.1 hpatch
    exact Grammar.includes_of_internalPatch hmem
  obtain ⟨hrun, hafter⟩ := Grammar.run_statements hkeys hinternal hnodup hfollows
  have hexternal := Grammar.run_externalGroups hkeys
    (fun patch hpatch => Grammar.includes_of_externalPatch (mem_groupedPatches_iff.1 hpatch))
    (List.nodup_append.1 hnodup).2.1 hafter
  have hdocument : (grammar.table config document).document = document := rfl
  rw [hloaded, statements_plan, hdocument, PatchStatement.run_append, PatchStatement.run_merge,
    hrun, Option.bind_some]
  simp only [groupedPatches] at hexternal ⊢
  rw [hexternal, Option.map_some, Grammar.moduleWith_nil, List.map_map]
  rfl

/-- An include of a later rule inside a group, includes from two other documents and one of the
    top-level patterns come back. -/
theorem run_of_link_list :
    let grammar : Grammar :=
      { repository := some [
          ("list", {
            single := some "(a)"
            captures := some [("1", { patterns := some [{ reference := some "#item" }, {}] })]
            patterns := some [{ reference := some "source.other#x" },
              { patterns := some [{ reference := some "#item" }, { reference := some "#list" }] },
              { reference := some "#list" }] }),
          ("item", { patterns := some [{ reference := some "$self" },
            { reference := some "#list" }, { reference := some "source.list.more#y" }] })]
        patterns := some [{ reference := some "#list" }] }
    let exports : Exports :=
      ⟨[(⟨"source.other"⟩, .handwritten), (⟨"source.list.more"⟩, .generated ["y"] false)]⟩
    let table := grammar.table {} ⟨"source.list"⟩
    (ofGrammar {} ⟨"source.list"⟩ grammar).1 = .ok table ∧ table.link exports = .ok table.plan ∧
      PatchStatement.run table.plan.statements table.loaded =
        some (table.replayed, grammar.inSourceOrder {} ⟨"source.list"⟩) := by
  intro grammar exports table
  have hbuild : (ofGrammar {} ⟨"source.list"⟩ grammar).1 = .ok table :=
    ofGrammar_ok_iff.2 ⟨rfl, by decide +kernel, by decide +kernel, rfl⟩
  have hlink : table.link exports = .ok table.plan :=
    (link_ok_iff _ _ _).2 ⟨by decide +kernel, rfl⟩
  exact ⟨hbuild, hlink, run_of_link hbuild hlink⟩

end Table

end PatternTable
