import PatternTable.Proofs.Module.Locals
import PatternTable.Proofs.Module.Replay
import PatternTable.Proofs.Reference

/-!
# What becomes of the includes of a grammar

While a table is built, an include is met in an array: it is one of its entries, or it stands where
a rule is expected and is the only entry of an array of its own. It becomes an element of the array,
a patch within the document or a patch into another document, and the three are kept apart: elements
in the tree, native indices and patches in the trail, dependencies in the patches.

* `Include`: an include, and where it is met.
* `FilesIncludes`: every include is filed once, in its place.

Results:
* `Table.filesIncludes_of_ofGrammar`: whatever the grammar, its table files its includes.
-/

namespace PatternTable

/-! ## Specification -/

/-- An include that is met at an entry of an array. -/
structure Include where
  /-- The number of the definition that the array is in. -/
  number : Nat
  array : AccessPath
  index : Nat
  spelling : String
  deriving DecidableEq, Repr

namespace Include

/-- The entry that an include is. -/
def site (met : Include) : AccessPath × Nat :=
  (met.array, met.index)

/-- An include names a document that is not its own. -/
def IsForeign (document : Document) (met : Include) : Prop :=
  Reference.NamesDocument met.spelling ∧ Reference.documentNamed met.spelling ≠ document

/-- An include refers to a definition that is complete before the one that it is met in. -/
def IsComplete (table : Table) (met : Include) : Prop :=
  ∃ definition ∈ table.definitions.take met.number,
    Reference.parse? table.document met.spelling = some (.internal definition.target)

end Include

namespace Grammar

/-- In the rule that a definition of a table is built from, there is an array with some entries. -/
def MakesArray (grammar : Grammar) (table : Table) (number : Nat) (array : AccessPath)
    (entries : List Rule) : Prop :=
  ∃ definition rule, table.definitions[number]? = some definition ∧
    grammar.rule? definition.target = some rule ∧
    rule.HasArray ⟨definition.identifier, []⟩ array entries

/-- An include is met while a table is built. -/
def MeetsInclude (grammar : Grammar) (table : Table) (met : Include) : Prop :=
  ∃ entries entry, grammar.MakesArray table met.number met.array entries ∧
    entries[met.index]? = some entry ∧ entry.reference = some met.spelling

end Grammar

namespace Table

/-- The entries that are deferred to a patch. -/
def deferredSites (table : Table) : List (AccessPath × Nat) :=
  table.trail.internalPatches.map Patch.site ++ table.trail.externalPatches.map Patch.site

/-- What is at the expression of an array when the definitions have been made. -/
def follow? (table : Table) (array : AccessPath) : Option Value :=
  table.loaded.follow
    (.member array.root :: array.accesses (Arrays.ofTable table).position)

/-- The element for an entry of an array in the definition with some number: the object of a rule of
    its own, or the identifier of an earlier definition that the entry includes. -/
inductive Enters (table : Table) (number : Nat) (entries : List Rule) (index : Nat) :
    Value → Prop where
  | own {entry : Rule} {members : List (String × Value)} (hget : entries[index]? = some entry)
    (h : entry.reference = none) : Enters table number entries index (.object members)
  | inlined {entry : Rule} {spelling : String} {definition : Definition}
    (hget : entries[index]? = some entry) (h : entry.reference = some spelling)
    (hmem : definition ∈ table.definitions.take number)
    (hparse : Reference.parse? table.document spelling = some (.internal definition.target)) :
    Enters table number entries index (.expression definition.identifier)

end Table

/-- Every include that is met while a table is built is filed once, in its place. -/
structure FilesIncludes (grammar : Grammar) (table : Table) : Prop where
  /-- No two includes are at one entry. -/
  unique : ∀ met other : Include, grammar.MeetsInclude table met →
    grammar.MeetsInclude table other → met.site = other.site → met = other
  /-- There is a patch into another document for an include exactly if it names one. -/
  external_iff : ∀ met : Include, grammar.MeetsInclude table met →
    (met.IsForeign table.document ↔
      ∃ patch ∈ table.trail.externalPatches, patch.site = met.site)
  /-- There is a patch within the document for any other include that refers to no complete
      definition. -/
  internal_iff : ∀ met : Include, grammar.MeetsInclude table met →
    (¬ met.IsForeign table.document ∧ ¬ met.IsComplete table ↔
      ∃ patch ∈ table.trail.internalPatches, patch.site = met.site)
  /-- There is an element for any other include. -/
  inlined_iff : ∀ met : Include, grammar.MeetsInclude table met →
    (¬ met.IsForeign table.document ∧ met.IsComplete table ↔
      ∃ native, table.trail.arrays.lookup met.array = some native ∧ met.index ∈ native)
  /-- A patch into another document is for an include, and has its spelling and what it refers
      to. -/
  external : ∀ patch ∈ table.trail.externalPatches, ∃ met : Include,
    grammar.MeetsInclude table met ∧ met.site = patch.site ∧ met.spelling = patch.spelling ∧
      Reference.parse? table.document met.spelling =
        some (.external patch.target.document patch.target.target)
  /-- So is a patch within the document. -/
  internal : ∀ patch ∈ table.trail.internalPatches, ∃ met : Include,
    grammar.MeetsInclude table met ∧ met.site = patch.site ∧ met.spelling = patch.spelling ∧
      Reference.parse? table.document met.spelling = some (.internal patch.target)
  /-- No two patches are for one entry. -/
  sites_nodup : table.deferredSites.Nodup
  /-- What is recorded of an array are the indices that are not deferred, and the array has the
      elements for them, in that order. -/
  arrays : ∀ number array entries, grammar.MakesArray table number array entries →
    ∃ native elements, table.trail.arrays.lookup array = some native ∧
      native = (List.range entries.length).filter (fun index =>
        (array, index) ∉ table.deferredSites) ∧
      table.follow? array = some (.array array elements) ∧
      List.Forall₂ (table.Enters number entries) native elements
  /-- The dependencies are the documents of patches, in the order of first appearance. -/
  dependencies : InFirstOrder (table.trail.externalPatches.map fun patch => patch.target.document)
    table.dependencies
  /-- The groups of the linked table are those of the dependencies, and make the references of their
      patches. -/
  groups : ∀ exports linkage, table.link exports = .ok linkage →
    linkage.externalBlock.map (fun group => (group.document, group.references)) =
      table.dependencies.map fun document =>
        (document, (table.trail.externalPatches.filter fun patch =>
          patch.target.document == document).map table.externalReference)

/-! ## Includes and stops -/

namespace Grammar

variable {config : Config} {document : Document} {grammar : Grammar}

theorem makesArray_iff (h : grammar.keyCause? document = none) {number : Nat} {array : AccessPath}
    {entries : List Rule} :
    grammar.MakesArray (grammar.table config document) number array entries ↔
      ∃ origin, (grammar.origins document)[number]? = some origin ∧
        origin.rule.HasArray origin.path array entries := by
  rw [MakesArray, getElem?_definitions]
  constructor
  · rintro ⟨definition, rule, hget, hrule, harray⟩
    obtain ⟨origin, horigin, rfl⟩ := Option.map_eq_some_iff.1 hget
    rw [rule?_of_origin h (List.mem_of_getElem? horigin), Option.some.injEq] at hrule
    subst hrule
    exact ⟨origin, horigin, harray⟩
  · rintro ⟨origin, horigin, harray⟩
    exact ⟨origin.definition config document, origin.rule, by rw [horigin]; rfl,
      rule?_of_origin h (List.mem_of_getElem? horigin), harray⟩

/-- An include is met exactly at a stop at an entry. -/
theorem meetsInclude_iff (h : grammar.keyCause? document = none) {met : Include} :
    grammar.MeetsInclude (grammar.table config document) met ↔
      ∃ origin entry, (grammar.origins document)[met.number]? = some origin ∧
        (origin, .entry met.array met.index entry) ∈ grammar.stops document ∧
        entry.reference = some met.spelling := by
  constructor
  · rintro ⟨entries, entry, hmakes, hget, hreference⟩
    obtain ⟨origin, horigin, harray⟩ := (makesArray_iff h).1 hmakes
    exact ⟨origin, entry, horigin, mem_stops_iff.2 ⟨List.mem_of_getElem? horigin,
      Rule.entry_mem_visits_iff.2 ⟨entries, harray, hget⟩⟩, hreference⟩
  · rintro ⟨origin, entry, horigin, hstop, hreference⟩
    obtain ⟨entries, harray, hget⟩ := Rule.entry_mem_visits_iff.1 (mem_stops_iff.1 hstop).2
    exact ⟨entries, entry, (makesArray_iff h).2 ⟨origin, horigin, harray⟩, hget, hreference⟩

/-- A stop at an include meets it. -/
theorem exists_meetsInclude (h : grammar.keyCause? document = none) {origin : Origin}
    {array : AccessPath} {index : Nat} {entry : Rule} {spelling : String}
    (hstop : (origin, .entry array index entry) ∈ grammar.stops document)
    (hreference : entry.reference = some spelling) : ∃ number,
      grammar.MeetsInclude (grammar.table config document) ⟨number, array, index, spelling⟩ := by
  obtain ⟨number, horigin⟩ := List.mem_iff_getElem?.1 (mem_stops_iff.1 hstop).1
  exact ⟨number, (meetsInclude_iff h).2 ⟨origin, entry, horigin, hstop, hreference⟩⟩

/-- No two includes are met at one entry. -/
theorem eq_of_site_eq (h : grammar.keyCause? document = none) {met other : Include}
    (hmet : grammar.MeetsInclude (grammar.table config document) met)
    (hother : grammar.MeetsInclude (grammar.table config document) other)
    (hsite : met.site = other.site) : met = other := by
  obtain ⟨number, array, index, spelling⟩ := met
  obtain ⟨number', array', index', spelling'⟩ := other
  obtain ⟨rfl, rfl⟩ := Prod.mk.inj hsite
  obtain ⟨origin, entry, horigin, hstop, hreference⟩ := (meetsInclude_iff h).1 hmet
  obtain ⟨origin', entry', horigin', hstop', hreference'⟩ := (meetsInclude_iff h).1 hother
  obtain ⟨rfl, rfl⟩ := by simpa using stop_eq_of_site_eq h hstop hstop' rfl rfl
  have hnumber : number = number' := by
    have hnodup : (grammar.origins document).Nodup := (origins_identifiers_nodup h).of_map
    have hlt := (List.getElem?_eq_some_iff.1 horigin).1
    exact (List.getElem?_inj hlt hnodup).1 (horigin.trans horigin'.symm)
  have hspelling : spelling = spelling' := by simpa [hreference] using hreference'
  rw [hnumber, hspelling]

/-! ## Patches -/

/-- The include of a patch into another document. -/
theorem exists_met_of_external (h : grammar.keyCause? document = none) {patch : Patch External}
    (hpatch : patch ∈ (grammar.table config document).trail.externalPatches) : ∃ met : Include,
      grammar.MeetsInclude (grammar.table config document) met ∧ met.site = patch.site ∧
        met.spelling = patch.spelling ∧ Reference.parse? document met.spelling =
          some (.external patch.target.document patch.target.target) := by
  obtain ⟨origin, entry, hstop, hentry⟩ := mem_externalPatches_iff.1 hpatch
  obtain ⟨-, -, hreference, hparse⟩ := Context.externalPatch?_eq_some_iff.1 hentry
  obtain ⟨number, hmet⟩ := exists_meetsInclude h hstop hreference
  exact ⟨_, hmet, rfl, rfl, hparse⟩

/-- The include of a patch within the document. -/
theorem exists_met_of_internal (h : grammar.keyCause? document = none) {patch : Patch Target}
    (hpatch : patch ∈ (grammar.table config document).trail.internalPatches) : ∃ met : Include,
      grammar.MeetsInclude (grammar.table config document) met ∧ met.site = patch.site ∧
        met.spelling = patch.spelling ∧
        Reference.parse? document met.spelling = some (.internal patch.target) := by
  obtain ⟨origin, entry, hstop, hentry⟩ := mem_internalPatches_iff.1 hpatch
  obtain ⟨-, -, hreference, hparse, -⟩ := Context.internalPatch?_eq_some_iff.1 hentry
  obtain ⟨number, hmet⟩ := exists_meetsInclude h hstop hreference
  exact ⟨_, hmet, rfl, rfl, hparse⟩

/-- Every include of a grammar that builds is well formed. -/
theorem exists_reference (h : grammar.keyCause? document = none)
    (hsucceeds : ∀ origin ∈ grammar.origins document, origin.Succeeds config document)
    {met : Include} (hmet : grammar.MeetsInclude (grammar.table config document) met) :
    ∃ reference, Reference.parse? document met.spelling = some reference := by
  obtain ⟨origin, entry, horigin, hstop, hreference⟩ := (meetsInclude_iff h).1 hmet
  have hcause := hsucceeds origin (List.mem_of_getElem? horigin) _ (mem_stops_iff.1 hstop).2
  have hdocument : (origin.context config document).document = document := rfl
  obtain hparse | hparse := (Reference.parse? document met.spelling).eq_none_or_eq_some
  · simp [Context.cause?, hreference, hdocument, hparse] at hcause
  · exact hparse

theorem isForeign_iff (h : grammar.keyCause? document = none)
    (hsucceeds : ∀ origin ∈ grammar.origins document, origin.Succeeds config document)
    {met : Include} (hmet : grammar.MeetsInclude (grammar.table config document) met) :
    met.IsForeign document ↔
      ∃ patch ∈ (grammar.table config document).trail.externalPatches, patch.site = met.site := by
  obtain ⟨origin, entry, -, hstop, hreference⟩ := (meetsInclude_iff h).1 hmet
  rw [Include.site, exists_externalPatch_iff h hstop]
  constructor
  · rintro ⟨hnames, hforeign⟩
    obtain ⟨reference, hparse⟩ := exists_reference h hsucceeds hmet
    cases reference with
    | internal target => exact absurd (Reference.parse?_internal hparse hnames) hforeign
    | external other target =>
      exact ⟨⟨met.array, met.index, ⟨other, target⟩, met.spelling⟩,
        Context.externalPatch?_eq_some_iff.2 ⟨rfl, rfl, hreference, hparse⟩⟩
  · rintro ⟨patch, hpatch⟩
    obtain ⟨-, -, hspelling, hparse⟩ := Context.externalPatch?_eq_some_iff.1 hpatch
    rw [hreference, Option.some.injEq] at hspelling
    rw [← hspelling] at hparse
    obtain ⟨hnames, hdocument, hne⟩ := Reference.parse?_external hparse
    exact ⟨hnames, hdocument ▸ hne⟩

/-- An include of the document is of a complete definition exactly if its target counts as defined
    where it is met. -/
theorem isComplete_iff {met : Include} {origin : Origin}
    (horigin : (grammar.origins document)[met.number]? = some origin) {target : Target}
    (hparse : Reference.parse? document met.spelling = some (.internal target)) :
    met.IsComplete (grammar.table config document) ↔
      (origin.context config document).isDefined target = true := by
  rw [isDefined_iff_mem_take horigin, Include.IsComplete]
  refine exists_congr fun definition => and_congr_right fun _ => ?_
  have hdocument : (grammar.table config document).document = document := rfl
  rw [hdocument, hparse, Option.some.injEq, Reference.internal.injEq, eq_comm]

theorem isDeferred_iff (h : grammar.keyCause? document = none)
    (hsucceeds : ∀ origin ∈ grammar.origins document, origin.Succeeds config document)
    {met : Include} (hmet : grammar.MeetsInclude (grammar.table config document) met) :
    ¬ met.IsForeign document ∧ ¬ met.IsComplete (grammar.table config document) ↔
      ∃ patch ∈ (grammar.table config document).trail.internalPatches, patch.site = met.site := by
  obtain ⟨origin, entry, horigin, hstop, hreference⟩ := (meetsInclude_iff h).1 hmet
  rw [Include.site, exists_internalPatch_iff h hstop]
  constructor
  · rintro ⟨hforeign, hcomplete⟩
    obtain ⟨reference, hparse⟩ := exists_reference h hsucceeds hmet
    cases reference with
    | internal target =>
      have hdefined : (origin.context config document).isDefined target = false := by
        rw [isComplete_iff horigin hparse] at hcomplete
        simpa using hcomplete
      exact ⟨⟨met.array, met.index, target, met.spelling⟩,
        Context.internalPatch?_eq_some_iff.2 ⟨rfl, rfl, hreference, hparse, hdefined⟩⟩
    | external other target =>
      obtain ⟨hnames, hdocument, hne⟩ := Reference.parse?_external hparse
      exact absurd ⟨hnames, hdocument ▸ hne⟩ hforeign
  · rintro ⟨patch, hpatch⟩
    obtain ⟨-, -, hspelling, hparse, hdefined⟩ := Context.internalPatch?_eq_some_iff.1 hpatch
    rw [hreference, Option.some.injEq] at hspelling
    rw [← hspelling] at hparse
    have hparse : Reference.parse? document met.spelling = some (.internal patch.target) := hparse
    refine ⟨fun hforeign => hforeign.2 (Reference.parse?_internal hparse hforeign.1), ?_⟩
    rw [isComplete_iff horigin hparse, hdefined]
    exact Bool.false_ne_true

/-! ## Arrays -/

theorem mem_deferredSites_iff {table : Table} {site : AccessPath × Nat} :
    site ∈ table.deferredSites ↔ (∃ patch ∈ table.trail.internalPatches, patch.site = site) ∨
      ∃ patch ∈ table.trail.externalPatches, patch.site = site := by
  rw [Table.deferredSites, List.mem_append, List.mem_map, List.mem_map]

theorem mem_deferredSites_iff_patchSites {table : Table} {site : AccessPath × Nat} :
    site ∈ table.deferredSites ↔ site ∈ table.patchSites := by
  rw [mem_deferredSites_iff, Table.patchSites, List.mem_append, List.mem_map, List.mem_map]
  simp only [Table.mem_groupedPatches_iff]

/-- An include that is met has no patch exactly if it is of a complete definition of its own
    document. -/
theorem not_mem_deferredSites_iff (h : grammar.keyCause? document = none)
    (hsucceeds : ∀ origin ∈ grammar.origins document, origin.Succeeds config document)
    {met : Include} (hmet : grammar.MeetsInclude (grammar.table config document) met) :
    met.site ∉ (grammar.table config document).deferredSites ↔
      ¬ met.IsForeign document ∧ met.IsComplete (grammar.table config document) := by
  rw [mem_deferredSites_iff, ← isForeign_iff h hsucceeds hmet, ← isDeferred_iff h hsucceeds hmet]
  tauto

/-- A rule of its own has no patch. -/
theorem own_not_mem_deferredSites (h : grammar.keyCause? document = none) {origin : Origin}
    {array : AccessPath} {index : Nat} {entry : Rule}
    (hstop : (origin, .entry array index entry) ∈ grammar.stops document)
    (hreference : entry.reference = none) :
    (array, index) ∉ (grammar.table config document).deferredSites := by
  rw [mem_deferredSites_iff, exists_internalPatch_iff h hstop, exists_externalPatch_iff h hstop]
  simp [Context.internalPatch?, Context.externalPatch?, hreference]

/-- An entry of an array stands in it at once exactly if it has no patch. -/
theorem stands_iff (h : grammar.keyCause? document = none)
    (hsucceeds : ∀ origin ∈ grammar.origins document, origin.Succeeds config document)
    {origin : Origin} {array : AccessPath} {index : Nat} {entry : Rule}
    (hstop : (origin, .entry array index entry) ∈ grammar.stops document) :
    (origin.context config document).stands entry ↔
      (array, index) ∉ (grammar.table config document).deferredSites := by
  obtain hreference | ⟨spelling, hreference⟩ := entry.reference.eq_none_or_eq_some
  · simp [Context.stands, hreference, own_not_mem_deferredSites h hstop hreference]
  · have horigin := (mem_stops_iff.1 hstop).1
    rw [mem_deferredSites_iff_patchSites,
      mem_patchSites_iff h (hsucceeds origin horigin) hstop hreference, Context.stands, hreference]
    exact Option.isSome_iff_ne_none

/-- What is recorded of an array are its indices without a patch. -/
theorem lookup_arrays_eq_filter (h : grammar.keyCause? document = none)
    (hsucceeds : ∀ origin ∈ grammar.origins document, origin.Succeeds config document)
    {origin : Origin} (horigin : origin ∈ grammar.origins document) {array : AccessPath}
    {entries : List Rule} (harray : origin.rule.HasArray origin.path array entries) :
    (grammar.table config document).trail.arrays.lookup array =
      some ((List.range entries.length).filter fun index =>
        (array, index) ∉ (grammar.table config document).deferredSites) := by
  rw [lookup_arrays h horigin harray, Option.some.injEq, eq_comm]
  refine Cells.eq_filled (List.pairwise_lt_range.filter _) fun index => ?_
  rw [List.mem_filter, List.mem_range, decide_eq_true_eq, List.getElem?_map]
  obtain hget | ⟨entry, hget⟩ := (entries[index]?).eq_none_or_eq_some
  · simp [Nat.not_lt.2 (List.getElem?_eq_none_iff.1 hget)]
  · have hstop : (origin, .entry array index entry) ∈ grammar.stops document :=
      mem_stops_iff.2 ⟨horigin, Rule.entry_mem_visits_iff.2 ⟨entries, harray, hget⟩⟩
    have hlt := (List.getElem?_eq_some_iff.1 hget).1
    rw [← stands_iff h hsucceeds hstop, hget, Option.map_some]
    cases (origin.context config document).stands entry <;> simp [hlt]

/-- What stands in the cell of an entry without a patch is the element for the entry. -/
theorem enters_of_cell (h : grammar.keyCause? document = none)
    (hsucceeds : ∀ origin ∈ grammar.origins document, origin.Succeeds config document)
    {number : Nat} {origin : Origin} (horigin : (grammar.origins document)[number]? = some origin)
    {array : AccessPath} {entries : List Rule}
    (harray : origin.rule.HasArray origin.path array entries) {index : Nat} {value : Value}
    (hcell : (Rule.cellsWith (origin.context config document)
      (Standing.without document (grammar.table config document).patchSites) array
        entries)[index]? = some (some value)) :
    (grammar.table config document).Enters number entries index value := by
  rw [Rule.getElem?_cellsWith, Option.map_eq_some_iff] at hcell
  obtain ⟨entry, hget, hcell⟩ := hcell
  obtain hreference | ⟨spelling, hreference⟩ := entry.reference.eq_none_or_eq_some
  · have hrule : entry.isReference = false := by rw [Rule.isReference, hreference]; rfl
    simp only [Standing.cell, hreference, Option.some.injEq] at hcell
    rw [Rule.valueWith_of_not_isReference hrule] at hcell
    rw [← hcell]
    exact .own hget hreference
  · have hfresh : (array, index) ∉ (grammar.table config document).patchSites := by
      intro hmem
      simp [Standing.cell, hreference, Standing.without_of_mem hmem] at hcell
    have hmet : grammar.MeetsInclude (grammar.table config document)
        ⟨number, array, index, spelling⟩ :=
      ⟨entries, entry, (makesArray_iff h).2 ⟨origin, horigin, harray⟩, hget, hreference⟩
    obtain ⟨-, definition, hmem, hparse⟩ :=
      (not_mem_deferredSites_iff h hsucceeds hmet).1 (mt mem_deferredSites_iff_patchSites.1 hfresh)
    have hexpression : includeExpression document spelling = definition.identifier := by
      have hparse : Reference.parse? document spelling = some (.internal definition.target) :=
        hparse
      rw [includeExpression, hparse, identifier_of_mem_definitions (List.mem_of_mem_take hmem)]
      rfl
    simp only [Standing.cell, hreference, Standing.without_of_not_mem hfresh, Option.map_some,
      Option.some.injEq, hexpression] at hcell
    rw [← hcell]
    exact .inlined hget hreference hmem hparse

/-- An array has the elements for the indices that are recorded of it. -/
theorem exists_elements (h : grammar.keyCause? document = none)
    (hsucceeds : ∀ origin ∈ grammar.origins document, origin.Succeeds config document)
    {number : Nat} {array : AccessPath} {entries : List Rule}
    (hmakes : grammar.MakesArray (grammar.table config document) number array entries) :
    ∃ native elements, (grammar.table config document).trail.arrays.lookup array = some native ∧
      native = (List.range entries.length).filter (fun index =>
        (array, index) ∉ (grammar.table config document).deferredSites) ∧
      (grammar.table config document).follow? array = some (.array array elements) ∧
      List.Forall₂ ((grammar.table config document).Enters number entries) native elements := by
  obtain ⟨origin, hget, harray⟩ := (makesArray_iff h).1 hmakes
  have horigin := List.mem_of_getElem? hget
  have hfollows := follows_ofTable h hsucceeds
  obtain ⟨put, hfocus, -⟩ := focus_of_hasArray h hfollows horigin harray
  have hrecorded : (grammar.table config document).trail.arrays.lookup array = some _ :=
    lookup_arrays h horigin harray
  have hfilter := lookup_arrays_eq_filter h hsucceeds horigin harray
  -- The statements are planned from the recorded indices, which are those of the filled cells.
  have hfilled := hfollows origin horigin array entries harray
  rw [Arrays.lookup_ofTable, hrecorded, Option.map_some, Cells.foldr_insertIndex_filled,
    ← hrecorded] at hfilled
  refine ⟨_, _, hfilled, ?_, ?_, Cells.forall₂_filled fun index value hcell => ?_⟩
  · exact Option.some.inj (hfilled.symm.trans hfilter)
  · rw [Table.follow?, loaded_table h hsucceeds]
    exact hfocus.follow
  · exact enters_of_cell h hsucceeds hget harray hcell

end Grammar

/-! ## Tables -/

namespace Table

/-- Whatever the grammar that a table is built from, the table files its includes. -/
theorem filesIncludes_of_ofGrammar {config : Config} {document : Document} {grammar : Grammar}
    {table : Table} (hbuild : (ofGrammar config document grammar).1 = .ok table) :
    FilesIncludes grammar table := by
  obtain ⟨-, hkeys, hsucceeds, rfl⟩ := ofGrammar_ok_iff.1 hbuild
  have hforeign {met : Include}
      (hmet : grammar.MeetsInclude (grammar.table config document) met) :=
    Grammar.isForeign_iff hkeys hsucceeds hmet
  have hdeferred {met : Include}
      (hmet : grammar.MeetsInclude (grammar.table config document) met) :=
    Grammar.isDeferred_iff hkeys hsucceeds hmet
  constructor
  · exact fun met other hmet hother => Grammar.eq_of_site_eq hkeys hmet hother
  · exact fun met => hforeign
  · exact fun met => hdeferred
  · intro met hmet
    refine (Grammar.not_mem_deferredSites_iff hkeys hsucceeds hmet).symm.trans ?_
    obtain ⟨entries, entry, ⟨hmakes, hget, -⟩⟩ := hmet
    obtain ⟨native, elements, hlookup, hnative, -⟩ := Grammar.exists_elements hkeys hsucceeds hmakes
    have hlt := (List.getElem?_eq_some_iff.1 hget).1
    rw [hlookup, hnative]
    simp [Include.site, hlt]
  · exact fun patch => Grammar.exists_met_of_external hkeys
  · exact fun patch => Grammar.exists_met_of_internal hkeys
  · refine List.nodup_append.2
      ⟨Grammar.internalSites_nodup hkeys, Grammar.externalSites_nodup hkeys, ?_⟩
    rintro site hinternal other hexternal rfl
    obtain ⟨patch, hpatch, rfl⟩ := List.mem_map.1 hinternal
    obtain ⟨other, hother, hsite⟩ := List.mem_map.1 hexternal
    exact Grammar.internalSite_ne_externalSite hkeys hpatch hother hsite.symm
  · exact fun number array entries => Grammar.exists_elements hkeys hsucceeds
  · exact inFirstOrder_eraseDups _
  · intro exports linkage hlink
    obtain ⟨-, rfl⟩ := (link_ok_iff _ _ _).1 hlink
    exact references_externalGroups _ _ _

/-- Includes in an array, in a group and instead of a rule: of an earlier rule, of the rule that
    they are in, of the top-level patterns and of other documents. -/
theorem filesIncludes_of_ofGrammar_kinds :
    let grammar : Grammar :=
      { repository := some [("item", { single := some "x" }),
          ("list", {
            single := some "(a)"
            captures := some [("1", { reference := some "#item" })]
            patterns := some [{ reference := some "source.other#x" }, { reference := some "#item" },
              { reference := some "#list" }, { single := some "y" }, { reference := some "$self" },
              { reference := some "source.more" }] }),
          ("same", { reference := some "source.list#item" })]
        patterns := some [{ reference := some "#list" }, { reference := some "source.other#y" }] }
    let table := grammar.table {} ⟨"source.list"⟩
    (ofGrammar {} ⟨"source.list"⟩ grammar).1 = .ok table ∧
      table.trail.arrays.map (fun entry => (entry.1.text, entry.2)) =
        [("list.captures![1].patterns!", [0]), ("list.patterns!", [1, 3]), ("same.patterns!", [0]),
          ("listRoot.patterns!", [0])] ∧
      table.trail.internalPatches.map (fun patch => (patch.array.text, patch.index)) =
        [("list.patterns!", 2), ("list.patterns!", 4)] ∧
      table.trail.externalPatches.map (fun patch => (patch.array.text, patch.index)) =
        [("list.patterns!", 0), ("list.patterns!", 5), ("listRoot.patterns!", 1)] ∧
      table.dependencies = [⟨"source.other"⟩, ⟨"source.more"⟩] ∧ FilesIncludes grammar table := by
  intro grammar table
  have hbuild : (ofGrammar {} ⟨"source.list"⟩ grammar).1 = .ok table :=
    ofGrammar_ok_iff.2 ⟨rfl, by decide +kernel, by decide +kernel, rfl⟩
  exact ⟨hbuild, by decide +kernel, by decide +kernel, by decide +kernel, by decide +kernel,
    filesIncludes_of_ofGrammar hbuild⟩

end Table

end PatternTable
