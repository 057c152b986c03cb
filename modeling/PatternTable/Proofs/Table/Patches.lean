import PatternTable.Link.Linkage
import PatternTable.Proofs.Lists
import PatternTable.Proofs.Rule.Arrays
import PatternTable.Proofs.Table.Origins

/-!
# The patches and arrays of a table

Every patch of a table stands for an include of an array, and no two patches stand for the same. The
native indices of an array are those of the entries that stand in it at once.

Results:
* `Grammar.internalPatches_table`, `Grammar.externalPatches_table`: which patches a table has.
* `Grammar.sites_nodup`: no stop at a rule, an array or an entry is made twice.
* `Grammar.lookup_arrays`: the native indices of an array.
* `Grammar.internalSites_nodup`, `Grammar.externalSites_nodup`,
  `Grammar.internalSite_ne_externalSite`: no two patches are for the same entry of an array.
* `Grammar.exists_internalPatch_iff`, `Grammar.exists_externalPatch_iff`: which entries have one.
-/

namespace PatternTable

/-- The entry of an array that a patch is for. -/
def Patch.site {α : Type} (patch : Patch α) : AccessPath × Nat :=
  (patch.array, patch.index)

/-! ## The trail of a stop -/

namespace Context

variable {context : Context}

/-- The patch within the document that a stop leaves. -/
def internalPatchAt? (context : Context) : Visit → Option (Patch Target)
  | .entry array index entry => context.internalPatch? array index entry
  | _ => none

/-- The patch into another document that a stop leaves. -/
def externalPatchAt? (context : Context) : Visit → Option (Patch External)
  | .entry array index entry => context.externalPatch? array index entry
  | _ => none

/-- The array that a stop leaves, with its native indices. -/
def arrayAt? (context : Context) : Visit → Option (AccessPath × List Nat)
  | .filled array entries =>
    some (array, Cells.filled (entries.map fun entry =>
      if context.stands entry then some () else none))
  | _ => none

theorem ownTrail_parts (context : Context) (rule : Rule) (path : AccessPath) :
    (context.ownTrail rule path).internalPatches = [] ∧
      (context.ownTrail rule path).externalPatches = [] ∧
      (context.ownTrail rule path).arrays = [] := by
  have htoken (scope? : Option String) :
      ((scope?.map (context.tokenTrail path)).getD {}).internalPatches = [] ∧
      ((scope?.map (context.tokenTrail path)).getD {}).externalPatches = [] ∧
      ((scope?.map (context.tokenTrail path)).getD {}).arrays = [] := by
    cases scope? <;> exact ⟨rfl, rfl, rfl⟩
  have hpattern (pattern? : Option String) :
      ((pattern?.map context.patternTrail).getD {}).internalPatches = [] ∧
      ((pattern?.map context.patternTrail).getD {}).externalPatches = [] ∧
      ((pattern?.map context.patternTrail).getD {}).arrays = [] := by
    cases pattern? <;> exact ⟨rfl, rfl, rfl⟩
  simp only [ownTrail, Trail.internalPatches_append, Trail.externalPatches_append,
    Trail.arrays_append, htoken, hpattern, List.nil_append]
  split <;> exact ⟨rfl, rfl, rfl⟩

theorem trail_parts (context : Context) (visit : Visit) :
    (context.trail visit).internalPatches = (context.internalPatchAt? visit).toList ∧
      (context.trail visit).externalPatches = (context.externalPatchAt? visit).toList ∧
      (context.trail visit).arrays = (context.arrayAt? visit).toList := by
  cases visit with
  | rule path rule =>
    rw [trail]
    split
    · exact ⟨rfl, rfl, rfl⟩
    · exact context.ownTrail_parts rule path
  | groups path keys => exact ⟨rfl, rfl, rfl⟩
  | entry array index entry => exact ⟨rfl, rfl, rfl⟩
  | filled array entries => exact ⟨rfl, rfl, rfl⟩

theorem internalPatch?_eq_some_iff {array : AccessPath} {index : Nat} {entry : Rule}
    {patch : Patch Target} : context.internalPatch? array index entry = some patch ↔
      patch.array = array ∧ patch.index = index ∧ entry.reference = some patch.spelling ∧
        Reference.parse? context.document patch.spelling = some (.internal patch.target) ∧
        context.isDefined patch.target = false := by
  rcases patch with ⟨patchArray, patchIndex, patchTarget, patchSpelling⟩
  cases hreference : entry.reference with
  | none => simp [internalPatch?, hreference]
  | some spelling =>
    simp only [internalPatch?, hreference, Option.some.injEq]
    constructor
    · intro h
      split at h
      · next target hparse =>
        split at h
        · simp at h
        · next hdefined =>
          obtain ⟨rfl, rfl, rfl, rfl⟩ := by simpa using h
          exact ⟨rfl, rfl, rfl, hparse, by simpa using hdefined⟩
      · simp at h
    · rintro ⟨rfl, rfl, rfl, hparse, hdefined⟩
      simp only [hparse, hdefined]
      rfl

theorem externalPatch?_eq_some_iff {array : AccessPath} {index : Nat} {entry : Rule}
    {patch : Patch External} : context.externalPatch? array index entry = some patch ↔
      patch.array = array ∧ patch.index = index ∧ entry.reference = some patch.spelling ∧
        Reference.parse? context.document patch.spelling =
          some (.external patch.target.document patch.target.target) := by
  rcases patch with ⟨patchArray, patchIndex, ⟨patchDocument, patchTarget⟩, patchSpelling⟩
  cases hreference : entry.reference with
  | none => simp [externalPatch?, hreference]
  | some spelling =>
    simp only [externalPatch?, hreference, Option.some.injEq]
    constructor
    · intro h
      split at h
      · next hparse =>
        obtain ⟨rfl, rfl, ⟨rfl, rfl⟩, rfl⟩ := by simpa using h
        exact ⟨rfl, rfl, rfl, hparse⟩
      · simp at h
    · rintro ⟨rfl, rfl, rfl, hparse⟩
      simp only [hparse]

/-- An include that can be resolved is left to a patch exactly if it does not stand at once. -/
theorem inlined?_eq_none_iff {array : AccessPath} {index : Nat} {entry : Rule} {spelling : String}
    (hcause : context.cause? (.entry array index entry) = none)
    (hreference : entry.reference = some spelling) : context.inlined? spelling = none ↔
      (∃ patch, context.internalPatch? array index entry = some patch) ∨
        ∃ patch, context.externalPatch? array index entry = some patch := by
  obtain hparse | ⟨reference, hparse⟩ :=
    (Reference.parse? context.document spelling).eq_none_or_eq_some
  · simp [cause?, hreference, hparse] at hcause
  · cases reference with
    | internal target => simp [inlined?, internalPatch?, externalPatch?, hreference, hparse]
    | external document target =>
      simp [inlined?, internalPatch?, externalPatch?, hreference, hparse]

end Context

/-! ## The trail of a table -/

namespace Grammar

variable {config : Config} {document : Document} {grammar : Grammar}

/-- The stops on the way through the definitions of a grammar. -/
def stops (document : Document) (grammar : Grammar) : List (Origin × Visit) :=
  (grammar.origins document).flatMap fun origin => origin.visits.map fun visit => (origin, visit)

theorem mem_stops_iff {origin : Origin} {visit : Visit} :
    (origin, visit) ∈ grammar.stops document ↔
      origin ∈ grammar.origins document ∧ visit ∈ origin.visits := by
  simp [stops]

theorem trail_table : (grammar.table config document).trail =
    Trail.concat ((grammar.stops document).map fun stop =>
      (stop.1.context config document).trail stop.2) := by
  simp only [table, stops]
  induction grammar.origins document with
  | nil => rfl
  | cons origin origins ih =>
    rw [List.map_cons, Trail.concat_cons, ih, List.flatMap_cons, List.map_append,
      Trail.concat_append, List.map_map]
    rfl

theorem internalPatches_table : (grammar.table config document).trail.internalPatches =
    (grammar.stops document).filterMap fun stop =>
      (stop.1.context config document).internalPatchAt? stop.2 := by
  rw [trail_table, Trail.internalPatches_concat, List.flatMap_map,
    List.filterMap_eq_flatMap_toList]
  simp only [Context.trail_parts]

theorem externalPatches_table : (grammar.table config document).trail.externalPatches =
    (grammar.stops document).filterMap fun stop =>
      (stop.1.context config document).externalPatchAt? stop.2 := by
  rw [trail_table, Trail.externalPatches_concat, List.flatMap_map,
    List.filterMap_eq_flatMap_toList]
  simp only [Context.trail_parts]

theorem arrays_table : (grammar.table config document).trail.arrays =
    (grammar.stops document).filterMap fun stop =>
      (stop.1.context config document).arrayAt? stop.2 := by
  rw [trail_table, Trail.arrays_concat, List.flatMap_map, List.filterMap_eq_flatMap_toList]
  simp only [Context.trail_parts]

/-! ## Sites -/

theorem sites_nodup (h : grammar.keyCause? document = none) :
    ((grammar.stops document).filterMap fun stop => stop.2.site?).Nodup := by
  have hidentifiers := origins_identifiers_nodup h
  rw [List.Nodup, List.pairwise_map] at hidentifiers
  have hsites : ((grammar.stops document).filterMap fun stop => stop.2.site?) =
      (grammar.origins document).flatMap fun origin => origin.visits.filterMap Visit.site? := by
    rw [stops, List.filterMap_flatMap]
    simp only [List.filterMap_map]
    rfl
  rw [hsites, List.nodup_flatMap]
  refine ⟨fun origin _ => origin.rule.sites_nodup origin.path, hidentifiers.imp ?_⟩
  intro origin other hne site hsite hother
  exact hne ((Rule.below_of_mem_sites hsite).root.symm.trans (Rule.below_of_mem_sites hother).root)

/-- Only one stop is at an entry of an array. -/
theorem stop_eq_of_site_eq (h : grammar.keyCause? document = none) {stop other : Origin × Visit}
    (hstop : stop ∈ grammar.stops document) (hother : other ∈ grammar.stops document)
    {site : AccessPath × Option Nat} (hsite : stop.2.site? = some site)
    (hsite' : other.2.site? = some site) : stop = other := by
  have hnodup := sites_nodup h
  rw [List.Nodup, List.pairwise_filterMap] at hnodup
  by_contra hne
  have hsymm : Std.Symm fun stop other : Origin × Visit => ∀ site, stop.2.site? = some site →
      ∀ site', other.2.site? = some site' → site ≠ site' :=
    ⟨fun _ _ hne site hsite site' hsite' => (hne site' hsite' site hsite).symm⟩
  exact hnodup.forall hstop hother hne site hsite site hsite' rfl

/-- The entries that some stops leave patches for are different. -/
theorem patchSites_nodup_of {α : Type} (h : grammar.keyCause? document = none)
    {patchAt? : Origin × Visit → Option (Patch α)}
    (hsite : ∀ stop patch, patchAt? stop = some patch →
      stop.2.site? = some (patch.array, some patch.index)) :
    (((grammar.stops document).filterMap patchAt?).map Patch.site).Nodup := by
  have hnodup : ((grammar.stops document).filterMap fun stop =>
      (patchAt? stop).map fun patch => (patch.array, some patch.index)).Nodup := by
    refine nodup_filterMap_of_imp (sites_nodup h) fun stop site heq => ?_
    obtain ⟨patch, hpatch, rfl⟩ := Option.map_eq_some_iff.1 heq
    exact hsite stop patch hpatch
  rw [← List.map_filterMap] at hnodup
  refine List.Nodup.of_map (fun site => (site.1, some site.2)) ?_
  rw [List.map_map]
  exact hnodup

theorem site_of_internalPatchAt? {stop : Origin × Visit} {patch : Patch Target}
    (h : (stop.1.context config document).internalPatchAt? stop.2 = some patch) :
    stop.2.site? = some (patch.array, some patch.index) := by
  rcases stop with ⟨origin, visit⟩
  cases visit with
  | entry array index entry =>
    obtain ⟨harray, hindex, -⟩ := Context.internalPatch?_eq_some_iff.1 h
    rw [harray, hindex]
    rfl
  | _ => simp [Context.internalPatchAt?] at h

theorem site_of_externalPatchAt? {stop : Origin × Visit} {patch : Patch External}
    (h : (stop.1.context config document).externalPatchAt? stop.2 = some patch) :
    stop.2.site? = some (patch.array, some patch.index) := by
  rcases stop with ⟨origin, visit⟩
  cases visit with
  | entry array index entry =>
    obtain ⟨harray, hindex, -⟩ := Context.externalPatch?_eq_some_iff.1 h
    rw [harray, hindex]
    rfl
  | _ => simp [Context.externalPatchAt?] at h

theorem internalSites_nodup (h : grammar.keyCause? document = none) :
    ((grammar.table config document).trail.internalPatches.map Patch.site).Nodup := by
  rw [internalPatches_table]
  exact patchSites_nodup_of h fun _ _ => site_of_internalPatchAt?

theorem externalSites_nodup (h : grammar.keyCause? document = none) :
    ((grammar.table config document).trail.externalPatches.map Patch.site).Nodup := by
  rw [externalPatches_table]
  exact patchSites_nodup_of h fun _ _ => site_of_externalPatchAt?

/-! ## Patches -/

theorem mem_internalPatches_iff {patch : Patch Target} :
    patch ∈ (grammar.table config document).trail.internalPatches ↔
      ∃ origin entry, (origin, .entry patch.array patch.index entry) ∈ grammar.stops document ∧
        (origin.context config document).internalPatch? patch.array patch.index entry =
          some patch := by
  rw [internalPatches_table, List.mem_filterMap]
  constructor
  · rintro ⟨⟨origin, visit⟩, hmem, h⟩
    cases visit with
    | entry array index entry =>
      obtain ⟨rfl, rfl, -⟩ := Context.internalPatch?_eq_some_iff.1 h
      exact ⟨origin, entry, hmem, h⟩
    | _ => simp [Context.internalPatchAt?] at h
  · rintro ⟨origin, entry, hmem, h⟩
    exact ⟨_, hmem, h⟩

theorem mem_externalPatches_iff {patch : Patch External} :
    patch ∈ (grammar.table config document).trail.externalPatches ↔
      ∃ origin entry, (origin, .entry patch.array patch.index entry) ∈ grammar.stops document ∧
        (origin.context config document).externalPatch? patch.array patch.index entry =
          some patch := by
  rw [externalPatches_table, List.mem_filterMap]
  constructor
  · rintro ⟨⟨origin, visit⟩, hmem, h⟩
    cases visit with
    | entry array index entry =>
      obtain ⟨rfl, rfl, -⟩ := Context.externalPatch?_eq_some_iff.1 h
      exact ⟨origin, entry, hmem, h⟩
    | _ => simp [Context.externalPatchAt?] at h
  · rintro ⟨origin, entry, hmem, h⟩
    exact ⟨_, hmem, h⟩

/-- Of the patches that entries leave, the one at an entry is left by it. -/
theorem exists_patch_iff {α : Type} (h : grammar.keyCause? document = none)
    {patches : List (Patch α)} {patch? : Origin → AccessPath → Nat → Rule → Option (Patch α)}
    (hmem : ∀ patch, patch ∈ patches ↔ ∃ origin entry,
      (origin, .entry patch.array patch.index entry) ∈ grammar.stops document ∧
        patch? origin patch.array patch.index entry = some patch)
    (hsite : ∀ origin array index entry patch, patch? origin array index entry = some patch →
      patch.site = (array, index))
    {origin : Origin} {array : AccessPath} {index : Nat} {entry : Rule}
    (hstop : (origin, .entry array index entry) ∈ grammar.stops document) :
    (∃ patch ∈ patches, patch.site = (array, index)) ↔
      ∃ patch, patch? origin array index entry = some patch := by
  constructor
  · rintro ⟨patch, hpatch, heq⟩
    obtain ⟨rfl, rfl⟩ := Prod.mk.inj heq
    obtain ⟨other, entry', hstop', hentry⟩ := (hmem patch).1 hpatch
    obtain ⟨rfl, rfl⟩ := by simpa using stop_eq_of_site_eq h hstop hstop' rfl rfl
    exact ⟨patch, hentry⟩
  · rintro ⟨patch, hentry⟩
    have heq := hsite origin array index entry patch hentry
    obtain ⟨rfl, rfl⟩ := Prod.mk.inj heq
    exact ⟨patch, (hmem patch).2 ⟨origin, entry, hstop, hentry⟩, rfl⟩

theorem exists_internalPatch_iff (h : grammar.keyCause? document = none) {origin : Origin}
    {array : AccessPath} {index : Nat} {entry : Rule}
    (hstop : (origin, .entry array index entry) ∈ grammar.stops document) :
    (∃ patch ∈ (grammar.table config document).trail.internalPatches,
        patch.site = (array, index)) ↔
      ∃ patch, (origin.context config document).internalPatch? array index entry = some patch := by
  refine exists_patch_iff h (fun _ => mem_internalPatches_iff) ?_ hstop
  intro origin array index entry patch hentry
  obtain ⟨rfl, rfl, -⟩ := Context.internalPatch?_eq_some_iff.1 hentry
  rfl

theorem exists_externalPatch_iff (h : grammar.keyCause? document = none) {origin : Origin}
    {array : AccessPath} {index : Nat} {entry : Rule}
    (hstop : (origin, .entry array index entry) ∈ grammar.stops document) :
    (∃ patch ∈ (grammar.table config document).trail.externalPatches,
        patch.site = (array, index)) ↔
      ∃ patch, (origin.context config document).externalPatch? array index entry = some patch := by
  refine exists_patch_iff h (fun _ => mem_externalPatches_iff) ?_ hstop
  intro origin array index entry patch hentry
  obtain ⟨rfl, rfl, -⟩ := Context.externalPatch?_eq_some_iff.1 hentry
  rfl

/-- No entry has a patch within the document and one into another document. -/
theorem internalSite_ne_externalSite (h : grammar.keyCause? document = none)
    {patch : Patch Target} (hpatch : patch ∈ (grammar.table config document).trail.internalPatches)
    {other : Patch External}
    (hother : other ∈ (grammar.table config document).trail.externalPatches) :
    patch.site ≠ other.site := by
  intro hsite
  obtain ⟨origin, entry, hstop, hentry⟩ := mem_internalPatches_iff.1 hpatch
  obtain ⟨twin, htwin⟩ := (exists_externalPatch_iff h hstop).1 ⟨other, hother, hsite.symm⟩
  obtain ⟨-, -, hreference, hparse, -⟩ := Context.internalPatch?_eq_some_iff.1 hentry
  obtain ⟨-, -, hreference', hparse'⟩ := Context.externalPatch?_eq_some_iff.1 htwin
  rw [hreference, Option.some.injEq] at hreference'
  rw [hreference', hparse'] at hparse
  simp at hparse

/-! ## Arrays -/

theorem arrays_nodup (h : grammar.keyCause? document = none) :
    ((grammar.table config document).trail.arrays.map Prod.fst).Nodup := by
  have hnodup : ((grammar.stops document).filterMap fun stop =>
      ((stop.1.context config document).arrayAt? stop.2).map fun array =>
        (array.1, (none : Option Nat))).Nodup := by
    refine nodup_filterMap_of_imp (sites_nodup h) fun stop site heq => ?_
    obtain ⟨array, harray, rfl⟩ := Option.map_eq_some_iff.1 heq
    rcases stop with ⟨origin, visit⟩
    cases visit with
    | filled path entries =>
      cases harray
      rfl
    | _ => simp [Context.arrayAt?] at harray
  rw [← List.map_filterMap] at hnodup
  rw [arrays_table]
  refine List.Nodup.of_map (fun path => (path, (none : Option Nat))) ?_
  rw [List.map_map]
  exact hnodup

theorem lookup_arrays (h : grammar.keyCause? document = none) {origin : Origin}
    (horigin : origin ∈ grammar.origins document) {array : AccessPath} {entries : List Rule}
    (harray : origin.rule.HasArray origin.path array entries) :
    (grammar.table config document).trail.arrays.lookup array =
      some (Cells.filled (entries.map fun entry =>
        if (origin.context config document).stands entry then some () else none)) := by
  refine lookup_eq_some_of_mem (arrays_nodup h) ?_
  rw [arrays_table, List.mem_filterMap]
  exact ⟨(origin, .filled array entries),
    mem_stops_iff.2 ⟨horigin, Rule.filled_mem_visits_iff.2 harray⟩, rfl⟩

end Grammar

/-! ## Patches by document -/

namespace Table

theorem mem_groupedPatches_iff {table : Table} {patch : Patch External} :
    patch ∈ table.groupedPatches ↔ patch ∈ table.trail.externalPatches := by
  simp only [groupedPatches, patchesInto, List.mem_flatMap, List.mem_filter, beq_iff_eq]
  constructor
  · rintro ⟨_, _, hmem, _⟩
    exact hmem
  · intro hmem
    refine ⟨patch.target.document, ?_, hmem, rfl⟩
    rw [dependencies, List.mem_eraseDups]
    exact List.mem_map_of_mem hmem

theorem groupedSites_nodup {table : Table}
    (h : (table.trail.externalPatches.map Patch.site).Nodup) :
    (table.groupedPatches.map Patch.site).Nodup := by
  have hinjective := List.inj_on_of_nodup_map h
  refine List.Nodup.map_on (fun patch hpatch other hother => ?_) ?_
  · exact hinjective (mem_groupedPatches_iff.1 hpatch) (mem_groupedPatches_iff.1 hother)
  · rw [groupedPatches, List.nodup_flatMap]
    refine ⟨fun document _ => h.of_map.filter _, (nodup_eraseDups _).imp fun hne => ?_⟩
    intro patch hpatch hother
    simp only [patchesInto, List.mem_filter, beq_iff_eq] at hpatch hother
    exact hne (hpatch.2.symm.trans hother.2)

end Table

end PatternTable
