import Mathlib.Data.List.Sigma
import PatternTable.Proofs.Rule.Visits

/-!
# The arrays inside a rule

An array lies below the path of every rule that it is inside of, and the rules inside a rule have
paths that part from one another. So no two stops are at the same rule, array or entry.

Results:
* `Rule.filled_mem_visits_iff`, `Rule.entry_mem_visits_iff`: the stops at arrays and entries are
  those of the arrays inside the rule.
* `Rule.hasArray_below`: an array is below the path of the rule.
* `Rule.sites_nodup`: no stop at a rule, an array or an entry is made twice.
-/

namespace PatternTable

/-! ## Arrays -/

/-- Inside the rule at a path, there is an array with some entries at another path. -/
inductive Rule.HasArray : Rule → AccessPath → AccessPath → List Rule → Prop where
  /-- An include where a rule is expected is the only entry of an array. -/
  | lone {rule : Rule} {path : AccessPath} (hrule : rule.isReference = true) :
    HasArray rule path (path.field .patterns) [rule]
  | own {rule : Rule} {path : AccessPath} {rules : List Rule} (hrule : rule.isReference = false)
    (hrules : rule.patterns = some rules) : HasArray rule path (path.field .patterns) rules
  | group {rule inner : Rule} {path array : AccessPath} {field : Field}
    {groups : List (String × Rule)} {number : Nat} {entries : List Rule}
    (hrule : rule.isReference = false) (hgroups : rule.groups field = some groups)
    (hinner : (number, inner) ∈ sortedGroups groups)
    (h : HasArray inner ((path.field field).group number) array entries) :
    HasArray rule path array entries
  | entry {rule inner : Rule} {path array : AccessPath} {rules : List Rule} {index : Nat}
    {entries : List Rule} (hrule : rule.isReference = false) (hrules : rule.patterns = some rules)
    (hget : rules[index]? = some inner) (hinner : inner.isReference = false)
    (h : HasArray inner ((path.field .patterns).index index) array entries) :
    HasArray rule path array entries

theorem mem_arrayVisits_iff {array : AccessPath} {rules : List Rule} {visit : Visit} :
    visit ∈ arrayVisits array (rules.map fun entry => (entry, entry.visits)) ↔
      (∃ index entry, rules[index]? = some entry ∧ visit = .entry array index entry) ∨
      (∃ index, ∃ entry : Rule, rules[index]? = some entry ∧ entry.isReference = false ∧
        visit ∈ entry.visits (array.index index)) ∨
      visit = .filled array rules := by
  have hfst : (rules.map fun entry => (entry, entry.visits)).map Prod.fst = rules := by
    rw [List.map_map]
    exact List.map_id rules
  rw [arrayVisits, List.mem_append, List.mem_append, List.mem_singleton, hfst, or_assoc]
  simp only [List.mem_map, List.mem_flatMap, List.zipIdx_map, Prod.exists, Prod.map_apply, id_eq,
    Prod.mk.injEq, List.mk_mem_zipIdx_iff_getElem?]
  refine or_congr ?_ (or_congr ?_ Iff.rfl)
  · constructor
    · rintro ⟨_, _, index, ⟨entry, _, hget, ⟨rfl, rfl⟩, rfl⟩, rfl⟩
      exact ⟨_, entry, hget, rfl⟩
    · rintro ⟨index, entry, hget, rfl⟩
      exact ⟨entry, entry.visits, index, ⟨entry, index, hget, ⟨rfl, rfl⟩, rfl⟩, rfl⟩
  · constructor
    · rintro ⟨_, _, index, ⟨entry, _, hget, ⟨rfl, rfl⟩, rfl⟩, hmem⟩
      split at hmem
      · simp at hmem
      · next hentry => exact ⟨_, entry, hget, by simpa using hentry, hmem⟩
    · rintro ⟨index, entry, hget, hentry, hmem⟩
      refine ⟨entry, entry.visits, index, ⟨entry, index, hget, ⟨rfl, rfl⟩, rfl⟩, ?_⟩
      rw [hentry]
      exact hmem

theorem mem_groupVisits_iff {path : AccessPath} {groups : List (String × Rule)} {visit : Visit} :
    visit ∈ groupVisits path (groups.map fun group => (group.1, group.2.visits)) ↔
      visit = .groups path (groups.map Prod.fst) ∨
      ∃ number inner, (number, inner) ∈ sortedGroups groups ∧
        visit ∈ inner.visits (path.group number) := by
  rw [groupVisits, List.mem_cons, sortedGroups_map]
  refine or_congr ?_ ?_
  · rw [List.map_map]
    rfl
  · simp only [List.flatMap_map, List.mem_flatMap, Prod.exists]

theorem visits_of_isReference {rule : Rule} (h : rule.isReference = true) (path : AccessPath) :
    rule.visits path =
      [.entry (path.field .patterns) 0 rule, .filled (path.field .patterns) [rule]] := by
  rw [Rule.visits, Rule.fold_eq, Rule.visitsOf, if_pos h]
  simp [arrayVisits, h]

theorem visits_of_not_isReference {rule : Rule} (h : rule.isReference = false)
    (path : AccessPath) : rule.visits path = .rule path rule ::
      (Field.captureFields.flatMap fun field => ((rule.groups field).map fun groups =>
        groupVisits (path.field field)
          (groups.map fun group => (group.1, group.2.visits))).getD []) ++
      (rule.patterns.map fun rules =>
        arrayVisits (path.field .patterns)
          (rules.map fun entry => (entry, entry.visits))).getD [] := by
  rw [Rule.visits, Rule.fold_eq, Rule.visitsOf, h]
  simp only [Option.map_map]
  rfl

theorem mem_visits_iff {rule : Rule} (h : rule.isReference = false) {path : AccessPath}
    {visit : Visit} : visit ∈ rule.visits path ↔
      visit = .rule path rule ∨
      (∃ field groups, rule.groups field = some groups ∧ visit ∈
        groupVisits (path.field field) (groups.map fun group => (group.1, group.2.visits))) ∨
      ∃ rules, rule.patterns = some rules ∧ visit ∈
        arrayVisits (path.field .patterns) (rules.map fun entry => (entry, entry.visits)) := by
  rw [visits_of_not_isReference h, List.cons_append, List.mem_cons, List.mem_append,
    List.mem_flatMap]
  refine or_congr Iff.rfl (or_congr ?_ ?_)
  · constructor
    · rintro ⟨field, -, hmem⟩
      cases hgroups : rule.groups field with
      | none => simp [hgroups] at hmem
      | some groups => exact ⟨field, groups, hgroups, by simpa [hgroups] using hmem⟩
    · rintro ⟨field, groups, hgroups, hmem⟩
      exact ⟨field, Rule.mem_captureFields_of_groups hgroups, by simpa [hgroups] using hmem⟩
  · cases rule.patterns with
    | none => simp
    | some rules => simp

/-! ## Stops at arrays -/

namespace Rule

theorem filled_mem_visits_of_hasArray {rule : Rule} {path array : AccessPath} {entries : List Rule}
    (h : rule.HasArray path array entries) : .filled array entries ∈ rule.visits path := by
  induction h with
  | lone hrule => rw [visits_of_isReference hrule]; simp
  | own hrule hrules =>
    exact (mem_visits_iff hrule).2
      (.inr (.inr ⟨_, hrules, mem_arrayVisits_iff.2 (.inr (.inr rfl))⟩))
  | group hrule hgroups hinner _ ih =>
    exact (mem_visits_iff hrule).2
      (.inr (.inl ⟨_, _, hgroups, mem_groupVisits_iff.2 (.inr ⟨_, _, hinner, ih⟩)⟩))
  | entry hrule hrules hget hinner _ ih =>
    exact (mem_visits_iff hrule).2
      (.inr (.inr ⟨_, hrules, mem_arrayVisits_iff.2 (.inr (.inl ⟨_, _, hget, hinner, ih⟩))⟩))

/-- A stop at a rule is at the path or below it, a stop at an array is at one of a rule, and a stop
    at an entry is at one of its entries. -/
def Located (rule : Rule) (path : AccessPath) : Visit → Prop
  | .rule below _ => path.Below below
  | .groups _ _ => True
  | .entry array index entry =>
    ∃ entries, rule.HasArray path array entries ∧ entries[index]? = some entry
  | .filled array entries => rule.HasArray path array entries

theorem Located.mono {rule outer : Rule} {path above : AccessPath} {visit : Visit}
    (hpath : ∀ below, path.Below below → above.Below below)
    (h : ∀ array entries, rule.HasArray path array entries → outer.HasArray above array entries)
    (hvisit : rule.Located path visit) : outer.Located above visit := by
  cases visit with
  | rule below target => exact hpath below hvisit
  | groups => trivial
  | entry array index entry =>
    obtain ⟨entries, harray, hget⟩ := hvisit
    exact ⟨entries, h array entries harray, hget⟩
  | filled array entries => exact h array entries hvisit

theorem located_of_mem_visits {rule : Rule} {path : AccessPath} {visit : Visit}
    (h : visit ∈ rule.visits path) : rule.Located path visit := by
  induction rule using Rule.induction generalizing path with
  | step rule groups entries =>
    cases hrule : rule.isReference with
    | true =>
      rw [visits_of_isReference hrule, List.mem_cons, List.mem_singleton] at h
      obtain rfl | rfl := h
      · exact ⟨[rule], .lone hrule, rfl⟩
      · exact .lone hrule
    | false =>
      obtain rfl | ⟨field, members, hgroups, hmem⟩ | ⟨rules, hrules, hmem⟩ :=
        (mem_visits_iff hrule).1 h
      · exact .refl path
      · obtain rfl | ⟨number, inner, hinner, hmem⟩ := mem_groupVisits_iff.1 hmem
        · trivial
        · obtain ⟨key, hentry, -⟩ := mem_sortedGroups hinner
          exact (groups field members hgroups (key, inner) hentry hmem).mono
            (fun below hbelow => hbelow.of_extend.of_extend)
            fun array entries harray => .group hrule hgroups hinner harray
      · obtain ⟨index, entry, hget, rfl⟩ | ⟨index, entry, hget, hentry, hmem⟩ | rfl :=
          mem_arrayVisits_iff.1 hmem
        · exact ⟨rules, .own hrule hrules, hget⟩
        · exact (entries rules hrules entry (List.mem_of_getElem? hget) hmem).mono
            (fun below hbelow => hbelow.of_extend.of_extend)
            fun array entries harray => .entry hrule hrules hget hentry harray
        · exact .own hrule hrules

theorem filled_mem_visits_iff {rule : Rule} {path array : AccessPath} {entries : List Rule} :
    .filled array entries ∈ rule.visits path ↔ rule.HasArray path array entries :=
  ⟨located_of_mem_visits, filled_mem_visits_of_hasArray⟩

theorem entry_mem_visits_iff {rule : Rule} {path array : AccessPath} {index : Nat} {entry : Rule} :
    .entry array index entry ∈ rule.visits path ↔
      ∃ entries, rule.HasArray path array entries ∧ entries[index]? = some entry := by
  refine ⟨located_of_mem_visits, ?_⟩
  rintro ⟨entries, h, hget⟩
  induction h with
  | @lone rule path hrule =>
    obtain ⟨hindex, rfl⟩ := List.getElem?_eq_some_iff.1 hget
    obtain rfl : index = 0 := by simpa using hindex
    rw [visits_of_isReference hrule]
    simp
  | own hrule hrules =>
    exact (mem_visits_iff hrule).2
      (.inr (.inr ⟨_, hrules, mem_arrayVisits_iff.2 (.inl ⟨index, entry, hget, rfl⟩)⟩))
  | group hrule hgroups hinner _ ih =>
    exact (mem_visits_iff hrule).2
      (.inr (.inl ⟨_, _, hgroups, mem_groupVisits_iff.2 (.inr ⟨_, _, hinner, ih hget⟩)⟩))
  | entry hrule hrules hat hinner _ ih =>
    exact (mem_visits_iff hrule).2
      (.inr (.inr ⟨_, hrules, mem_arrayVisits_iff.2 (.inr (.inl ⟨_, _, hat, hinner, ih hget⟩))⟩))

theorem hasArray_below {rule : Rule} {path array : AccessPath} {entries : List Rule}
    (h : rule.HasArray path array entries) : path.Below array := by
  induction h with
  | lone hrule => exact AccessPath.below_extend _ _
  | own hrule hrules => exact AccessPath.below_extend _ _
  | group hrule hgroups hinner h ih => exact ih.of_extend.of_extend
  | entry hrule hrules hget hinner h ih => exact ih.of_extend.of_extend

end Rule

/-! ## Sites -/

/-- The rule or the array that a stop is at, and the index of the entry that it is at. -/
def Visit.site? : Visit → Option (AccessPath × Option Nat)
  | .rule path _ => some (path, none)
  | .groups _ _ => none
  | .entry array index _ => some (array, some index)
  | .filled array _ => some (array, none)

/-- The sites of several parts below a path are different if the ways to the parts are. -/
theorem nodup_flatMap_of_below {α β : Type} (path : AccessPath) {parts : List α} (step : α → Step)
    {sites : α → List (AccessPath × β)} (hsteps : (parts.map step).Nodup)
    (hnodup : ∀ part ∈ parts, (sites part).Nodup)
    (hbelow : ∀ part ∈ parts, ∀ site ∈ sites part, (path.extend (step part)).Below site.1) :
    (parts.flatMap sites).Nodup := by
  rw [List.nodup_flatMap]
  refine ⟨hnodup, ?_⟩
  rw [List.Nodup, List.pairwise_map] at hsteps
  refine hsteps.imp_of_mem fun {part other} hpart hother hne site hsite hsite' => hne ?_
  exact AccessPath.step_eq_of_below (hbelow part hpart site hsite) (hbelow other hother site hsite')

namespace Rule

theorem below_of_mem_sites {rule : Rule} {path : AccessPath} {site : AccessPath × Option Nat}
    (h : site ∈ (rule.visits path).filterMap Visit.site?) : path.Below site.1 := by
  obtain ⟨visit, hmem, hsite⟩ := List.mem_filterMap.1 h
  have hlocated := located_of_mem_visits hmem
  cases visit with
  | rule below target =>
    simp only [Visit.site?, Option.some.injEq] at hsite
    rw [← hsite]
    exact hlocated
  | groups => simp [Visit.site?] at hsite
  | entry array index entry =>
    obtain ⟨entries, harray, -⟩ := hlocated
    simp only [Visit.site?, Option.some.injEq] at hsite
    rw [← hsite]
    exact hasArray_below harray
  | filled array entries =>
    simp only [Visit.site?, Option.some.injEq] at hsite
    rw [← hsite]
    exact hasArray_below hlocated

theorem arraySites_eq (array : AccessPath) (rules : List Rule) :
    (arrayVisits array (rules.map fun entry => (entry, entry.visits))).filterMap Visit.site? =
      (rules.zipIdx.map fun (_, index) => (array, some index)) ++
        (rules.zipIdx.flatMap fun (entry, index) => if entry.isReference then [] else
          (entry.visits (array.index index)).filterMap Visit.site?) ++ [(array, none)] := by
  rw [arrayVisits, List.filterMap_append, List.filterMap_append, List.zipIdx_map]
  congr 2
  · simp [List.filterMap_map, Function.comp_def, Visit.site?]
  · simp only [List.flatMap_map, List.filterMap_flatMap]
    congr 1
    funext entry
    cases h : entry.1.isReference <;> simp [h]

theorem arraySites_nodup {array : AccessPath} {rules : List Rule}
    (h : ∀ entry ∈ rules, ∀ path, ((entry.visits path).filterMap Visit.site?).Nodup) :
    ((arrayVisits array (rules.map fun entry => (entry, entry.visits))).filterMap
      Visit.site?).Nodup := by
  have hindices : (rules.zipIdx.map Prod.snd).Nodup := List.nodup_zipIdx_map_snd rules
  -- The sites in the rules are below the entries, so they are not at the array.
  have hinside : ∀ site ∈ rules.zipIdx.flatMap fun (entry, index) =>
      if entry.isReference then []
      else (entry.visits (array.index index)).filterMap Visit.site?, site.1 ≠ array := by
    rintro site hsite rfl
    obtain ⟨⟨entry, index⟩, -, hmem⟩ := List.mem_flatMap.1 hsite
    dsimp only at hmem
    split at hmem
    · simp at hmem
    · exact AccessPath.not_extend_below _ _ (below_of_mem_sites hmem)
  rw [arraySites_eq, List.append_assoc, List.nodup_append, List.nodup_append]
  refine ⟨?_, ⟨?_, List.nodup_singleton _, ?_⟩, ?_⟩
  · have heq : (rules.zipIdx.map fun (_, index) => (array, some index)) =
        (rules.zipIdx.map Prod.snd).map fun index => (array, some index) := by
      rw [List.map_map]
      rfl
    rw [heq]
    exact hindices.map fun index other heq => by simpa using heq
  · refine nodup_flatMap_of_below array (fun entry => .index entry.2) ?_ ?_ ?_
    · have hsteps : rules.zipIdx.map (fun entry => Step.index entry.2) =
          (rules.zipIdx.map Prod.snd).map Step.index := by
        rw [List.map_map]
        rfl
      rw [hsteps]
      exact hindices.map fun index other heq => by simpa using heq
    · rintro ⟨entry, index⟩ hmem
      dsimp only
      split
      · exact List.nodup_nil
      · exact h entry (List.mem_of_getElem? (List.mk_mem_zipIdx_iff_getElem?.1 hmem)) _
    · rintro ⟨entry, index⟩ - site hsite
      dsimp only at hsite
      split at hsite
      · simp at hsite
      · exact below_of_mem_sites hsite
  · rintro site hsite other hother rfl
    rw [List.mem_singleton] at hother
    exact hinside site hsite (by rw [hother])
  · rintro site hsite other hother rfl
    obtain ⟨entry, -, rfl⟩ := List.mem_map.1 hsite
    rw [List.mem_append, List.mem_singleton] at hother
    obtain hother | hother := hother
    · exact hinside _ hother rfl
    · simp at hother

theorem below_of_mem_arraySites {array : AccessPath} {rules : List Rule}
    {site : AccessPath × Option Nat} (h : site ∈ (arrayVisits array (rules.map fun entry =>
      (entry, entry.visits))).filterMap Visit.site?) : array.Below site.1 := by
  rw [arraySites_eq, List.mem_append, List.mem_append, List.mem_singleton] at h
  obtain (h | h) | rfl := h
  · obtain ⟨entry, -, rfl⟩ := List.mem_map.1 h
    exact .refl _
  · obtain ⟨⟨entry, index⟩, -, hmem⟩ := List.mem_flatMap.1 h
    dsimp only at hmem
    split at hmem
    · simp at hmem
    · exact (below_of_mem_sites hmem).of_extend
  · exact .refl _

theorem groupSites_eq (path : AccessPath) (groups : List (String × Rule)) :
    (groupVisits path (groups.map fun group => (group.1, group.2.visits))).filterMap Visit.site? =
      (sortedGroups groups).flatMap fun (number, inner) =>
        (inner.visits (path.group number)).filterMap Visit.site? := by
  rw [groupVisits, List.filterMap_cons_none rfl, sortedGroups_map, List.flatMap_map,
    List.filterMap_flatMap]

theorem below_of_mem_groupSites {path : AccessPath} {groups : List (String × Rule)}
    {site : AccessPath × Option Nat} (h : site ∈ (groupVisits path (groups.map fun group =>
      (group.1, group.2.visits))).filterMap Visit.site?) : path.Below site.1 := by
  rw [groupSites_eq] at h
  obtain ⟨⟨number, inner⟩, -, hmem⟩ := List.mem_flatMap.1 h
  exact (below_of_mem_sites hmem).of_extend

theorem groupSites_nodup {path : AccessPath} {groups : List (String × Rule)}
    (h : ∀ group ∈ groups, ∀ path, ((group.2.visits path).filterMap Visit.site?).Nodup) :
    ((groupVisits path (groups.map fun group => (group.1, group.2.visits))).filterMap
      Visit.site?).Nodup := by
  rw [groupSites_eq]
  refine nodup_flatMap_of_below path (fun group => .group group.1) ?_ ?_ ?_
  · have hsteps : (sortedGroups groups).map (fun group => Step.group group.1) =
        ((sortedGroups groups).map Prod.fst).map Step.group := by
      rw [List.map_map]
      rfl
    rw [hsteps]
    exact (sortedGroups_nodup groups).map fun number other heq => by simpa using heq
  · rintro ⟨number, inner⟩ hmem
    obtain ⟨key, hentry, -⟩ := mem_sortedGroups hmem
    exact h (key, inner) hentry _
  · rintro ⟨number, inner⟩ - site hsite
    exact below_of_mem_sites hsite

/-- The way through a field of a rule that is not an include. -/
def fieldVisits (rule : Rule) (path : AccessPath) : Field → List Visit
  | .patterns => (rule.patterns.map fun rules => arrayVisits (path.field .patterns)
      (rules.map fun entry => (entry, entry.visits))).getD []
  | field => ((rule.groups field).map fun groups => groupVisits (path.field field)
      (groups.map fun group => (group.1, group.2.visits))).getD []

theorem visits_eq_fieldVisits {rule : Rule} (h : rule.isReference = false) (path : AccessPath) :
    rule.visits path = .rule path rule :: Field.all.flatMap (rule.fieldVisits path) := by
  rw [visits_of_not_isReference h]
  simp [Field.all, Field.captureFields, fieldVisits]

theorem sites_nodup (rule : Rule) (path : AccessPath) :
    ((rule.visits path).filterMap Visit.site?).Nodup := by
  induction rule using Rule.induction generalizing path with
  | step rule groups entries =>
    cases hrule : rule.isReference with
    | true => simp [visits_of_isReference hrule, Visit.site?]
    | false =>
      have hgroups (field : Field) (path : AccessPath) :
          ((((rule.groups field).map fun groups => groupVisits path
            (groups.map fun group => (group.1, group.2.visits))).getD []).filterMap
              Visit.site?).Nodup := by
        cases h : rule.groups field with
        | none => exact List.nodup_nil
        | some members => exact groupSites_nodup (groups field members h)
      have hbelow (field : Field) (path : AccessPath) : ∀ site ∈
          (((rule.groups field).map fun groups => groupVisits path
            (groups.map fun group => (group.1, group.2.visits))).getD []).filterMap Visit.site?,
          path.Below site.1 := by
        cases h : rule.groups field with
        | none => simp
        | some members => exact fun site hsite => below_of_mem_groupSites hsite
      have hfields : ∀ field ∈ Field.all, ∀ site ∈
          (rule.fieldVisits path field).filterMap Visit.site?, (path.field field).Below site.1 := by
        rintro (_ | _ | _ | _) -
        · rw [fieldVisits]
          cases rule.patterns with
          | none => simp
          | some rules => exact fun site hsite => below_of_mem_arraySites hsite
        · exact hbelow .captures _
        · exact hbelow .openingCaptures _
        · exact hbelow .closingCaptures _
      have hown : (Visit.rule path rule).site? = some (path, none) := rfl
      rw [visits_eq_fieldVisits hrule, List.filterMap_cons_some hown, List.filterMap_flatMap,
        List.nodup_cons]
      refine ⟨fun hmem => ?_, nodup_flatMap_of_below path Step.field (by decide) ?_ hfields⟩
      · -- The sites in the fields are below the rule, so they are not at the rule.
        obtain ⟨field, hfield, hsite⟩ := List.mem_flatMap.1 hmem
        exact AccessPath.not_extend_below _ _ (hfields field hfield _ hsite)
      · rintro (_ | _ | _ | _) -
        · rw [fieldVisits]
          cases h : rule.patterns with
          | none => exact List.nodup_nil
          | some rules => exact arraySites_nodup (entries rules h)
        · exact hgroups .captures _
        · exact hgroups .openingCaptures _
        · exact hgroups .closingCaptures _

end Rule

end PatternTable
