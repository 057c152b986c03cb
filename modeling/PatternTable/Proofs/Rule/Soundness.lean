import PatternTable.Proofs.Rule.Arrays
import PatternTable.Proofs.Rule.GroupNumbers

/-!
# The rules that building comes to

Building a rule comes to the rules in its capture fields and in its array, and to the rules inside
these. It does not go into an include: what else an include has is ignored.

* `Rule.Reaches`: building a rule at a path comes to another rule at its path.
* `Rule.Sound`: what a rule that is come to has to be.
* `Offence`: what is wrong at a stop on the way.

Results:
* `Context.cause?_eq_some_iff`: building ends at a stop exactly if something is wrong there.
* `Rule.meets_of_mem_visits`: every stop is at a rule that is reached, under its access path.
* `Rule.cause?_visits_iff`: no stop fails exactly if every rule that is reached is sound.
-/

namespace PatternTable

namespace Rule

/-! ## Specification -/

/-- Building a rule at a path comes to a rule at another path. -/
inductive Reaches : Rule → AccessPath → Rule → AccessPath → Prop where
  | self (rule : Rule) (path : AccessPath) : Reaches rule path rule path
  | group {rule inner target : Rule} {path below : AccessPath} {field : Field}
    {entries : List (String × Rule)} {key : String} {number : Nat}
    (hrule : rule.isReference = false) (hgroups : rule.groups field = some entries)
    (hentry : (key, inner) ∈ entries) (hnumber : SpellsGroup key number)
    (h : Reaches inner ((path.field field).group number) target below) :
    Reaches rule path target below
  | entry {rule inner target : Rule} {path below : AccessPath} {rules : List Rule} {index : Nat}
    (hrule : rule.isReference = false) (hrules : rule.patterns = some rules)
    (hget : rules[index]? = some inner)
    (h : Reaches inner ((path.field .patterns).index index) target below) :
    Reaches rule path target below

/-- What is wrong with the patterns that a rule has and lacks. -/
inductive HasDefect (rule : Rule) : Defect → Prop where
  | singleAndOpening (hsingle : rule.single.isSome) (hopening : rule.opening.isSome) :
    HasDefect rule .singleAndOpening
  | closingWithoutOpening (hopening : rule.opening = none) (hclosing : rule.closing.isSome) :
    HasDefect rule .closingWithoutOpening
  | openingWithoutClosing (hsingle : rule.single = none) (hopening : rule.opening.isSome)
    (hclosing : rule.closing = none) : HasDefect rule .openingWithoutClosing

/-- A rule can be built, as far as the rule itself goes. An include is a reference and nothing
    else. -/
structure Sound (document : Document) (rule : Rule) : Prop where
  reference : ∀ spelling, rule.reference = some spelling →
    (Reference.parse? document spelling).isSome
  /-- A match is not a span. -/
  single : rule.isReference = false → ¬ (rule.single.isSome ∧ rule.opening.isSome)
  /-- A span has a start and an end. -/
  span : rule.isReference = false → (rule.closing.isSome ↔ rule.opening.isSome)
  groups : rule.isReference = false → ∀ field entries, rule.groups field = some entries →
    GroupKeys (entries.map Prod.fst)

end Rule

/-- What is wrong at a stop. -/
inductive Offence (document : Document) : Visit → Cause → Prop where
  | rule {path : AccessPath} {rule : Rule} {defect : Defect} (h : rule.HasDefect defect) :
    Offence document (.rule path rule) (.defect path defect)
  | groups {path : AccessPath} {keys : List String} {key : String}
    (h : FirstFault GroupFault keys key) :
    Offence document (.groups path keys) (.defect path (.invalidGroup key))
  | entry {array : AccessPath} {index : Nat} {entry : Rule} {spelling : String}
    (hreference : entry.reference = some spelling)
    (h : Reference.parse? document spelling = none) :
    Offence document (.entry array index entry)
      (.defect (array.index index) (.unrecognizedInclude spelling))

/-! ## Stops at which building ends -/

namespace Rule

theorem defect?_eq_some_iff {rule : Rule} {defect : Defect} :
    rule.defect? = some defect ↔ rule.HasDefect defect := by
  unfold defect?
  constructor
  · intro h
    split at h
    · next hsingle hopening =>
      cases h
      exact .singleAndOpening (by rw [hsingle]; rfl) (by rw [hopening]; rfl)
    · next hopening hclosing =>
      cases h
      exact .closingWithoutOpening hopening (by rw [hclosing]; rfl)
    · next hopening hclosing hnot =>
      cases h
      refine .openingWithoutClosing ?_ (by rw [hopening]; rfl) hclosing
      exact Option.eq_none_iff_forall_ne_some.2 hnot
    · simp at h
  · rintro (⟨hsingle, hopening⟩ | ⟨hopening, hclosing⟩ | ⟨hsingle, hopening, hclosing⟩)
    · obtain ⟨single, hsingle⟩ := Option.isSome_iff_exists.1 hsingle
      obtain ⟨opening, hopening⟩ := Option.isSome_iff_exists.1 hopening
      rw [hsingle, hopening]
    · obtain ⟨closing, hclosing⟩ := Option.isSome_iff_exists.1 hclosing
      rw [hopening, hclosing]
      cases rule.single <;> rfl
    · obtain ⟨opening, hopening⟩ := Option.isSome_iff_exists.1 hopening
      rw [hsingle, hopening, hclosing]

theorem defect?_eq_none_iff {rule : Rule} : rule.defect? = none ↔
    ¬ (rule.single.isSome ∧ rule.opening.isSome) ∧ (rule.closing.isSome ↔ rule.opening.isSome) := by
  unfold defect?
  cases rule.single <;> cases rule.opening <;> cases rule.closing <;> simp

end Rule

namespace Context

theorem map_fst_unit (keys : List String) :
    (keys.map fun key => (key, ())).map Prod.fst = keys := by
  rw [List.map_map]
  exact List.map_id keys

theorem cause?_eq_some_iff (context : Context) (visit : Visit) (cause : Cause) :
    context.cause? visit = some cause ↔ Offence context.document visit cause := by
  constructor
  · intro h
    cases visit with
    | rule path rule =>
      rw [cause?, Option.map_eq_some_iff] at h
      obtain ⟨defect, hdefect, rfl⟩ := h
      exact .rule (Rule.defect?_eq_some_iff.1 hdefect)
    | groups path keys =>
      rw [cause?] at h
      split at h
      · next key hkey =>
        rw [numbered_eq_error_iff, map_fst_unit] at hkey
        rw [Option.some.injEq] at h
        rw [← h]
        exact .groups hkey
      · simp at h
    | entry array index entry =>
      rw [cause?, Option.map_eq_some_iff] at h
      obtain ⟨spelling, hspelling, rfl⟩ := h
      obtain ⟨hreference, hparse⟩ := Option.filter_eq_some_iff.1 hspelling
      exact .entry hreference (Option.isNone_iff_eq_none.1 hparse)
    | filled array entries => simp [cause?] at h
  · rintro (hdefect | hkey | ⟨hreference, hparse⟩)
    · rw [cause?, Rule.defect?_eq_some_iff.2 hdefect]
      rfl
    · rw [cause?, (numbered_eq_error_iff _ _).2]
      rwa [map_fst_unit]
    · simp [cause?, hreference, hparse]

theorem cause?_groups_eq_none_iff {context : Context} {path : AccessPath} {keys : List String} :
    context.cause? (.groups path keys) = none ↔ GroupKeys keys := by
  have hnumbered := exists_numbered_iff (keys.map fun key => (key, ()))
  rw [map_fst_unit] at hnumbered
  rw [cause?, ← hnumbered]
  cases numbered [] (keys.map fun key => (key, ())) <;> simp

theorem cause?_entry_eq_none_iff {context : Context} {array : AccessPath} {index : Nat}
    {entry : Rule} : context.cause? (.entry array index entry) = none ↔
      ∀ spelling, entry.reference = some spelling →
        (Reference.parse? context.document spelling).isSome := by
  rw [cause?]
  cases entry.reference with
  | none => simp
  | some spelling =>
    cases hparse : Reference.parse? context.document spelling <;> simp [Option.filter, hparse]

end Context

/-! ## Rules that are reached -/

namespace Rule

/-- A rule without rules inside comes to itself only. -/
theorem eq_of_reaches {rule target : Rule} {path below : AccessPath}
    (hgroups : ∀ field, rule.groups field = none) (hpatterns : rule.patterns = none)
    (h : rule.Reaches path target below) : target = rule := by
  cases h with
  | self => rfl
  | group _ hentries => rw [hgroups] at hentries; cases hentries
  | entry _ hrules => rw [hpatterns] at hrules; cases hrules

/-- A stop is at a rule that is reached, or at its array or one of its capture fields. -/
def Meets (rule : Rule) (path : AccessPath) : Visit → Prop
  | .rule below target => rule.Reaches path target below ∧ target.isReference = false
  | .groups below keys => ∃ target above field entries, rule.Reaches path target above ∧
      target.isReference = false ∧ target.groups field = some entries ∧
      below = above.field field ∧ keys = entries.map Prod.fst
  | .entry array index entry => rule.Reaches path entry (array.index index) ∨
      ∃ above, rule.Reaches path entry above ∧ entry.isReference = true ∧
        array = above.field .patterns ∧ index = 0
  | .filled _ _ => True

theorem Meets.mono {rule outer : Rule} {path above : AccessPath} {visit : Visit}
    (h : ∀ target below, rule.Reaches path target below → outer.Reaches above target below)
    (hvisit : rule.Meets path visit) : outer.Meets above visit := by
  cases visit with
  | rule below target => exact ⟨h target below hvisit.1, hvisit.2⟩
  | groups below keys =>
    obtain ⟨target, place, field, entries, hreaches, hrest⟩ := hvisit
    exact ⟨target, place, field, entries, h target place hreaches, hrest⟩
  | entry array index entry =>
    obtain hreaches | ⟨place, hreaches, hrest⟩ := hvisit
    · exact .inl (h entry _ hreaches)
    · exact .inr ⟨place, h entry place hreaches, hrest⟩
  | filled array entries => trivial

/-- Every stop on the way through a rule is at a rule that is reached. -/
theorem meets_of_mem_visits {rule : Rule} {path : AccessPath} {visit : Visit}
    (h : visit ∈ rule.visits path) : rule.Meets path visit := by
  induction rule using Rule.induction generalizing path with
  | step rule groups entries =>
    cases hrule : rule.isReference with
    | true =>
      rw [visits_of_isReference hrule, List.mem_cons, List.mem_singleton] at h
      obtain rfl | rfl := h
      · exact .inr ⟨path, .self rule path, hrule, rfl, rfl⟩
      · trivial
    | false =>
      obtain rfl | ⟨field, members, hgroups, hmem⟩ | ⟨rules, hrules, hmem⟩ :=
        (mem_visits_iff hrule).1 h
      · exact ⟨.self rule path, hrule⟩
      · obtain rfl | ⟨number, inner, hinner, hmem⟩ := mem_groupVisits_iff.1 hmem
        · exact ⟨rule, path, field, members, .self rule path, hrule, hgroups, rfl, rfl⟩
        · obtain ⟨key, hentry, hnumber⟩ := mem_sortedGroups hinner
          refine (groups field members hgroups (key, inner) hentry hmem).mono ?_
          intro target below hreaches
          exact .group hrule hgroups hentry (groupNumber?_eq_some_iff.1 hnumber) hreaches
      · obtain ⟨index, entry, hget, rfl⟩ | ⟨index, entry, hget, -, hmem⟩ | rfl :=
          mem_arrayVisits_iff.1 hmem
        · exact .inl (.entry hrule hrules hget (.self entry _))
        · refine (entries rules hrules entry (List.mem_of_getElem? hget) hmem).mono ?_
          intro target below hreaches
          exact .entry hrule hrules hget hreaches
        · trivial

variable {context : Context}

/-- If no stop on the way through a rule fails, every rule that is reached is sound. -/
theorem sound_of_visits {rule target : Rule} {path below : AccessPath}
    (hreaches : rule.Reaches path target below)
    (h : ∀ visit ∈ rule.visits path, context.cause? visit = none) :
    target.Sound context.document := by
  induction hreaches with
  | self rule path =>
    cases hrule : rule.isReference with
    | true =>
      have hentry := h (.entry (path.field .patterns) 0 rule) <| by
        simp [visits_of_isReference hrule]
      refine ⟨Context.cause?_entry_eq_none_iff.1 hentry, ?_, ?_, ?_⟩ <;> simp [hrule]
    | false =>
      have hown := h (.rule path rule) ((mem_visits_iff hrule).2 (.inl rfl))
      rw [Context.cause?, Option.map_eq_none_iff, defect?_eq_none_iff] at hown
      refine ⟨fun spelling hspelling => ?_, fun _ => hown.1, fun _ => hown.2, ?_⟩
      · simp [isReference, hspelling] at hrule
      · intro _ field entries hgroups
        have hkeys := h (.groups (path.field field) (entries.map Prod.fst)) <|
          (mem_visits_iff hrule).2 (.inr (.inl ⟨field, entries, hgroups,
            mem_groupVisits_iff.2 (.inl rfl)⟩))
        exact Context.cause?_groups_eq_none_iff.1 hkeys
  | @group rule inner _ path _ field entries _ number hrule hgroups hentry hnumber _ ih =>
    have hkeys := h (.groups (path.field field) (entries.map Prod.fst)) <|
      (mem_visits_iff hrule).2 (.inr (.inl ⟨field, entries, hgroups,
        mem_groupVisits_iff.2 (.inl rfl)⟩))
    have hmem := mem_sortedGroups_of_mem (Context.cause?_groups_eq_none_iff.1 hkeys) hentry hnumber
    refine ih fun visit hvisit => h visit ?_
    exact (mem_visits_iff hrule).2 (.inr (.inl ⟨field, entries, hgroups,
      mem_groupVisits_iff.2 (.inr ⟨number, inner, hmem, hvisit⟩)⟩))
  | @entry rule inner target path below rules index hrule hrules hget _ ih =>
    refine ih fun visit hvisit => ?_
    cases hinner : inner.isReference with
    | true =>
      -- An include in an array has its stop at the array, and there is nothing else to it.
      have hentry := h (.entry (path.field .patterns) index inner) <|
        (mem_visits_iff hrule).2 (.inr (.inr ⟨rules, hrules,
          mem_arrayVisits_iff.2 (.inl ⟨index, inner, hget, rfl⟩)⟩))
      rw [visits_of_isReference hinner, List.mem_cons, List.mem_singleton] at hvisit
      obtain rfl | rfl := hvisit
      · exact Context.cause?_entry_eq_none_iff.2 (Context.cause?_entry_eq_none_iff.1 hentry)
      · rfl
    | false =>
      exact h visit <| (mem_visits_iff hrule).2 (.inr (.inr ⟨rules, hrules,
        mem_arrayVisits_iff.2 (.inr (.inl ⟨index, inner, hget, hinner, hvisit⟩))⟩))

/-- If every rule that is reached is sound, no stop fails. -/
theorem cause?_eq_none_of_sound {rule : Rule} {path : AccessPath}
    (h : ∀ target below, rule.Reaches path target below → target.Sound context.document)
    {visit : Visit} (hvisit : visit ∈ rule.visits path) : context.cause? visit = none := by
  have hmeets := meets_of_mem_visits hvisit
  cases visit with
  | rule below target =>
    obtain ⟨hreaches, htarget⟩ := hmeets
    have hsound := h target below hreaches
    rw [Context.cause?, Option.map_eq_none_iff, defect?_eq_none_iff]
    exact ⟨hsound.single htarget, hsound.span htarget⟩
  | groups below keys =>
    obtain ⟨target, above, field, entries, hreaches, htarget, hgroups, rfl, rfl⟩ := hmeets
    exact Context.cause?_groups_eq_none_iff.2
      ((h target above hreaches).groups htarget field entries hgroups)
  | entry array index entry =>
    have hsound : entry.Sound context.document := by
      obtain hreaches | ⟨above, hreaches, -⟩ := hmeets
      · exact h entry _ hreaches
      · exact h entry above hreaches
    exact Context.cause?_entry_eq_none_iff.2 hsound.reference
  | filled array entries => rfl

/-- No stop on the way through a rule fails exactly if every rule that is reached is sound. -/
theorem cause?_visits_iff {rule : Rule} {path : AccessPath} :
    (∀ visit ∈ rule.visits path, context.cause? visit = none) ↔
      ∀ target below, rule.Reaches path target below → target.Sound context.document :=
  ⟨fun h _ _ hreaches => sound_of_visits hreaches h, fun h _ => cause?_eq_none_of_sound h⟩

end Rule

end PatternTable
