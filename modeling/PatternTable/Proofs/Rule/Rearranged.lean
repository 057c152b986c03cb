import PatternTable.Proofs.Rule.GroupOrder
import PatternTable.Proofs.Rule.Nodes
import PatternTable.Proofs.Rule.Plan
import PatternTable.Proofs.Rule.Soundness
import PatternTable.Proofs.Table.Trail

/-!
# Rearranging the captures of a rule

The entries of a capture field may be put in another order and their group numbers be respelled,
in a rule and in the rules inside it. Such rules are built alike. The groups are built in the order
of their numbers, so the trail is that of the same stops; but when building fails, it may well fail
at another entry.

* `Rule.Rearranged`: one rule is another one with the captures rearranged.
* `Rule.Alike`: two rules are built alike.

Results:
* `Rule.Alike.of_parts`: rules whose parts are built alike are.
* `Rule.Rearranged.alike`: so are rules of which one is the other one rearranged.
-/

namespace PatternTable

/-! ## Specification -/

namespace Rule

/-- A rule with other entries in a capture field. -/
def withGroups (rule : Rule) (field : Field) (entries : Captures) : Rule :=
  match field with
  | .captures => { rule with captures := some entries }
  | .openingCaptures => { rule with openingCaptures := some entries }
  | .closingCaptures => { rule with closingCaptures := some entries }
  | .patterns => rule

/-- A rule has the captures of another one, and so do the rules inside it, but in another order or
    with other spellings of the group numbers. -/
inductive Rearranged : Rule → Rule → Prop where
  | refl (rule : Rule) : Rearranged rule rule
  | trans {rule middle other : Rule} (h : Rearranged rule middle) (h' : Rearranged middle other) :
    Rearranged rule other
  /-- The entries of a capture field come in another order. -/
  | permuted (rule : Rule) (field : Field) {entries others : Captures} (h : entries.Perm others) :
    Rearranged (rule.withGroups field entries) (rule.withGroups field others)
  /-- An entry of a capture field has another spelling of its group number. -/
  | respelled (rule : Rule) (field : Field) (before after : Captures) (inner : Rule)
    {key other : String} (h : Respelled key other) :
    Rearranged (rule.withGroups field (before ++ (key, inner) :: after))
      (rule.withGroups field (before ++ (other, inner) :: after))
  | group (rule : Rule) (field : Field) (before after : Captures) (key : String)
    {inner other : Rule} (h : Rearranged inner other) :
    Rearranged (rule.withGroups field (before ++ (key, inner) :: after))
      (rule.withGroups field (before ++ (key, other) :: after))
  | entry (rule : Rule) (before after : List Rule) {inner other : Rule}
    (h : Rearranged inner other) :
    Rearranged { rule with patterns := some (before ++ inner :: after) }
      { rule with patterns := some (before ++ other :: after) }

/-- A rule without the rules inside it. -/
def bare (rule : Rule) : Rule :=
  { rule with
    captures := rule.captures.map fun _ => []
    openingCaptures := rule.openingCaptures.map fun _ => []
    closingCaptures := rule.closingCaptures.map fun _ => []
    patterns := rule.patterns.map fun _ => [] }

end Rule

/-- Going through some stops comes to the same as going through others: either both ways end at a
    failure or neither does, and they leave one trail. -/
structure Context.SameWay (context : Context) (visits others : List Visit) : Prop where
  ends : (∀ visit ∈ visits, context.cause? visit = none) ↔
    ∀ visit ∈ others, context.cause? visit = none
  trail : Trail.concat (visits.map context.trail) = Trail.concat (others.map context.trail)

/-- Two rules are built alike, wherever they are and whatever is defined before. -/
structure Rule.Alike (rule other : Rule) : Prop where
  /-- They differ in the rules inside them only. -/
  bare : rule.bare = other.bare
  node : ∀ context path, rule.node context path = other.node context path
  way : ∀ (context : Context) path, context.SameWay (rule.visits path) (other.visits path)

/-- The entries of two capture fields are built alike. -/
structure Captures.Alike (entries others : Captures) : Prop where
  keys : GroupKeys (entries.map Prod.fst) ↔ GroupKeys (others.map Prod.fst)
  groups : List.Forall₂ (fun group other => group.1 = other.1 ∧ group.2.Alike other.2)
    (sortedGroups entries) (sortedGroups others)

/-! ## Ways -/

theorem map_congr_forall₂ {α β γ : Type} {r : α → β → Prop} {f : α → γ} {g : β → γ}
    {list : List α} {others : List β} (h : List.Forall₂ r list others)
    (hr : ∀ a b, r a b → f a = g b) : list.map f = others.map g := by
  rw [← List.forall₂_eq_eq_eq, List.forall₂_map_left_iff, List.forall₂_map_right_iff]
  exact h.imp hr

theorem optionRel_refl {α : Type} {r : α → α → Prop} (hr : ∀ a, r a a) (value : Option α) :
    Option.Rel r value value :=
  match value with
  | none => .none
  | some a => .some (hr a)

theorem isSome_congr_rel {α β : Type} {r : α → β → Prop} {value : Option α} {other : Option β}
    (h : Option.Rel r value other) : value.isSome = other.isSome := by
  cases h <;> rfl

theorem optionMap_congr_rel {α β γ : Type} {r : α → β → Prop} {f : α → γ} {g : β → γ}
    {value : Option α} {other : Option β} (h : Option.Rel r value other)
    (hr : ∀ a b, r a b → f a = g b) : value.map f = other.map g := by
  cases h with
  | none => rfl
  | some h => exact congrArg some (hr _ _ h)

theorem forall₂_zipIdx {α β : Type} {r : α → β → Prop} {list : List α} {others : List β}
    (h : List.Forall₂ r list others) (start : Nat) :
    List.Forall₂ (fun a b => r a.1 b.1 ∧ a.2 = b.2) (list.zipIdx start) (others.zipIdx start) := by
  induction h generalizing start with
  | nil => exact .nil
  | cons hhead _ ih => exact .cons ⟨hhead, rfl⟩ (ih (start + 1))

namespace Context.SameWay

variable {context : Context} {visits others visits' others' : List Visit}

theorem refl (context : Context) (visits : List Visit) : context.SameWay visits visits :=
  ⟨Iff.rfl, rfl⟩

theorem trans (h : context.SameWay visits others) (h' : context.SameWay others others') :
    context.SameWay visits others' :=
  ⟨h.ends.trans h'.ends, h.trail.trans h'.trail⟩

theorem append (h : context.SameWay visits others) (h' : context.SameWay visits' others') :
    context.SameWay (visits ++ visits') (others ++ others') := by
  constructor
  · rw [List.forall_mem_append, List.forall_mem_append, h.ends, h'.ends]
  · rw [List.map_append, List.map_append, Trail.concat_append, Trail.concat_append, h.trail,
      h'.trail]

/-- Stops that fail alike and leave one trail. -/
theorem single {visit other : Visit}
    (hends : context.cause? visit = none ↔ context.cause? other = none)
    (htrail : context.trail visit = context.trail other) : context.SameWay [visit] [other] := by
  constructor
  · simpa using hends
  · rw [List.map_singleton, List.map_singleton, htrail]

theorem flatMap {α β : Type} {r : α → β → Prop} {f : α → List Visit} {g : β → List Visit}
    {list : List α} {list' : List β} (h : List.Forall₂ r list list')
    (hr : ∀ a b, r a b → context.SameWay (f a) (g b)) :
    context.SameWay (list.flatMap f) (list'.flatMap g) := by
  induction h with
  | nil => exact refl context []
  | cons hhead _ ih => exact (hr _ _ hhead).append ih

theorem optional {α β : Type} {r : α → β → Prop} {f : α → List Visit} {g : β → List Visit}
    {value : Option α} {other : Option β} (h : Option.Rel r value other)
    (hr : ∀ a b, r a b → context.SameWay (f a) (g b)) :
    context.SameWay ((value.map f).getD []) ((other.map g).getD []) := by
  cases h with
  | none => exact refl context []
  | some h => exact hr _ _ h

end Context.SameWay

/-! ## Parts that hold no other rules -/

namespace Rule

theorem hasIgnoredFields_bare (rule : Rule) :
    rule.bare.hasIgnoredFields = rule.hasIgnoredFields := by
  simp [bare, hasIgnoredFields, hasPattern]

variable (context : Context)

theorem ownItems_bare (rule : Rule) (path : AccessPath) :
    context.ownItems rule.bare path = context.ownItems rule path := by
  simp [bare, Context.ownItems, hasPattern]

theorem ownTrail_bare (rule : Rule) (path : AccessPath) :
    context.ownTrail rule.bare path = context.ownTrail rule path := by
  have hempty : context.isEmptyRule rule.bare path = context.isEmptyRule rule path := by
    rw [Context.isEmptyRule, Context.isEmptyRule, ownItems_bare]
    simp [bare]
  rw [Context.ownTrail, Context.ownTrail, hempty]
  rfl

variable {context} {rule other : Rule}

theorem reference_eq_of_bare (h : rule.bare = other.bare) : rule.reference = other.reference := by
  show rule.bare.reference = other.bare.reference
  rw [h]

theorem isReference_eq_of_bare (h : rule.bare = other.bare) :
    rule.isReference = other.isReference := by
  rw [isReference, isReference, reference_eq_of_bare h]

theorem sameWay_rule (h : rule.bare = other.bare) (path : AccessPath) :
    context.SameWay [.rule path rule] [.rule path other] := by
  have hdefect : rule.defect? = other.defect? := by
    show rule.bare.defect? = other.bare.defect?
    rw [h]
  have htrail : context.ownTrail rule path = context.ownTrail other path := by
    rw [← ownTrail_bare, h, ownTrail_bare]
  refine .single ?_ ?_
  · rw [Context.cause?, Context.cause?, hdefect]
  · rw [Context.trail, Context.trail, hdefect, htrail]

theorem sameWay_entry (h : rule.bare = other.bare) (array : AccessPath) (index : Nat) :
    context.SameWay [.entry array index rule] [.entry array index other] := by
  have hreference := reference_eq_of_bare h
  have hignored : rule.hasIgnoredFields = other.hasIgnoredFields := by
    rw [← hasIgnoredFields_bare rule, h, hasIgnoredFields_bare]
  refine .single ?_ ?_
  · rw [Context.cause?, Context.cause?, hreference]
  · simp only [Context.trail, Context.entryTrail, Context.internalPatch?, Context.externalPatch?,
      hreference, hignored]

theorem sameWay_filled {rules others : List Rule}
    (h : List.Forall₂ (fun rule other : Rule => rule.bare = other.bare) rules others)
    (array : AccessPath) : context.SameWay [.filled array rules] [.filled array others] := by
  refine .single Iff.rfl ?_
  rw [Context.trail, Context.trail, map_congr_forall₂ h fun rule other hbare => ?_]
  rw [Context.stands, reference_eq_of_bare hbare, Context.stands]

end Rule

/-! ## Parts with other rules -/

namespace Rule

variable {context : Context} {rule other : Rule}

theorem Alike.refl (rule : Rule) : rule.Alike rule :=
  ⟨rfl, fun _ _ => rfl, fun context _ => .refl context _⟩

theorem Alike.trans {middle : Rule} (h : rule.Alike middle) (h' : middle.Alike other) :
    rule.Alike other :=
  ⟨h.bare.trans h'.bare, fun context path => (h.node context path).trans (h'.node context path),
    fun context path => (h.way context path).trans (h'.way context path)⟩

/-- Arrays of rules that are built alike are gone through alike. -/
theorem sameWay_arrayVisits {rules others : List Rule} (h : List.Forall₂ Alike rules others)
    (array : AccessPath) : context.SameWay
      (arrayVisits array (rules.map fun entry => (entry, entry.visits)))
      (arrayVisits array (others.map fun entry => (entry, entry.visits))) := by
  have hzip := forall₂_zipIdx h 0
  rw [arrayVisits, arrayVisits, Context.map_fst_pair, Context.map_fst_pair, List.zipIdx_map,
    List.zipIdx_map, List.map_map, List.map_map, List.flatMap_map, List.flatMap_map,
    List.map_eq_flatMap, List.map_eq_flatMap]
  refine .append (.append (.flatMap hzip ?_) (.flatMap hzip ?_)) ?_
  · rintro ⟨entry, index⟩ ⟨entry', _⟩ ⟨halike, rfl⟩
    exact sameWay_entry halike.bare array index
  · rintro ⟨entry, index⟩ ⟨entry', _⟩ ⟨halike, rfl⟩
    have hreference := isReference_eq_of_bare halike.bare
    simp only [Prod.map_apply, id_eq, hreference]
    split
    · exact .refl context []
    · exact halike.way context _
  · exact sameWay_filled (h.imp fun _ _ halike => halike.bare) array

/-- Such arrays are equal, too. -/
theorem arrayNode_congr {rules others : List Rule} (h : List.Forall₂ Alike rules others)
    (array : AccessPath) :
    context.arrayNode array (rules.map fun entry => (entry, entry.node context)) =
      context.arrayNode array (others.map fun entry => (entry, entry.node context)) := by
  rw [Context.arrayNode, Context.arrayNode, Context.cells, Context.cells, List.zipIdx_map,
    List.zipIdx_map, List.map_map, List.map_map]
  refine congrArg (fun cells => Node.array (List.reduceOption cells))
    (map_congr_forall₂ (forall₂_zipIdx h 0) ?_)
  rintro ⟨entry, index⟩ ⟨entry', _⟩ ⟨halike, rfl⟩
  have hreference : entry.reference = entry'.reference := reference_eq_of_bare halike.bare
  have hnode := halike.node context (array.index index)
  simp only [Function.comp_apply, Prod.map_apply, id_eq, Context.cell, hreference, hnode]

theorem sameWay_groupVisits {entries others : Captures} (h : Captures.Alike entries others)
    (path : AccessPath) : context.SameWay
      (groupVisits path (entries.map fun group => (group.1, group.2.visits)))
      (groupVisits path (others.map fun group => (group.1, group.2.visits))) := by
  have hkeys : context.SameWay [.groups path (entries.map Prod.fst)]
      [.groups path (others.map Prod.fst)] := by
    refine .single ?_ rfl
    rw [Context.cause?_groups_eq_none_iff, Context.cause?_groups_eq_none_iff]
    exact h.keys
  rw [groupVisits, groupVisits, sortedGroups_map, sortedGroups_map, List.flatMap_map,
    List.flatMap_map, List.map_map, List.map_map]
  refine hkeys.append (.flatMap h.groups ?_)
  rintro ⟨number, inner⟩ ⟨_, inner'⟩ ⟨rfl, halike⟩
  exact halike.way context _

theorem groupsNode_congr {entries others : Captures} (h : Captures.Alike entries others)
    (path : AccessPath) :
    Context.groupsNode path (entries.map fun group => (group.1, group.2.node context)) =
      Context.groupsNode path (others.map fun group => (group.1, group.2.node context)) := by
  rw [Context.groupsNode, Context.groupsNode, sortedGroups_map, sortedGroups_map, List.map_map,
    List.map_map]
  refine congrArg Node.object (map_congr_forall₂ h.groups ?_)
  rintro ⟨number, inner⟩ ⟨_, inner'⟩ ⟨rfl, halike⟩
  simp only [Function.comp_apply, halike.node]

/-- Rules that differ in the rules inside them only are built alike if those are. -/
theorem Alike.of_parts (hbare : rule.bare = other.bare)
    (hgroups : ∀ field, Option.Rel Captures.Alike (rule.groups field) (other.groups field))
    (hpatterns : Option.Rel (List.Forall₂ Alike) rule.patterns other.patterns) :
    rule.Alike other := by
  have hreference := isReference_eq_of_bare hbare
  cases hrule : rule.isReference with
  | true =>
    -- Nothing inside an include is built.
    have hother : other.isReference = true := hreference ▸ hrule
    refine ⟨hbare, fun context path => ?_, fun context path => ?_⟩
    · obtain ⟨spelling, hspelling⟩ := Option.isSome_iff_exists.1 hother
      have hspelling' := (reference_eq_of_bare hbare).trans hspelling
      rw [node_of_isReference hrule, node_of_isReference hother]
      simp only [List.map_cons, List.map_nil, Context.arrayNode, Context.cells, List.zipIdx_cons,
        List.zipIdx_nil, Context.cell, hspelling, hspelling']
    · rw [visits_of_isReference hrule, visits_of_isReference hother]
      exact (sameWay_entry hbare _ 0).append (sameWay_filled (.cons hbare .nil) _)
  | false =>
    have hother : other.isReference = false := hreference ▸ hrule
    refine ⟨hbare, fun context path => ?_, fun context path => ?_⟩
    · have hown : context.ownItems rule path = context.ownItems other path := by
        rw [← ownItems_bare, hbare, ownItems_bare]
      rw [node_of_not_isReference hrule, node_of_not_isReference hother, hown]
      refine congrArg Node.object
        (congrArg₂ (· ++ ·) (congrArg (context.ownItems other path ++ ·) ?_) ?_)
      · refine List.flatMap_congr fun field _ => congrArg Option.toList ?_
        refine optionMap_congr_rel (hgroups field) fun entries others h => ?_
        rw [groupsNode_congr h]
      · refine congrArg Option.toList (optionMap_congr_rel hpatterns fun rules others h => ?_)
        rw [arrayNode_congr h]
    · rw [visits_of_not_isReference hrule, visits_of_not_isReference hother,
        ← List.singleton_append, ← List.singleton_append]
      refine .append (.append (sameWay_rule hbare path) ?_) ?_
      · refine .flatMap (List.forall₂_same.2 fun field _ => rfl) fun field other heq => ?_
        rw [← heq]
        exact .optional (hgroups field) fun entries others h => sameWay_groupVisits h _
      · exact .optional hpatterns fun rules others h => sameWay_arrayVisits h _

/-! ## Rearranged rules -/

theorem forall₂_alike_refl (rules : List Rule) : List.Forall₂ Alike rules rules :=
  List.forall₂_same.2 fun rule _ => .refl rule

theorem captures_alike_refl (entries : Captures) : Captures.Alike entries entries :=
  ⟨Iff.rfl, List.forall₂_same.2 fun group _ => ⟨rfl, .refl group.2⟩⟩

/-- Entries with the same numbers and rules are built alike, in whichever order they come. -/
theorem captures_alike_of_perm {entries others : Captures}
    (h : (entries.map fun entry => (groupNumber? entry.1, entry.2)).Perm
      (others.map fun entry => (groupNumber? entry.1, entry.2))) :
    Captures.Alike entries others := by
  constructor
  · refine groupKeys_iff_of_perm ?_
    simpa only [List.map_map, Function.comp_def] using h.map Prod.fst
  · rw [sortedGroups_eq_of_perm h]
    exact (captures_alike_refl others).groups

/-- Entries with the same keys are built alike if their rules are. -/
theorem captures_alike_of_forall₂ {entries others : Captures}
    (h : List.Forall₂ (fun entry other => entry.1 = other.1 ∧ entry.2.Alike other.2)
      entries others) : Captures.Alike entries others := by
  refine ⟨?_, forall₂_sortedGroups h⟩
  rw [map_congr_forall₂ h fun _ _ hentry => hentry.1]

/-- A rule may have other entries in a capture field if they are built alike. -/
theorem alike_withGroups (rule : Rule) (field : Field) {entries others : Captures}
    (h : Captures.Alike entries others) :
    (rule.withGroups field entries).Alike (rule.withGroups field others) := by
  refine .of_parts ?_ (fun place => ?_) ?_
  · cases field <;> rfl
  · cases field <;> cases place <;> first
      | exact .some h
      | exact optionRel_refl captures_alike_refl _
  · cases field <;> exact optionRel_refl forall₂_alike_refl _

/-- A rule whose captures are rearranged, at any depth, is built alike. -/
theorem Rearranged.alike (h : rule.Rearranged other) : rule.Alike other := by
  induction h with
  | refl rule => exact .refl rule
  | trans _ _ ih ih' => exact ih.trans ih'
  | permuted rule field h => exact alike_withGroups rule field (captures_alike_of_perm (h.map _))
  | respelled rule field before after inner h =>
    refine alike_withGroups rule field (captures_alike_of_perm ?_)
    rw [List.map_append, List.map_append, List.map_cons, List.map_cons, h.groupNumber?_eq]
  | group rule field before after key _ ih =>
    refine alike_withGroups rule field (captures_alike_of_forall₂ ?_)
    have hrefl (entries : Captures) : List.Forall₂ (fun entry other : String × Rule =>
        entry.1 = other.1 ∧ entry.2.Alike other.2) entries entries :=
      List.forall₂_same.2 fun entry _ => ⟨rfl, .refl entry.2⟩
    exact List.rel_append (hrefl before) (.cons ⟨rfl, ih⟩ (hrefl after))
  | entry rule before after _ ih =>
    refine .of_parts rfl (fun field => ?_) (.some ?_)
    · cases field <;> exact optionRel_refl captures_alike_refl _
    · exact List.rel_append (forall₂_alike_refl before) (.cons ih (forall₂_alike_refl after))

end Rule

end PatternTable
