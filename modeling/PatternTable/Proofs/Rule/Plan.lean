import PatternTable.Proofs.Rule.Visits

/-!
# Building a rule is going through it

Results:
* `Rule.plan_eq_visits`: building a rule at a path does what is done at its stops, one after the
  other, and ends with its node.
-/

namespace PatternTable

namespace Build

variable {α β : Type}

theorem fail_bind (cause : Cause) (next : α → Build β) :
    (fail cause : Build α) >>= next = fail cause := rfl

theorem leave_empty : leave {} = pure () := rfl

theorem leave_bind_leave (a b : Trail) : (leave a >>= fun _ => leave b) = leave (a ++ b) := rfl

theorem optionally_eq_leave {build : α → Build β} {trail : α → Trail} {result : α → β}
    (h : ∀ a, build a = leave (trail a) >>= fun _ => pure (result a)) (value : Option α) :
    optionally value build =
      leave ((value.map trail).getD {}) >>= fun _ => pure (value.map result).toList := by
  cases value with
  | none => rfl
  | some a => simp [optionally, h a]

end Build

namespace Context

/-! ## Own items -/

theorem tokenItem_eq (context : Context) (path : AccessPath) (name scope : String) :
    context.tokenItem path name scope =
      Build.leave (context.tokenTrail path scope) >>= fun _ =>
        pure (context.tokenMember name scope) := by
  simp only [tokenItem, tokenTrail, tokenMember]
  cases (context.config.classifier.classify scope).isResolved <;> rfl

theorem patternItem_eq (context : Context) (name : String) (captures : Bool) (pattern : String) :
    context.patternItem name captures pattern =
      Build.leave (context.patternTrail pattern) >>= fun _ =>
        pure (context.patternMember name captures pattern) := rfl

theorem ownRule_eq (context : Context) {rule : Rule} (h : rule.defect? = none) (inner : Inner)
    (path : AccessPath) : context.ownRule rule inner path = (do
      Build.leave ((rule.name.map (context.tokenTrail path)).getD {} ++
        (rule.contentName.map (context.tokenTrail path)).getD {} ++
        (rule.single.map context.patternTrail).getD {} ++
        (rule.opening.map context.patternTrail).getD {} ++
        (rule.closing.map context.patternTrail).getD {})
      let captures ← Build.optionally inner.captures (captureItem path .captures)
      let opening ← Build.optionally inner.openingCaptures (captureItem path .openingCaptures)
      let closing ← Build.optionally inner.closingCaptures (captureItem path .closingCaptures)
      let patterns ← Build.optionally inner.patterns fun entries => do
        let node ← context.array entries (path.field .patterns)
        return Item.plain "patterns" node
      let items := context.ownItems rule path ++ (captures ++ (opening ++ closing)) ++ patterns
      if items.isEmpty then
        Build.leave { findings := [⟨.emptyRule, context.document, path.text, some path.text⟩] }
      return .object items) := by
  simp only [ownRule, h, ownItems, ← Build.leave_bind_leave]
  rw [Build.optionally_eq_leave (context.tokenItem_eq path "token"),
    Build.optionally_eq_leave (context.tokenItem_eq path "contentToken"),
    Build.optionally_eq_leave (context.patternItem_eq "match" _),
    Build.optionally_eq_leave (context.patternItem_eq "begin" _),
    Build.optionally_eq_leave (context.patternItem_eq "end" _)]
  simp only [bind_assoc, pure_bind, List.append_assoc]

theorem ownRule_of_defect (context : Context) {rule : Rule} {defect : Defect}
    (h : rule.defect? = some defect) (inner : Inner) (path : AccessPath) :
    context.ownRule rule inner path = Build.fail (.defect path defect) := by
  simp only [ownRule, h, Build.fail_bind]

/-! ## Stops -/

theorem visitAll_nil (context : Context) : context.visitAll [] = pure () := rfl

theorem visitAll_cons (context : Context) (visit : Visit) (visits : List Visit) :
    context.visitAll (visit :: visits) =
      context.visit visit >>= fun _ => context.visitAll visits := rfl

theorem visitAll_append (context : Context) (visits others : List Visit) :
    context.visitAll (visits ++ others) =
      context.visitAll visits >>= fun _ => context.visitAll others :=
  List.forM_append

theorem visit_eq_leave {context : Context} {visit : Visit} (h : context.cause? visit = none) :
    context.visit visit = Build.leave (context.trail visit) := by
  rw [Context.visit, h]
  rfl

theorem visit_rule_of_defect (context : Context) {rule : Rule} {defect : Defect}
    (h : rule.defect? = some defect) (path : AccessPath) :
    context.visit (.rule path rule) = Build.fail (.defect path defect) := by
  simp [Context.visit, cause?, trail, h, Build.fail]

theorem visit_rule (context : Context) {rule : Rule} (h : rule.defect? = none)
    (path : AccessPath) :
    context.visit (.rule path rule) = Build.leave (context.ownTrail rule path) := by
  rw [visit_eq_leave (by simp [cause?, h]), trail]
  simp [h]

/-- A rule is built by going through it: its plan does what is done at its stops, and ends with its
    node. -/
def PlansAs (context : Context) (plan : Plan) (visits : AccessPath → List Visit)
    (node : AccessPath → Node) : Prop :=
  ∀ path, plan path = context.visitAll (visits path) >>= fun _ => pure (node path)

variable {context : Context} {plan : Rule → Plan} {visits : Rule → AccessPath → List Visit}
  {node : Rule → AccessPath → Node}

/-! ## Arrays -/

/-- The slot of an entry whose own rule is built by a plan. -/
def slotOf (context : Context) (entry : Rule × Plan) : Slot :=
  match entry.1.reference with
  | some spelling =>
    match context.inlined? spelling with
    | some identifier => .inlined identifier
    | none => .patched
  | none => .nested entry.2

theorem visit_entry_of_none (context : Context) {entry : Rule} (h : entry.reference = none)
    (array : AccessPath) (index : Nat) : context.visit (.entry array index entry) = pure () := by
  simp only [visit, cause?, trail, entryTrail, internalPatch?, externalPatch?, h]
  rfl

theorem includeSlot_eq (context : Context) {entry : Rule} {spelling : String}
    (h : entry.reference = some spelling) (array : AccessPath) (index : Nat) (plan : Plan) :
    context.includeSlot array index entry spelling =
      context.visit (.entry array index entry) >>= fun _ =>
        pure (context.slotOf (entry, plan)) := by
  simp only [includeSlot, visit, cause?, trail, entryTrail, internalPatch?, externalPatch?, slotOf,
    inlined?, h, Option.filter]
  obtain hparse | ⟨reference, hparse⟩ :=
    (Reference.parse? context.document spelling).eq_none_or_eq_some
  · simp only [hparse, Option.isNone_none, ↓reduceIte]
    cases entry.hasIgnoredFields <;> rfl
  · simp only [hparse, Option.isNone_some, Bool.false_eq_true, ↓reduceIte]
    cases reference with
    | external document target => cases entry.hasIgnoredFields <;> rfl
    | internal target =>
      cases hdefined : context.isDefined target <;> simp only [hdefined] <;>
        cases entry.hasIgnoredFields <;> rfl

theorem slots_eq (context : Context) (array : AccessPath) (start : Nat)
    (entries : List (Rule × Plan)) : context.slots array start entries =
      context.visitAll ((entries.zipIdx start).map fun (entry, index) =>
        .entry array index entry.1) >>= fun _ => pure (entries.map context.slotOf) := by
  induction entries generalizing start with
  | nil => rfl
  | cons entry entries ih =>
    rcases entry with ⟨rule, plan⟩
    simp only [slots, List.map_cons, List.zipIdx_cons, visitAll_cons, ih]
    obtain hreference | ⟨spelling, hreference⟩ := rule.reference.eq_none_or_eq_some
    · have hslot : context.slotOf (rule, plan) = .nested plan := by
        simp only [slotOf, hreference]
      simp only [hreference, visit_entry_of_none context hreference, hslot, bind_assoc, pure_bind]
    · simp only [hreference, includeSlot_eq context hreference array start plan, bind_assoc,
        pure_bind]

/-- The elements that stand in the cells, with the indices of the cells from `start` on. -/
def elements (start : Nat) (cells : List (Option Node)) : List (Nat × Node) :=
  (cells.zipIdx start).filterMap fun (cell, index) => cell.map fun node => (index, node)

theorem elements_fst (start : Nat) (cells : List (Option Node)) :
    (elements start cells).map Prod.fst = Cells.filledFrom start cells := by
  simp [elements, Cells.filledFrom, List.map_filterMap, Function.comp_def]

theorem elements_snd (start : Nat) (cells : List (Option Node)) :
    (elements start cells).map Prod.snd = cells.reduceOption := by
  induction cells generalizing start with
  | nil => rfl
  | cons cell cells ih =>
    simp only [elements] at ih ⊢
    cases cell <;> simp [ih]

theorem fillSlots_eq {entries : List Rule} (h : ∀ entry ∈ entries, entry.reference = none →
      context.PlansAs (plan entry) (visits entry) (node entry)) (array : AccessPath) (start : Nat) :
    fillSlots array start (entries.map fun entry => context.slotOf (entry, plan entry)) =
      context.visitAll ((entries.zipIdx start).flatMap fun (entry, index) =>
        if entry.isReference then [] else visits entry (array.index index)) >>= fun _ =>
      pure (elements start
        (context.cells array start (entries.map fun entry => (entry, node entry)))) := by
  induction entries generalizing start with
  | nil => rfl
  | cons entry entries ih =>
    have ih := ih (fun entry hmem => h entry (List.mem_cons_of_mem _ hmem)) (start + 1)
    rw [List.map_cons, List.zipIdx_cons, List.flatMap_cons, visitAll_append, List.map_cons, cells,
      List.zipIdx_cons, List.map_cons, elements, List.zipIdx_cons]
    rw [cells, elements] at ih
    obtain hreference | ⟨spelling, hreference⟩ := entry.reference.eq_none_or_eq_some
    · have hslot : context.slotOf (entry, plan entry) = .nested (plan entry) := by
        simp only [slotOf, hreference]
      rw [hslot, fillSlots, ih, h entry List.mem_cons_self hreference]
      simp [cell, hreference, Rule.isReference]
    · cases hinlined : context.inlined? spelling with
      | none =>
        have hslot : context.slotOf (entry, plan entry) = .patched := by
          simp only [slotOf, hreference, hinlined]
        rw [hslot, fillSlots, ih]
        simp [cell, hreference, hinlined, Rule.isReference, visitAll_nil]
      | some identifier =>
        have hslot : context.slotOf (entry, plan entry) = .inlined identifier := by
          simp only [slotOf, hreference, hinlined]
        rw [hslot, fillSlots, ih]
        simp [cell, hreference, hinlined, Rule.isReference, visitAll_nil]

theorem filled_cells (context : Context) (array : AccessPath)
    (entries : List (Rule × (AccessPath → Node))) :
    Cells.filled (context.cells array 0 entries) = Cells.filled ((entries.map Prod.fst).map
      fun entry => if context.stands entry then some () else none) := by
  refine Cells.filledFrom_congr ?_ 0
  suffices ∀ start, (context.cells array start entries).map Option.isSome =
      ((entries.map Prod.fst).map fun entry =>
        if context.stands entry then some () else none).map Option.isSome from this 0
  induction entries with
  | nil => intro start; rfl
  | cons entry entries ih =>
    intro start
    simp only [List.map_cons, cells, List.zipIdx_cons] at ih ⊢
    rw [ih]
    congr 1
    rw [stands, cell]
    cases entry.1.reference with
    | none => rfl
    | some spelling => cases h : context.inlined? spelling <;> simp [h]

theorem map_fst_pair {α : Type} (f : Rule → α) (entries : List Rule) :
    (entries.map fun entry => (entry, f entry)).map Prod.fst = entries := by
  rw [List.map_map]
  exact List.map_id entries

theorem arrayOfSlots_eq {entries : List Rule} (h : ∀ entry ∈ entries, entry.reference = none →
      context.PlansAs (plan entry) (visits entry) (node entry)) (array : AccessPath) :
    (context.visitAll (entries.zipIdx.map fun (entry, index) => .entry array index entry) >>=
        fun _ => arrayOfSlots array (entries.map fun entry => context.slotOf (entry, plan entry))) =
      context.visitAll (arrayVisits array (entries.map fun entry => (entry, visits entry))) >>=
        fun _ => pure (context.arrayNode array (entries.map fun entry => (entry, node entry))) := by
  have hfilled : context.cause? (.filled array entries) = none := rfl
  rw [arrayOfSlots, fillSlots_eq h, arrayVisits, visitAll_append, visitAll_append, visitAll_cons,
    visitAll_nil, map_fst_pair, visit_eq_leave hfilled]
  simp only [bind_assoc, pure_bind, elements_fst, elements_snd, List.zipIdx_map, List.flatMap_map,
    List.map_map]
  rw [← Cells.filled, filled_cells, map_fst_pair]
  rfl

theorem array_eq {entries : List Rule} (h : ∀ entry ∈ entries, entry.reference = none →
      context.PlansAs (plan entry) (visits entry) (node entry)) (array : AccessPath) :
    context.array (entries.map fun entry => (entry, plan entry)) array =
      context.visitAll (arrayVisits array (entries.map fun entry => (entry, visits entry))) >>=
        fun _ => pure (context.arrayNode array (entries.map fun entry => (entry, node entry))) := by
  rw [← arrayOfSlots_eq h, Context.array, slots_eq]
  simp only [bind_assoc, pure_bind, List.zipIdx_map, List.map_map]
  rfl

/-- The array of a lone include. -/
theorem loneInclude_eq (context : Context) {rule : Rule} {spelling : String}
    (h : rule.reference = some spelling) (array : AccessPath) :
    (do
      let slot ← context.includeSlot array 0 rule spelling
      arrayOfSlots array [slot]) =
      context.visitAll (arrayVisits array [(rule, fun _ => [])]) >>= fun _ =>
        pure (context.arrayNode array [(rule, fun _ => .object [])]) := by
  have hentries : ∀ entry ∈ [rule], entry.reference = none →
      context.PlansAs (fun _ => pure (.object [])) (fun _ => []) fun _ => .object [] := by
    simp [h]
  have harray := arrayOfSlots_eq hentries array
  rw [includeSlot_eq context h array 0 fun _ => pure (.object [])]
  simpa only [List.zipIdx_cons, List.zipIdx_nil, List.map_cons, List.map_nil, visitAll_cons,
    visitAll_nil, bind_assoc, pure_bind] using harray

/-! ## Groups -/

theorem groupItems_eq {groups : List (Nat × Rule)} (h : ∀ group ∈ groups,
      context.PlansAs (plan group.2) (visits group.2) (node group.2)) (path : AccessPath) :
    groupItems path (groups.map fun group => (group.1, plan group.2)) =
      context.visitAll (groups.flatMap fun group => visits group.2 (path.group group.1)) >>=
        fun _ => pure (groups.map fun group =>
          .plain (toString group.1) (node group.2 (path.group group.1))) := by
  induction groups with
  | nil => rfl
  | cons group groups ih =>
    simp only [List.map_cons, List.flatMap_cons, groupItems, visitAll_append]
    rw [ih fun group hmem => h group (List.mem_cons_of_mem _ hmem), h group List.mem_cons_self]
    simp only [bind_assoc, pure_bind]

theorem visit_groups (context : Context) (path : AccessPath) (entries : List (String × Rule)) :
    context.visit (.groups path (entries.map Prod.fst)) =
      match numbered [] entries with
      | .error key => Build.fail (.defect path (.invalidGroup key))
      | .ok _ => pure () := by
  have hkeys : (entries.map Prod.fst).map (fun key => (key, ())) =
      entries.map fun entry => (entry.1, ()) := by
    rw [List.map_map]
    rfl
  rw [visit, cause?, hkeys, numbered_map fun _ => ()]
  cases numbered [] entries <;> rfl

theorem captureField_eq {entries : List (String × Rule)} (h : ∀ entry ∈ entries,
      context.PlansAs (plan entry.2) (visits entry.2) (node entry.2)) (path : AccessPath) :
    captureField (entries.map fun entry => (entry.1, plan entry.2)) path =
      context.visitAll (groupVisits path (entries.map fun entry => (entry.1, visits entry.2))) >>=
        fun _ => pure (groupsNode path (entries.map fun entry => (entry.1, node entry.2))) := by
  have hkeys : (entries.map fun entry => (entry.1, visits entry.2)).map Prod.fst =
      entries.map Prod.fst := by
    rw [List.map_map]
    rfl
  rw [captureField, groupVisits, visitAll_cons, hkeys, visit_groups, groupsNode, sortedGroups_map,
    sortedGroups_map, numbered_map plan]
  cases hnumbered : numbered [] entries with
  | error key => rfl
  | ok groups =>
    have hsorted : (groups.map fun group => (group.1, plan group.2)).mergeSort
        (fun a b => a.1 ≤ b.1) =
          (sortedGroups entries).map fun group => (group.1, plan group.2) := by
      rw [sortedGroups, hnumbered, List.map_mergeSort]
      exact fun _ _ _ _ => rfl
    have hgroups : ∀ group ∈ sortedGroups entries,
        context.PlansAs (plan group.2) (visits group.2) (node group.2) := by
      intro group hmem
      obtain ⟨key, hentry, -⟩ := mem_sortedGroups hmem
      exact h (key, group.2) hentry
    simp only [Except.map, pure_bind]
    rw [hsorted, groupItems_eq hgroups]
    simp only [bind_assoc, pure_bind, List.flatMap_map, List.map_map, Function.comp_def]

/-! ## Rules -/

theorem optionalGroups_eq {entries? : Option (List (String × Rule))}
    (h : ∀ entries, entries? = some entries → ∀ entry ∈ entries,
      context.PlansAs (plan entry.2) (visits entry.2) (node entry.2))
    (path : AccessPath) (field : Field) :
    Build.optionally (entries?.map (List.map fun entry => (entry.1, plan entry.2)))
        (captureItem path field) =
      context.visitAll (((entries?.map (List.map fun entry => (entry.1, visits entry.2))).map
        (groupVisits (path.field field))).getD []) >>= fun _ =>
      pure ((entries?.map (List.map fun entry => (entry.1, node entry.2))).map fun entries =>
        Item.plain field.name (groupsNode (path.field field) entries)).toList := by
  cases entries? with
  | none => simp [Build.optionally, visitAll_nil]
  | some entries =>
    simp only [Option.map_some, Build.optionally, captureItem, captureField_eq (h entries rfl),
      bind_assoc, pure_bind, Option.getD_some, Option.toList_some]

theorem optionalPatterns_eq {rules? : Option (List Rule)}
    (h : ∀ rules, rules? = some rules → ∀ entry ∈ rules,
      context.PlansAs (plan entry) (visits entry) (node entry)) (path : AccessPath) :
    (Build.optionally (rules?.map (List.map fun entry => (entry, plan entry))) fun entries => do
        let node ← context.array entries (path.field .patterns)
        return Item.plain "patterns" node) =
      context.visitAll (((rules?.map (List.map fun entry => (entry, visits entry))).map
        (arrayVisits (path.field .patterns))).getD []) >>= fun _ =>
      pure ((rules?.map (List.map fun entry => (entry, node entry))).map fun entries =>
        Item.plain "patterns" (context.arrayNode (path.field .patterns) entries)).toList := by
  cases rules? with
  | none => simp [Build.optionally, visitAll_nil]
  | some rules =>
    simp only [Option.map_some, Build.optionally,
      array_eq fun entry hmem _ => h rules rfl entry hmem, bind_assoc, pure_bind,
      Option.getD_some, Option.toList_some]

theorem isEmpty_items (own : List Item) (a b c d : Option Item) :
    (own ++ (a.toList ++ (b.toList ++ c.toList)) ++ d.toList).isEmpty =
      (own.isEmpty && a.isNone && b.isNone && c.isNone && d.isNone) := by
  cases own <;> cases a <;> cases b <;> cases c <;> cases d <;> rfl

theorem isEmptyRule_iff {rule : Rule} {path : AccessPath} :
    context.isEmptyRule rule path ↔ context.ownItems rule path = [] ∧ rule.captures = none ∧
      rule.openingCaptures = none ∧ rule.closingCaptures = none ∧ rule.patterns = none := by
  simp [isEmptyRule, and_assoc]

end Context

/-- Building a rule is going through it. -/
theorem Rule.plan_eq_visits (context : Context) (rule : Rule) :
    context.PlansAs (rule.plan context) rule.visits (rule.node context) := by
  induction rule using Rule.induction with
  | step rule groups entries =>
    intro path
    rw [Rule.plan_eq, Rule.visits, Rule.node, Rule.fold_eq, Rule.fold_eq, Context.ruleObject]
    obtain hreference | ⟨spelling, hreference⟩ := rule.reference.eq_none_or_eq_some
    · have hcaptures := Context.optionalGroups_eq (groups .captures) path .captures
      have hopening := Context.optionalGroups_eq (groups .openingCaptures) path .openingCaptures
      have hclosing := Context.optionalGroups_eq (groups .closingCaptures) path .closingCaptures
      have hpatterns := Context.optionalPatterns_eq entries path
      simp only [Rule.groups] at hcaptures hopening hclosing
      simp only [hreference, Rule.visitsOf, Context.nodeOf, Rule.isReference, Option.isSome_none,
        Bool.false_eq_true, ↓reduceIte, Context.visitAll_cons, Context.visitAll_append,
        Field.captureFields, List.flatMap_cons, List.flatMap_nil, List.append_nil, Rule.groups]
      obtain hdefect | ⟨defect, hdefect⟩ := rule.defect?.eq_none_or_eq_some
      · rw [Context.ownRule_eq context hdefect, hcaptures, hopening, hclosing, hpatterns,
          Context.visit_rule context hdefect, Context.ownTrail]
        simp only [bind_assoc, pure_bind, Context.isEmpty_items, Option.isNone_map,
          ← Build.leave_bind_leave]
        -- The finding on a rule without items comes last, but then there are no rules inside.
        by_cases hempty : context.isEmptyRule rule path
        · obtain ⟨hown, hc, ho, hl, hp⟩ := Context.isEmptyRule_iff.1 hempty
          simp [hempty, hown, hc, ho, hl, hp, Context.visitAll_nil]
        · have hitems := hempty
          rw [Context.isEmptyRule] at hitems
          simp only [hempty, hitems, Bool.false_eq_true, ↓reduceIte, pure_bind, Build.leave_empty]
          rfl
      · rw [Context.ownRule_of_defect context hdefect, Context.visit_rule_of_defect context hdefect]
        rfl
    · have hlone := Context.loneInclude_eq context hreference (path.field .patterns)
      simp only [hreference]
      rw [← bind_assoc, hlone]
      simp only [Rule.visitsOf, Context.nodeOf, Rule.isReference, hreference, Option.isSome_some,
        ↓reduceIte, bind_assoc, pure_bind]

end PatternTable
