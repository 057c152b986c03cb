import PatternTable.Table.OfGrammar

/-!
# Recursion over a rule

A rule holds other rules in its capture fields and in its `patterns`. A function of a rule that is
made from its values at the rules inside is a fold.

Results:
* `Rule.fold_eq`: what a fold makes of a rule, without its recursion over lists.
* `Rule.induction`: what holds of a rule once it holds of the rules inside it holds of every rule.
* `Rule.plan_eq`: the way of building a rule is a fold as well.
-/

namespace PatternTable

/-- What a recursion over a rule has made of the rules inside it. -/
structure Children (α : Type) where
  groups : Field → Option (List (String × α))
  patterns : Option (List (Rule × α))

namespace Rule

/-- The rules of a capture field. -/
def groups (rule : Rule) : Field → Option (List (String × Rule))
  | .captures => rule.captures
  | .openingCaptures => rule.openingCaptures
  | .closingCaptures => rule.closingCaptures
  | .patterns => none

mutual

/-- The value of a rule, made by `step` from the values of the rules inside it. -/
def fold {α : Type} (step : Rule → Children α → α) : Rule → α
  | .mk reference name contentName comment single opening closing captures openingCaptures
      closingCaptures patterns =>
    step
      (.mk reference name contentName comment single opening closing captures openingCaptures
        closingCaptures patterns)
      { groups := fun
          | .captures => foldGroups? step captures
          | .openingCaptures => foldGroups? step openingCaptures
          | .closingCaptures => foldGroups? step closingCaptures
          | .patterns => none
        patterns := foldEntries? step patterns }

/-- The values of the rules of a capture field, if there is one. -/
def foldGroups? {α : Type} (step : Rule → Children α → α) :
    Option (List (String × Rule)) → Option (List (String × α))
  | none => none
  | some entries => some (foldGroups step entries)

/-- The values of the rules of a capture field. -/
def foldGroups {α : Type} (step : Rule → Children α → α) :
    List (String × Rule) → List (String × α)
  | [] => []
  | (key, rule) :: entries => (key, fold step rule) :: foldGroups step entries

/-- The values of the rules of an array, if there is one. -/
def foldEntries? {α : Type} (step : Rule → Children α → α) :
    Option (List Rule) → Option (List (Rule × α))
  | none => none
  | some rules => some (foldEntries step rules)

/-- The values of the rules of an array. -/
def foldEntries {α : Type} (step : Rule → Children α → α) : List Rule → List (Rule × α)
  | [] => []
  | rule :: rules => (rule, fold step rule) :: foldEntries step rules

end

theorem foldGroups_eq {α : Type} (step : Rule → Children α → α) (entries : List (String × Rule)) :
    foldGroups step entries = entries.map fun entry => (entry.1, entry.2.fold step) := by
  induction entries with
  | nil => rfl
  | cons entry entries ih => rw [foldGroups, ih]; rfl

theorem foldEntries_eq {α : Type} (step : Rule → Children α → α) (rules : List Rule) :
    foldEntries step rules = rules.map fun rule => (rule, rule.fold step) := by
  induction rules with
  | nil => rfl
  | cons rule rules ih => rw [foldEntries, ih]; rfl

theorem fold_eq {α : Type} (step : Rule → Children α → α) (rule : Rule) :
    rule.fold step = step rule
      { groups := fun field => (rule.groups field).map (List.map fun entry =>
          (entry.1, entry.2.fold step))
        patterns := rule.patterns.map (List.map fun entry => (entry, entry.fold step)) } := by
  obtain ⟨reference, name, contentName, comment, single, opening, closing, captures,
    openingCaptures, closingCaptures, patterns⟩ := rule
  have groups? (entries : Option (List (String × Rule))) :
      foldGroups? step entries = entries.map (List.map fun entry =>
        (entry.1, entry.2.fold step)) := by
    cases entries with
    | none => rfl
    | some entries => rw [foldGroups?, foldGroups_eq]; rfl
  have entries? : foldEntries? step patterns =
      patterns.map (List.map fun entry => (entry, entry.fold step)) := by
    cases patterns with
    | none => rfl
    | some rules => rw [foldEntries?, foldEntries_eq]; rfl
  rw [fold]
  congr 2
  funext field
  cases field <;> simp [groups?, groups]

theorem sizeOf_group_lt {rule : Rule} {field : Field} {entries : List (String × Rule)}
    (h : rule.groups field = some entries) {entry : String × Rule} (hmem : entry ∈ entries) :
    sizeOf entry.2 < sizeOf rule := by
  have hentry : sizeOf entry.2 < sizeOf entry := by
    rcases entry with ⟨key, rule⟩
    simp only [Prod.mk.sizeOf_spec]
    omega
  have hlt := List.sizeOf_lt_of_mem hmem
  rcases rule with ⟨_, _, _, _, _, _, _, captures, opening, closing, _⟩
  cases field <;> simp only [groups, reduceCtorEq] at h <;> subst h <;> simp <;> omega

theorem sizeOf_entry_lt {rule : Rule} {rules : List Rule} (h : rule.patterns = some rules)
    {entry : Rule} (hmem : entry ∈ rules) : sizeOf entry < sizeOf rule := by
  have hlt := List.sizeOf_lt_of_mem hmem
  rcases rule with ⟨_, _, _, _, _, _, _, _, _, _, patterns⟩
  simp only at h
  subst h
  simp
  omega

theorem induction {motive : Rule → Prop}
    (step : ∀ rule : Rule,
      (∀ field entries, rule.groups field = some entries → ∀ entry ∈ entries, motive entry.2) →
      (∀ rules, rule.patterns = some rules → ∀ entry ∈ rules, motive entry) → motive rule)
    (rule : Rule) : motive rule :=
  step rule
    (fun _ _ h entry hmem => have := sizeOf_group_lt h hmem; induction step entry.2)
    (fun _ h entry hmem => have := sizeOf_entry_lt h hmem; induction step entry)
termination_by sizeOf rule

/-! ## Plans -/

theorem groupPlans_eq (context : Context) (entries : List (String × Rule)) :
    groupPlans context entries = entries.map fun entry => (entry.1, entry.2.plan context) := by
  induction entries with
  | nil => rfl
  | cons entry entries ih => rw [groupPlans, ih]; rfl

theorem entryPlans_eq (context : Context) (rules : List Rule) :
    entryPlans context rules = rules.map fun entry => (entry, entry.plan context) := by
  induction rules with
  | nil => rfl
  | cons entry rules ih => rw [entryPlans, ih]; rfl

theorem plan_eq (context : Context) (rule : Rule) :
    rule.plan context = context.ruleObject rule
      { captures := rule.captures.map (List.map fun entry => (entry.1, entry.2.plan context))
        openingCaptures :=
          rule.openingCaptures.map (List.map fun entry => (entry.1, entry.2.plan context))
        closingCaptures :=
          rule.closingCaptures.map (List.map fun entry => (entry.1, entry.2.plan context))
        patterns := rule.patterns.map (List.map fun entry => (entry, entry.plan context)) } := by
  obtain ⟨reference, name, contentName, comment, single, opening, closing, captures,
    openingCaptures, closingCaptures, patterns⟩ := rule
  have groups? (entries : Option (List (String × Rule))) : groupPlans? context entries =
      entries.map (List.map fun entry => (entry.1, entry.2.plan context)) := by
    cases entries with
    | none => rfl
    | some entries => rw [groupPlans?, groupPlans_eq]; rfl
  have entries? : entryPlans? context patterns =
      patterns.map (List.map fun entry => (entry, entry.plan context)) := by
    cases patterns with
    | none => rfl
    | some rules => rw [entryPlans?, entryPlans_eq]; rfl
  rw [plan, groups?, groups?, groups?, entries?]

end Rule

end PatternTable
