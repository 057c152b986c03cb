/-!
# Access paths

An access path leads from a definition to a rule inside it: through the fields of rules, the
positions of `patterns` arrays and the group numbers of capture fields. It is written as the
expression that reaches the rule, `root.patterns![0].captures![1]`. An array in a module may miss
some elements at first, so a path can also be written with the positions at which the elements
currently stand.

Results:
* `mem_sites_iff`: a path passes through the arrays that it goes on from to an element.
-/

namespace PatternTable

/-- The fields of a rule that hold other rules. -/
inductive Field where
  | patterns
  | captures
  | openingCaptures
  | closingCaptures
  deriving DecidableEq, Repr

/-- The name of a field. -/
def Field.name : Field → String
  | patterns => "patterns"
  | captures => "captures"
  | openingCaptures => "beginCaptures"
  | closingCaptures => "endCaptures"

/-- A step of an access path. -/
inductive Step where
  | field (field : Field)
  /-- The element at a position of a `patterns` array, as in the source. -/
  | index (index : Nat)
  /-- The rule of a capture group. -/
  | group (number : Nat)
  deriving DecidableEq, Repr

/-- A path from a definition to a rule. -/
structure AccessPath where
  root : String
  steps : List Step := []
  deriving DecidableEq, Repr

namespace AccessPath

/-- The path that continues with one more step. -/
def extend (path : AccessPath) (step : Step) : AccessPath :=
  ⟨path.root, path.steps ++ [step]⟩

/-- The path to a field of the rule at a path. -/
def field (path : AccessPath) (field : Field) : AccessPath :=
  path.extend (.field field)

/-- The path to an element of the array at a path. -/
def index (path : AccessPath) (index : Nat) : AccessPath :=
  path.extend (.index index)

/-- The path to the rule of a group in the capture field at a path. -/
def group (path : AccessPath) (number : Nat) : AccessPath :=
  path.extend (.group number)

/-- The arrays that a path passes through, each with the index that it takes there. `passed` holds
    the steps before the ones that are left. -/
def sitesFrom (root : String) (passed : List Step) : List Step → List (AccessPath × Nat)
  | [] => []
  | .index index :: steps =>
    (⟨root, passed⟩, index) :: sitesFrom root (passed ++ [.index index]) steps
  | step :: steps => sitesFrom root (passed ++ [step]) steps

/-- The arrays that a path passes through, each with the index that it takes there. -/
def sites (path : AccessPath) : List (AccessPath × Nat) :=
  sitesFrom path.root [] path.steps

/-- The text of the steps that are left after `passed`. -/
def renderFrom (position : AccessPath → Nat → Nat) (root : String) (passed : List Step) :
    List Step → String
  | [] => ""
  | step :: steps =>
    (match step with
      | .field field => "." ++ field.name ++ "!"
      | .index index => "[" ++ toString (position ⟨root, passed⟩ index) ++ "]"
      | .group number => "[" ++ toString number ++ "]") ++
      renderFrom position root (passed ++ [step]) steps

/-- The expression of a path in which the element of an array with a source index stands at the
    given position. -/
def renderWith (position : AccessPath → Nat → Nat) (path : AccessPath) : String :=
  path.root ++ renderFrom position path.root [] path.steps

/-- The expression of a path in which every element stands at its source index. -/
def text (path : AccessPath) : String :=
  path.renderWith fun _ index => index

/-! ## Paths below paths -/

/-- A path starts with another one. -/
structure Below (path below : AccessPath) : Prop where
  root : below.root = path.root
  steps : path.steps <+: below.steps

theorem Below.refl (path : AccessPath) : path.Below path :=
  ⟨rfl, List.prefix_refl _⟩

theorem Below.of_extend {path below : AccessPath} {step : Step}
    (h : (path.extend step).Below below) : path.Below below :=
  ⟨h.root, (List.prefix_append _ _).trans h.steps⟩

theorem below_extend (path : AccessPath) (step : Step) : path.Below (path.extend step) :=
  ⟨rfl, List.prefix_append _ _⟩

theorem not_extend_below (path : AccessPath) (step : Step) : ¬ (path.extend step).Below path := by
  intro h
  have hle := h.steps.length_le
  simp only [extend, List.length_append, List.length_singleton] at hle
  omega

/-- What is below two ways to go on from a path goes on in one way. -/
theorem step_eq_of_below {path below : AccessPath} {step other : Step}
    (h : (path.extend step).Below below) (hother : (path.extend other).Below below) :
    step = other := by
  have heq : (path.extend step).steps = (path.extend other).steps :=
    (List.prefix_of_prefix_length_le h.steps hother.steps (by simp [extend])).eq_of_length
      (by simp [extend])
  simpa [extend] using heq

/-! ## Arrays on the way -/

theorem mem_sitesFrom_cons_iff {root : String} {passed steps : List Step} {step : Step}
    {site : AccessPath × Nat} : site ∈ sitesFrom root passed (step :: steps) ↔
      (site.1 = ⟨root, passed⟩ ∧ step = .index site.2) ∨
        site ∈ sitesFrom root (passed ++ [step]) steps := by
  rcases site with ⟨array, index⟩
  cases step with
  | index other => simp [sitesFrom, eq_comm]
  | field field => simp [sitesFrom]
  | group number => simp [sitesFrom]

theorem mem_sitesFrom_iff {root : String} {passed steps : List Step} {site : AccessPath × Nat} :
    site ∈ sitesFrom root passed steps ↔
      ∃ between, site.1 = ⟨root, passed ++ between⟩ ∧ between ++ [.index site.2] <+: steps := by
  induction steps generalizing passed with
  | nil => simp [sitesFrom]
  | cons step steps ih =>
    rw [mem_sitesFrom_cons_iff, ih]
    constructor
    · rintro (⟨hsite, rfl⟩ | ⟨between, hsite, hprefix⟩)
      · exact ⟨[], by rw [hsite, List.append_nil], by simp⟩
      · exact ⟨step :: between, by rw [hsite, List.append_assoc]; rfl,
          List.cons_prefix_cons.2 ⟨rfl, hprefix⟩⟩
    · rintro ⟨between, hsite, hprefix⟩
      cases between with
      | nil => exact .inl ⟨by rw [hsite, List.append_nil], (List.cons_prefix_cons.1 hprefix).1.symm⟩
      | cons first between =>
        obtain ⟨rfl, hrest⟩ := List.cons_prefix_cons.1 hprefix
        exact .inr ⟨between, by rw [hsite, List.append_assoc]; rfl, hrest⟩

/-- A path passes through the arrays that it goes on from to an element. -/
theorem mem_sites_iff {path array : AccessPath} {index : Nat} :
    (array, index) ∈ path.sites ↔ (array.index index).Below path := by
  rw [sites, mem_sitesFrom_iff]
  constructor
  · rintro ⟨between, rfl, hprefix⟩
    exact ⟨rfl, hprefix⟩
  · rintro ⟨hroot, hprefix⟩
    exact ⟨array.steps, by rw [hroot]; rfl, hprefix⟩

end AccessPath

end PatternTable
