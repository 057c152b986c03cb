import PatternTable.Table.Basic

/-!
# Patch statements

A patch is made by a statement that pushes a reference onto an array or splices it in. The arrays
are followed as the statements run: an array is the ascending list of the source indices that it
holds, and a patch inserts the source index of its include. The position of an element is the number
of smaller indices that are present, so every array stays in source order whatever the order of the
patches.

Results:
* `insertIndex_sorted`: an array stays ascending.
-/

namespace PatternTable

/-! ## Arrays -/

/-- An ascending list of indices with one more, unless it is there already. -/
def insertIndex (index : Nat) : List Nat → List Nat
  | [] => [index]
  | other :: rest =>
    if index < other then index :: other :: rest
    else if index = other then other :: rest
    else other :: insertIndex index rest

/-- The arrays of a module while it runs: the source indices that each holds, in ascending order. -/
abbrev Arrays := List (AccessPath × List Nat)

namespace Arrays

/-- The arrays of a table before any patch. -/
def ofTable (table : Table) : Arrays :=
  table.trail.arrays.map fun (array, indices) => (array, indices.foldr insertIndex [])

/-- The number of elements below a source index that an array holds. -/
def rank (index : Nat) (present : List Nat) : Nat :=
  present.countP (· < index)

/-- The position of the element with a source index. An array that is not known holds every
    element. -/
def position (arrays : Arrays) (array : AccessPath) (index : Nat) : Nat :=
  match arrays.lookup array with
  | some present => rank index present
  | none => index

/-- The arrays after an array has got the element with a source index. -/
def insert (arrays : Arrays) (array : AccessPath) (index : Nat) : Arrays :=
  match arrays with
  | [] => [(array, [index])]
  | (other, present) :: rest =>
    if other = array then (other, insertIndex index present) :: rest
    else (other, present) :: insert rest array index

end Arrays

/-! ## Statements -/

/-- How a statement adds to its array. -/
inductive PatchKind where
  /-- At the end. -/
  | push
  /-- Before the element at a position. -/
  | splice (position : Nat)
  deriving DecidableEq, Repr

/-- A statement that adds references to an array. -/
structure PatchStatement where
  /-- The expression of the array. -/
  target : String
  kind : PatchKind
  references : List String
  deriving DecidableEq, Repr

/-- The text of a statement. -/
def PatchStatement.text (statement : PatchStatement) : String :=
  let references := ", ".intercalate statement.references
  match statement.kind with
  | .push => statement.target ++ ".push(" ++ references ++ ");"
  | .splice position =>
    statement.target ++ ".splice(" ++ toString position ++ ", 0, " ++ references ++ ");"

/-- The statement that makes a patch with a reference. -/
def Arrays.statement {α : Type} (arrays : Arrays) (patch : Patch α) (reference : String) :
    PatchStatement :=
  let present := (arrays.lookup patch.array).getD []
  let position := Arrays.rank patch.index present
  { target := patch.array.renderWith arrays.position
    kind := if position = present.length then .push else .splice position
    references := [reference] }

/-- The statements that make patches with their references, one after the other, and the arrays
    after them. -/
def Arrays.run {α : Type} (arrays : Arrays) :
    List (Patch α × String) → List PatchStatement × Arrays
  | [] => ([], arrays)
  | (patch, reference) :: patches =>
    let (statements, after) := (arrays.insert patch.array patch.index).run patches
    (arrays.statement patch reference :: statements, after)

/-- A statement in front of others. A push is one with the push that follows it onto the same
    array. -/
def PatchStatement.consMerged (statement : PatchStatement) :
    List PatchStatement → List PatchStatement
  | [] => [statement]
  | next :: rest =>
    if statement.kind = .push ∧ next.kind = .push ∧ statement.target = next.target then
      { statement with references := statement.references ++ next.references } :: rest
    else statement :: next :: rest

/-- Statements with adjacent pushes onto one array made one. -/
def PatchStatement.merge (statements : List PatchStatement) : List PatchStatement :=
  statements.foldr PatchStatement.consMerged []

theorem mem_insertIndex {index other : Nat} {present : List Nat} :
    other ∈ insertIndex index present ↔ other = index ∨ other ∈ present := by
  induction present with
  | nil => simp [insertIndex]
  | cons head rest ih =>
    rw [insertIndex]
    split
    · simp
    · split
      · next h => subst h; simp
      · simp only [List.mem_cons, ih]
        constructor
        · rintro (h | h | h) <;> simp [h]
        · rintro (h | h | h) <;> simp [h]

theorem insertIndex_sorted (index : Nat) (present : List Nat)
    (h : present.Pairwise (· < ·)) : (insertIndex index present).Pairwise (· < ·) := by
  induction present with
  | nil => simp [insertIndex]
  | cons head rest ih =>
    rw [insertIndex]
    simp only [List.pairwise_cons] at h
    split
    · next hlt =>
      simp only [List.pairwise_cons, List.mem_cons, forall_eq_or_imp]
      exact ⟨⟨hlt, fun a ha => Nat.lt_trans hlt (h.1 a ha)⟩, h⟩
    · next hlt =>
      split
      · simpa using h
      · next hne =>
        simp only [List.pairwise_cons]
        refine ⟨fun a ha => ?_, ih h.2⟩
        rcases mem_insertIndex.1 ha with rfl | ha
        · omega
        · exact h.1 a ha

end PatternTable
