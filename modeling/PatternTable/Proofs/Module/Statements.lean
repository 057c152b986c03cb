import PatternTable.Link.Linkage

/-!
# The statements of a linked table

Results:
* `PatchStatement.mem_merge`: a statement made of adjacent ones has the target of one of them and
  their references.
* `Table.references_externalGroups`: the statements for other documents make the references of the
  patches into them.
* `Table.exists_of_mem_internalBlock`, `Table.exists_of_mem_externalGroups`: every statement of a
  linked table makes patches of the table.
-/

namespace PatternTable

/-- The statements of a module, in the order in which they run. -/
def Linkage.statements (linkage : Linkage) : List PatchStatement :=
  linkage.internalBlock ++ linkage.externalBlock.flatMap PatchGroup.statements

/-- The references that the statements for a document make, in order. -/
def PatchGroup.references (group : PatchGroup) : List String :=
  group.statements.flatMap PatchStatement.references

namespace PatchStatement

/-- A statement has the array of one of some statements, and only references that they have. -/
def MadeOf (statements : List PatchStatement) (statement : PatchStatement) : Prop :=
  (∃ part ∈ statements, statement.target = part.target) ∧
    ∀ reference ∈ statement.references, ∃ part ∈ statements, reference ∈ part.references

theorem MadeOf.mono {statements others : List PatchStatement} {statement : PatchStatement}
    (h : MadeOf statements statement) (hsub : statements ⊆ others) : MadeOf others statement := by
  obtain ⟨⟨part, hpart, htarget⟩, hreferences⟩ := h
  refine ⟨⟨part, hsub hpart, htarget⟩, fun reference hreference => ?_⟩
  obtain ⟨part, hpart, hmem⟩ := hreferences reference hreference
  exact ⟨part, hsub hpart, hmem⟩

theorem madeOf_self {statements : List PatchStatement} {statement : PatchStatement}
    (h : statement ∈ statements) : MadeOf statements statement :=
  ⟨⟨statement, h, rfl⟩, fun _ hreference => ⟨statement, h, hreference⟩⟩

theorem mem_consMerged {statement merged : PatchStatement} {statements : List PatchStatement}
    (h : merged ∈ consMerged statement statements) : MadeOf (statement :: statements) merged := by
  cases statements with
  | nil => exact madeOf_self h
  | cons next rest =>
    rw [consMerged] at h
    split at h
    · rw [List.mem_cons] at h
      obtain rfl | h := h
      · refine ⟨⟨statement, List.mem_cons_self, rfl⟩, fun reference hreference => ?_⟩
        obtain hreference | hreference := List.mem_append.1 hreference
        · exact ⟨statement, List.mem_cons_self, hreference⟩
        · exact ⟨next, List.mem_cons_of_mem _ List.mem_cons_self, hreference⟩
      · exact madeOf_self (List.mem_cons_of_mem _ (List.mem_cons_of_mem _ h))
    · exact madeOf_self h

theorem mem_merge {statements : List PatchStatement} {merged : PatchStatement}
    (h : merged ∈ merge statements) : MadeOf statements merged := by
  induction statements generalizing merged with
  | nil => simp [merge] at h
  | cons statement statements ih =>
    obtain ⟨⟨part, hpart, htarget⟩, hreferences⟩ := mem_consMerged h
    -- A part is the first statement, or made of the others in turn.
    have hlater : ∀ part ∈ statement :: merge statements,
        MadeOf (statement :: statements) part := by
      rw [List.forall_mem_cons]
      exact ⟨madeOf_self List.mem_cons_self,
        fun part hpart => (ih hpart).mono (List.subset_cons_self _ _)⟩
    obtain ⟨first, hfirst, hfirstTarget⟩ := (hlater part hpart).1
    refine ⟨⟨first, hfirst, htarget.trans hfirstTarget⟩, fun reference hreference => ?_⟩
    obtain ⟨part, hpart, hmem⟩ := hreferences reference hreference
    exact (hlater part hpart).2 reference hmem

/-- Statements made one keep their references, in order. -/
theorem references_merge (statements : List PatchStatement) :
    (merge statements).flatMap references = statements.flatMap references := by
  have hcons (statement : PatchStatement) (rest : List PatchStatement) :
      (consMerged statement rest).flatMap references =
        statement.references ++ rest.flatMap references := by
    cases rest with
    | nil => simp [consMerged]
    | cons next rest =>
      rw [consMerged]
      split <;> simp
  induction statements with
  | nil => rfl
  | cons statement statements ih =>
    show (consMerged statement (merge statements)).flatMap references = _
    rw [hcons, ih, List.flatMap_cons]

end PatchStatement

theorem Arrays.references_run {α : Type} (arrays : Arrays) (patches : List (Patch α × String)) :
    (arrays.run patches).1.flatMap PatchStatement.references = patches.map Prod.snd := by
  induction patches generalizing arrays with
  | nil => rfl
  | cons patch patches ih =>
    rcases patch with ⟨patch, reference⟩
    rw [run, List.flatMap_cons, ih]
    rfl

theorem Arrays.exists_of_mem_run {α : Type} {arrays : Arrays} {patches : List (Patch α × String)}
    {statement : PatchStatement} (h : statement ∈ (arrays.run patches).1) :
    ∃ patch ∈ patches, ∃ position, statement.target = patch.1.array.renderWith position ∧
      statement.references = [patch.2] := by
  induction patches generalizing arrays with
  | nil => simp [run] at h
  | cons patch patches ih =>
    rcases patch with ⟨patch, reference⟩
    rw [run, List.mem_cons] at h
    obtain rfl | h := h
    · exact ⟨_, List.mem_cons_self, _, rfl, rfl⟩
    · obtain ⟨other, hother, h⟩ := ih h
      exact ⟨other, List.mem_cons_of_mem _ hother, h⟩

theorem Arrays.exists_of_mem_merge {α : Type} {arrays : Arrays} {patches : List (Patch α × String)}
    {statement : PatchStatement} (h : statement ∈ PatchStatement.merge (arrays.run patches).1) :
    (∃ patch ∈ patches, ∃ position, statement.target = patch.1.array.renderWith position) ∧
      ∀ reference ∈ statement.references, ∃ patch ∈ patches, reference = patch.2 := by
  obtain ⟨⟨part, hpart, htarget⟩, hreferences⟩ := PatchStatement.mem_merge h
  constructor
  · obtain ⟨patch, hpatch, position, htext, -⟩ := exists_of_mem_run hpart
    exact ⟨patch, hpatch, position, htarget.trans htext⟩
  · intro reference hreference
    obtain ⟨part, hpart, hmem⟩ := hreferences reference hreference
    obtain ⟨patch, hpatch, position, -, hpart⟩ := exists_of_mem_run hpart
    rw [hpart, List.mem_singleton] at hmem
    exact ⟨patch, hpatch, hmem⟩

namespace Table

theorem exists_of_mem_internalBlock {table : Table} {statement : PatchStatement}
    (h : statement ∈ table.plan.internalBlock) :
    (∃ patch ∈ table.trail.internalPatches, ∃ position,
      statement.target = patch.array.renderWith position) ∧
      ∀ reference ∈ statement.references, ∃ patch ∈ table.trail.internalPatches,
        reference = patch.target.identifier table.document := by
  obtain ⟨⟨_, hpatch, position, htarget⟩, hreferences⟩ := Arrays.exists_of_mem_merge h
  obtain ⟨patch, hmem, rfl⟩ := List.mem_map.1 hpatch
  refine ⟨⟨patch, hmem, position, htarget⟩, fun reference hreference => ?_⟩
  obtain ⟨_, hpatch, rfl⟩ := hreferences reference hreference
  obtain ⟨patch, hmem, rfl⟩ := List.mem_map.1 hpatch
  exact ⟨patch, hmem, rfl⟩

theorem exists_of_mem_externalGroups {table : Table} {arrays : Arrays} {documents : List Document}
    {statement : PatchStatement} (h : statement ∈
      (table.externalGroups arrays documents).flatMap PatchGroup.statements) :
    ∃ patch ∈ table.trail.externalPatches, ∃ position,
      statement.target = patch.array.renderWith position := by
  induction documents generalizing arrays with
  | nil => simp [externalGroups] at h
  | cons document documents ih =>
    rw [externalGroups, List.flatMap_cons, List.mem_append] at h
    obtain h | h := h
    · obtain ⟨⟨_, hpatch, position, htarget⟩, -⟩ := Arrays.exists_of_mem_merge h
      obtain ⟨patch, hmem, rfl⟩ := List.mem_map.1 hpatch
      exact ⟨patch, (List.mem_filter.1 hmem).1, position, htarget⟩
    · exact ih h

/-- The statements for some documents make the references of the patches into them, in order. -/
theorem references_externalGroups (table : Table) (arrays : Arrays) (documents : List Document) :
    (table.externalGroups arrays documents).map (fun group => (group.document, group.references)) =
      documents.map fun document =>
        (document, (table.patchesInto document).map table.externalReference) := by
  induction documents generalizing arrays with
  | nil => rfl
  | cons document documents ih =>
    rw [externalGroups, List.map_cons, List.map_cons, ih]
    simp only [PatchGroup.references]
    rw [PatchStatement.references_merge, Arrays.references_run, List.map_map]
    rfl

/-- The statements for all documents make the references of the patches, document by document. -/
theorem references_externalBlock_all (table : Table) :
    table.plan.externalBlock.flatMap PatchGroup.references =
      table.groupedPatches.map table.externalReference := by
  have hpairs : table.plan.externalBlock.flatMap PatchGroup.references =
      (table.plan.externalBlock.map fun group => (group.document, group.references)).flatMap
        Prod.snd := by
    rw [List.flatMap_map]
  rw [hpairs, plan, references_externalGroups, List.flatMap_map, groupedPatches, List.map_flatMap]

end Table

end PatternTable
