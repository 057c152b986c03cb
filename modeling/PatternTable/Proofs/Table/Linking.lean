import PatternTable.Proofs.FirstFault
import PatternTable.Proofs.Table.Patches

/-!
# When a table can be linked

A patch is at fault on its own, or because an earlier patch claims the name that it needs to import
for another document. The first patch at fault is the one that is reported: patches within the
document come first, as they were recorded, then those into other documents, document by document.

* `Table.Linkable`: what it takes to link a table.
* `Table.InternalFault`, `Table.ExternalFault`: what is wrong with a patch.
* `Table.FirstLinkFault`: what is wrong with the first patch at fault.

Results:
* `Table.linkCause?_eq_none_iff`, `Table.linkCause?_eq_some_iff`: the check finds the first fault.
* `Table.link_exactly`: a table is linked exactly if it can be, and otherwise its first fault is the
  cause of the failure.
-/

namespace PatternTable.Table

/-! ## Specification -/

/-- A patch can be imported by its name, if that is how it is imported. -/
def IsImportable (table : Table) (patch : Patch External) : Prop :=
  patch.target.document.sameFamily table.document →
    ¬ Identifier.isReserved (targetIdentifier patch)

/-- What it takes to link a table. -/
structure Linkable (exports : Exports) (table : Table) : Prop where
  /-- A patch within the document is of a key or of top-level patterns that are defined. -/
  defined : ∀ patch ∈ table.trail.internalPatches, table.isDefined patch.target
  /-- A patch into another document is of a target that is known there. -/
  accepted : ∀ patch ∈ table.trail.externalPatches,
    exports.check patch.target.document patch.target.target = .ok ()
  /-- What is imported by name is no reserved word. -/
  importable : ∀ patch ∈ table.trail.externalPatches, table.IsImportable patch
  /-- No name that is imported is that of a definition. -/
  unclaimed : ∀ patch ∈ table.trail.externalPatches, table.importedName patch ∉ table.identifiers
  /-- No name is imported from two documents. -/
  unambiguous : ∀ patch ∈ table.trail.externalPatches, ∀ other ∈ table.trail.externalPatches,
    table.importedName patch = table.importedName other →
      patch.target.document = other.target.document

/-- What is wrong with a patch within the document. -/
inductive InternalFault (table : Table) (patch : Patch Target) : Cause → Prop where
  | noRule {key : String} (htarget : patch.target = .key key) (hkey : key ∉ table.keys) :
    InternalFault table patch
      (.unresolvedInclude patch.origin patch.spelling (Refusal.noOwnRule key).message)
  | noPatterns (htarget : patch.target = .root) (hroot : ¬ table.hasRoot) :
    InternalFault table patch
      (.unresolvedInclude patch.origin patch.spelling Refusal.noOwnPatterns.message)

/-- The name that a patch needs to import is that of a definition, or imported from another document
    for a patch in `before`. -/
def IsTaken (table : Table) (before : List (Patch External)) (patch : Patch External) : Prop :=
  table.importedName patch ∈ table.identifiers ∨
    ∃ other ∈ before, table.importedName other = table.importedName patch ∧
      other.target.document ≠ patch.target.document

/-- What is wrong with a patch into another document, when the patches in `before` are made before
    it. -/
inductive ExternalFault (table : Table) (exports : Exports) (before : List (Patch External))
    (patch : Patch External) : Cause → Prop where
  | refused {refusal : Refusal}
    (hcheck : exports.check patch.target.document patch.target.target = .error refusal) :
    ExternalFault table exports before patch
      (.unresolvedInclude patch.origin patch.spelling refusal.message)
  | reserved (hcheck : exports.check patch.target.document patch.target.target = .ok ())
    (hreserved : ¬ table.IsImportable patch) :
    ExternalFault table exports before patch
      (.unresolvedInclude patch.origin patch.spelling
        (Refusal.reservedIdentifier (targetIdentifier patch)).message)
  | taken (hcheck : exports.check patch.target.document patch.target.target = .ok ())
    (himportable : table.IsImportable patch) (htaken : table.IsTaken before patch) :
    ExternalFault table exports before patch
      (.importCollision (table.importedName patch) patch.target.document)

/-- What is wrong with the first patch of a table that is at fault. -/
inductive FirstLinkFault (table : Table) (exports : Exports) : Cause → Prop where
  | internal {cause : Cause}
    (h : FirstFault (fun _ => table.InternalFault) table.trail.internalPatches cause) :
    FirstLinkFault table exports cause
  | external {cause : Cause}
    (hinternal : Faultless (fun _ => table.InternalFault) table.trail.internalPatches)
    (h : FirstFault (table.ExternalFault exports) table.groupedPatches cause) :
    FirstLinkFault table exports cause

/-! ## Patches within the document -/

variable {table : Table} {exports : Exports}

theorem internalCause?_eq_some_iff (table : Table) (patch : Patch Target) (cause : Cause) :
    table.internalCause? patch = some cause ↔ table.InternalFault patch cause := by
  constructor
  · intro h
    unfold internalCause? isDefined at h
    cases htarget : patch.target with
    | key key =>
      simp only [htarget, List.contains_iff_mem] at h
      split at h
      · simp at h
      · next hkey =>
        rw [Option.some.injEq] at h
        rw [← h]
        exact .noRule htarget hkey
    | root =>
      simp only [htarget] at h
      split at h
      · simp at h
      · next hroot =>
        rw [Option.some.injEq] at h
        rw [← h]
        exact .noPatterns htarget hroot
  · rintro (⟨htarget, hkey⟩ | ⟨htarget, hroot⟩)
    · simp [internalCause?, isDefined, htarget, hkey, unresolved]
    · simp [internalCause?, isDefined, htarget, hroot, unresolved]

theorem internalCause?_eq_none_iff {patch : Patch Target} :
    table.internalCause? patch = none ↔ table.isDefined patch.target := by
  simp [internalCause?]

/-! ## Patches into other documents -/

theorem isImportable_iff {patch : Patch External} : table.IsImportable patch ↔
    ¬ (patch.target.document.sameFamily table.document &&
      Identifier.isReserved (table.importedName patch)) := by
  rw [IsImportable, Bool.and_eq_true, not_and]
  refine forall_congr' fun hfamily => ?_
  rw [importedName, if_pos hfamily]

/-- The names that some patches claim, each with the document that it is imported from. -/
def claims (table : Table) (patches : List (Patch External)) : List (String × Document) :=
  (patches.map fun patch => (table.importedName patch, patch.target.document)).reverse

theorem isTaken_iff {before : List (Patch External)} {patch : Patch External} :
    table.IsTaken before patch ↔ (table.identifiers.contains (table.importedName patch) ||
      (table.claims before).any fun entry => entry.1 == table.importedName patch &&
        entry.2 != patch.target.document) := by
  simp [IsTaken, claims, List.any_eq_true]

theorem externalCause?_eq_some_iff {before : List (Patch External)} {patch : Patch External}
    {cause : Cause} : table.externalCause? exports (table.claims before) patch = some cause ↔
      table.ExternalFault exports before patch cause := by
  have hname (hreserved : ¬ table.IsImportable patch) :
      table.importedName patch = targetIdentifier patch := by
    unfold IsImportable at hreserved
    push Not at hreserved
    rw [importedName, if_pos hreserved.1]
  constructor
  · intro h
    unfold externalCause? at h
    split at h
    · next refusal hcheck =>
      rw [Option.some.injEq] at h
      rw [← h]
      exact .refused hcheck
    · next hcheck =>
      dsimp only at h
      split at h
      · next hreserved =>
        have hreserved : ¬ table.IsImportable patch := by rwa [isImportable_iff, not_not]
        rw [Option.some.injEq, hname hreserved] at h
        rw [← h]
        exact .reserved hcheck hreserved
      · next himportable =>
        split at h
        · next htaken =>
          rw [Option.some.injEq] at h
          rw [← h]
          exact .taken hcheck (isImportable_iff.2 himportable) (isTaken_iff.2 htaken)
        · simp at h
  · rintro (hcheck | ⟨hcheck, hreserved⟩ | ⟨hcheck, himportable, htaken⟩)
    · simp only [externalCause?, hcheck, unresolved]
    · have hbool := not_not.1 (mt isImportable_iff.2 hreserved)
      simp only [externalCause?, hcheck]
      rw [if_pos hbool, hname hreserved]
      rfl
    · rw [isImportable_iff] at himportable
      rw [isTaken_iff] at htaken
      simp only [externalCause?, hcheck, himportable, htaken]
      rfl

theorem externalCauseFrom?_eq (table : Table) (exports : Exports)
    (before patches : List (Patch External)) :
    table.externalCauseFrom? exports (table.claims before) patches =
      firstFault? (fun before patch => table.externalCause? exports (table.claims before) patch)
        before patches := by
  induction patches generalizing before with
  | nil => rfl
  | cons patch patches ih =>
    have hclaims : table.claims (before ++ [patch]) =
        (table.importedName patch, patch.target.document) :: table.claims before := by
      simp [claims]
    rw [externalCauseFrom?, firstFault?, ← ih, hclaims]
    cases table.externalCause? exports (table.claims before) patch <;> rfl

theorem forall_not_externalFault_iff {before : List (Patch External)} {patch : Patch External} :
    (∀ cause, ¬ table.ExternalFault exports before patch cause) ↔
      (exports.check patch.target.document patch.target.target = .ok () ∧
        table.IsImportable patch ∧ table.importedName patch ∉ table.identifiers) ∧
      ∀ other ∈ before, table.importedName other = table.importedName patch →
        other.target.document = patch.target.document := by
  have hsplit : ¬ table.IsTaken before patch ↔ table.importedName patch ∉ table.identifiers ∧
      ∀ other ∈ before, table.importedName other = table.importedName patch →
        other.target.document = patch.target.document := by
    unfold IsTaken
    push Not
    rfl
  rw [and_assoc, and_assoc, ← hsplit]
  constructor
  · intro h
    cases hcheck : exports.check patch.target.document patch.target.target with
    | error refusal => exact absurd (.refused hcheck) (h _)
    | ok =>
      have himportable : table.IsImportable patch := by
        by_contra hreserved
        exact h _ (.reserved hcheck hreserved)
      exact ⟨rfl, himportable, fun htaken => h _ (.taken hcheck himportable htaken)⟩
  · rintro ⟨hcheck, himportable, htaken⟩ cause (hrefused | ⟨-, hreserved⟩ | ⟨-, -, h⟩)
    · simp [hcheck] at hrefused
    · exact hreserved himportable
    · exact htaken h

/-! ## Tables -/

theorem linkCause?_eq_none_iff : table.linkCause? exports = none ↔ table.Linkable exports := by
  have hinternal : table.trail.internalPatches.findSome? table.internalCause? = none ↔
      ∀ patch ∈ table.trail.internalPatches, table.isDefined patch.target := by
    rw [List.findSome?_eq_none_iff]
    exact forall₂_congr fun patch _ => internalCause?_eq_none_iff
  have hexternal : table.externalCauseFrom? exports [] table.groupedPatches = none ↔
      (∀ patch ∈ table.groupedPatches,
        exports.check patch.target.document patch.target.target = .ok () ∧
          table.IsImportable patch ∧ table.importedName patch ∉ table.identifiers) ∧
      table.groupedPatches.Pairwise fun other patch =>
        table.importedName other = table.importedName patch →
          other.target.document = patch.target.document := by
    have hclaims : [] = table.claims [] := rfl
    rw [hclaims, externalCauseFrom?_eq,
      firstFault?_eq_none_iff fun _ _ _ _ => externalCause?_eq_some_iff]
    refine faultless_iff_pairwise fun before patch => ?_
    exact forall_not_externalFault_iff
  have hcause : table.linkCause? exports = none ↔
      table.trail.internalPatches.findSome? table.internalCause? = none ∧
        table.externalCauseFrom? exports [] table.groupedPatches = none := by
    rw [linkCause?]
    cases table.trail.internalPatches.findSome? table.internalCause? <;> simp
  rw [hcause, hinternal, hexternal]
  constructor
  · rintro ⟨hdefined, halone, htogether⟩
    have hall {patch : Patch External} (h : patch ∈ table.trail.externalPatches) :=
      halone patch (mem_groupedPatches_iff.2 h)
    refine ⟨hdefined, fun patch h => (hall h).1, fun patch h => (hall h).2.1,
      fun patch h => (hall h).2.2, fun patch h other hother => ?_⟩
    have hsymm : Std.Symm fun other patch : Patch External =>
        table.importedName other = table.importedName patch →
          other.target.document = patch.target.document :=
      ⟨fun _ _ hdocument heq => (hdocument heq.symm).symm⟩
    exact htogether.forall_of_forall (fun _ _ _ => rfl) (mem_groupedPatches_iff.2 h)
      (mem_groupedPatches_iff.2 hother)
  · rintro ⟨hdefined, haccepted, himportable, hunclaimed, hunambiguous⟩
    refine ⟨hdefined, fun patch h => ?_, ?_⟩
    · rw [mem_groupedPatches_iff] at h
      exact ⟨haccepted patch h, himportable patch h, hunclaimed patch h⟩
    · refine List.pairwise_of_forall_mem_list fun patch h other hother => ?_
      exact hunambiguous patch (mem_groupedPatches_iff.1 h) other (mem_groupedPatches_iff.1 hother)

theorem linkCause?_eq_some_iff {cause : Cause} :
    table.linkCause? exports = some cause ↔ table.FirstLinkFault exports cause := by
  have hinternal := findSome?_eq_some_iff_firstFault table.internalCause?_eq_some_iff
    table.trail.internalPatches
  have hnone := findSome?_eq_none_iff_faultless table.internalCause?_eq_some_iff
    table.trail.internalPatches
  have hexternal : table.externalCauseFrom? exports [] table.groupedPatches = some cause ↔
      FirstFault (table.ExternalFault exports) table.groupedPatches cause := by
    have hclaims : [] = table.claims [] := rfl
    rw [hclaims, externalCauseFrom?_eq]
    exact firstFault?_eq_some_iff (fun _ _ _ _ => externalCause?_eq_some_iff) _ _
  rw [linkCause?]
  constructor
  · intro h
    split at h
    · next other hother =>
      rw [Option.some.injEq] at h
      rw [← h]
      exact .internal ((hinternal other).1 hother)
    · next hother => exact .external (hnone.1 hother) (hexternal.1 h)
  · rintro (h | ⟨hother, h⟩)
    · rw [(hinternal cause).2 h]
    · rw [hnone.2 hother]
      exact hexternal.2 h

/-- A table is linked exactly if every patch within the document is of something that is defined,
    every patch into another document is accepted there and can be imported, and the names that are
    imported are neither those of definitions nor each imported from several documents. Otherwise
    the failure is of the document of the table, and for what is wrong with the first patch at
    fault. -/
theorem link_exactly (exports : Exports) (table : Table) :
    ((∃ linkage, table.link exports = .ok linkage) ↔ table.Linkable exports) ∧
      ∀ failure, table.link exports = .error failure ↔
        failure.document = table.document ∧ table.FirstLinkFault exports failure.cause := by
  constructor
  · simp only [link_ok_iff, ← linkCause?_eq_none_iff]
    simp
  · rintro ⟨document, cause⟩
    rw [← linkCause?_eq_some_iff, link]
    cases hcause : table.linkCause? exports with
    | none => simp
    | some other => simp [eq_comm]

end PatternTable.Table
