import Mathlib.Data.List.Forall2
import PatternTable.Proofs.Module.Contents
import PatternTable.Workspace

/-!
# Compiling a workspace again

The time at which a workspace is compiled stands in one line of each artifact and nowhere else. So
whatever the documents have in them, compiling them at another time comes to the same outcomes, and
each artifact is taken for the one of the other time.

* `Artifact.SameButTime`: two artifacts differ in nothing but the line with the time.

Results:
* `Workspace.compile_sameButTime`: compiling at two times.
-/

namespace PatternTable

/-! ## Specification -/

/-- Two artifacts differ in nothing but the line with the time. -/
structure Artifact.SameButTime (now now' : Calendar.Time) (artifact other : Artifact) : Prop where
  document : artifact.document = other.document
  fileName : artifact.fileName = other.fileName
  /-- The lines before the one with the time are fixed, and those after it are the same. -/
  lines : ∃ rest,
    Text.rawLines artifact.contents.toList = opening ++ (timeLine now).toList :: rest ∧
      Text.rawLines other.contents.toList = opening ++ (timeLine now').toList :: rest
  /-- The line with the time is the first one that gives a time. -/
  equal : EqualButTime artifact.contents other.contents
  unchanged : artifact.isUnchanged other.contents
  unchangedBack : other.isUnchanged artifact.contents

/-- Two documents have artifacts that differ in the time only, or the same failure. -/
inductive SameResult (now now' : Calendar.Time) :
    Except Failure Artifact → Except Failure Artifact → Prop where
  | generated {artifact other : Artifact} (h : artifact.SameButTime now now' other) :
    SameResult now now' (.ok artifact) (.ok other)
  | failed (failure : Failure) : SameResult now now' (.error failure) (.error failure)

/-- Two outcomes differ in nothing but the time in their artifacts, if they have artifacts. -/
structure Compiled.SameButTime (now now' : Calendar.Time) (compiled other : Compiled) : Prop where
  name : compiled.name = other.name
  document : compiled.document = other.document
  artifact : SameResult now now' compiled.artifact other.artifact
  findings : compiled.findings = other.findings
  scopes : compiled.scopes = other.scopes

/-! ## Two times -/

variable (config : Config) (now now' : Calendar.Time)

/-- A linked table makes artifacts that differ in the time only. -/
theorem Artifact.ofLinkage_sameButTime (linkage : Linkage) :
    (ofLinkage config now linkage).SameButTime now now' (ofLinkage config now' linkage) where
  document := rfl
  fileName := rfl
  lines := ⟨_, rawLines_contents config now linkage, rawLines_contents config now' linkage⟩
  equal := (equalButTime_iff config config now now' linkage linkage).2 rfl
  unchanged := (isUnchanged_iff config config now now' linkage linkage).2 rfl
  unchangedBack := (isUnchanged_iff config config now' now linkage linkage).2 rfl

theorem Compiled.ofLinkage_sameButTime (staged : Staged Linkage) :
    (ofLinkage config now staged).SameButTime now now' (ofLinkage config now' staged) := by
  rw [ofLinkage, ofLinkage]
  cases staged.stage with
  | ok linkage =>
    exact ⟨rfl, rfl, .generated (Artifact.ofLinkage_sameButTime config now now' linkage), rfl, rfl⟩
  | error failure => exact ⟨rfl, rfl, .failed failure, rfl, rfl⟩

/-- Compiling a workspace at two times comes to the same outcomes, and gives the same notices. The
    artifacts of a document differ in the line with the time only, and each is unchanged from the
    other. -/
theorem Workspace.compile_sameButTime (workspace : Workspace) :
    List.Forall₂ (Compiled.SameButTime now now') (workspace.compile config now).documents
        (workspace.compile config now').documents ∧
      (workspace.compile config now).notices = (workspace.compile config now').notices := by
  refine ⟨?_, rfl⟩
  rw [compile, compile, List.forall₂_map_left_iff, List.forall₂_map_right_iff, List.forall₂_same]
  exact fun staged _ => Compiled.ofLinkage_sameButTime config now now' staged

end PatternTable
