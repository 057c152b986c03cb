import PatternTable.Proofs.Rule.Visits

/-!
# The trail of a run

A run that succeeds leaves the trails of its stops, one after the other. Every part of a trail is a
list, and the part of the whole is made of those of the stops.

Results:
* `Build.result_forM`: a run ends at the first of its parts that fails.
* `visitAll_ok_iff`: going through some stops succeeds exactly if no stop fails.
* `trail_visitAll`: the trail that is left then.
* `internalPatches_concat`, `externalPatches_concat`, `arrays_concat`, `tokens_concat`: the parts of
  several trails.
-/

namespace PatternTable

namespace Trail

theorem internalPatches_append (a b : Trail) :
    (a ++ b).internalPatches = a.internalPatches ++ b.internalPatches := rfl

theorem externalPatches_append (a b : Trail) :
    (a ++ b).externalPatches = a.externalPatches ++ b.externalPatches := rfl

theorem arrays_append (a b : Trail) : (a ++ b).arrays = a.arrays ++ b.arrays := rfl

theorem tokens_append (a b : Trail) : (a ++ b).tokens = a.tokens ++ b.tokens := rfl

theorem findings_append (a b : Trail) : (a ++ b).findings = a.findings ++ b.findings := rfl

/-- Several trails, one after the other. -/
def concat (trails : List Trail) : Trail :=
  trails.foldr (· ++ ·) {}

theorem concat_cons (trail : Trail) (trails : List Trail) :
    concat (trail :: trails) = trail ++ concat trails := rfl

theorem concat_append (trails others : List Trail) :
    concat (trails ++ others) = concat trails ++ concat others := by
  induction trails with
  | nil => exact (empty_append _).symm
  | cons trail trails ih => rw [List.cons_append, concat_cons, concat_cons, ih, append_assoc]

theorem part_concat {α : Type} {part : Trail → List α} (hempty : part {} = [])
    (happend : ∀ a b, part (a ++ b) = part a ++ part b) (trails : List Trail) :
    part (concat trails) = trails.flatMap part := by
  induction trails with
  | nil => exact hempty
  | cons trail trails ih => rw [concat_cons, happend, ih, List.flatMap_cons]

theorem internalPatches_concat (trails : List Trail) :
    (concat trails).internalPatches = trails.flatMap internalPatches :=
  part_concat rfl internalPatches_append trails

theorem externalPatches_concat (trails : List Trail) :
    (concat trails).externalPatches = trails.flatMap externalPatches :=
  part_concat rfl externalPatches_append trails

theorem arrays_concat (trails : List Trail) : (concat trails).arrays = trails.flatMap arrays :=
  part_concat rfl arrays_append trails

theorem tokens_concat (trails : List Trail) : (concat trails).tokens = trails.flatMap tokens :=
  part_concat rfl tokens_append trails

end Trail

namespace Build

variable {α : Type}

theorem result_pure (a : α) : (pure a : Build α).result = .ok a := rfl

theorem trail_pure (a : α) : (pure a : Build α).trail = {} := rfl

/-- How a run ends, from what is wrong first. -/
def outcome : Option Cause → Except Cause Unit
  | none => .ok ()
  | some cause => .error cause

theorem outcome_eq_ok_iff {cause? : Option Cause} : outcome cause? = .ok () ↔ cause? = none := by
  cases cause? <;> simp [outcome]

theorem outcome_eq_error_iff {cause? : Option Cause} {cause : Cause} :
    outcome cause? = .error cause ↔ cause? = some cause := by
  cases cause? <;> simp [outcome]

/-- A run ends at the first of its parts that fails. -/
theorem result_forM {build : α → Build Unit} {cause? : α → Option Cause}
    (h : ∀ a, (build a).result = outcome (cause? a)) (list : List α) :
    (forM list build : Build Unit).result = outcome (list.findSome? cause?) := by
  induction list with
  | nil => rfl
  | cons a list ih =>
    have ha := h a
    rw [List.forM_cons, List.findSome?_cons]
    cases hcause : cause? a with
    | some cause =>
      rw [hcause] at ha
      rw [bind_of_error ha]
      rfl
    | none =>
      rw [hcause] at ha
      rw [result_bind_of_ok ha, ih]

end Build

namespace Context

theorem visit_result (context : Context) (visit : Visit) :
    (context.visit visit).result = Build.outcome (context.cause? visit) := by
  rw [Context.visit]
  cases context.cause? visit <;> rfl

theorem visitAll_result (context : Context) (visits : List Visit) :
    (context.visitAll visits).result = Build.outcome (visits.findSome? context.cause?) :=
  Build.result_forM context.visit_result visits

theorem visit_ok_iff {context : Context} {visit : Visit} :
    (context.visit visit).result = .ok () ↔ context.cause? visit = none := by
  rw [visit_result, Build.outcome_eq_ok_iff]

theorem visitAll_ok_iff {context : Context} {visits : List Visit} :
    (context.visitAll visits).result = .ok () ↔ ∀ visit ∈ visits, context.cause? visit = none := by
  rw [visitAll_result, Build.outcome_eq_ok_iff, List.findSome?_eq_none_iff]

theorem trail_visitAll {context : Context} {visits : List Visit}
    (h : ∀ visit ∈ visits, context.cause? visit = none) :
    (context.visitAll visits).trail = Trail.concat (visits.map context.trail) := by
  induction visits with
  | nil => rfl
  | cons visit visits ih =>
    rw [List.forall_mem_cons] at h
    have hrest := ih h.2
    rw [visitAll] at hrest ⊢
    rw [List.forM_cons, Build.trail_bind_of_ok (visit_ok_iff.2 h.1), hrest]
    rfl

end Context

end PatternTable
