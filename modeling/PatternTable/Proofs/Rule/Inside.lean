import PatternTable.Proofs.Rule.Soundness

/-!
# The rules inside a rule

Whether a rule is sound can be decided, and so can whether all rules inside it are. That is enough
for the rule to be built, although building does not go into every rule that is inside.

* `Rule.inside`: a rule and the rules inside it, at any depth.

Results:
* `Rule.mem_inside_of_reaches`: a rule that building comes to is inside.
* `Rule.isSound_iff`: which rules pass the check.
* `Rule.cause?_visits_of_inside`: a rule can be built if all rules inside it are sound.
-/

namespace PatternTable

namespace Rule

/-- A rule and the rules inside it, from those inside the rules that it holds. -/
def insideOf (rule : Rule) (children : Children (List Rule)) : List Rule :=
  rule :: ((Field.captureFields.flatMap fun field =>
      ((children.groups field).getD []).flatMap Prod.snd) ++
    (children.patterns.getD []).flatMap Prod.snd)

/-- A rule and the rules inside it, at any depth. -/
def inside (rule : Rule) : List Rule :=
  rule.fold insideOf

theorem mem_inside_iff {rule target : Rule} : target ∈ rule.inside ↔ target = rule ∨
    (∃ field entries, rule.groups field = some entries ∧ ∃ entry ∈ entries,
      target ∈ entry.2.inside) ∨
    ∃ rules, rule.patterns = some rules ∧ ∃ entry ∈ rules, target ∈ entry.inside := by
  rw [inside, fold_eq, insideOf, List.mem_cons, List.mem_append]
  refine or_congr_right (or_congr ?_ ?_)
  · rw [List.mem_flatMap]
    constructor
    · rintro ⟨field, -, hmem⟩
      cases hgroups : rule.groups field with
      | none => simp [hgroups] at hmem
      | some entries => exact ⟨field, entries, hgroups, by simpa [hgroups, inside] using hmem⟩
    · rintro ⟨field, entries, hgroups, hmem⟩
      exact ⟨field, mem_captureFields_of_groups hgroups, by simpa [hgroups, inside] using hmem⟩
  · cases rule.patterns with
    | none => simp
    | some rules => simp [inside]

/-- A rule that building comes to is inside. -/
theorem mem_inside_of_reaches {rule target : Rule} {path below : AccessPath}
    (h : rule.Reaches path target below) : target ∈ rule.inside := by
  induction h with
  | self rule => exact mem_inside_iff.2 (.inl rfl)
  | group _ hgroups hentry _ _ ih =>
    exact mem_inside_iff.2 (.inr (.inl ⟨_, _, hgroups, _, hentry, ih⟩))
  | entry _ hrules hget _ ih =>
    exact mem_inside_iff.2 (.inr (.inr ⟨_, hrules, _, List.mem_of_getElem? hget, ih⟩))

/-- Whether a rule is sound, as far as the rule itself goes. -/
def isSound (document : Document) (rule : Rule) : Bool :=
  match rule.reference with
  | some spelling => (Reference.parse? document spelling).isSome
  | none => rule.defect?.isNone && Field.captureFields.all fun field =>
      (rule.groups field).all fun entries => (numbered [] entries).isOk

theorem isSound_iff {document : Document} {rule : Rule} :
    rule.isSound document ↔ rule.Sound document := by
  have hnumbered (entries : Captures) :
      (numbered [] entries).isOk ↔ GroupKeys (entries.map Prod.fst) := by
    rw [← exists_numbered_iff]
    cases numbered [] entries <;> simp [Except.isOk, Except.toBool]
  rw [isSound]
  cases hreference : rule.reference with
  | some spelling =>
    have hrule : rule.isReference = true := by rw [isReference, hreference]; rfl
    constructor
    · intro h
      exact ⟨fun other hother => by rwa [← Option.some.inj (hreference.symm.trans hother)],
        by simp [hrule], by simp [hrule], by simp [hrule]⟩
    · exact fun h => h.reference spelling hreference
  | none =>
    have hrule : rule.isReference = false := by rw [isReference, hreference]; rfl
    rw [Bool.and_eq_true, Option.isNone_iff_eq_none, defect?_eq_none_iff, List.all_eq_true]
    simp only [Option.all_eq_true, hnumbered]
    constructor
    · rintro ⟨⟨hsingle, hspan⟩, hgroups⟩
      exact ⟨by simp [hreference], fun _ => hsingle, fun _ => hspan, fun _ field entries h =>
        hgroups field (mem_captureFields_of_groups h) entries h⟩
    · exact fun h => ⟨⟨h.single hrule, h.span hrule⟩, fun field _ => h.groups hrule field⟩

instance (document : Document) (rule : Rule) : Decidable (rule.Sound document) :=
  decidable_of_iff _ isSound_iff

/-- If all rules inside a rule are sound, no stop on the way through it fails. -/
theorem cause?_visits_of_inside {context : Context} {rule : Rule}
    (h : ∀ target ∈ rule.inside, target.Sound context.document) (path : AccessPath) :
    ∀ visit ∈ rule.visits path, context.cause? visit = none :=
  cause?_visits_iff.2 fun target _ hreaches => h target (mem_inside_of_reaches hreaches)

end Rule

end PatternTable
