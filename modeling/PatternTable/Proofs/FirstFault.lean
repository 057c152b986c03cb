import Mathlib.Data.List.Pairwise

/-!
# The first fault in a list

A check goes through a list and stops at the first element that is at fault. What is wrong with an
element may depend on the elements before it.

* `Faultless fault list`: no element of a list is at fault.
* `FirstFault fault list cause`: the first element at fault is so for a cause.

Results:
* `firstFault?_eq_none_iff`, `firstFault?_eq_some_iff`: a check that goes through a list finds the
  first fault.
* `faultless_iff_pairwise`: elements are compared with those before them.
-/

namespace PatternTable

variable {α β : Type}

/-! ## Specification -/

/-- No element of a list is at fault. -/
def Faultless (fault : List α → α → β → Prop) (list : List α) : Prop :=
  ∀ before a after, list = before ++ a :: after → ∀ cause, ¬ fault before a cause

/-- The first element of a list that is at fault is so for a cause. -/
def FirstFault (fault : List α → α → β → Prop) (list : List α) (cause : β) : Prop :=
  ∃ before a after, list = before ++ a :: after ∧ Faultless fault before ∧ fault before a cause

theorem faultless_nil (fault : List α → α → β → Prop) : Faultless fault [] := by
  intro before a after h
  simp at h

theorem faultless_cons_iff {fault : List α → α → β → Prop} {a : α} {list : List α} :
    Faultless fault (a :: list) ↔
      (∀ cause, ¬ fault [] a cause) ∧ Faultless (fun before => fault (a :: before)) list := by
  constructor
  · intro h
    refine ⟨h [] a list rfl, fun before b after hlist => ?_⟩
    exact h (a :: before) b after (by rw [hlist, List.cons_append])
  · rintro ⟨hfirst, hlater⟩ before b after hlist
    cases before with
    | nil =>
      obtain ⟨rfl, rfl⟩ := by simpa using hlist
      exact hfirst
    | cons c before =>
      obtain ⟨rfl, hrest⟩ := by simpa using hlist
      exact hlater before b after hrest

theorem not_firstFault_nil (fault : List α → α → β → Prop) (cause : β) :
    ¬ FirstFault fault [] cause := by
  rintro ⟨before, a, after, h, -⟩
  simp at h

theorem firstFault_cons_iff {fault : List α → α → β → Prop} {a : α} {list : List α} {cause : β} :
    FirstFault fault (a :: list) cause ↔
      fault [] a cause ∨ (∀ other, ¬ fault [] a other) ∧
        FirstFault (fun before => fault (a :: before)) list cause := by
  constructor
  · rintro ⟨before, b, after, hlist, hbefore, hfault⟩
    cases before with
    | nil =>
      obtain ⟨rfl, rfl⟩ := by simpa using hlist
      exact .inl hfault
    | cons c before =>
      obtain ⟨rfl, hrest⟩ := by simpa using hlist
      obtain ⟨hfirst, hlater⟩ := faultless_cons_iff.1 hbefore
      exact .inr ⟨hfirst, before, b, after, hrest, hlater, hfault⟩
  · rintro (hfault | ⟨hfirst, before, b, after, hlist, hlater, hfault⟩)
    · exact ⟨[], a, list, rfl, faultless_nil fault, hfault⟩
    · refine ⟨a :: before, b, after, ?_, faultless_cons_iff.2 ⟨hfirst, hlater⟩, hfault⟩
      rw [hlist, List.cons_append]

/-- If every element is compared with those before it, each two are compared. -/
theorem faultless_iff_pairwise {fault : List α → α → β → Prop} {alone : α → Prop}
    {together : α → α → Prop} (h : ∀ before a, (∀ cause, ¬ fault before a cause) ↔
      alone a ∧ ∀ b ∈ before, together b a) {list : List α} :
    Faultless fault list ↔ (∀ a ∈ list, alone a) ∧ list.Pairwise together := by
  constructor
  · intro hlist
    constructor
    · intro a hmem
      obtain ⟨before, after, hsplit⟩ := List.append_of_mem hmem
      exact ((h before a).1 (hlist before a after hsplit)).1
    · rw [List.pairwise_iff_forall_sublist]
      intro b a hsublist
      obtain ⟨before, rest, rfl, hb, ha⟩ := List.cons_sublist_iff.1 hsublist
      obtain ⟨middle, after, rfl⟩ := List.append_of_mem (List.singleton_sublist.1 ha)
      have hfault := hlist (before ++ middle) a after (by rw [List.append_assoc])
      exact ((h _ a).1 hfault).2 b (List.mem_append_left _ hb)
  · rintro ⟨halone, htogether⟩ before a after rfl
    refine (h before a).2 ⟨halone a (by simp), fun b hb => ?_⟩
    exact (List.pairwise_append.1 htogether).2.2 b hb a List.mem_cons_self

theorem faultless_append_singleton_iff {fault : List α → α → β → Prop} {list : List α} {a : α} :
    Faultless fault (list ++ [a]) ↔ Faultless fault list ∧ ∀ cause, ¬ fault list a cause := by
  induction list generalizing fault with
  | nil => simp [faultless_cons_iff, faultless_nil]
  | cons b list ih =>
    rw [List.cons_append, faultless_cons_iff, faultless_cons_iff, ih, and_assoc]

/-! ## Checks -/

/-- What is wrong with the first element of a list that is at fault, when the elements in `before`
    come before the list. -/
def firstFault? (fault? : List α → α → Option β) (before : List α) : List α → Option β
  | [] => none
  | a :: list =>
    match fault? before a with
    | some cause => some cause
    | none => firstFault? fault? (before ++ [a]) list

section

variable {fault? : List α → α → Option β} {fault : List α → α → β → Prop}

theorem forall_not_fault_iff {before : List α} {a : α}
    (h : ∀ cause, fault? before a = some cause ↔ fault before a cause) :
    (∀ cause, ¬ fault before a cause) ↔ fault? before a = none := by
  rw [Option.eq_none_iff_forall_ne_some]
  exact forall_congr' fun cause => not_congr (h cause).symm

/-- What a check says of an element counts only if the elements before it are not at fault. -/
def Decides (fault? : List α → α → Option β) (fault : List α → α → β → Prop) : Prop :=
  ∀ before, Faultless fault before → ∀ a cause, fault? before a = some cause ↔ fault before a cause

theorem firstFault?_append_eq_none_iff (h : Decides fault? fault) {before : List α}
    (hbefore : Faultless fault before) (list : List α) :
    firstFault? fault? before list = none ↔
      Faultless (fun earlier => fault (before ++ earlier)) list := by
  induction list generalizing before with
  | nil => exact ⟨fun _ => faultless_nil _, fun _ => rfl⟩
  | cons a list ih =>
    have hfirst := forall_not_fault_iff (h before hbefore a)
    rw [firstFault?, faultless_cons_iff, List.append_nil, hfirst]
    cases hcause : fault? before a with
    | some cause => simp
    | none =>
      have hnext := ih (faultless_append_singleton_iff.2 ⟨hbefore, hfirst.2 hcause⟩)
      simpa [List.append_assoc] using hnext

theorem firstFault?_append_eq_some_iff (h : Decides fault? fault) {before : List α}
    (hbefore : Faultless fault before) (list : List α) (cause : β) :
    firstFault? fault? before list = some cause ↔
      FirstFault (fun earlier => fault (before ++ earlier)) list cause := by
  induction list generalizing before with
  | nil => exact ⟨fun h => by simp [firstFault?] at h, fun h => absurd h (not_firstFault_nil _ _)⟩
  | cons a list ih =>
    have hfirst := forall_not_fault_iff (h before hbefore a)
    rw [firstFault?, firstFault_cons_iff, List.append_nil, hfirst, ← h before hbefore]
    cases hcause : fault? before a with
    | some other => simp
    | none =>
      have hnext := ih (faultless_append_singleton_iff.2 ⟨hbefore, hfirst.2 hcause⟩)
      simpa [List.append_assoc] using hnext

/-- A check finds no fault exactly if there is none. -/
theorem firstFault?_eq_none_iff (h : Decides fault? fault) (list : List α) :
    firstFault? fault? [] list = none ↔ Faultless fault list :=
  firstFault?_append_eq_none_iff h (faultless_nil fault) list

/-- A check finds the first fault. -/
theorem firstFault?_eq_some_iff (h : Decides fault? fault) (list : List α) (cause : β) :
    firstFault? fault? [] list = some cause ↔ FirstFault fault list cause :=
  firstFault?_append_eq_some_iff h (faultless_nil fault) list cause

end

/-! ## Checks of single elements -/

section

variable {cause? : α → Option β} {fault : α → β → Prop}

theorem firstFault?_eq_findSome? (cause? : α → Option β) (before list : List α) :
    firstFault? (fun _ => cause?) before list = list.findSome? cause? := by
  induction list generalizing before with
  | nil => rfl
  | cons a list ih =>
    rw [firstFault?, List.findSome?_cons, ih]
    cases cause? a <;> rfl

theorem findSome?_eq_none_iff_faultless (h : ∀ a cause, cause? a = some cause ↔ fault a cause)
    (list : List α) : list.findSome? cause? = none ↔ Faultless (fun _ => fault) list := by
  rw [← firstFault?_eq_findSome? cause? []]
  exact firstFault?_eq_none_iff (fun _ _ => h) list

theorem findSome?_eq_some_iff_firstFault (h : ∀ a cause, cause? a = some cause ↔ fault a cause)
    (list : List α) (cause : β) :
    list.findSome? cause? = some cause ↔ FirstFault (fun _ => fault) list cause := by
  rw [← firstFault?_eq_findSome? cause? []]
  exact firstFault?_eq_some_iff (fun _ _ => h) list cause

end

end PatternTable
