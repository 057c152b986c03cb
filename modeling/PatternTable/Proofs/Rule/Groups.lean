import PatternTable.Table.OfGrammar

/-!
# Groups of a capture field

The keys of a capture field spell group numbers, and its rules are built in the order of these
numbers. A key that spells no number, or a number that an earlier key spells, is refused before any
of the rules is built.

Results:
* `mem_sortedGroups`: every group is an entry of the field under its number.
* `sortedGroups_nodup`: no two groups have one number.
* `sortedGroups_pairwise_lt`: the groups are in ascending order.
* `toString_ne_of_not_digits`: a member that is named after a group has no other name.
* `numbered_map`, `sortedGroups_map`: the order of the groups depends on the keys alone.
-/

namespace PatternTable

/-- The entries of a capture field in the order of their group numbers; none if the keys do not
    spell different numbers. -/
def sortedGroups {α : Type} (entries : List (String × α)) : List (Nat × α) :=
  match numbered [] entries with
  | .error _ => []
  | .ok groups => groups.mergeSort fun a b => a.1 ≤ b.1

/-- The text of a number has no other characters than digits. -/
theorem toString_ne_of_not_digits {key : String} (h : key.toList.all Char.isDigit = false)
    (number : Nat) : toString number ≠ key := by
  have hdigits : (toString number).toList.all Char.isDigit := by
    rw [Nat.toString_eq_ofList_toDigits, String.toList_ofList, List.all_eq_true]
    exact fun c hc => Nat.isDigit_of_mem_toDigits (by decide) (by decide) hc
  rintro rfl
  rw [hdigits] at h
  exact Bool.noConfusion h

theorem numbered_map {α β : Type} (f : α → β) (seen : List Nat) (entries : List (String × α)) :
    numbered seen (entries.map fun entry => (entry.1, f entry.2)) =
      (numbered seen entries).map (List.map fun group => (group.1, f group.2)) := by
  induction entries generalizing seen with
  | nil => rfl
  | cons entry entries ih =>
    rcases entry with ⟨key, a⟩
    simp only [List.map_cons, numbered]
    cases groupNumber? key with
    | none => rfl
    | some number =>
      dsimp only
      split
      · rfl
      · rw [ih]
        cases numbered (number :: seen) entries <;> rfl

theorem sortedGroups_map {α β : Type} (f : α → β) (entries : List (String × α)) :
    sortedGroups (entries.map fun entry => (entry.1, f entry.2)) =
      (sortedGroups entries).map fun group => (group.1, f group.2) := by
  rw [sortedGroups, sortedGroups, numbered_map]
  cases numbered [] entries with
  | error key => rfl
  | ok groups =>
    dsimp only [Except.map]
    rw [List.map_mergeSort]
    exact fun _ _ _ _ => rfl

@[simp]
theorem sortedGroups_nil {α : Type} : sortedGroups ([] : List (String × α)) = [] := by
  simp [sortedGroups, numbered]

theorem mem_numbered {α : Type} {seen : List Nat} {entries : List (String × α)}
    {groups : List (Nat × α)} (h : numbered seen entries = .ok groups) {group : Nat × α}
    (hmem : group ∈ groups) :
    ∃ key, (key, group.2) ∈ entries ∧ groupNumber? key = some group.1 := by
  induction entries generalizing seen groups with
  | nil =>
    rw [numbered, Except.ok.injEq] at h
    simp [← h] at hmem
  | cons entry entries ih =>
    rcases entry with ⟨key, a⟩
    simp only [numbered] at h
    cases hnumber : groupNumber? key with
    | none => simp [hnumber] at h
    | some number =>
      simp only [hnumber] at h
      split at h
      · simp at h
      · cases hrest : numbered (number :: seen) entries with
        | error key => simp [hrest] at h
        | ok rest =>
          simp only [hrest, Except.ok.injEq] at h
          rw [← h, List.mem_cons] at hmem
          rcases hmem with rfl | hmem
          · exact ⟨key, List.mem_cons_self, hnumber⟩
          · obtain ⟨other, hentry, hother⟩ := ih hrest hmem
            exact ⟨other, List.mem_cons_of_mem _ hentry, hother⟩

theorem numbered_nodup {α : Type} {seen : List Nat} {entries : List (String × α)}
    {groups : List (Nat × α)} (h : numbered seen entries = .ok groups) :
    (groups.map Prod.fst).Nodup ∧ ∀ number ∈ groups.map Prod.fst, number ∉ seen := by
  induction entries generalizing seen groups with
  | nil =>
    rw [numbered, Except.ok.injEq] at h
    simp [← h]
  | cons entry entries ih =>
    rcases entry with ⟨key, a⟩
    simp only [numbered] at h
    cases hnumber : groupNumber? key with
    | none => simp [hnumber] at h
    | some number =>
      simp only [hnumber] at h
      split at h
      · simp at h
      · next hseen =>
        cases hrest : numbered (number :: seen) entries with
        | error key => simp [hrest] at h
        | ok rest =>
          simp only [hrest, Except.ok.injEq] at h
          obtain ⟨hnodup, hfresh⟩ := ih hrest
          have hnotin : number ∉ rest.map Prod.fst := fun hmem =>
            hfresh number hmem List.mem_cons_self
          rw [← h, List.map_cons]
          refine ⟨List.nodup_cons.2 ⟨hnotin, hnodup⟩, fun other hmem => ?_⟩
          rcases List.mem_cons.1 hmem with rfl | hmem
          · simpa using hseen
          · exact fun hother => hfresh other hmem (List.mem_cons_of_mem _ hother)

theorem mem_sortedGroups {α : Type} {entries : List (String × α)} {group : Nat × α}
    (hmem : group ∈ sortedGroups entries) :
    ∃ key, (key, group.2) ∈ entries ∧ groupNumber? key = some group.1 := by
  rw [sortedGroups] at hmem
  cases h : numbered [] entries with
  | error key => simp [h] at hmem
  | ok groups =>
    simp only [h] at hmem
    exact mem_numbered h ((List.mergeSort_perm groups _).mem_iff.1 hmem)

theorem sortedGroups_nodup {α : Type} (entries : List (String × α)) :
    ((sortedGroups entries).map Prod.fst).Nodup := by
  rw [sortedGroups]
  cases h : numbered [] entries with
  | error key => exact List.nodup_nil
  | ok groups =>
    exact ((List.mergeSort_perm groups _).map Prod.fst).nodup_iff.2 (numbered_nodup h).1

/-- The groups are in ascending order. -/
theorem sortedGroups_pairwise_lt {α : Type} (entries : List (String × α)) :
    (sortedGroups entries).Pairwise fun a b => a.1 < b.1 := by
  have hsorted : (sortedGroups entries).Pairwise fun a b => a.1 ≤ b.1 := by
    rw [sortedGroups]
    cases h : numbered [] entries with
    | error key => exact List.Pairwise.nil
    | ok groups =>
      have hpairwise : (groups.mergeSort fun a b => a.1 ≤ b.1).Pairwise fun a b =>
          decide (a.1 ≤ b.1) = true :=
        List.pairwise_mergeSort (by simpa using fun a _ b _ c _ => Nat.le_trans)
          (by simp [Nat.le_total]) groups
      simpa using hpairwise
  have hnodup := sortedGroups_nodup entries
  rw [List.Nodup, List.pairwise_map] at hnodup
  exact hsorted.imp₂ (fun _ _ hle hne => Nat.lt_of_le_of_ne hle hne) hnodup

end PatternTable
