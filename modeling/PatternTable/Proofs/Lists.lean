import Mathlib.Data.List.Basic
import Mathlib.Data.List.Nodup
import Mathlib.Data.List.Pairwise

/-!
# Lists without repetitions

Results:
* `lookup_eq_some_iff_mem`, `lookup_eq_of_perm`: an association list with different keys is looked
  up in as a set.
* `filter_eq_singleton`: an element is told by its key.
* `inFirstOrder_eraseDups`: what is left when repetitions are erased.
* `eraseDups_map`: erasing repetitions before or after a replacement by different elements.
-/

namespace PatternTable

/-! ## Association lists -/

theorem lookup_eq_none_iff_not_mem {α β : Type} [DecidableEq α] {entries : List (α × β)} {a : α} :
    entries.lookup a = none ↔ a ∉ entries.map Prod.fst := by
  rw [List.lookup_eq_none_iff, List.mem_map, not_exists]
  refine forall_congr' fun entry => ?_
  rw [bne_iff_ne, not_and]
  exact forall_congr' fun _ => ne_comm

theorem lookup_eq_some_of_mem {α β : Type} [DecidableEq α] {entries : List (α × β)}
    (hnodup : (entries.map Prod.fst).Nodup) {a : α} {b : β} (hmem : (a, b) ∈ entries) :
    entries.lookup a = some b := by
  induction entries with
  | nil => simp at hmem
  | cons entry entries ih =>
    rcases entry with ⟨first, value⟩
    rw [List.map_cons, List.nodup_cons] at hnodup
    rw [List.mem_cons, Prod.mk.injEq] at hmem
    obtain ⟨rfl, rfl⟩ | hmem := hmem
    · exact List.lookup_cons_self
    · have hne : (a == first) = false := by
        rw [beq_eq_false_iff_ne]
        rintro rfl
        exact hnodup.1 (List.mem_map.2 ⟨(a, b), hmem, rfl⟩)
      simp only [List.lookup_cons, hne]
      exact ih hnodup.2 hmem

theorem lookup_eq_some_iff_mem {α β : Type} [DecidableEq α] {entries : List (α × β)}
    (hnodup : (entries.map Prod.fst).Nodup) {a : α} {b : β} :
    entries.lookup a = some b ↔ (a, b) ∈ entries := by
  constructor
  · intro h
    obtain ⟨before, after, rfl, -⟩ := List.lookup_eq_some_iff.1 h
    simp
  · exact lookup_eq_some_of_mem hnodup

theorem lookup_eq_of_perm {α β : Type} [DecidableEq α] {entries others : List (α × β)}
    (h : entries.Perm others) (hnodup : (entries.map Prod.fst).Nodup) (a : α) :
    entries.lookup a = others.lookup a := by
  refine Option.ext fun b => ?_
  rw [lookup_eq_some_iff_mem hnodup, lookup_eq_some_iff_mem ((h.map _).nodup_iff.1 hnodup),
    h.mem_iff]

/-! ## Repetitions -/

/-- If no two elements have one key, an element is the only one with its key. -/
theorem filter_eq_singleton {α β : Type} [DecidableEq β] {key : α → β} {list : List α}
    (hnodup : (list.map key).Nodup) {a : α} (hmem : a ∈ list) :
    (list.filter fun b => key b == key a) = [a] := by
  obtain ⟨before, after, rfl⟩ := List.append_of_mem hmem
  rw [List.Nodup, List.pairwise_map, List.pairwise_append, List.pairwise_cons] at hnodup
  obtain ⟨-, ⟨hafter, -⟩, hbefore⟩ := hnodup
  have hnone (others : List α) (h : ∀ b ∈ others, key b ≠ key a) :
      (others.filter fun b => key b == key a) = [] := by
    rw [List.filter_eq_nil_iff]
    intro b hb
    rw [beq_iff_eq]
    exact h b hb
  rw [List.filter_append, List.filter_cons_of_pos (by simp),
    hnone before fun b hb => hbefore b hb a List.mem_cons_self,
    hnone after fun b hb => (hafter b hb).symm]
  rfl

/-- Of a list without repetitions, a part that is told by what is in it has none either. -/
theorem nodup_filterMap_of_imp {α β : Type} {list : List α} {f g : α → Option β}
    (hnodup : (list.filterMap g).Nodup) (h : ∀ a b, f a = some b → g a = some b) :
    (list.filterMap f).Nodup := by
  rw [List.Nodup, List.pairwise_filterMap] at hnodup ⊢
  exact hnodup.imp fun hne b hb b' hb' => hne b (h _ b hb) b' (h _ b' hb')

/-! ## First occurrences -/

/-- A list has the elements of another one, once each, in the order in which they first occur
    there. -/
structure InFirstOrder {α : Type} [DecidableEq α] (list firsts : List α) : Prop where
  nodup : firsts.Nodup
  mem_iff : ∀ a, a ∈ firsts ↔ a ∈ list
  ordered : firsts.Pairwise fun a b => list.idxOf a < list.idxOf b

/-- Elements that are kept keep their order. -/
theorem idxOf_lt_of_filter {α : Type} [DecidableEq α] {p : α → Bool} {list : List α} {a b : α}
    (ha : p a) (hb : p b) (h : (list.filter p).idxOf a < (list.filter p).idxOf b) :
    list.idxOf a < list.idxOf b := by
  induction list with
  | nil => exact h
  | cons c list ih =>
    by_cases hc : p c
    · rw [List.filter_cons_of_pos hc] at h
      by_cases hcb : c = b
      · subst hcb
        rw [List.idxOf_cons_self] at h
        exact absurd h (Nat.not_lt_zero _)
      · by_cases hca : c = a
        · subst hca
          rw [List.idxOf_cons_self, List.idxOf_cons_ne _ hcb]
          exact Nat.succ_pos _
        · rw [List.idxOf_cons_ne _ hca, List.idxOf_cons_ne _ hcb] at h ⊢
          exact Nat.succ_lt_succ (ih (Nat.lt_of_succ_lt_succ h))
    · have hca : c ≠ a := fun heq => hc (heq ▸ ha)
      have hcb : c ≠ b := fun heq => hc (heq ▸ hb)
      rw [List.filter_cons_of_neg hc] at h
      rw [List.idxOf_cons_ne _ hca, List.idxOf_cons_ne _ hcb]
      exact Nat.succ_lt_succ (ih h)

theorem inFirstOrder_eraseDups {α : Type} [DecidableEq α] (list : List α) :
    InFirstOrder list list.eraseDups := by
  induction h : list.length using Nat.strongRecOn generalizing list with
  | ind length ih =>
    cases list with
    | nil => exact ⟨List.nodup_nil, fun _ => Iff.rfl, List.Pairwise.nil⟩
    | cons a list =>
      have hlength : (list.filter fun b => !b == a).length < length := by
        rw [← h, List.length_cons]
        exact Nat.lt_succ_of_le (List.length_filter_le _ list)
      obtain ⟨hnodup, hmem, hordered⟩ := ih _ hlength _ rfl
      -- What is left of the rest has no further occurrence of the first element.
      have hrest {b : α} (hb : b ∈ (list.filter fun b => !b == a).eraseDups) : b ≠ a := by
        simpa using (List.mem_filter.1 ((hmem b).1 hb)).2
      rw [List.eraseDups_cons]
      refine ⟨List.nodup_cons.2 ⟨fun ha => hrest ha rfl, hnodup⟩, fun b => ?_,
        List.pairwise_cons.2 ⟨fun b hb => ?_, ?_⟩⟩
      · rw [List.mem_cons, List.mem_cons, hmem, List.mem_filter]
        by_cases hb : b = a <;> simp [hb]
      · rw [List.idxOf_cons_self, List.idxOf_cons_ne _ (hrest hb).symm]
        exact Nat.succ_pos _
      · refine hordered.imp_of_mem fun {b c} hb hc hlt => ?_
        rw [List.idxOf_cons_ne _ (hrest hb).symm, List.idxOf_cons_ne _ (hrest hc).symm]
        refine Nat.succ_lt_succ (idxOf_lt_of_filter ?_ ?_ hlt)
        · simpa using hrest hb
        · simpa using hrest hc

/-- Elements that are replaced by different ones are repeated as before. -/
theorem eraseDups_map {α β : Type} [BEq α] [LawfulBEq α] [BEq β] [LawfulBEq β] {f : α → β}
    (hf : Function.Injective f) (list : List α) :
    (list.map f).eraseDups = list.eraseDups.map f := by
  induction h : list.length using Nat.strongRecOn generalizing list with
  | ind length ih =>
    cases list with
    | nil => rfl
    | cons a list =>
      have hlength : (list.filter fun b => !b == a).length < length := by
        rw [← h, List.length_cons]
        exact Nat.lt_succ_of_le (List.length_filter_le _ list)
      have hrest : ((list.map f).filter fun b => !b == f a) =
          (list.filter fun b => !b == a).map f := by
        rw [List.filter_map]
        refine congrArg _ (List.filter_congr fun b _ => ?_)
        simp [hf.eq_iff]
      rw [List.map_cons, List.eraseDups_cons, List.eraseDups_cons, List.map_cons, hrest,
        ih _ hlength _ rfl]

theorem nodup_eraseDups {α : Type} [DecidableEq α] (list : List α) : list.eraseDups.Nodup :=
  (inFirstOrder_eraseDups list).nodup

end PatternTable
