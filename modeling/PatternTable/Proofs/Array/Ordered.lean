import Mathlib.Data.List.Sort
import PatternTable.Proofs.Module.Runtime

/-!
# Arrays in source order

The elements of an array, each with the source index that it is for, can be put in the order of
their indices. A statement is planned with the ascending list of the indices: the rank of an index
in it is the number of smaller ones, and that is where the element for the index has to be added.

* `Arrays.ordered`: elements in the order of their indices.
* `PatchKind.IsFor`: where the element for an index has to be added.

Results:
* `Arrays.getElem?_rank`: an index stands at its rank.
* `Arrays.ordered_eq_of_perm`: elements for different indices have one order.
* `PatchKind.isFor_planned`: an element is planned to be added where it has to be.
* `PatchKind.apply_ordered`: adding an element there keeps the order.
-/

namespace PatternTable

/-! ## Ranks -/

namespace Arrays

variable {present : List Nat}

/-- An ascending list, cut at the rank of an index. -/
theorem exists_cut (h : present.Pairwise (· < ·)) (index : Nat) : ∃ before after,
    present = before ++ after ∧ before.length = rank index present ∧
      (∀ other ∈ before, other < index) ∧ ∀ other ∈ after, index ≤ other := by
  induction present with
  | nil => exact ⟨[], [], rfl, rfl, nofun, nofun⟩
  | cons first present ih =>
    rw [List.pairwise_cons] at h
    by_cases hfirst : first < index
    · obtain ⟨before, after, rfl, hlength, hbefore, hafter⟩ := ih h.2
      refine ⟨first :: before, after, rfl, ?_, List.forall_mem_cons.2 ⟨hfirst, hbefore⟩, hafter⟩
      rw [rank, List.countP_cons_of_pos (by simpa using hfirst), List.length_cons, hlength, rank]
    · have hall : ∀ other ∈ first :: present, index ≤ other := by
        refine List.forall_mem_cons.2 ⟨Nat.le_of_not_lt hfirst, fun other hother => ?_⟩
        have := h.1 other hother
        omega
      refine ⟨[], first :: present, rfl, ?_, nofun, hall⟩
      rw [rank, eq_comm, List.length_nil, List.countP_eq_zero]
      intro other hother
      simpa using hall other hother

/-- An index of the list stands at its rank. -/
theorem getElem?_rank (h : present.Pairwise (· < ·)) {index : Nat} (hmem : index ∈ present) :
    present[rank index present]? = some index := by
  obtain ⟨before, after, heq, hlength, hbefore, hafter⟩ := exists_cut h index
  have hafterMem : index ∈ after := by
    rw [heq, List.mem_append] at hmem
    exact hmem.resolve_left fun hmem => absurd (hbefore index hmem) (Nat.lt_irrefl index)
  obtain ⟨first, rest, rfl⟩ := List.exists_cons_of_ne_nil (List.ne_nil_of_mem hafterMem)
  rw [heq, List.pairwise_append, List.pairwise_cons] at h
  -- What comes first of the indices that are not below can only be the index itself.
  have hfirst : first = index := by
    have hle := hafter first List.mem_cons_self
    obtain rfl | hrest := List.mem_cons.1 hafterMem
    · rfl
    · have := h.2.1.1 index hrest
      omega
  rw [← hlength, heq, List.getElem?_append_right (Nat.le_refl _), Nat.sub_self, hfirst]
  rfl

theorem rank_of_getElem? (h : present.Pairwise (· < ·)) {index position : Nat}
    (hget : present[position]? = some index) : rank index present = position := by
  have hrank := getElem?_rank h (List.mem_of_getElem? hget)
  have hlt := (List.getElem?_eq_some_iff.1 hrank).1
  exact (List.getElem?_inj hlt (h.imp Nat.ne_of_lt)).1 (hrank.trans hget.symm)

end Arrays

/-- Where the element for an index has to be added to an array that holds some indices: at the end
    exactly if it holds no greater one, and otherwise before the smallest greater one. -/
structure PatchKind.IsFor (index : Nat) (present : List Nat) (kind : PatchKind) : Prop where
  push_iff : kind = .push ↔ ∀ other ∈ present, ¬ index < other
  splice : ∀ position, kind = .splice position → ∃ next, present[position]? = some next ∧
    index < next ∧ ∀ other ∈ present, index < other → next ≤ other

theorem PatchKind.isFor_planned {present : List Nat} (h : present.Pairwise (· < ·)) {index : Nat}
    (hfresh : index ∉ present) : IsFor index present
      (if Arrays.rank index present = present.length then .push
        else .splice (Arrays.rank index present)) := by
  obtain ⟨before, after, heq, hlength, hbefore, hafter⟩ := Arrays.exists_cut h index
  have hgreater : ∀ other ∈ after, index < other := fun other hother =>
    Nat.lt_of_le_of_ne (hafter other hother) fun hindex =>
      hfresh (heq ▸ List.mem_append_right _ (hindex ▸ hother))
  have hnotBefore : ∀ other ∈ present, index < other → other ∈ after := by
    intro other hother hlt
    rw [heq, List.mem_append] at hother
    exact hother.resolve_left fun hother => Nat.lt_asymm hlt (hbefore other hother)
  rw [← hlength]
  cases after with
  | nil =>
    have hend : before.length = present.length := by rw [heq, List.append_nil]
    rw [if_pos hend]
    refine ⟨iff_of_true rfl fun other hother hlt => ?_, nofun⟩
    exact List.not_mem_nil (hnotBefore other hother hlt)
  | cons next after =>
    have hnext : next ∈ present := heq ▸ List.mem_append_right _ List.mem_cons_self
    have hinside : before.length ≠ present.length := by
      rw [heq, List.length_append, List.length_cons]
      omega
    rw [if_neg hinside]
    refine ⟨iff_of_false nofun fun hnone => ?_, fun position hposition => ⟨next, ?_, ?_, ?_⟩⟩
    · exact hnone next hnext (hgreater next List.mem_cons_self)
    · rw [← PatchKind.splice.inj hposition, heq, List.getElem?_append_right (Nat.le_refl _),
        Nat.sub_self]
      rfl
    · exact hgreater next List.mem_cons_self
    · intro other hother hlt
      obtain rfl | hrest := List.mem_cons.1 (hnotBefore other hother hlt)
      · exact Nat.le_refl _
      · rw [heq, List.pairwise_append, List.pairwise_cons] at h
        exact Nat.le_of_lt (h.2.1.1 other hrest)

/-! ## Elements -/

namespace Arrays

variable {α : Type} {marked others : List (Nat × α)}

/-- Elements with the source indices that they are for, in the order of the indices. -/
def ordered (marked : List (Nat × α)) : List (Nat × α) :=
  marked.mergeSort fun element other => element.1 ≤ other.1

theorem ordered_perm (marked : List (Nat × α)) : (ordered marked).Perm marked :=
  List.mergeSort_perm _ _

theorem ordered_pairwise (h : (marked.map Prod.fst).Nodup) :
    (ordered marked).Pairwise fun element other => element.1 < other.1 := by
  have hle : (ordered marked).Pairwise fun element other => element.1 ≤ other.1 := by
    refine (List.pairwise_mergeSort ?_ ?_ marked).imp of_decide_eq_true
    · simp only [decide_eq_true_eq]
      exact fun _ _ _ => Nat.le_trans
    · simp only [Bool.or_eq_true, decide_eq_true_eq]
      exact fun _ _ => Nat.le_total _ _
  have hne : ((ordered marked).map Prod.fst).Nodup :=
    ((ordered_perm marked).map Prod.fst).nodup_iff.2 h
  rw [List.Nodup, List.pairwise_map] at hne
  exact hle.imp₂ (fun _ _ => Nat.lt_of_le_of_ne) hne

/-- Elements for different indices have one order. -/
theorem eq_ordered (h : others.Pairwise fun element other => element.1 < other.1)
    (hperm : others.Perm marked) : others = ordered marked := by
  have hnodup : (marked.map Prod.fst).Nodup := by
    rw [← (hperm.map Prod.fst).nodup_iff, List.Nodup, List.pairwise_map]
    exact h.imp Nat.ne_of_lt
  exact (hperm.trans (ordered_perm marked).symm).eq_of_pairwise
    (fun _ _ _ _ hlt hgt => absurd hlt (Nat.lt_asymm hgt)) h (ordered_pairwise hnodup)

theorem ordered_eq_of_perm (h : (marked.map Prod.fst).Nodup) (hperm : marked.Perm others) :
    ordered marked = ordered others :=
  eq_ordered (ordered_pairwise h) ((ordered_perm marked).trans hperm)

theorem map_fst_ordered_pairwise (h : (marked.map Prod.fst).Nodup) :
    ((ordered marked).map Prod.fst).Pairwise (· < ·) :=
  List.pairwise_map.2 (ordered_pairwise h)

/-- The indices of the elements are the ascending list of them. -/
theorem map_fst_ordered {present : List Nat} (h : (marked.map Prod.fst).Nodup)
    (hpresent : present.Pairwise (· < ·))
    (hmem : ∀ index, index ∈ present ↔ index ∈ marked.map Prod.fst) :
    (ordered marked).map Prod.fst = present :=
  (map_fst_ordered_pairwise h).eq_of_mem_iff hpresent fun index =>
    ((ordered_perm marked).map Prod.fst).mem_iff.trans (hmem index).symm

/-- The element for an index stands at the rank of the index. -/
theorem getElem?_ordered (h : (marked.map Prod.fst).Nodup) {index : Nat} {a : α}
    (hmem : (index, a) ∈ marked) :
    (ordered marked)[rank index ((ordered marked).map Prod.fst)]? = some (index, a) := by
  obtain ⟨position, hget⟩ := List.mem_iff_getElem?.1 ((ordered_perm marked).mem_iff.2 hmem)
  have hindex : ((ordered marked).map Prod.fst)[position]? = some index := by
    rw [List.getElem?_map, hget, Option.map_some]
  rw [rank_of_getElem? (map_fst_ordered_pairwise h) hindex, hget]

theorem perm_set {place : Nat} {a : α} {list : List α} (h : list[place]? = some a) (b : α) :
    (a :: list.set place b).Perm (b :: list) := by
  obtain ⟨hlt, rfl⟩ := List.getElem?_eq_some_iff.1 h
  rw [List.set_eq_take_append_cons_drop, if_pos hlt]
  conv_rhs => rw [← List.take_append_drop place list, ← List.getElem_cons_drop hlt]
  exact (List.perm_middle.cons _).trans ((List.Perm.swap _ _ _).trans (List.perm_middle.symm.cons _))

/-- Another element for an index takes the place of the one that was there. -/
theorem set_ordered (h : (marked.map Prod.fst).Nodup) {place index : Nat} {a : α}
    (hget : marked[place]? = some (index, a)) (b : α) :
    ((ordered marked).map Prod.snd).set (rank index ((ordered marked).map Prod.fst)) b =
      (ordered (marked.set place (index, b))).map Prod.snd := by
  have hat := getElem?_ordered h (List.mem_of_getElem? hget)
  generalize rank index ((ordered marked).map Prod.fst) = position at hat ⊢
  have hindex : ((ordered marked).map Prod.fst)[position]? = some index := by
    rw [List.getElem?_map, hat, Option.map_some]
  have hkeys : ((ordered marked).set position (index, b)).map Prod.fst =
      (ordered marked).map Prod.fst := by
    obtain ⟨hlt, rfl⟩ := List.getElem?_eq_some_iff.1 hindex
    rw [List.map_set, List.set_getElem_self]
  have hsorted := map_fst_ordered_pairwise h
  rw [← hkeys, List.pairwise_map] at hsorted
  have hperm := ((perm_set hat (index, b)).trans (((ordered_perm marked).cons _).trans
    (perm_set hget _).symm)).cons_inv
  rw [← eq_ordered hsorted hperm, List.map_set]

end Arrays

/-- The way that a statement adds an element for a new index keeps the order. -/
theorem PatchKind.apply_ordered {marked : List (Nat × Value)} (h : (marked.map Prod.fst).Nodup)
    {index : Nat} (hfresh : index ∉ marked.map Prod.fst) {present : List Nat}
    (hpresent : (Arrays.ordered marked).map Prod.fst = present) (added : Value) :
    PatchKind.apply
      (if Arrays.rank index present = present.length then .push
        else .splice (Arrays.rank index present)) [added]
        ((Arrays.ordered marked).map Prod.snd) =
      some ((Arrays.ordered (marked ++ [(index, added)])).map Prod.snd) := by
  have hperm := Arrays.ordered_perm marked
  have hsorted := Arrays.ordered_pairwise h
  have hascending := Arrays.map_fst_ordered_pairwise h
  generalize Arrays.ordered marked = elements at hpresent hperm hsorted hascending ⊢
  subst hpresent
  obtain ⟨_, _, heq, hlength, hbefore, hafter⟩ := Arrays.exists_cut hascending index
  obtain ⟨before, after, rfl, rfl, rfl⟩ := List.map_eq_append_iff.1 heq
  rw [List.forall_mem_map] at hbefore hafter
  have hgreater : ∀ element ∈ after, index < element.1 := fun element helement =>
    Nat.lt_of_le_of_ne (hafter element helement) fun hindex => hfresh (hindex ▸
      List.mem_map_of_mem (hperm.mem_iff.1 (List.mem_append_right _ helement)))
  rw [List.pairwise_append] at hsorted
  have hinserted : (before ++ (index, added) :: after).Pairwise
      fun element other => element.1 < other.1 := by
    rw [List.pairwise_append, List.pairwise_cons]
    refine ⟨hsorted.1, ⟨hgreater, hsorted.2.1⟩, fun element helement => ?_⟩
    exact List.forall_mem_cons.2 ⟨hbefore element helement, hsorted.2.2 element helement⟩
  have hordered := Arrays.eq_ordered hinserted
    ((List.perm_middle.trans (hperm.cons _)).trans (List.perm_append_singleton _ _).symm)
  have happly := apply_append (before.map Prod.snd) (after.map Prod.snd) added
  rw [← List.map_append, List.length_map, List.length_map] at happly
  rw [← hordered, ← hlength, List.length_map, List.length_map, happly, List.map_append,
    List.map_cons]

end PatternTable
