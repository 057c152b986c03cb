import Mathlib.Data.List.ReduceOption
import Mathlib.Data.List.Sort
import PatternTable.Link.Statement

/-!
# Cells of an array

An array in a module is a row of cells, one for each entry of its source: a cell is filled when the
element of its entry stands in the array, and the array holds the filled cells in order. What a
table records of an array are the indices of its filled cells.

Results:
* `rank_filled`: the position of an element is the number of filled cells before it.
* `insertIndex_filled`: inserting an index is filling a cell.
* `reduceOption_of_none`, `reduceOption_set`: filling a cell splices its element in at that
  position.
-/

namespace PatternTable

/-- Inserting the indices of an ascending list makes the list. -/
theorem foldr_insertIndex_eq {present : List Nat} (h : present.Pairwise (· < ·)) :
    present.foldr insertIndex [] = present := by
  induction present with
  | nil => rfl
  | cons first present ih =>
    rw [List.pairwise_cons] at h
    rw [List.foldr_cons, ih h.2]
    cases present with
    | nil => rfl
    | cons next present => exact if_pos (h.1 next List.mem_cons_self)

namespace Cells

variable {α : Type}

/-- The indices, from `start` on, of the cells that are filled. -/
def filledFrom (start : Nat) (cells : List (Option α)) : List Nat :=
  (cells.zipIdx start).filterMap fun (cell, index) => cell.map fun _ => index

/-- The indices of the cells that are filled. -/
def filled (cells : List (Option α)) : List Nat :=
  filledFrom 0 cells

theorem filledFrom_cons_none (start : Nat) (cells : List (Option α)) :
    filledFrom start (none :: cells) = filledFrom (start + 1) cells := rfl

theorem filledFrom_cons_some (start : Nat) (a : α) (cells : List (Option α)) :
    filledFrom start (some a :: cells) = start :: filledFrom (start + 1) cells := rfl

theorem filledFrom_congr {β : Type} {cells : List (Option α)} {others : List (Option β)}
    (h : cells.map Option.isSome = others.map Option.isSome) (start : Nat) :
    filledFrom start cells = filledFrom start others := by
  induction cells generalizing start others with
  | nil =>
    rw [List.map_nil, eq_comm, List.map_eq_nil_iff] at h
    rw [h]
    rfl
  | cons cell cells ih =>
    obtain _ | ⟨other, others⟩ := others
    · simp at h
    · simp only [List.map_cons, List.cons.injEq] at h
      have ih := ih h.2 (start + 1)
      cases cell with
      | none =>
        obtain rfl : other = none := by simpa using h.1.symm
        exact ih
      | some a =>
        obtain ⟨b, rfl⟩ := Option.isSome_iff_exists.1 h.1.symm
        rw [filledFrom_cons_some, filledFrom_cons_some, ih]

theorem mem_filledFrom {start index : Nat} {cells : List (Option α)} :
    index ∈ filledFrom start cells ↔
      start ≤ index ∧ ∃ a, cells[index - start]? = some (some a) := by
  simp only [filledFrom, List.mem_filterMap, Prod.exists,
    List.mk_mem_zipIdx_iff_le_and_getElem?_sub, Option.map_eq_some_iff]
  constructor
  · rintro ⟨_, _, ⟨hle, hget⟩, a, rfl, rfl⟩
    exact ⟨hle, a, hget⟩
  · rintro ⟨hle, a, hget⟩
    exact ⟨some a, index, ⟨hle, hget⟩, a, rfl, rfl⟩

theorem mem_filled {index : Nat} {cells : List (Option α)} :
    index ∈ filled cells ↔ ∃ a, cells[index]? = some (some a) := by
  simp [filled, mem_filledFrom]

theorem filledFrom_sorted (start : Nat) (cells : List (Option α)) :
    (filledFrom start cells).Pairwise (· < ·) := by
  induction cells generalizing start with
  | nil => exact List.Pairwise.nil
  | cons cell cells ih =>
    cases cell with
    | none => exact ih (start + 1)
    | some a =>
      rw [filledFrom_cons_some, List.pairwise_cons]
      refine ⟨fun index hmem => ?_, ih (start + 1)⟩
      have := (mem_filledFrom.1 hmem).1
      omega

theorem length_filledFrom (start : Nat) (cells : List (Option α)) :
    (filledFrom start cells).length = cells.reduceOption.length := by
  induction cells generalizing start with
  | nil => rfl
  | cons cell cells ih =>
    cases cell with
    | none => rw [filledFrom_cons_none, List.reduceOption_cons_of_none, ih]
    | some a =>
      rw [filledFrom_cons_some, List.reduceOption_cons_of_some, List.length_cons, List.length_cons,
        ih]

theorem rank_filledFrom (start index : Nat) (cells : List (Option α)) :
    Arrays.rank (start + index) (filledFrom start cells) =
      (cells.take index).reduceOption.length := by
  induction cells generalizing start index with
  | nil => simp [filledFrom, Arrays.rank]
  | cons cell cells ih =>
    cases index with
    | zero =>
      have : ∀ a ∈ filledFrom start (cell :: cells), ¬ a < start := by
        intro a hmem
        have := (mem_filledFrom.1 hmem).1
        omega
      simpa [Arrays.rank] using this
    | succ index =>
      have ih := ih (start + 1) index
      rw [show start + 1 + index = start + (index + 1) by omega] at ih
      cases cell with
      | none =>
        rw [filledFrom_cons_none, ih, List.take_succ_cons, List.reduceOption_cons_of_none]
      | some a =>
        rw [filledFrom_cons_some, List.take_succ_cons, List.reduceOption_cons_of_some,
          List.length_cons, ← ih, Arrays.rank, Arrays.rank,
          List.countP_cons_of_pos (by simp)]

theorem rank_filled (index : Nat) (cells : List (Option α)) :
    Arrays.rank index (filled cells) = (cells.take index).reduceOption.length := by
  simpa [filled] using rank_filledFrom 0 index cells

/-- An ascending list is determined by its elements. -/
theorem eq_filled {present : List Nat} {cells : List (Option α)}
    (hsorted : present.Pairwise (· < ·))
    (hmem : ∀ index, index ∈ present ↔ ∃ a, cells[index]? = some (some a)) :
    present = filled cells :=
  hsorted.eq_of_mem_iff (filledFrom_sorted 0 cells)
    fun index => by rw [hmem]; exact mem_filled.symm

theorem foldr_insertIndex_filled (cells : List (Option α)) :
    (filled cells).foldr insertIndex [] = filled cells :=
  foldr_insertIndex_eq (filledFrom_sorted 0 cells)

theorem insertIndex_filled {cells : List (Option α)} {index : Nat} (h : index < cells.length)
    (a : α) : insertIndex index (filled cells) = filled (cells.set index (some a)) := by
  refine eq_filled (insertIndex_sorted _ _ (filledFrom_sorted 0 cells)) fun other => ?_
  rw [mem_insertIndex, mem_filled]
  by_cases heq : index = other
  · subst heq
    simp [h]
  · simp [List.getElem?_set_ne heq, Ne.symm heq]

/-! ## Elements -/

theorem eq_take_append_drop {cells : List (Option α)} {index : Nat} {cell : Option α}
    (h : cells[index]? = some cell) :
    cells = cells.take index ++ cell :: cells.drop (index + 1) := by
  obtain ⟨hlt, rfl⟩ := List.getElem?_eq_some_iff.1 h
  rw [← List.drop_eq_getElem_cons hlt, List.take_append_drop]

theorem set_eq_take_append_drop {cells : List (Option α)} {index : Nat} {cell : Option α}
    (h : cells[index]? = some cell) (a : Option α) :
    cells.set index a = cells.take index ++ a :: cells.drop (index + 1) := by
  obtain ⟨hlt, -⟩ := List.getElem?_eq_some_iff.1 h
  rw [List.set_eq_take_append_cons_drop, if_pos hlt]

theorem reduceOption_of_none {cells : List (Option α)} {index : Nat}
    (h : cells[index]? = some none) : cells.reduceOption =
      (cells.take index).reduceOption ++ (cells.drop (index + 1)).reduceOption := by
  conv_lhs => rw [eq_take_append_drop h]
  rw [List.reduceOption_append, List.reduceOption_cons_of_none]

theorem reduceOption_set {cells : List (Option α)} {index : Nat} {cell : Option α}
    (h : cells[index]? = some cell) (a : α) : (cells.set index (some a)).reduceOption =
      (cells.take index).reduceOption ++ a :: (cells.drop (index + 1)).reduceOption := by
  rw [set_eq_take_append_drop h, List.reduceOption_append, List.reduceOption_cons_of_some]

theorem getElem?_reduceOption {cells : List (Option α)} {index : Nat} {a : α}
    (h : cells[index]? = some (some a)) :
    cells.reduceOption[(cells.take index).reduceOption.length]? = some a := by
  conv_lhs => arg 1; rw [eq_take_append_drop h]
  simp [List.reduceOption_append]

theorem set_reduceOption {cells : List (Option α)} {index : Nat} {a : α}
    (h : cells[index]? = some (some a)) (b : α) :
    cells.reduceOption.set (cells.take index).reduceOption.length b =
      (cells.set index (some b)).reduceOption := by
  rw [reduceOption_set h]
  conv_lhs => arg 1; rw [eq_take_append_drop h]
  simp [List.reduceOption_append]

theorem forall₂_filledFrom {r : Nat → α → Prop} {cells : List (Option α)} {start : Nat}
    (h : ∀ index a, cells[index]? = some (some a) → r (start + index) a) :
    List.Forall₂ r (filledFrom start cells) cells.reduceOption := by
  induction cells generalizing start with
  | nil => exact .nil
  | cons cell cells ih =>
    have hrest : List.Forall₂ r (filledFrom (start + 1) cells) cells.reduceOption := by
      refine ih fun index a hget => ?_
      rw [Nat.add_assoc, Nat.add_comm 1 index]
      exact h (index + 1) a (by simpa using hget)
    cases cell with
    | none =>
      rw [filledFrom_cons_none, List.reduceOption_cons_of_none]
      exact hrest
    | some a =>
      rw [filledFrom_cons_some, List.reduceOption_cons_of_some]
      exact .cons (h 0 a rfl) hrest

/-- The elements of an array are those of its filled cells, index by index. -/
theorem forall₂_filled {r : Nat → α → Prop} {cells : List (Option α)}
    (h : ∀ index a, cells[index]? = some (some a) → r index a) :
    List.Forall₂ r (filled cells) cells.reduceOption := by
  refine forall₂_filledFrom fun index a hget => ?_
  rw [Nat.zero_add]
  exact h index a hget

end Cells

end PatternTable
