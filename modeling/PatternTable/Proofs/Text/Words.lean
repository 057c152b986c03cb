import Mathlib.Data.List.TakeWhile
import PatternTable.Text.Pieces

/-!
# Words between separators

The non-empty pieces of a text are its words: the maximal runs of characters that are no separators.
A word is told by what stands beside it, a separator or the end of the text.

* `Text.IsBetween`: a word stands between two parts of a text.

Results:
* `Text.nonemptyPieces_of_isBetween`: it is one of the words of the text, after those of the part
  before it.
* `Text.exists_first_word`, `Text.exists_last_word`: the words at the ends of a text.
* `Text.flatten_nonemptyPieces`: the words of a text have all its characters but the separators.
-/

namespace PatternTable.Text

variable {sep : Char → Bool}

/-- A word stands between two parts of a text: it has no separator in it, and has one on either
    side, unless the text ends there. -/
structure IsBetween (sep : Char → Bool) (before word after : List Char) : Prop where
  nonempty : word ≠ []
  unbroken : ∀ c ∈ word, sep c = false
  left : before.getLast?.all sep
  right : after.head?.all sep

instance (sep : Char → Bool) (before word after : List Char) :
    Decidable (IsBetween sep before word after) :=
  decidable_of_iff (word ≠ [] ∧ (word.all fun c => !sep c) ∧ before.getLast?.all sep ∧
      after.head?.all sep)
    ⟨fun h => ⟨h.1, by simpa using h.2.1, h.2.2.1, h.2.2.2⟩,
      fun h => ⟨h.nonempty, by simpa using h.unbroken, h.left, h.right⟩⟩

theorem nonemptyPieces_eq_nil {text : List Char} (h : ∀ c ∈ text, sep c) :
    nonemptyPieces sep text = [] := by
  induction text with
  | nil => rfl
  | cons c text ih =>
    rw [List.forall_mem_cons] at h
    exact (nonemptyPieces_append_separator h.1 [] text).trans (ih h.2)

theorem nonemptyPieces_eq_singleton {word : List Char} (hne : word ≠ [])
    (h : ∀ c ∈ word, sep c = false) : nonemptyPieces sep word = [word] := by
  rw [nonemptyPieces, pieces_eq_singleton sep word h]
  simpa using hne

/-- What ends in a separator has its words apart from those of what follows. -/
theorem nonemptyPieces_append_of_left {a : List Char} (h : a.getLast?.all sep) (b : List Char) :
    nonemptyPieces sep (a ++ b) = nonemptyPieces sep a ++ nonemptyPieces sep b := by
  obtain rfl | ⟨a, c, rfl⟩ := List.eq_nil_or_concat a
  · rfl
  · rw [List.concat_eq_append] at h ⊢
    have hc : sep c := by simpa using h
    rw [List.append_assoc, List.singleton_append, nonemptyPieces_append_separator hc,
      nonemptyPieces_append_separator hc]
    exact congrArg (· ++ _) (List.append_nil _).symm

/-- What starts with a separator has its words apart from those of what precedes. -/
theorem nonemptyPieces_append_of_right {b : List Char} (h : b.head?.all sep) (a : List Char) :
    nonemptyPieces sep (a ++ b) = nonemptyPieces sep a ++ nonemptyPieces sep b := by
  cases b with
  | nil => rw [List.append_nil]; exact (List.append_nil _).symm
  | cons c b =>
    have hc : sep c := by simpa using h
    rw [nonemptyPieces_append_separator hc]
    exact congrArg (_ ++ ·) (nonemptyPieces_append_separator hc [] b).symm

theorem nonemptyPieces_of_isBetween {before word after : List Char}
    (h : IsBetween sep before word after) : nonemptyPieces sep (before ++ word ++ after) =
      nonemptyPieces sep before ++ word :: nonemptyPieces sep after := by
  rw [nonemptyPieces_append_of_right h.right, nonemptyPieces_append_of_left h.left,
    nonemptyPieces_eq_singleton h.nonempty h.unbroken, List.append_assoc]
  rfl

/-- A text of separators has no words, and any other text has a first one. -/
theorem exists_first_word (sep : Char → Bool) (text : List Char) : (∀ c ∈ text, sep c) ∨
    ∃ before word after, text = before ++ word ++ after ∧ IsBetween sep before word after ∧
      ∀ c ∈ before, sep c := by
  have hbefore : ∀ c ∈ text.takeWhile sep, sep c := fun c hc => List.mem_takeWhile_imp hc
  cases hrest : text.dropWhile sep with
  | nil => exact .inl (List.dropWhile_eq_nil_iff.1 hrest)
  | cons c rest =>
    have hc : sep c = false := by
      have := List.head?_dropWhile_not sep text
      simpa [hrest] using this
    refine .inr ⟨text.takeWhile sep, (c :: rest).takeWhile (!sep ·), (c :: rest).dropWhile (!sep ·),
      ?_, ⟨?_, ?_, ?_, ?_⟩, hbefore⟩
    · rw [List.append_assoc, List.takeWhile_append_dropWhile, ← hrest,
        List.takeWhile_append_dropWhile]
    · simp [hc]
    · intro d hd
      simpa using List.mem_takeWhile_imp hd
    · rw [Option.all_eq_true]
      exact fun d hd => hbefore d (List.mem_of_getLast? hd)
    · have := List.head?_dropWhile_not (!sep ·) (c :: rest)
      rw [Option.all_eq_true]
      intro d hd
      rw [hd] at this
      simpa using this

/-- A text of separators has no words, and any other text has a last one. -/
theorem exists_last_word (sep : Char → Bool) (text : List Char) : (∀ c ∈ text, sep c) ∨
    ∃ before word after, text = before ++ word ++ after ∧ IsBetween sep before word after ∧
      ∀ c ∈ after, sep c := by
  obtain hall | ⟨after, word, before, htext, hword, hafter⟩ := exists_first_word sep text.reverse
  · exact .inl fun c hc => hall c (List.mem_reverse.2 hc)
  · refine .inr ⟨before.reverse, word.reverse, after.reverse, ?_, ⟨?_, ?_, ?_, ?_⟩, ?_⟩
    · rw [← List.reverse_reverse text, htext]
      simp
    · simpa using hword.nonempty
    · exact fun c hc => hword.unbroken c (List.mem_reverse.1 hc)
    · rw [List.getLast?_reverse]
      exact hword.right
    · rw [List.head?_reverse]
      exact hword.left
    · exact fun c hc => hafter c (List.mem_reverse.1 hc)

theorem flatten_pieces (sep : Char → Bool) (text : List Char) :
    (pieces sep text).flatten = text.filter fun c => !sep c := by
  induction text with
  | nil => rfl
  | cons c text ih =>
    unfold pieces
    by_cases hsep : sep c
    · rw [if_pos hsep, List.filter_cons_of_neg (by simpa using hsep)]
      exact ih
    · rw [if_neg hsep, List.filter_cons_of_pos (by simpa using hsep), ← ih]
      -- The character joins the first piece of the rest, and there always is one.
      obtain ⟨piece, others, hpieces⟩ := List.exists_cons_of_ne_nil (pieces_ne_nil sep text)
      rw [hpieces]
      rfl

/-- Cutting a text into words drops the separators and nothing else. -/
theorem flatten_nonemptyPieces (sep : Char → Bool) (text : List Char) :
    (nonemptyPieces sep text).flatten = text.filter fun c => !sep c := by
  unfold nonemptyPieces
  rw [List.flatten_filter_not_isEmpty]
  exact flatten_pieces sep text

end PatternTable.Text
