/-!
# Cutting text at separators

`pieces sep cs` cuts a text at every character that satisfies `sep`. There is always one piece more
than there are separators, so an empty text has one empty piece and a text that ends in a separator
has an empty last piece.

Results:
* `pieces_append_separator`: the pieces of `a`, a separator and `b` are those of `a`, then those
  of `b`.
* `pieces_eq_singleton`: a text without a separator is its own only piece.
* `eq_append_of_cutAt?`, `dropLeading?_eq_some_iff`: cutting a text loses nothing but the cut.
* `cutAt?_append`, `cutAt?_eq_none_iff`: a text is cut at the first `c`, if there is one.
-/

namespace PatternTable.Text

/-- The texts between the separators of a text, in order. -/
def pieces (sep : Char → Bool) : List Char → List (List Char)
  | [] => [[]]
  | c :: cs =>
    if sep c then [] :: pieces sep cs
    else
      match pieces sep cs with
      | [] => [[c]]
      | piece :: rest => (c :: piece) :: rest

/-- The pieces of a text that hold at least one character. -/
def nonemptyPieces (sep : Char → Bool) (cs : List Char) : List (List Char) :=
  (pieces sep cs).filter (fun piece => !piece.isEmpty)

/-- The piece after the last separator. -/
def lastPiece (sep : Char → Bool) (cs : List Char) : List Char :=
  (pieces sep cs).getLastD []

/-- The text of `text` after `lead`, when `text` starts with `lead`. -/
def dropLeading? : (lead text : List Char) → Option (List Char)
  | [], text => some text
  | _ :: _, [] => none
  | a :: lead, c :: text => if a == c then dropLeading? lead text else none

/-- The text of `text` before `tail`, when `text` ends with `tail`. -/
def dropTrailing? (tail text : List Char) : Option (List Char) :=
  (dropLeading? tail.reverse text.reverse).map List.reverse

/-- The text before the first `c` and the text after it, when there is a `c`. -/
def cutAt? (c : Char) (text : List Char) : Option (List Char × List Char) :=
  match text.dropWhile (· != c) with
  | [] => none
  | _ :: after => some (text.takeWhile (· != c), after)

theorem pieces_ne_nil (sep : Char → Bool) (cs : List Char) : pieces sep cs ≠ [] := by
  cases cs with
  | nil => simp [pieces]
  | cons c cs =>
    rw [pieces]
    split
    · simp
    · split <;> simp

theorem pieces_append_separator (sep : Char → Bool) (a b : List Char) (c : Char) (h : sep c) :
    pieces sep (a ++ c :: b) = pieces sep a ++ pieces sep b := by
  induction a with
  | nil => simp [pieces, h]
  | cons x a ih =>
    rw [List.cons_append, pieces, pieces, ih]
    split
    · rfl
    · cases hp : pieces sep a with
      | nil => exact absurd hp (pieces_ne_nil sep a)
      | cons p ps => rfl

theorem nonemptyPieces_append_separator {sep : Char → Bool} {c : Char} (h : sep c)
    (a b : List Char) :
    nonemptyPieces sep (a ++ c :: b) = nonemptyPieces sep a ++ nonemptyPieces sep b := by
  rw [nonemptyPieces, pieces_append_separator sep a b c h, List.filter_append]
  rfl

theorem pieces_eq_singleton (sep : Char → Bool) (cs : List Char) (h : ∀ c ∈ cs, sep c = false) :
    pieces sep cs = [cs] := by
  induction cs with
  | nil => rfl
  | cons c cs ih =>
    rw [pieces, ih (fun d hd => h d (List.mem_cons_of_mem c hd))]
    simp [h c List.mem_cons_self]

theorem eq_append_of_cutAt? {c : Char} {text before after : List Char}
    (h : cutAt? c text = some (before, after)) : text = before ++ c :: after := by
  unfold cutAt? at h
  split at h
  · simp at h
  · next d rest hd =>
    have hc : (d != c) = false := by
      have := List.head?_dropWhile_not (· != c) text
      simpa [hd] using this
    simp only [bne_eq_false_iff_eq] at hc
    simp only [Option.some.injEq, Prod.mk.injEq] at h
    subst hc
    rw [← h.1, ← h.2, ← hd, List.takeWhile_append_dropWhile]

theorem cutAt?_append {c : Char} {before : List Char} (h : c ∉ before) (after : List Char) :
    cutAt? c (before ++ c :: after) = some (before, after) := by
  have hbefore : ∀ d ∈ before, (d != c) = true := fun d hd => bne_iff_ne.2 fun heq => h (heq ▸ hd)
  rw [cutAt?, List.dropWhile_append_of_pos hbefore, List.takeWhile_append_of_pos hbefore]
  simp

theorem cutAt?_eq_none_iff {c : Char} {text : List Char} : cutAt? c text = none ↔ c ∉ text := by
  constructor
  · intro h hmem
    obtain ⟨before, after, rfl, hbefore⟩ := List.eq_append_cons_of_mem hmem
    simp [cutAt?_append hbefore] at h
  · intro h
    cases hcut : cutAt? c text with
    | none => rfl
    | some parts =>
      rw [eq_append_of_cutAt? hcut] at h
      simp at h

theorem dropLeading?_eq_some_iff {lead text rest : List Char} :
    dropLeading? lead text = some rest ↔ text = lead ++ rest := by
  induction lead generalizing text with
  | nil => simp [dropLeading?]
  | cons a lead ih =>
    cases text with
    | nil => simp [dropLeading?]
    | cons c text =>
      by_cases h : a = c
      · simp [dropLeading?, h, ih]
      · simp [dropLeading?, h, Ne.symm h]

end PatternTable.Text
