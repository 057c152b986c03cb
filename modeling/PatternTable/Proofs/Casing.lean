import Mathlib
import PatternTable.Proofs.Identifier
import PatternTable.Proofs.Text.Words

/-!
# What case conversion keeps

Title case and camel case put the words of a name next to each other, each in a new case. A word
never sees its neighbours, so two names with a separator in between are converted apart; camel case
goes on in title case once it has met a word, as it treats the first word unlike the others. Within
a word nothing but the case of letters changes, and between words nothing but separators is dropped,
so that the letters and digits of a name can be read off the result.

Results:
* `Identifier.title_append_separator`, `Identifier.camel_append_separator_of_word`,
  `Identifier.camel_append_separator_of_wordless`: the conversion of two names with a separator in
  between.
* `Identifier.toLower_title`, `Identifier.toLower_camel`: what is left of a name when case is
  ignored.
* `Identifier.casing_lossless`: both laws, for both conversions.
-/

namespace PatternTable.Identifier

/-! ## Separators -/

theorem separates_of_not_isAlphanum {c : Char} (h : ¬ c.isAlphanum) : separates c := by
  unfold separates
  simpa using h

theorem toList_append_separator (a b : String) (c : Char) :
    (a ++ String.singleton c ++ b).toList = a.toList ++ c :: b.toList := by
  rw [String.toList_append, String.toList_append, String.toList_singleton, List.append_assoc]
  rfl

theorem title_append_separator (a b : String) {c : Char} (h : ¬ c.isAlphanum) :
    title (a ++ String.singleton c ++ b) = title a ++ title b := by
  unfold title
  rw [toList_append_separator,
    titleCase_append_separator a.toList b.toList c (separates_of_not_isAlphanum h),
    String.ofList_append]

theorem camelCase_of_titleWords {name first : List Char} {rest : List (List Char)}
    (h : titleWords name = first :: rest) :
    camelCase name = uncapitalize first ++ rest.flatMap expandAcronym := by
  unfold camelCase
  rw [h]

/-- A name that has a word already is continued in title case. -/
theorem camel_append_separator_of_word {a : String} (hword : a.toList.any Char.isAlphanum)
    (b : String) {c : Char} (h : ¬ c.isAlphanum) :
    camel (a ++ String.singleton c ++ b) = camel a ++ title b := by
  obtain ⟨hfirst, -⟩ | ⟨d, cs, rest, -, -, hwords⟩ := titleWords_eq a
  · rw [first?, List.find?_eq_none] at hfirst
    obtain ⟨d, hd, halphanum⟩ := List.any_eq_true.1 hword
    exact absurd halphanum (hfirst d hd)
  · -- The first word of `a` leads the whole name too, and all other words are treated alike.
    have happend : titleWords (a.toList ++ c :: b.toList) =
        (d.toUpper :: cs) :: (rest ++ titleWords b.toList) := by
      rw [titleWords_append_separator _ _ c (separates_of_not_isAlphanum h), hwords]
      rfl
    unfold camel title titleCase
    rw [toList_append_separator, camelCase_of_titleWords happend, camelCase_of_titleWords hwords,
      List.flatMap_append, ← List.append_assoc, String.ofList_append]

/-- A name without words adds nothing to the one that follows it. -/
theorem camel_append_separator_of_wordless {a : String}
    (hwordless : ¬ a.toList.any Char.isAlphanum) (b : String) {c : Char} (h : ¬ c.isAlphanum) :
    camel (a ++ String.singleton c ++ b) = camel b := by
  obtain ⟨-, hwords⟩ | ⟨d, cs, rest, hfirst, hd, -⟩ := titleWords_eq a
  · unfold camel camelCase
    rw [toList_append_separator,
      titleWords_append_separator _ _ c (separates_of_not_isAlphanum h), hwords, List.nil_append]
  · exact absurd (List.any_eq_true.2 ⟨d, List.mem_of_find?_eq_some hfirst, hd⟩) hwordless

/-! ## Letters and digits -/

theorem map_toLower_capitalize (afterLetter : Bool) (word : List Char) :
    (capitalize afterLetter word).map Char.toLower = word.map Char.toLower := by
  induction word generalizing afterLetter with
  | nil => rfl
  | cons c word ih =>
    unfold capitalize
    rw [List.map_cons, List.map_cons, ih c.isAlpha]
    cases afterLetter with
    | false => exact congrArg (· :: _) (Char.toLower_toUpper_eq_toLower c)
    | true => exact congrArg (· :: _) (Char.toLower_toLower_eq_toLower c)

theorem map_toLower_expandAcronym (word : List Char) :
    (expandAcronym word).map Char.toLower = word.map Char.toLower := by
  unfold expandAcronym
  split
  · rw [List.map_map]
    exact List.map_congr_left fun c _ => Char.toLower_toUpper_eq_toLower c
  · rfl

theorem map_toLower_uncapitalize (word : List Char) :
    (uncapitalize word).map Char.toLower = word.map Char.toLower := by
  cases word with
  | nil => rfl
  | cons c word => exact congrArg (· :: _) (Char.toLower_toLower_eq_toLower c)

theorem map_toLower_flatMap_expandAcronym (words : List (List Char)) :
    (words.flatMap expandAcronym).map Char.toLower = words.flatten.map Char.toLower := by
  induction words with
  | nil => rfl
  | cons word words ih =>
    rw [List.flatMap_cons, List.flatten_cons, List.map_append, List.map_append, ih,
      map_toLower_expandAcronym]

/-- The words of a name have its letters and digits, in order. -/
theorem map_toLower_flatten_titleWords (name : List Char) :
    (titleWords name).flatten.map Char.toLower =
      (name.filter Char.isAlphanum).map Char.toLower := by
  have hcapitalize : List.map Char.toLower ∘ capitalize false = List.map Char.toLower := by
    funext word
    exact map_toLower_capitalize false word
  have hfilter : (name.filter fun c => !separates c) = name.filter Char.isAlphanum := by
    simp only [separates, Bool.not_not]
  calc (titleWords name).flatten.map Char.toLower
      = ((Text.nonemptyPieces separates name).map (List.map Char.toLower)).flatten := by
        rw [titleWords, List.map_flatten, List.map_map, hcapitalize]
    _ = (name.filter fun c => !separates c).map Char.toLower := by
        rw [← List.map_flatten, Text.flatten_nonemptyPieces]
    _ = (name.filter Char.isAlphanum).map Char.toLower := by rw [hfilter]

theorem toLower_title (name : String) :
    (title name).toLower.toList = (name.toList.filter Char.isAlphanum).map Char.toLower := by
  unfold title titleCase String.toLower
  rw [String.toList_map, String.toList_ofList, map_toLower_flatMap_expandAcronym,
    map_toLower_flatten_titleWords]

theorem toLower_camel (name : String) :
    (camel name).toLower.toList = (name.toList.filter Char.isAlphanum).map Char.toLower := by
  rw [← map_toLower_flatten_titleWords]
  unfold camel camelCase String.toLower
  rw [String.toList_map, String.toList_ofList]
  cases titleWords name.toList with
  | nil => rfl
  | cons first rest =>
    rw [List.flatten_cons, List.map_append, List.map_append, map_toLower_uncapitalize,
      map_toLower_flatMap_expandAcronym]

/-! ## Both laws -/

/-- Case conversion distributes over separators, where camel case is continued in title case after
    the first word, and keeps the letters and digits of a name in order, but for their case. -/
theorem casing_lossless :
    (∀ (a b : String) (c : Char), ¬ c.isAlphanum →
      title (a ++ String.singleton c ++ b) = title a ++ title b ∧
      (a.toList.any Char.isAlphanum →
        camel (a ++ String.singleton c ++ b) = camel a ++ title b) ∧
      (¬ a.toList.any Char.isAlphanum → camel (a ++ String.singleton c ++ b) = camel b)) ∧
    ∀ name : String,
      (title name).toLower.toList = (name.toList.filter Char.isAlphanum).map Char.toLower ∧
      (camel name).toLower.toList = (name.toList.filter Char.isAlphanum).map Char.toLower := by
  constructor
  · intro a b c h
    refine ⟨title_append_separator a b h, ?_, ?_⟩
    · intro hword
      exact camel_append_separator_of_word hword b h
    · intro hwordless
      exact camel_append_separator_of_wordless hwordless b h
  · intro name
    exact ⟨toLower_title name, toLower_camel name⟩

/-- A letter that is not ASCII separates words, and the acronym after it is expanded unless it
    becomes the first word. -/
theorem casing_lossless_acronym :
    (¬ 'é'.isAlphanum ∧ "screen.2d".toList.any Char.isAlphanum ∧
      ¬ "--".toList.any Char.isAlphanum) ∧
    (title ("screen.2d" ++ String.singleton 'é' ++ "atl") = title "screen.2d" ++ title "atl" ∧
      camel ("screen.2d" ++ String.singleton 'é' ++ "atl") = camel "screen.2d" ++ title "atl" ∧
      camel ("--" ++ String.singleton 'é' ++ "atl") = camel "atl") ∧
    title "screen.2d" = "Screen2D" ∧ camel "screen.2d" = "screen2D" ∧ title "atl" = "ATL" ∧
      camel "atl" = "atl" := by
  have hc : ¬ 'é'.isAlphanum := by decide
  have hword : "screen.2d".toList.any Char.isAlphanum := by decide
  have hwordless : ¬ "--".toList.any Char.isAlphanum := by decide
  obtain ⟨htitle, hcamel, -⟩ := casing_lossless.1 "screen.2d" "atl" 'é' hc
  obtain ⟨-, -, hcamel'⟩ := casing_lossless.1 "--" "atl" 'é' hc
  refine ⟨⟨hc, hword, hwordless⟩, ⟨htitle, hcamel hword, hcamel' hwordless⟩, ?_⟩
  decide +kernel

end PatternTable.Identifier
