import Mathlib
import PatternTable.Reference

/-!
# The characters of identifiers

An identifier holds nothing but ASCII letters and digits. How it starts and ends tells where it
comes from: camel case does not start in upper case, title case does not start in lower case, and
the names that are derived from a document have endings of their own.

Results:
* `Target.identifier_isAlphanum`: the characters of the identifier of a target.
* `Identifier.head?_camel`, `Identifier.head?_title`: how camel case and title case start.
* `Identifier.isLegal_camel_iff`, `Document.isLegal_rootIdentifier_iff`,
  `Document.isLegal_namespaceAlias_iff`: which names are identifiers.
* `Document.last_rootIdentifier`, `Document.last_namespaceAlias`, `Document.last_linkFunction`: how
  the names of a document end.
-/

namespace PatternTable

theorem Text.not_separates_of_mem_pieces {sep : Char → Bool} {cs piece : List Char}
    (hpiece : piece ∈ pieces sep cs) {c : Char} (hmem : c ∈ piece) : sep c = false := by
  induction cs generalizing piece with
  | nil =>
    rw [pieces, List.mem_singleton] at hpiece
    simp [hpiece] at hmem
  | cons d cs ih =>
    rw [pieces] at hpiece
    split at hpiece
    · rw [List.mem_cons] at hpiece
      obtain rfl | hpiece := hpiece
      · simp at hmem
      · exact ih hpiece hmem
    · next hsep =>
      split at hpiece
      · rw [List.mem_singleton] at hpiece
        subst hpiece
        rw [List.mem_singleton] at hmem
        simpa [hmem] using hsep
      · next first rest heq =>
        rw [heq] at ih
        rw [List.mem_cons] at hpiece
        obtain rfl | hpiece := hpiece
        · rw [List.mem_cons] at hmem
          obtain rfl | hmem := hmem
          · simpa using hsep
          · exact ih List.mem_cons_self hmem
        · exact ih (List.mem_cons_of_mem _ hpiece) hmem

/-- A text of separators has no piece with a character. The first piece with a character of any
    other text starts with its first character that is no separator. -/
theorem Text.nonemptyPieces_eq (sep : Char → Bool) (cs : List Char) :
    ((cs.find? fun c => !sep c) = none ∧ nonemptyPieces sep cs = []) ∨
      ∃ c piece others, (cs.find? fun c => !sep c) = some c ∧
        nonemptyPieces sep cs = (c :: piece) :: others := by
  induction cs with
  | nil => exact .inl ⟨rfl, rfl⟩
  | cons c cs ih =>
    by_cases hsep : sep c
    · simpa [nonemptyPieces, pieces, hsep] using ih
    · obtain ⟨piece, rest, hpieces⟩ : ∃ piece rest, pieces sep cs = piece :: rest :=
        List.exists_cons_of_ne_nil (pieces_ne_nil sep cs)
      refine .inr ⟨c, piece, rest.filter fun piece => !piece.isEmpty, by simp [hsep], ?_⟩
      simp [nonemptyPieces, pieces, hsep, hpieces]

namespace Identifier

theorem toNat_lt_of_isAlphanum {c : Char} (h : c.isAlphanum) : c.toNat < 128 := by
  have hranges : (decide ('A'.val ≤ c.val ∧ c.val ≤ 'Z'.val) ||
      (decide ('a'.val ≤ c.val) && decide (c.val ≤ 'z'.val)) ||
      (decide ('0'.val ≤ c.val) && decide (c.val ≤ '9'.val))) = true := h
  simp only [Bool.or_eq_true, Bool.and_eq_true, decide_eq_true_eq, UInt32.le_iff_toNat_le]
    at hranges
  have hupper : 'Z'.val.toNat = 90 := rfl
  have hlower : 'z'.val.toNat = 122 := rfl
  have hdigit : '9'.val.toNat = 57 := rfl
  show c.val.toNat < 128
  omega

/-- What holds of every ASCII character holds of letters and digits. -/
theorem of_forall_ascii {p : Char → Prop} (hall : ∀ n < 128, p (Char.ofNat n)) {c : Char}
    (h : c.isAlphanum) : p c := by
  have hc := hall c.toNat (toNat_lt_of_isAlphanum h)
  rwa [Char.ofNat_toNat] at hc

theorem isAlphanum_cases {c : Char} (h : c.isAlphanum) :
    c.toUpper.isAlphanum ∧ c.toLower.isAlphanum :=
  of_forall_ascii (p := fun c => c.isAlphanum → c.toUpper.isAlphanum ∧ c.toLower.isAlphanum)
    (by decide) h h

theorem isDigit_eq {c : Char} (h : c.isAlphanum) : c.isDigit = !c.isAlpha :=
  of_forall_ascii (p := fun c => c.isAlphanum → c.isDigit = !c.isAlpha) (by decide) h h

theorem capitalize_isAlphanum {afterLetter : Bool} {cs : List Char}
    (h : ∀ c ∈ cs, c.isAlphanum) : ∀ c ∈ capitalize afterLetter cs, c.isAlphanum := by
  induction cs generalizing afterLetter with
  | nil => simp [capitalize]
  | cons c cs ih =>
    rw [List.forall_mem_cons] at h
    rw [capitalize, List.forall_mem_cons]
    refine ⟨?_, ih h.2⟩
    split
    · exact (isAlphanum_cases h.1).2
    · exact (isAlphanum_cases h.1).1

theorem titleWords_isAlphanum {name word : List Char} (h : word ∈ titleWords name) :
    ∀ c ∈ word, c.isAlphanum := by
  obtain ⟨piece, hpiece, rfl⟩ := List.mem_map.1 h
  refine capitalize_isAlphanum fun c hmem => ?_
  have hsep := Text.not_separates_of_mem_pieces (List.mem_filter.1 hpiece).1 hmem
  simpa [separates] using hsep

theorem expandAcronym_isAlphanum {word : List Char} (h : ∀ c ∈ word, c.isAlphanum) :
    ∀ c ∈ expandAcronym word, c.isAlphanum := by
  rw [expandAcronym]
  split
  · intro c hmem
    obtain ⟨d, hd, rfl⟩ := List.mem_map.1 hmem
    exact (isAlphanum_cases (h d hd)).1
  · exact h

theorem camel_isAlphanum (name : String) : ∀ c ∈ (camel name).toList, c.isAlphanum := by
  rw [camel, String.toList_ofList, camelCase]
  have hwords : ∀ word ∈ titleWords name.toList, ∀ c ∈ word, c.isAlphanum := fun word hword =>
    titleWords_isAlphanum hword
  cases hwordsOf : titleWords name.toList with
  | nil => simp
  | cons first rest =>
    rw [hwordsOf, List.forall_mem_cons] at hwords
    obtain ⟨hfirst, hrest⟩ := hwords
    intro c hmem
    rw [List.mem_append, List.mem_flatMap] at hmem
    obtain hmem | ⟨word, hword, hmem⟩ := hmem
    · cases first with
      | nil => simp [uncapitalize] at hmem
      | cons d first =>
        rw [List.forall_mem_cons] at hfirst
        rw [uncapitalize, List.mem_cons] at hmem
        obtain rfl | hmem := hmem
        · exact (isAlphanum_cases hfirst.1).2
        · exact hfirst.2 c hmem
    · exact expandAcronym_isAlphanum (hrest word hword) c hmem

theorem title_isAlphanum (name : String) : ∀ c ∈ (title name).toList, c.isAlphanum := by
  rw [title, String.toList_ofList, titleCase]
  intro c hmem
  obtain ⟨word, hword, hmem⟩ := List.mem_flatMap.1 hmem
  exact expandAcronym_isAlphanum (titleWords_isAlphanum hword) c hmem

/-! ## How names start -/

/-- The first letter or digit of a name. -/
def first? (name : String) : Option Char :=
  name.toList.find? Char.isAlphanum

/-- A name without letters and digits has no words. The first word of any other name starts with its
    first letter or digit. -/
theorem titleWords_eq (name : String) :
    (first? name = none ∧ titleWords name.toList = []) ∨
      ∃ c rest words, first? name = some c ∧ c.isAlphanum ∧
        titleWords name.toList = (c.toUpper :: rest) :: words := by
  have hfirst : first? name = name.toList.find? fun c => !separates c := by
    simp [first?, separates]
  rw [hfirst, titleWords]
  obtain ⟨hnone, hpieces⟩ | ⟨c, piece, others, hsome, hpieces⟩ :=
    Text.nonemptyPieces_eq separates name.toList
  · exact .inl ⟨hnone, by rw [hpieces]; rfl⟩
  · have hc : c.isAlphanum := by simpa [separates] using List.find?_some hsome
    exact .inr ⟨c, _, _, hsome, hc, by rw [hpieces]; rfl⟩

/-- Camel case starts with the first letter or digit of a name, in lower case. -/
theorem head?_camel (name : String) :
    (camel name).toList.head? = (first? name).map Char.toLower := by
  rw [camel, String.toList_ofList, camelCase]
  obtain ⟨hfirst, hwords⟩ | ⟨c, rest, words, hfirst, hc, hwords⟩ := titleWords_eq name
  · rw [hfirst, hwords]
    rfl
  · rw [hfirst, hwords]
    exact congrArg some (Char.toLower_toUpper_eq_toLower c)

/-- Title case starts with the first letter or digit of a name, in upper case. -/
theorem head?_title (name : String) :
    (title name).toList.head? = (first? name).map Char.toUpper := by
  rw [title, String.toList_ofList, titleCase]
  obtain ⟨hfirst, hwords⟩ | ⟨c, rest, words, hfirst, hc, hwords⟩ := titleWords_eq name
  · rw [hfirst, hwords]
    rfl
  · rw [hfirst, hwords, List.flatMap_cons, expandAcronym]
    split
    · exact congrArg some (Char.toUpper_toUpper_eq_toUpper c)
    · rfl

/-- Camel case does not start in upper case. -/
theorem head_camel {name : String} {c : Char} (h : (camel name).toList.head? = some c) :
    c.isUpper = false := by
  rw [head?_camel, Option.map_eq_some_iff] at h
  obtain ⟨d, -, rfl⟩ := h
  exact Char.isUpper_toLower_eq_false d

/-- Title case does not start in lower case. -/
theorem head_title {name : String} {c : Char} (h : (title name).toList.head? = some c) :
    c.isLower = false := by
  rw [head?_title, Option.map_eq_some_iff] at h
  obtain ⟨d, -, rfl⟩ := h
  exact Char.isLower_toUpper_eq_false d

end Identifier

/-! ## Names derived from documents -/

namespace Document

theorem last_rootIdentifier (document : Document) :
    document.rootIdentifier.toList.getLast? = some 't' := by
  rw [rootIdentifier, String.toList_append, List.getLast?_append]
  rfl

theorem last_namespaceAlias (document : Document) :
    document.namespaceAlias.toList.getLast? = some 's' := by
  rw [namespaceAlias, String.toList_append, List.getLast?_append]
  rfl

theorem last_linkFunction (document : Document) :
    document.linkFunction.toList.getLast? = some 's' := by
  rw [linkFunction, String.toList_append, List.getLast?_append]
  rfl

theorem head_linkFunction (document : Document) :
    document.linkFunction.toList.head? = some 'l' := by
  rw [linkFunction, String.append_assoc, String.toList_append, List.head?_append]
  rfl

/-- An alias does not start in lower case. -/
theorem head_namespaceAlias {document : Document} {c : Char}
    (h : document.namespaceAlias.toList.head? = some c) : c.isLower = false := by
  rw [namespaceAlias, String.toList_append, List.head?_append] at h
  cases htitle : (Identifier.title document.language).toList.head? with
  | none =>
    obtain rfl : 'P' = c := by simpa [htitle] using h
    decide
  | some d =>
    obtain rfl : d = c := by simpa [htitle] using h
    exact Identifier.head_title htitle

end Document

theorem Document.rootIdentifier_isAlphanum (document : Document) :
    ∀ c ∈ document.rootIdentifier.toList, c.isAlphanum := by
  intro c hmem
  rw [rootIdentifier, String.toList_append, List.mem_append] at hmem
  obtain hmem | hmem := hmem
  · exact Identifier.camel_isAlphanum _ c hmem
  · have hall : "Root".toList.all Char.isAlphanum = true := by decide
    exact List.all_eq_true.1 hall c hmem

theorem Document.namespaceAlias_isAlphanum (document : Document) :
    ∀ c ∈ document.namespaceAlias.toList, c.isAlphanum := by
  intro c hmem
  rw [namespaceAlias, String.toList_append, List.mem_append] at hmem
  obtain hmem | hmem := hmem
  · exact Identifier.title_isAlphanum _ c hmem
  · have hall : "Patterns".toList.all Char.isAlphanum = true := by decide
    exact List.all_eq_true.1 hall c hmem

theorem Target.identifier_isAlphanum (document : Document) (target : Target) :
    ∀ c ∈ (target.identifier document).toList, c.isAlphanum := by
  cases target with
  | key name => exact Identifier.camel_isAlphanum name
  | root => exact document.rootIdentifier_isAlphanum

/-! ## Legal identifiers -/

namespace Identifier

/-- A name can be written as an identifier: it has ASCII letters and digits, at least one of them,
    and does not start with a digit. -/
structure IsLegal (name : String) : Prop where
  nonempty : name ≠ ""
  alphanum : ∀ c ∈ name.toList, c.isAlphanum
  lead : ¬ startsWithDigit name.toList

instance (name : String) : Decidable (IsLegal name) :=
  decidable_of_iff (name ≠ "" ∧ name.toList.all Char.isAlphanum ∧ ¬ startsWithDigit name.toList)
    ⟨fun h => ⟨h.1, List.all_eq_true.1 h.2.1, h.2.2⟩,
      fun h => ⟨h.nonempty, List.all_eq_true.2 h.alphanum, h.lead⟩⟩

/-- Whether the first letter or digit of a name is a letter. -/
def leadsWithLetter (name : String) : Bool :=
  (first? name).any Char.isAlpha

/-- Whether the first letter or digit of a name is a digit. -/
def leadsWithDigit (name : String) : Bool :=
  (first? name).any Char.isDigit

/-- A name of letters and digits is an identifier exactly if it starts with a letter. -/
theorem isLegal_iff {name : String} (h : ∀ c ∈ name.toList, c.isAlphanum) :
    IsLegal name ↔ name.toList.head?.any Char.isAlpha := by
  cases hname : name.toList with
  | nil =>
    refine iff_of_false (fun hlegal => hlegal.nonempty ?_) (by simp)
    simpa using hname
  | cons c cs =>
    have hc : c.isDigit = !c.isAlpha := isDigit_eq (h c (hname ▸ List.mem_cons_self))
    constructor
    · intro hlegal
      have hlead := hlegal.lead
      rw [hname, startsWithDigit, hc] at hlead
      simpa using hlead
    · intro hhead
      have hlead : c.isAlpha = true := hhead
      refine ⟨?_, h, ?_⟩
      · rintro rfl
        simp at hname
      · simp [hname, startsWithDigit, hc, hlead]

/-- The camel case of a name is an identifier exactly if the name leads with a letter. -/
theorem isLegal_camel_iff (name : String) : IsLegal (camel name) ↔ leadsWithLetter name := by
  rw [isLegal_iff (camel_isAlphanum name), head?_camel, leadsWithLetter]
  cases hfirst : first? name with
  | none => rfl
  | some c => exact Bool.eq_iff_iff.1 (Char.isAlpha_toLower_eq_isAlpha c)

/-- A name in another case with an ending that starts with a letter is an identifier exactly if the
    name does not lead with a digit. -/
theorem isLegal_append_iff {name cased ending : String} {toCase : Char → Char}
    (halphanum : ∀ c ∈ (cased ++ ending).toList, c.isAlphanum)
    (hcased : cased.toList.head? = (first? name).map toCase)
    (hcase : ∀ c, (toCase c).isAlpha = c.isAlpha)
    (hending : ending.toList.head?.any Char.isAlpha) :
    IsLegal (cased ++ ending) ↔ ¬ leadsWithDigit name := by
  rw [isLegal_iff halphanum, String.toList_append, List.head?_append, hcased, leadsWithDigit]
  cases hfirst : first? name with
  | none => simpa using hending
  | some c =>
    have hc : c.isAlphanum := List.find?_some hfirst
    simp [hcase c, isDigit_eq hc]

theorem not_isUpper_of_isReserved {name : String} (h : isReserved name) :
    ∀ c ∈ name.toList, c.isUpper = false := by
  have hall : reservedWords.all fun word => word.toList.all fun c => !c.isUpper := by
    decide +kernel
  have hname := List.all_eq_true.1 hall name (List.contains_iff_mem.1 h)
  simpa using hname

end Identifier

namespace Document

theorem isLegal_rootIdentifier_iff (document : Document) :
    Identifier.IsLegal document.rootIdentifier ↔
      ¬ Identifier.leadsWithDigit document.language :=
  Identifier.isLegal_append_iff document.rootIdentifier_isAlphanum
    (Identifier.head?_camel document.language) Char.isAlpha_toLower_eq_isAlpha rfl

theorem isLegal_namespaceAlias_iff (document : Document) :
    Identifier.IsLegal document.namespaceAlias ↔
      ¬ Identifier.leadsWithDigit document.language :=
  Identifier.isLegal_append_iff document.namespaceAlias_isAlphanum
    (Identifier.head?_title document.language) Char.isAlpha_toUpper_eq_isAlpha rfl

theorem not_isReserved_rootIdentifier (document : Document) :
    ¬ Identifier.isReserved document.rootIdentifier := by
  intro h
  have hlower := Identifier.not_isUpper_of_isReserved h 'R' (by simp [rootIdentifier])
  simp at hlower

end Document

end PatternTable
