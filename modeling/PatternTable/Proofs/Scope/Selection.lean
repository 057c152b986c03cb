import PatternTable.Proofs.Text.Words
import PatternTable.Scope.Classifier

/-!
# What classification ignores

Of a scope name only one entry is classified, and of that entry only the segments that are not empty
count. So the blanks and the entries beside it, and the dots around its segments, make no difference
to the token type. A last segment that names a language makes none either, if two segments stand
before it: the entry is long enough with or without it, and it is dropped before the table is asked.
An entry with one segment before it is another matter, for it is too short without the language.

* `Scope.Classifier.Selects`: which entry of a scope name is classified.
* `Scope.Token.Agrees`: two results are the same token type, or both are none.

Results:
* `Scope.Classifier.exists_selects`: every scope name has such an entry, unless it is blank.
* `Scope.Classifier.select?_of_selects`: it is the one that is found.
* `Scope.classify_ignores`: what makes no difference.
-/

namespace PatternTable.Scope

/-! ## Specification -/

/-- Two results are the same token type, or both are none. A result that is none carries the scope
    name that it is for. -/
inductive Token.Agrees : Token → Token → Prop where
  | known (category : Category) (member : String) :
    Agrees (.known category member) (.known category member)
  | unresolved (name other : String) : Agrees (.unresolved name) (.unresolved other)

/-- What stands on the side of an entry from which the entries are counted. -/
def Classifier.outside (classifier : Classifier) (before after : String) : String :=
  match classifier.selection with
  | .first => before
  | .last => after

/-- The entry of a scope name that is classified: a word with blanks or the ends of the scope name
    beside it, and on one side nothing but blanks. -/
structure Classifier.Selects (classifier : Classifier) (before entry after : String) : Prop where
  word : Text.IsBetween Text.isBlank before.toList entry.toList after.toList
  outermost : ∀ c ∈ (classifier.outside before after).toList, Text.isBlank c

instance (classifier : Classifier) (before entry after : String) :
    Decidable (classifier.Selects before entry after) :=
  decidable_of_iff (Text.IsBetween Text.isBlank before.toList entry.toList after.toList ∧
      (classifier.outside before after).toList.all Text.isBlank)
    ⟨fun h => ⟨h.1, List.all_eq_true.1 h.2⟩, fun h => ⟨h.word, List.all_eq_true.2 h.outermost⟩⟩

/-- A text names a language when it is the last segment of an entry, and can be one. -/
structure Classifier.IsLanguage (classifier : Classifier) (language : String) : Prop where
  mem : language ∈ classifier.languages
  nonempty : language ≠ ""
  undotted : '.' ∉ language.toList
  unbroken : ∀ c ∈ language.toList, Text.isBlank c = false

instance (classifier : Classifier) (language : String) :
    Decidable (classifier.IsLanguage language) :=
  decidable_of_iff (language ∈ classifier.languages ∧ language ≠ "" ∧ '.' ∉ language.toList ∧
      language.toList.all fun c => !Text.isBlank c)
    ⟨fun h => ⟨h.1, h.2.1, h.2.2.1, by simpa using h.2.2.2⟩,
      fun h => ⟨h.mem, h.nonempty, h.undotted, by simpa using h.unbroken⟩⟩

namespace Classifier

variable {classifier : Classifier}

/-! ## Entries -/

theorem select?_of_selects {before entry after : String}
    (h : classifier.Selects before entry after) :
    classifier.select? (before ++ entry ++ after) = some entry.toList := by
  have hwords : Text.words (before ++ entry ++ after).toList =
      Text.words before.toList ++ entry.toList :: Text.words after.toList := by
    rw [String.toList_append, String.toList_append]
    exact Text.nonemptyPieces_of_isBetween h.word
  have houtermost := h.outermost
  rw [outside] at houtermost
  rw [select?, hwords]
  cases hselection : classifier.selection with
  | first =>
    rw [hselection] at houtermost
    rw [Text.words, Text.nonemptyPieces_eq_nil houtermost]
    rfl
  | last =>
    rw [hselection] at houtermost
    rw [Text.words, Text.words, Text.nonemptyPieces_eq_nil houtermost, List.getLast?_concat]

/-- Every scope name has an entry that is classified, unless it is blank. -/
theorem exists_selects (classifier : Classifier) (name : String) :
    (∀ c ∈ name.toList, Text.isBlank c) ∨ ∃ before entry after,
      name = before ++ entry ++ after ∧ classifier.Selects before entry after := by
  have hword {before word after : List Char} (htext : name.toList = before ++ word ++ after) :
      name = String.ofList before ++ String.ofList word ++ String.ofList after := by
    rw [← String.ofList_append, ← String.ofList_append, ← htext, String.ofList_toList]
  cases hselection : classifier.selection with
  | first =>
    refine (Text.exists_first_word Text.isBlank name.toList).imp id ?_
    rintro ⟨before, word, after, htext, hbetween, hbefore⟩
    refine ⟨_, _, _, hword htext, ?_, ?_⟩
    · simpa only [String.toList_ofList] using hbetween
    · rw [outside, hselection]
      simpa only [String.toList_ofList] using hbefore
  | last =>
    refine (Text.exists_last_word Text.isBlank name.toList).imp id ?_
    rintro ⟨before, word, after, htext, hbetween, hafter⟩
    refine ⟨_, _, _, hword htext, ?_, ?_⟩
    · simpa only [String.toList_ofList] using hbetween
    · rw [outside, hselection]
      simpa only [String.toList_ofList] using hafter

/-- A word with more characters after it that are no blanks stands where the word stands. -/
theorem Selects.append {before entry after ending : String}
    (h : classifier.Selects before entry after)
    (hending : ∀ c ∈ ending.toList, Text.isBlank c = false) :
    classifier.Selects before (entry ++ ending) after := by
  refine ⟨⟨?_, ?_, h.word.left, h.word.right⟩, h.outermost⟩
  · rw [String.toList_append]
    exact List.append_ne_nil_of_left_ne_nil h.word.nonempty _
  · rw [String.toList_append, List.forall_mem_append]
    exact ⟨h.word.unbroken, hending⟩

/-! ## Segments -/

theorem segments_append_language {language : String} (h : classifier.IsLanguage language)
    (entry : String) :
    segments (entry ++ "." ++ language).toList = segments entry.toList ++ [language] := by
  have hpieces : segments language.toList = [language] := by
    rw [segments, Text.nonemptyPieces_eq_singleton, List.map_singleton, String.ofList_toList]
    · exact mt String.toList_eq_nil_iff.1 h.nonempty
    · exact fun c hc => beq_eq_false_iff_ne.2 fun heq => h.undotted (heq ▸ hc)
  rw [String.toList_append, String.toList_append, List.append_assoc, ← hpieces]
  exact segments_append_dot _ _

theorem dropLanguage_concat {language : String} (h : language ∈ classifier.languages)
    (segments : List String) :
    classifier.dropLanguage (segments ++ [language]) = segments := by
  rw [dropLanguage, List.getLast?_concat]
  dsimp only
  rw [if_pos (List.contains_iff_mem.2 h), List.dropLast_concat]

theorem dropLanguage_of_not_mem {segments : List String}
    (h : ∀ last ∈ segments.getLast?, last ∉ classifier.languages) :
    classifier.dropLanguage segments = segments := by
  rw [dropLanguage]
  split
  · next last hlast => exact if_neg fun hmem => h last hlast (List.contains_iff_mem.1 hmem)
  · rfl

/-! ## Results -/

theorem classify_of_selects {before entry after : String}
    (h : classifier.Selects before entry after) :
    classifier.classify (before ++ entry ++ after) =
      if (segments entry.toList).length < 2 then .unresolved (before ++ entry ++ after)
      else (outcome (classifier.dropLanguage (segments entry.toList))).token
        (before ++ entry ++ after) (classifier.dropLanguage (segments entry.toList)) := by
  rw [classify, select?_of_selects h]

theorem classify_of_blank {name : String} (h : ∀ c ∈ name.toList, Text.isBlank c) :
    classifier.classify name = .unresolved name := by
  have hnone : classifier.select? name = none := by
    rw [select?, Text.words, Text.nonemptyPieces_eq_nil h]
    cases classifier.selection <;> rfl
  rw [classify, hnone]

end Classifier

/-- The scope name itself makes no difference to the token type that an outcome gives. -/
theorem Outcome.token_agrees (outcome : Outcome) (segments : List String) (name other : String) :
    (outcome.token name segments).Agrees (outcome.token other segments) := by
  cases outcome with
  | exact category member => exact .known category member
  | derived category before source after =>
    simp only [token]
    split
    · exact .unresolved name other
    · exact .known category _
  | none => exact .unresolved name other

/-- A scope name that is not blank has an entry that is classified, and any other has no token type.
    Two scope names have one result if their entries have the same segments, those that are not
    empty. An entry of two segments or more, the last of which names no language, may have a dot and
    a language after it. -/
theorem classify_ignores (classifier : Classifier) :
    (∀ name : String, (∀ c ∈ name.toList, Text.isBlank c) ∧
        classifier.classify name = .unresolved name ∨
      ∃ before entry after, name = before ++ entry ++ after ∧
        classifier.Selects before entry after) ∧
    (∀ before entry after before' entry' after', classifier.Selects before entry after →
      classifier.Selects before' entry' after' →
      segments entry.toList = segments entry'.toList →
      (classifier.classify (before ++ entry ++ after)).Agrees
        (classifier.classify (before' ++ entry' ++ after'))) ∧
    ∀ before entry after language, classifier.Selects before entry after →
      2 ≤ (segments entry.toList).length →
      (∀ last ∈ (segments entry.toList).getLast?, last ∉ classifier.languages) →
      classifier.IsLanguage language →
      (classifier.classify (before ++ (entry ++ "." ++ language) ++ after)).Agrees
        (classifier.classify (before ++ entry ++ after)) := by
  refine ⟨fun name => ?_, ?_, ?_⟩
  · exact (classifier.exists_selects name).imp (fun h => ⟨h, classifier.classify_of_blank h⟩) id
  · intro before entry after before' entry' after' h h' hsegments
    rw [Classifier.classify_of_selects h, Classifier.classify_of_selects h', hsegments]
    split
    · exact .unresolved _ _
    · exact Outcome.token_agrees _ _ _ _
  · intro before entry after language h hlength hlast hlanguage
    have hselects : classifier.Selects before (entry ++ "." ++ language) after := by
      rw [String.append_assoc]
      refine h.append ?_
      rw [String.toList_append, List.forall_mem_append]
      exact ⟨List.forall_mem_singleton.2 (by decide), hlanguage.unbroken⟩
    rw [Classifier.classify_of_selects hselects, Classifier.classify_of_selects h,
      Classifier.segments_append_language hlanguage, Classifier.dropLanguage_concat hlanguage.mem,
      Classifier.dropLanguage_of_not_mem hlast, List.length_append, if_neg (by omega),
      if_neg (by omega)]
    exact Outcome.token_agrees _ _ _ _

example : ({} : Classifier).classify "string" = .unresolved "string" ∧
    ({} : Classifier).classify "string.renpy" = .known .literal "String" := by decide +kernel

/-- Blanks of several kinds, another entry and dots around segments, with and without a language. -/
theorem classify_ignores_language :
    ({} : Classifier).Selects "meta.x\u00a0" "keyword..warp." "\u3000" ∧
      ({} : Classifier).Selects "" ".keyword.warp" "" ∧ ({} : Classifier).IsLanguage "renpy" ∧
      (({} : Classifier).classify ("meta.x\u00a0" ++ "keyword..warp." ++ "\u3000")).Agrees
        (({} : Classifier).classify ("" ++ ".keyword.warp" ++ "")) ∧
      (({} : Classifier).classify ("" ++ (".keyword.warp" ++ "." ++ "renpy") ++ "")).Agrees
        (({} : Classifier).classify ("" ++ ".keyword.warp" ++ "")) := by
  have hentry : ({} : Classifier).Selects "meta.x\u00a0" "keyword..warp." "\u3000" := by
    decide +kernel
  have hother : ({} : Classifier).Selects "" ".keyword.warp" "" := by decide +kernel
  have hrenpy : ({} : Classifier).IsLanguage "renpy" := by decide +kernel
  obtain ⟨-, hsegments, hlanguage⟩ := classify_ignores {}
  exact ⟨hentry, hother, hrenpy, hsegments _ _ _ _ _ _ hentry hother (by decide +kernel),
    hlanguage _ _ _ "renpy" hother (by decide +kernel) (by decide +kernel) hrenpy⟩

end PatternTable.Scope
