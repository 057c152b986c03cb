import PatternTable.Proofs.Identifier
import PatternTable.Proofs.Scope.Lines

/-!
# Members of token types

A scope name of any text gets a token type that can be written: its own name comes back if no row of
the table names it, and otherwise the member is an identifier with a capital. A row that names its
member outright gives such a name, as does one that puts a text in front of the derived words. Words
without a text in front start with the first letter or digit of the segments they are derived from,
which has to be a letter.

Results:
* `Scope.rows_lead`: the names and the texts in front of names of the table.
* `Scope.Classifier.classify_cases`: when a scope name gets a member.
* `Scope.classify_usable`: the token type of every scope name.
-/

namespace PatternTable

namespace Identifier

/-- Whether a name starts with an ASCII capital. -/
def leadsWithCapital (name : String) : Bool :=
  name.toList.head?.any Char.isUpper

theorem isAlpha_of_isUpper {c : Char} (h : c.isUpper) : c.isAlpha :=
  Bool.or_eq_true_iff.2 (.inl h)

theorem leadsWithCapital_append {before words : String}
    (hbefore : before.isEmpty || leadsWithCapital before) (hwords : leadsWithCapital words)
    (after : String) : leadsWithCapital (before ++ words ++ after) := by
  rw [leadsWithCapital] at hwords ⊢
  obtain ⟨c, hhead, hc⟩ := (Option.any_eq_true _ _).1 hwords
  rw [String.toList_append, String.toList_append, List.head?_append, List.head?_append, hhead]
  rw [Bool.or_eq_true] at hbefore
  obtain hempty | hcapital := hbefore
  · rw [String.isEmpty_iff.1 hempty]
    exact hc
  · obtain ⟨d, hd, hupper⟩ := (Option.any_eq_true _ _).1 hcapital
    rw [hd]
    exact hupper

/-- Title case starts with a capital exactly if the first letter or digit of a name is a letter. -/
theorem leadsWithCapital_title (name : String) :
    leadsWithCapital (title name) = leadsWithLetter name := by
  rw [leadsWithCapital, leadsWithLetter, head?_title]
  cases hfirst : first? name with
  | none => rfl
  | some c => exact Char.isUpper_toUpper_eq_isAlpha c

/-- Title case cannot be written, for being empty or starting with a digit, exactly if the first
    letter or digit of a name is no letter. -/
theorem isEmpty_or_startsWithDigit_title (name : String) :
    ((title name).isEmpty || startsWithDigit (title name).toList) = !leadsWithLetter name := by
  have hhead := head?_title name
  rw [leadsWithLetter]
  cases hfirst : first? name with
  | none =>
    have htitle : title name = "" := by simpa [hfirst] using hhead
    rw [htitle]
    rfl
  | some c =>
    have hc : c.isAlphanum := List.find?_some hfirst
    obtain ⟨rest, htitle⟩ : ∃ rest, (title name).toList = c.toUpper :: rest := by
      simpa [hfirst, List.head?_eq_some_iff] using hhead
    have hempty : (title name).isEmpty = false := by
      rw [← Bool.not_eq_true, String.isEmpty_iff]
      intro hnil
      simp [hnil] at htitle
    rw [hempty, htitle, startsWithDigit, isDigit_eq (isAlphanum_cases hc).1,
      Char.isAlpha_toUpper_eq_isAlpha]
    rfl

end Identifier

namespace Scope

/-! ## The names of the table -/

/-- The name of a member of an enumeration: an identifier that starts with a capital. -/
structure IsMember (name : String) : Prop extends Identifier.IsLegal name where
  capital : Identifier.leadsWithCapital name

/-- Whether the name that an outcome gives starts with a capital, as far as the row decides it. -/
def Outcome.leads : Outcome → Bool
  | exact _ member => Identifier.leadsWithCapital member
  | derived _ before _ _ => before.isEmpty || Identifier.leadsWithCapital before
  | none => true

theorem rows_lead : ∀ row ∈ rows, row.outcome.leads := by
  decide +kernel

theorem outcome_leads (segments : List String) : (outcome segments).leads := by
  rw [outcome]
  split
  · next row hrow => exact rows_lead row (List.mem_of_find?_eq_some hrow)
  · rfl

/-- A name of letters and digits is that of a member if it starts with a capital. -/
theorem IsMember.of_capital {name : String} (halphanum : ∀ c ∈ name.toList, c.isAlphanum)
    (hcapital : Identifier.leadsWithCapital name) : IsMember name := by
  refine ⟨(Identifier.isLegal_iff halphanum).2 ?_, hcapital⟩
  obtain ⟨c, hhead, hc⟩ := (Option.any_eq_true _ _).1 hcapital
  rw [hhead]
  exact Identifier.isAlpha_of_isUpper hc

theorem isLegal_typeName (category : Category) : Identifier.IsLegal category.typeName := by
  cases category <;> decide

/-! ## The token type of a scope name -/

/-- Whether an outcome names a member for the segments of a scope name. Words that are derived from
    some of them need a letter to start with. -/
def Outcome.names (segments : List String) : Outcome → Bool
  | exact _ _ => true
  | derived _ _ source _ =>
    Identifier.leadsWithLetter (".".intercalate (source.select segments))
  | none => false

/-- Whether the table names a member for a scope name, which takes two segments at least. -/
def Classifier.names (classifier : Classifier) (name : String) : Bool :=
  (classifier.select? name).any fun scope =>
    2 ≤ (segments scope).length &&
      (outcome (classifier.dropLanguage (segments scope))).names
        (classifier.dropLanguage (segments scope))

/-- The token type that an outcome of the table gives is the scope name itself, or has a member. -/
theorem Outcome.token_usable {outcome : Outcome} (hleads : outcome.leads)
    (hwords : ∀ word ∈ outcome.words, ∀ c ∈ word.toList, c.isAlphanum) (name : String)
    (segments : List String) :
    (¬ outcome.names segments ∧ outcome.token name segments = .unresolved name) ∨
      (outcome.names segments ∧ ∃ category member,
        outcome.token name segments = .known category member ∧ IsMember member) := by
  cases outcome with
  | exact category member =>
    exact .inr ⟨rfl, category, member, rfl,
      .of_capital (hwords member List.mem_cons_self) hleads⟩
  | none => exact .inl ⟨Bool.false_ne_true, rfl⟩
  | derived category before source after =>
    simp only [words, List.forall_mem_cons] at hwords
    rw [names, token, Identifier.isEmpty_or_startsWithDigit_title]
    cases hnames : Identifier.leadsWithLetter (".".intercalate (source.select segments)) with
    | false => exact .inl ⟨Bool.false_ne_true, rfl⟩
    | true =>
      refine .inr ⟨rfl, category, _, rfl, .of_capital ?_ ?_⟩
      · simp only [String.toList_append, List.forall_mem_append]
        exact ⟨⟨hwords.1, Identifier.title_isAlphanum _⟩, hwords.2.1⟩
      · refine Identifier.leadsWithCapital_append hleads ?_ after
        rw [Identifier.leadsWithCapital_title, hnames]

/-- The token type of a scope name is the scope name itself if the table names no member for it, and
    otherwise has a member. -/
theorem Classifier.classify_cases (classifier : Classifier) (name : String) :
    (¬ classifier.names name ∧ classifier.classify name = .unresolved name) ∨
      (classifier.names name ∧ ∃ category member,
        classifier.classify name = .known category member ∧ IsMember member) := by
  rw [classify, names]
  cases classifier.select? name with
  | none => exact .inl ⟨Bool.false_ne_true, rfl⟩
  | some scope =>
    rw [Option.any_some]
    dsimp only
    split
    · next hshort => exact .inl ⟨by simp [Nat.not_le.2 hshort], rfl⟩
    · next hlong =>
      rw [decide_eq_true (Nat.not_lt.1 hlong), Bool.true_and]
      exact Outcome.token_usable (outcome_leads _) (outcome_words_isAlphanum _) name _

/-- The token type of every scope name is either that scope name, unresolved, or a member whose name
    is an identifier with a capital, and it is a member exactly if the table names one. So its
    expression is an enumeration, a dot and a member, both of them identifiers. -/
theorem classify_usable (classifier : Classifier) (name : String) :
    (classifier.classify name = .unresolved name ∨ ∃ category member,
      classifier.classify name = .known category member ∧ IsMember member) ∧
    ((classifier.classify name).isResolved ↔ classifier.names name) ∧
    ∃ (category : Category) (member : String),
      (classifier.classify name).expression = category.typeName ++ "." ++ member ∧
        Identifier.IsLegal category.typeName ∧ IsMember member := by
  obtain ⟨hnames, htoken⟩ | ⟨hnames, category, member, htoken, hmember⟩ :=
    classifier.classify_cases name
  · have hinvalid : IsMember "Invalid" := .of_capital (List.all_eq_true.1 (by decide)) (by decide)
    rw [htoken]
    exact ⟨.inl rfl, by simpa [Token.isResolved] using hnames, .region, "Invalid", rfl,
      isLegal_typeName _, hinvalid⟩
  · rw [htoken]
    exact ⟨.inr ⟨category, member, rfl, hmember⟩, by simpa [Token.isResolved] using hnames,
      category, member, rfl, isLegal_typeName _, hmember⟩

end Scope

end PatternTable
