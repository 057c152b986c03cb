import PatternTable.Proofs.Text.Lines
import PatternTable.Scope.Classifier

/-!
# Token types on one line

The expression of a token type is made of letters, digits and a dot, whatever the scope name. The
scope name itself is in the block comment after it, which is one line if the scope name has no line
feed.

Results:
* `Scope.isAlphanum_member`: the member that a scope name gets.
* `Scope.isLine_expression`, `Scope.isLine_remark`: the two parts that are written.
-/

namespace PatternTable.Scope

open Text

/-- The texts that an outcome gives to a member. -/
def Outcome.words : Outcome → List String
  | exact _ member => [member]
  | derived _ before _ after => [before, after]
  | none => []

theorem rows_words_isAlphanum :
    ∀ row ∈ rows, ∀ word ∈ row.outcome.words, word.toList.all Char.isAlphanum := by
  decide +kernel

theorem outcome_words_isAlphanum (segments : List String) :
    ∀ word ∈ (outcome segments).words, ∀ c ∈ word.toList, c.isAlphanum := by
  rw [outcome]
  split
  · next row hrow =>
    intro word hword
    exact List.all_eq_true.1 (rows_words_isAlphanum row (List.mem_of_find?_eq_some hrow) word hword)
  · simp [Outcome.words]

/-- The member that an outcome gives to a scope name is made of letters and digits. -/
theorem Outcome.isAlphanum_member {outcome : Outcome}
    (h : ∀ word ∈ outcome.words, ∀ c ∈ word.toList, c.isAlphanum) (scope : String)
    (segments : List String) :
    ∀ c ∈ (outcome.token scope segments).member.toList, c.isAlphanum := by
  have hinvalid : ∀ c ∈ (Token.unresolved scope).member.toList, c.isAlphanum := by
    rw [Token.member]
    exact List.all_eq_true.1 (by decide)
  cases outcome with
  | exact category member => exact h member List.mem_cons_self
  | derived category before source after =>
    simp only [words, List.forall_mem_cons] at h
    rw [token]
    split
    · exact hinvalid
    · simp only [Token.member, String.toList_append, List.forall_mem_append]
      exact ⟨⟨h.1, Identifier.title_isAlphanum _⟩, h.2.1⟩
  | none => exact hinvalid

/-- The member of every scope name is made of letters and digits. -/
theorem isAlphanum_member (classifier : Classifier) (name : String) :
    ∀ c ∈ (classifier.classify name).member.toList, c.isAlphanum := by
  have hinvalid : ∀ c ∈ (Token.unresolved name).member.toList, c.isAlphanum := by
    rw [Token.member]
    exact List.all_eq_true.1 (by decide)
  rw [Classifier.classify]
  split
  · exact hinvalid
  · dsimp only
    split
    · exact hinvalid
    · exact Outcome.isAlphanum_member (outcome_words_isAlphanum _) _ _

theorem isLine_expression (classifier : Classifier) (name : String) :
    IsLine (classifier.classify name).expression.toList := by
  have hcategory (category : Category) : IsLine category.typeName.toList := by
    cases category <;> exact .literal (by decide)
  rw [Token.expression]
  exact ((hcategory _).concat (.literal (by decide))).concat
    (.of_isAlphanum (isAlphanum_member classifier name))

theorem mem_splitCommentEnds {c : Char} {text : List Char} (h : c ∈ splitCommentEnds text) :
    c ∈ text ∨ c = ' ' := by
  fun_induction splitCommentEnds text with
  | case1 rest ih =>
    simp only [List.mem_cons] at h ⊢
    tauto
  | case2 d rest hne ih =>
    simp only [List.mem_cons] at h ⊢
    tauto
  | case3 => simp at h

/-- The block comment is one line if the scope name has no line feed. -/
theorem isLine_remark {scope : String} (h : '\n' ∉ scope.toList) (token : Token) :
    IsLine (token.remark scope).toList := by
  rw [Token.remark, String.toList_append, String.toList_append, String.toList_ofList]
  -- The end of the comment hides no carriage return, so the scope name may have some.
  refine .append_of_ne_nil ?_ (by decide) (by decide)
  rw [List.mem_append, not_or]
  constructor
  · split <;> decide
  · exact fun hmem => (mem_splitCommentEnds hmem).elim h (by decide)

end PatternTable.Scope
