import PatternTable.Proofs.Scope.Lines

/-!
# Where the block comment of a token type ends

A block comment ends at the first `*/` after its opening. In the block comment of a token type that
is the one at its own end: whatever stars and slashes a scope name has, a blank stands between those
that would end the comment, and the star of the ending follows no slash of the name.

* `Scope.afterEnd?` reads a text up to its first `*/`.

Results:
* `Scope.afterEnd?_eq_none_iff`: there is one exactly if `*/` occurs in the text.
* `Scope.afterEnd?_splitCommentEnds`: there is none in a scope name that is split.
* `Scope.remark_closes`: where the block comment of a token type ends.
-/

namespace PatternTable.Scope

/-! ## Specification -/

/-- What comes after the first `*/` of a text. -/
def afterEnd? : List Char → Option (List Char)
  | [] => none
  | '*' :: '/' :: rest => some rest
  | _ :: text => afterEnd? text

/-! ## Reading up to the end of a comment -/

/-- A character that starts no `*/` is passed over. -/
theorem afterEnd?_cons {c : Char} {text : List Char} (h : c = '*' → text.head? ≠ some '/') :
    afterEnd? (c :: text) = afterEnd? text := by
  rw [afterEnd?]
  rintro rest rfl rfl
  exact h rfl rfl

theorem afterEnd?_append_of_not_mem {text : List Char} (h : '*' ∉ text) (rest : List Char) :
    afterEnd? (text ++ rest) = afterEnd? rest := by
  induction text with
  | nil => rfl
  | cons c text ih =>
    rw [List.mem_cons, not_or] at h
    rw [List.cons_append, afterEnd?_cons fun hc => absurd hc.symm h.1, ih h.2]

theorem afterEnd?_eq_none_iff {text : List Char} :
    afterEnd? text = none ↔ ¬ ['*', '/'] <:+: text := by
  fun_induction afterEnd? text with
  | case1 => simp
  | case2 rest => simpa using ⟨[], rest, rfl⟩
  | case3 c text hne ih =>
    rw [ih, List.infix_cons_iff, not_or, iff_and_self]
    rintro - ⟨rest, hrest⟩
    obtain ⟨rfl, rfl⟩ := List.cons.inj hrest
    exact hne rest rfl rfl

theorem head?_splitCommentEnds (text : List Char) : (splitCommentEnds text).head? = text.head? := by
  fun_cases splitCommentEnds text <;> rfl

/-- No `*/` starts in a text that is split, unless with what follows it. -/
theorem afterEnd?_splitCommentEnds {rest : List Char} (h : rest.head? ≠ some '/')
    (text : List Char) : afterEnd? (splitCommentEnds text ++ rest) = afterEnd? rest := by
  fun_induction splitCommentEnds text with
  | case1 text ih =>
    rw [List.cons_append, afterEnd?_cons (by simp), List.cons_append, afterEnd?_cons (by simp),
      List.cons_append, afterEnd?_cons (by simp), ih]
  | case2 c text hne ih =>
    rw [List.cons_append, afterEnd?_cons, ih]
    rintro rfl
    rw [List.head?_append, head?_splitCommentEnds]
    cases text with
    | nil => exact h
    | cons d text =>
      rintro hd
      obtain rfl : d = '/' := by simpa using hd
      exact hne text rfl rfl
  | case3 => rfl

/-! ## Block comments -/

/-- What the block comment of a token type has after its opening. -/
theorem exists_remark_eq (token : Token) (scope : String) : ∃ lead, '*' ∉ lead ∧
    (token.remark scope).toList =
      ['/', '*'] ++ (lead ++ (splitCommentEnds scope.toList ++ ['*', '/'])) := by
  cases token with
  | known category member => exact ⟨[], by simp, by simp [Token.remark, Token.isResolved]⟩
  | unresolved name =>
    exact ⟨"ERROR: ".toList, by decide, by simp [Token.remark, Token.isResolved]⟩

/-- The block comment of a token type starts as one, and after that its first `*/` is at its very
    end. So whatever follows the block comment is not part of it, and all of it is. -/
theorem remark_closes (token : Token) (scope : String) : ∃ rest,
    (token.remark scope).toList = ['/', '*'] ++ rest ∧ ['*', '/'] <:+ rest ∧
      ¬ ['*', '/'] <:+: rest.dropLast ∧
      ∀ following, afterEnd? (rest ++ following) = some following := by
  obtain ⟨lead, hlead, hremark⟩ := exists_remark_eq token scope
  refine ⟨_, hremark, ?_, ?_, fun following => ?_⟩
  · exact (List.suffix_append _ _).trans (List.suffix_append _ _)
  · have hlast : (lead ++ (splitCommentEnds scope.toList ++ ['*', '/'])).dropLast =
        lead ++ (splitCommentEnds scope.toList ++ ['*']) := by
      simp
    rw [hlast, ← afterEnd?_eq_none_iff, afterEnd?_append_of_not_mem hlead,
      afterEnd?_splitCommentEnds (by decide)]
    rfl
  · rw [List.append_assoc, List.append_assoc, afterEnd?_append_of_not_mem hlead,
      afterEnd?_splitCommentEnds (by simp)]
    rfl

example : (Token.known .literal "String").remark "*/**//*" = "/** /** //**/" := by
  decide +kernel

end PatternTable.Scope
