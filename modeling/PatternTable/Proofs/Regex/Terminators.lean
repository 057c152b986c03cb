import PatternTable.Grammar.Reader
import PatternTable.Proofs.Regex.Lines
import PatternTable.Proofs.Workspace.Comments

/-!
# Line terminators in regex literals

A regex literal has to stay on one line of the generated module, where the characters that end a
line are those that end a line comment. A backslash in front of them does not help. The literal of
a pattern has the line terminators of the pattern, in the same order. Only in names of groups they
become underscores.

**Where this fails.** Slashes are escaped so that they do not end a literal, and an empty source is
replaced so that it does not start a comment, but line terminators are written as they are. The text
of a grammar can spell each of them, so that a pattern can be any text.

Results:
* `staysOnLine_literal_iff`: which literals stay on one line.
* `literal_broken`: a pattern of a grammar whose literal does not.
-/

namespace PatternTable.Regex

theorem endsComment_of_isPrintable {c : Char} (h : isPrintable c) : endsComment c = false := by
  rw [Bool.eq_false_iff]
  intro hends
  simp only [endsComment, Bool.or_eq_true, beq_iff_eq] at hends
  obtain ((rfl | rfl) | rfl) | rfl := hends <;> exact absurd h (by decide)

/-- The line terminators of a literal are those of the pattern outside names of groups, in order. So
    the literal stays on one line exactly if no token but those that name groups has any. -/
theorem staysOnLine_literal_iff (expand captures : Bool) (pattern : String) :
    (Literal.ofPattern expand captures pattern).text.toList.filter endsComment =
        (unnamed (scan pattern.toList)).filter endsComment ∧
      (StaysOnLine (Literal.ofPattern expand captures pattern).text ↔
        ∀ token ∈ scan pattern.toList, token.name? = none →
          ∀ c ∈ token.lexeme, endsComment c = false) := by
  have hfilter : (Literal.ofPattern expand captures pattern).text.toList.filter endsComment =
      (unnamed (scan pattern.toList)).filter endsComment :=
    filter_literal (fun _ => endsComment_of_isPrintable) expand captures pattern
  have hstays (text : List Char) :
      (∀ c ∈ text, endsComment c = false) ↔ text.filter endsComment = [] := by
    simp [List.filter_eq_nil_iff]
  have htoken (token : Token) : (∀ c ∈ token.unnamed, endsComment c = false) ↔
      (token.name? = none → ∀ c ∈ token.lexeme, endsComment c = false) := by
    rw [Token.unnamed]
    cases token.name? <;> simp
  refine ⟨hfilter, ?_⟩
  rw [StaysOnLine, hstays, hfilter, ← hstays, unnamed, List.forall_mem_flatMap]
  exact forall₂_congr fun token _ => htoken token

/-- The pattern of a rule whose text is `x`, a line feed and `y`. Its literal has the line feed. -/
theorem literal_broken :
    let text := "\x7b\"repository\": \x7b\"a\": \x7b\"match\": \"x\\ny\"\x7d\x7d\x7d"
    ((Grammar.ofJson text).toOption.bind (·.repository)).map
        (·.map fun entry => entry.2.single) = some [some "x\ny"] ∧
      (Literal.ofPattern true false "x\ny").text = "/x\ny/g" ∧ ¬ StaysOnLine "/x\ny/g" :=
  ⟨by decide +kernel, by decide +kernel,
    fun h => absurd (h '\n' (by decide +kernel)) (by decide)⟩

end PatternTable.Regex
