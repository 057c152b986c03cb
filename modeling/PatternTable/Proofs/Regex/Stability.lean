import PatternTable.Proofs.Regex.Rescanning

/-!
# Translating a source again

The source of a literal is a pattern in which nothing is left to be changed: its slashes are
escaped, its classes are expanded or can never be, and its names of groups are identifiers. So a
source is its own source. The flags are the same as well, but for `i`, whose spelling in the pattern
is not part of the source. A second `(?i)` behind the first one is kept. It then stands at the
start, where it is taken for the flag next time.

Results:
* `ofPattern_source_iff`: which sources are translated to themselves.
-/

namespace PatternTable.Regex

theorem takeCaseless_of_not_caseless {text : List Char} (h : ¬ "(?i)".toList <+: text) :
    takeCaseless (scan text) = (false, scan text) := by
  rw [← caseless_iff] at h
  rw [takeCaseless.eq_def] at h ⊢
  split
  · next heq => simp [heq] at h
  · rfl

theorem ofPattern_eq (expand captures : Bool) (pattern : String) :
    Literal.ofPattern expand captures pattern =
      ⟨String.ofList (sourceOf expand (scan (bodyOf pattern.toList))),
        ⟨captures, (takeCaseless (scan pattern.toList)).1,
          hasAnchor 0 (scan (bodyOf pattern.toList))⟩⟩ := by
  rw [bodyOf, ← takeCaseless_scan]
  rfl

/-- The literal of a pattern that does not start with `(?i)`. -/
theorem ofPattern_of_not_caseless {pattern : String} (h : ¬ "(?i)".toList <+: pattern.toList)
    (expand captures : Bool) :
    Literal.ofPattern expand captures pattern =
      ⟨String.ofList (sourceOf expand (scan pattern.toList)),
        ⟨captures, false, hasAnchor 0 (scan pattern.toList)⟩⟩ := by
  rw [Literal.ofPattern, takeCaseless_of_not_caseless h]

/-- A source is translated to itself, with the same flags but `i`, exactly if it does not start with
    `(?i)`. -/
theorem ofPattern_source_iff (expand captures : Bool) (pattern : String) :
    Literal.ofPattern expand captures (Literal.ofPattern expand captures pattern).source =
        ⟨(Literal.ofPattern expand captures pattern).source,
          { (Literal.ofPattern expand captures pattern).flags with caseless := false }⟩ ↔
      ¬ "(?i)".toList <+: (Literal.ofPattern expand captures pattern).source.toList := by
  generalize hliteral : Literal.ofPattern expand captures pattern = literal
  constructor
  · intro h hlead
    have hcaseless : (Literal.ofPattern expand captures literal.source).flags.caseless :=
      (caseless_iff _).2 hlead
    simp [h] at hcaseless
  · intro hlead
    have hflags : { literal.flags with caseless := false } =
        (⟨captures, false, hasAnchor 0 (scan (bodyOf pattern.toList))⟩ : Flags) := by
      simp only [← hliteral, ofPattern_eq]
    have hsource : sourceOf expand (scan literal.source.toList) = literal.source.toList ∧
        hasAnchor 0 (scan literal.source.toList) = hasAnchor 0 (scan (bodyOf pattern.toList)) := by
      have hcases := source_cases expand captures pattern
      rw [hliteral] at hcases
      obtain ⟨hnil, hsource⟩ | ⟨hne, hsource⟩ := hcases
      · rw [hsource, hnil]
        exact ⟨by cases expand <;> decide +kernel, by decide +kernel⟩
      · have hrewritten := rewritten_writtenFrom expand (bodyOf pattern.toList) 0 false
        rw [← hsource] at hrewritten
        refine ⟨?_, hrewritten.hasAnchor_eq⟩
        rw [sourceOf, hrewritten.writtenFrom_eq]
        split
        · next hnil => exact absurd (eq_nil_of_writtenFrom (hsource ▸ hnil)) hne
        · next hcons => exact hcons.symm
    rw [ofPattern_of_not_caseless hlead, hsource.1, hsource.2, hflags, String.ofList_toList]

end PatternTable.Regex
