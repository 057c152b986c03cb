import PatternTable.Proofs.Regex.Scanning

/-!
# Flags of a regex literal

The flag `m` is for patterns that look at line boundaries. What decides is a scan of the characters
from left to right that counts open brackets: it passes over openings of named groups, references to
groups, POSIX classes and escaped characters, and looks for `^` and `$` where no bracket is open. A
`]` that closes nothing is passed over as well.

Results:
* `hasAnchor_iff`: the tokens have an anchor exactly if the scan meets one.
* `caseless_iff`: a pattern starts with the token `(?i)` exactly if it starts with its text.
* `letters_exact`: the flags of every pattern.
-/

namespace PatternTable.Regex

/-! ## Specification -/

/-- With `depth` brackets open, a scan of a text from left to right meets `^` or `$` outside
    brackets. -/
inductive MeetsAnchor : (depth : Nat) → List Char → Prop where
  | anchor {c : Char} {rest : List Char} (hc : c = '^' ∨ c = '$') : MeetsAnchor 0 (c :: rest)
  /-- The opening of a named group, a reference to a group or a POSIX class is passed over. -/
  | whole {depth : Nat} {token : Token} {rest : List Char} (htoken : token.IsWhole)
    (h : MeetsAnchor depth rest) : MeetsAnchor depth (token.lexeme ++ rest)
  /-- An escaped character is passed over. -/
  | escape {depth : Nat} {c : Char} {rest : List Char} (hwhole : ¬ StartsWhole ('\\' :: c :: rest))
    (h : MeetsAnchor depth rest) : MeetsAnchor depth ('\\' :: c :: rest)
  | opening {depth : Nat} {rest : List Char} (hwhole : ¬ StartsWhole ('[' :: rest))
    (h : MeetsAnchor (depth + 1) rest) : MeetsAnchor depth ('[' :: rest)
  | closing {depth : Nat} {rest : List Char} (h : MeetsAnchor (depth - 1) rest) :
    MeetsAnchor depth (']' :: rest)
  | other {depth : Nat} {c : Char} {rest : List Char} (hc : c ∉ ['\\', '[', ']'])
    (hwhole : ¬ StartsWhole (c :: rest)) (h : MeetsAnchor depth rest) :
    MeetsAnchor depth (c :: rest)

/-! ## The flag `m` -/

section Anchors

variable (depth : Nat)

theorem ReadsFirst.hasAnchor {c : Char} {tokens rest : List Token} (h : ReadsFirst c tokens rest) :
    hasAnchor depth tokens ↔
      (depth = 0 ∧ (c = '^' ∨ c = '$')) ∨ Regex.hasAnchor (depthAfter depth c) rest := by
  have hplain (hc : isPlain c) : c ≠ '[' ∧ c ≠ ']' ∧ c ≠ '^' ∧ c ≠ '$' :=
    ⟨ne_of_isPlain hc (by decide), ne_of_isPlain hc (by decide), ne_of_isPlain hc (by decide),
      ne_of_isPlain hc (by decide)⟩
  cases h <;>
    simp_all [Regex.hasAnchor, Token.depthAfter, depthAfter, Token.beq_eq_decide]

/-- A character that starts no longer text is looked at on its own. -/
theorem hasAnchor_single {c : Char} {cs : List Char} (hc : c ≠ '\\')
    (h : ¬ StartsWhole (c :: cs)) :
    hasAnchor depth (scan (c :: cs)) ↔
      (depth = 0 ∧ (c = '^' ∨ c = '$')) ∨ hasAnchor (depthAfter depth c) (scan cs) :=
  (scan_single hc h).hasAnchor depth

theorem hasAnchor_escape {c : Char} {rest : List Char} (h : ¬ StartsWhole ('\\' :: c :: rest)) :
    hasAnchor depth (scan ('\\' :: c :: rest)) = hasAnchor depth (scan rest) := by
  rw [scan_escape h, hasAnchor]
  simp [Token.depthAfter]

theorem hasAnchor_whole {token : Token} (h : token.IsWhole) (rest : List Char) :
    hasAnchor depth (scan (token.lexeme ++ rest)) = hasAnchor depth (scan rest) := by
  rw [scan_whole h, hasAnchor]
  cases h <;> simp [Token.depthAfter]

end Anchors

theorem hasAnchor_of_meetsAnchor {depth : Nat} {text : List Char} (h : MeetsAnchor depth text) :
    hasAnchor depth (scan text) := by
  induction h with
  | @anchor c rest hc =>
    have hsingle : c ≠ '\\' ∧ ¬ StartsWhole (c :: rest) := by
      obtain rfl | rfl := hc <;>
        exact ⟨by decide, fun h => absurd (head_of_startsWhole h) (by decide)⟩
    exact (hasAnchor_single 0 hsingle.1 hsingle.2).2 (.inl ⟨rfl, hc⟩)
  | whole htoken h ih => rwa [hasAnchor_whole _ htoken]
  | escape hwhole h ih => rwa [hasAnchor_escape _ hwhole]
  | opening hwhole h ih =>
    exact (hasAnchor_single _ (by decide) hwhole).2 (.inr ih)
  | closing h ih =>
    exact (hasAnchor_single _ (by decide) (not_startsWhole_closeBracket _)).2 (.inr ih)
  | other hc hwhole h ih =>
    simp only [List.mem_cons, List.not_mem_nil, or_false, not_or] at hc
    refine (hasAnchor_single _ hc.1 hwhole).2 (.inr ?_)
    rwa [depthAfter, if_neg hc.2.1, if_neg hc.2.2]

theorem meetsAnchor_of_hasAnchor {depth : Nat} {text : List Char}
    (h : hasAnchor depth (scan text)) : MeetsAnchor depth text := by
  induction text using scan_induction generalizing depth with
  | nil => simp [scan, hasAnchor] at h
  | lone => simp [scan_lone, hasAnchor] at h
  | whole token rest htoken ih =>
    rw [hasAnchor_whole _ htoken] at h
    exact .whole htoken (ih h)
  | escape c rest hwhole ih =>
    rw [hasAnchor_escape _ hwhole] at h
    exact .escape hwhole (ih h)
  | single c rest hc hwhole ih =>
    obtain ⟨rfl, hanchor⟩ | hrest := (hasAnchor_single _ hc hwhole).1 h
    · exact .anchor hanchor
    · have hmeets := ih hrest
      by_cases hopen : c = '['
      · subst hopen
        exact .opening hwhole hmeets
      · by_cases hclose : c = ']'
        · subst hclose
          exact .closing hmeets
        · rw [depthAfter, if_neg hopen, if_neg hclose] at hmeets
          exact .other (by simp [hc, hopen, hclose]) hwhole hmeets

/-- The tokens of a text have an anchor outside brackets exactly if the scan of its characters meets
    one. -/
theorem hasAnchor_iff (depth : Nat) (text : List Char) :
    hasAnchor depth (scan text) ↔ MeetsAnchor depth text :=
  ⟨meetsAnchor_of_hasAnchor, hasAnchor_of_meetsAnchor⟩

/-! ## The other flags -/

/-- A pattern starts with the token `(?i)` exactly if it starts with the text of that token. -/
theorem caseless_iff (text : List Char) :
    (takeCaseless (scan text)).1 ↔ "(?i)".toList <+: text := by
  constructor
  · intro h
    have hlexemes := scan_lexemes text
    rw [takeCaseless.eq_def] at h
    split at h
    · next rest heq =>
      rw [heq, List.flatMap_cons] at hlexemes
      exact ⟨_, hlexemes⟩
    · simp at h
  · rintro ⟨rest, rfl⟩
    have hscan : scan ("(?i)".toList ++ rest) = .caseless :: scan rest := scan_of_step rfl
    rw [hscan]
    rfl

/-- The token `(?i)` at the start of a pattern is no anchor and opens no bracket. -/
theorem hasAnchor_takeCaseless (tokens : List Token) :
    hasAnchor 0 (takeCaseless tokens).2 = hasAnchor 0 tokens := by
  rw [takeCaseless.eq_def]
  split <;> rfl

/-- The flags of a literal are some of `dgim`, in this order, however POSIX classes are treated:
    `d` exactly if captures are asked for, `g` always, `i` exactly if the pattern starts with
    `(?i)`, and `m` exactly if a scan of its characters meets an anchor outside brackets. -/
theorem letters_exact (captures : Bool) (pattern : String) :
    ∃ letters : List Char,
      (∀ expand, (Literal.ofPattern expand captures pattern).flags.letters = letters) ∧
      letters.Sublist "dgim".toList ∧
      ('d' ∈ letters ↔ captures) ∧ 'g' ∈ letters ∧
      ('i' ∈ letters ↔ "(?i)".toList <+: pattern.toList) ∧
      ('m' ∈ letters ↔ MeetsAnchor 0 pattern.toList) := by
  have hsome (flags : Flags) : flags.letters.Sublist "dgim".toList ∧
      ('d' ∈ flags.letters ↔ flags.indices) ∧ 'g' ∈ flags.letters ∧
      ('i' ∈ flags.letters ↔ flags.caseless) ∧ ('m' ∈ flags.letters ↔ flags.multiline) := by
    rcases flags with ⟨indices, caseless, multiline⟩
    revert indices caseless multiline
    decide
  have hflags := hsome (Literal.ofPattern true captures pattern).flags
  rw [← caseless_iff, ← hasAnchor_iff, ← hasAnchor_takeCaseless]
  exact ⟨_, fun expand => rfl, hflags⟩

end PatternTable.Regex
