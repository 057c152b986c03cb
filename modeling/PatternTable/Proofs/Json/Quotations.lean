import PatternTable.Proofs.Json.Syntax
import PatternTable.Text.Quoted

/-!
# Text between quotation marks

Text whose content matters is read back as it was quoted. Text whose content does not matter is
passed over piece by piece, and an escaped half of a surrogate pair is a piece like any other.

Results:
* `quoted_of_quote`: a quoted text is read as the text itself.
* `skipQuoted_of_isQuotation`: every quotation is passed over up to its closing mark.
-/

namespace PatternTable.Json

/-! ## One character -/

section

variable {escape : List Char → Except Fault (Char × Nat)} (done : List Char)

theorem quotedFrom_closing (rest : List Char) :
    quotedFrom escape done ('"' :: rest) = .ok (done.reverse, rest) := by
  rw [quotedFrom]

theorem quotedFrom_escape (cs : List Char) {c : Char} {text : List Char}
    (h : escape (cs ++ text) = .ok (c, cs.length)) :
    quotedFrom escape done ('\\' :: (cs ++ text)) = quotedFrom escape (c :: done) text := by
  rw [quotedFrom, h]
  simp

theorem quotedFrom_plain {c : Char} (hmark : c ≠ '"') (hbackslash : c ≠ '\\')
    (hcontrol : 0x20 ≤ c.toNat) (text : List Char) :
    quotedFrom escape done (c :: text) = quotedFrom escape (c :: done) text := by
  rw [quotedFrom]
  · exact if_neg (Nat.not_lt.2 hcontrol)
  · exact hmark
  · exact hbackslash

end

/-! ## Quoted text -/

theorem hexQuad_hexDigits {a b : Nat} (ha : a < 16) (hb : b < 16) (text : List Char) :
    hexQuad ('0' :: '0' :: Text.hexDigit a :: Text.hexDigit b :: text) = .ok (a * 16 + b) := by
  have hvalue : ∀ n < 16, hexValue? (Text.hexDigit n) = some n := by decide
  have hsize : ∀ n < 16, (Text.hexDigit n).utf8Size = 1 := by decide
  have hzero : hexValue? '0' = some 0 := rfl
  have hzeroSize : '0'.utf8Size = 1 := rfl
  simp [hexQuad, Text.octets, hvalue, hsize, ha, hb, hzero, hzeroSize]

/-- The escape of a control character is read as that character. -/
theorem unicodeEscape_control {n : Nat} (hn : n < 0x20) (text : List Char) :
    unicodeEscape ('0' :: '0' :: Text.hexDigit (n / 16) :: Text.hexDigit (n % 16) :: text) =
      .ok (Char.ofNat n, 4) := by
  have hquad := hexQuad_hexDigits (a := n / 16) (b := n % 16) (by omega) (by omega) text
  rw [Nat.div_add_mod' n 16] at hquad
  have hlow : isLowSurrogate n = false := by
    simp only [isLowSurrogate, Bool.and_eq_false_iff, decide_eq_false_iff_not]
    omega
  have hhigh : isHighSurrogate n = false := by
    simp only [isHighSurrogate, Bool.and_eq_false_iff, decide_eq_false_iff_not]
    omega
  simp [unicodeEscape, hquad, hlow, hhigh]

/-- What is written for a character is read as that character. -/
theorem quotedFrom_escaped (c : Char) (done text : List Char) :
    quotedFrom escape done (Text.escaped c ++ text) = quotedFrom escape (c :: done) text := by
  have short {letter : Char} (h : escape (letter :: text) = .ok (c, 1)) :
      quotedFrom escape done ('\\' :: letter :: text) = quotedFrom escape (c :: done) text :=
    quotedFrom_escape done [letter] h
  unfold Text.escaped
  split_ifs with h₁ h₂ h₃ h₄ h₅ h₆ h₇ h₈
  case pos => subst h₁; exact short rfl
  case pos => subst h₂; exact short rfl
  case pos => subst h₃; exact short rfl
  case pos => subst h₄; exact short rfl
  case pos => subst h₅; exact short rfl
  case pos => subst h₆; exact short rfl
  case pos => subst h₇; exact short rfl
  case pos =>
    refine quotedFrom_escape done
      ['u', '0', '0', Text.hexDigit (c.toNat / 16), Text.hexDigit (c.toNat % 16)] ?_
    have hcontrol := unicodeEscape_control h₈ text
    rw [Char.ofNat_toNat] at hcontrol
    simp [escape, hcontrol, Except.map]
  case neg => exact quotedFrom_plain done h₁ h₂ (Nat.not_lt.1 h₈) text

theorem quotedFrom_flatMap_escaped (cs done rest : List Char) :
    quotedFrom escape done (cs.flatMap Text.escaped ++ '"' :: rest) =
      .ok (done.reverse ++ cs, rest) := by
  induction cs generalizing done with
  | nil => simp [quotedFrom_closing]
  | cons c cs ih =>
    rw [List.flatMap_cons, List.append_assoc, quotedFrom_escaped, ih]
    simp

/-- Text between quotation marks is read as it was quoted. -/
theorem quoted_of_quote (name : String) (rest : List Char) :
    quoted (name.toList.flatMap Text.escaped ++ '"' :: rest) = .ok (name, rest) := by
  rw [quoted, quotedFrom_flatMap_escaped]
  simp [Except.map]

theorem toList_quote_append (name : String) (rest : List Char) :
    (Text.quote name).toList ++ rest =
      '"' :: (name.toList.flatMap Text.escaped ++ '"' :: rest) := by
  simp [Text.quote]

theorem starts_quote (name : String) : Starts (Text.quote name).toList := by
  rw [← List.append_nil (Text.quote name).toList, toList_quote_append]
  exact starts_cons (by decide) _

/-! ## Quotations whose content does not matter -/

theorem hexValue?_isSome {c : Char} (h : c.isDigit = true ∨ ('a' ≤ c ∧ c ≤ 'f') ∨
    ('A' ≤ c ∧ c ≤ 'F')) : ∃ n, hexValue? c = some n := by
  unfold hexValue?
  split_ifs with h₁ h₂ h₃
  case pos => exact ⟨_, rfl⟩
  case pos => exact ⟨_, rfl⟩
  case pos => exact ⟨_, rfl⟩
  case neg => exact absurd h (by tauto)

theorem hexQuad_of_digits {a b c d : Char}
    (h : ∀ digit ∈ [a, b, c, d], digit.isDigit = true ∨ ('a' ≤ digit ∧ digit ≤ 'f') ∨
      ('A' ≤ digit ∧ digit ≤ 'F')) (text : List Char) :
    ∃ n, hexQuad (a :: b :: c :: d :: text) = .ok n := by
  simp only [List.forall_mem_cons, List.not_mem_nil, false_imp_iff, implies_true, and_true] at h
  obtain ⟨ha, hb, hc, hd⟩ := h
  obtain ⟨na, ha⟩ := hexValue?_isSome ha
  obtain ⟨nb, hb⟩ := hexValue?_isSome hb
  obtain ⟨nc, hc⟩ := hexValue?_isSome hc
  obtain ⟨nd, hd⟩ := hexValue?_isSome hd
  have hsize : ¬ Text.octets [a, b, c, d] < 4 := by
    have := a.utf8Size_pos
    have := b.utf8Size_pos
    have := c.utf8Size_pos
    have := d.utf8Size_pos
    simp only [Text.octets, List.foldr_cons, List.foldr_nil]
    omega
  refine ⟨((na * 16 + nb) * 16 + nc) * 16 + nd, ?_⟩
  simp [hexQuad, hsize, ha, hb, hc, hd]

theorem quotedFrom_piece {piece : List Char} (h : IsPiece piece) :
    ∃ c, ∀ done text, quotedFrom looseEscape done (piece ++ text) =
      quotedFrom looseEscape (c :: done) text := by
  cases h with
  | @plain c hmark hbackslash hcontrol =>
    exact ⟨c, fun done => quotedFrom_plain done hmark hbackslash hcontrol⟩
  | @short letter hletter =>
    have hlookup : ∀ letter ∈ ['"', '\\', '/', 'b', 'f', 'n', 'r', 't'],
        letter ≠ 'u' ∧ (shortEscapes.lookup letter).isSome = true := by
      simp [shortEscapes, List.lookup_cons]
    obtain ⟨hne, hsome⟩ := hlookup letter hletter
    obtain ⟨c, hc⟩ := Option.isSome_iff_exists.1 hsome
    refine ⟨c, fun done text => quotedFrom_escape done [letter] ?_⟩
    simp [looseEscape, hne, hc]
  | @code a b c d hdigits =>
    refine ⟨'\uFFFD', fun done text => quotedFrom_escape done ['u', a, b, c, d] ?_⟩
    obtain ⟨n, hn⟩ := hexQuad_of_digits hdigits text
    simp [looseEscape, hn, Except.map]

theorem quotedFrom_pieces {pieces : List (List Char)} (h : ∀ piece ∈ pieces, IsPiece piece)
    (done rest : List Char) :
    ∃ text, quotedFrom looseEscape done (pieces.flatten ++ '"' :: rest) = .ok (text, rest) := by
  induction pieces generalizing done with
  | nil => exact ⟨done.reverse, quotedFrom_closing done rest⟩
  | cons piece pieces ih =>
    obtain ⟨hpiece, hpieces⟩ := List.forall_mem_cons.1 h
    obtain ⟨c, hc⟩ := quotedFrom_piece hpiece
    obtain ⟨text, htext⟩ := ih hpieces (c :: done)
    refine ⟨text, ?_⟩
    rw [List.flatten_cons, List.append_assoc, hc, htext]

/-- Every quotation is passed over up to its closing mark. -/
theorem skipQuoted_of_isQuotation {cs : List Char} (h : IsQuotation cs) (rest : List Char) :
    ∃ inner, cs ++ rest = '"' :: inner ∧ skipQuoted inner = .ok rest := by
  obtain ⟨pieces, hpieces, rfl⟩ := h
  obtain ⟨text, htext⟩ := quotedFrom_pieces hpieces [] rest
  refine ⟨pieces.flatten ++ '"' :: rest, by simp, ?_⟩
  rw [skipQuoted, htext]
  rfl

end PatternTable.Json
