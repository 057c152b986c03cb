import Mathlib.Data.List.Forall2
import PatternTable.Json.Value

/-!
# Well-formed JSON text

Which texts are JSON, told apart from how they are read: the readers leave to each other what
comes next, while a text here is said to be a number, a quotation or a value on its own.

Arrays and objects share one form: entries between two brackets with commas between them, and white
space wherever two tokens meet.

* `IsValue`: a text is one JSON value, without white space around it.
* `Bracketed`: a text is a list of entries between two brackets.
* `Delimited`: what follows a text does not continue a number at its end.

Results:
* `IsValue.starts`: a value starts with a character that neither separates nor closes.
* `Separated.length_le`, `Bracketed.length_entry_lt`: a list of entries is at least as long as there
  are entries, and longer than each of them.
-/

namespace PatternTable.Json

/-! ## Specification -/

/-- White space between tokens. -/
def IsBlank (cs : List Char) : Prop :=
  ∀ c ∈ cs, c ∈ [' ', '\t', '\n', '\r']

/-- One or more decimal digits. -/
def IsDigits (cs : List Char) : Prop :=
  cs ≠ [] ∧ ∀ c ∈ cs, c.isDigit = true

/-- The whole part of a number: a zero, or digits that do not start with one. -/
inductive IsWhole : List Char → Prop where
  | zero : IsWhole ['0']
  | digits {d : Char} {ds : List Char} :
      d.isDigit = true → d ≠ '0' → (∀ c ∈ ds, c.isDigit = true) → IsWhole (d :: ds)

/-- The fraction of a number, if it has one. -/
inductive IsFraction : List Char → Prop where
  | absent : IsFraction []
  | places {ds : List Char} : IsDigits ds → IsFraction ('.' :: ds)

/-- The exponent of a number, if it has one. -/
inductive IsExponent : List Char → Prop where
  | absent : IsExponent []
  | power {e : Char} {sign ds : List Char} :
      e ∈ ['e', 'E'] → sign ∈ [[], ['+'], ['-']] → IsDigits ds → IsExponent (e :: (sign ++ ds))

/-- A number, of any size. -/
inductive IsNumber : List Char → Prop where
  | mk {sign whole fraction exponent : List Char} :
      sign ∈ [[], ['-']] → IsWhole whole → IsFraction fraction → IsExponent exponent →
        IsNumber (sign ++ (whole ++ (fraction ++ exponent)))

/-- What stands for one character between quotation marks, or for half of a surrogate pair, with
    or without the other half. -/
inductive IsPiece : List Char → Prop where
  | plain {c : Char} : c ≠ '"' → c ≠ '\\' → 0x20 ≤ c.toNat → IsPiece [c]
  | short {c : Char} : c ∈ ['"', '\\', '/', 'b', 'f', 'n', 'r', 't'] → IsPiece ['\\', c]
  | code {a b c d : Char} :
      (∀ digit ∈ [a, b, c, d], digit.isDigit = true ∨ ('a' ≤ digit ∧ digit ≤ 'f') ∨
        ('A' ≤ digit ∧ digit ≤ 'F')) → IsPiece ['\\', 'u', a, b, c, d]

/-- Text between quotation marks. -/
def IsQuotation (cs : List Char) : Prop :=
  ∃ pieces : List (List Char), (∀ piece ∈ pieces, IsPiece piece) ∧
    cs = '"' :: (pieces.flatten ++ ['"'])

/-- A text with white space before and after it. -/
def Padded (cs padded : List Char) : Prop :=
  ∃ before after, IsBlank before ∧ IsBlank after ∧ padded = before ++ (cs ++ after)

/-- Entries with commas between them and white space around each. -/
inductive Separated : List (List Char) → List Char → Prop where
  | none {cs : List Char} : IsBlank cs → Separated [] cs
  | one {entry cs : List Char} : Padded entry cs → Separated [entry] cs
  | more {entry cs next rest : List Char} {entries : List (List Char)} :
      Padded entry cs → Separated (next :: entries) rest →
        Separated (entry :: next :: entries) (cs ++ ',' :: rest)

/-- Entries between two brackets. -/
def Bracketed (opening closing : Char) (entries : List (List Char)) (cs : List Char) : Prop :=
  ∃ body, Separated entries body ∧ cs = opening :: (body ++ [closing])

/-- A member of an object: a key, a colon and a value. -/
def IsMember (key value cs : List Char) : Prop :=
  ∃ before after, IsBlank before ∧ IsBlank after ∧ cs = key ++ (before ++ ':' :: (after ++ value))

/-- A value, nested to any depth. -/
inductive IsValue : List Char → Prop where
  | null : IsValue ['n', 'u', 'l', 'l']
  | yes : IsValue ['t', 'r', 'u', 'e']
  | no : IsValue ['f', 'a', 'l', 's', 'e']
  | number {cs : List Char} : IsNumber cs → IsValue cs
  | quotation {cs : List Char} : IsQuotation cs → IsValue cs
  | array {values : List (List Char)} {cs : List Char} :
      (∀ value ∈ values, IsValue value) → Bracketed '[' ']' values cs → IsValue cs
  | object {members : List (List Char × List Char)} {entries : List (List Char)}
      {cs : List Char} :
      (∀ member ∈ members, IsQuotation member.1) → (∀ member ∈ members, IsValue member.2) →
        List.Forall₂ (fun member => IsMember member.1 member.2) members entries →
          Bracketed '\x7b' '\x7d' entries cs → IsValue cs

/-- What follows a value does not continue it: the text ends, or goes on with white space, a comma
    or a closing bracket. -/
def Delimited (rest : List Char) : Prop :=
  ∀ c ∈ rest.head?, c ∈ [' ', '\t', '\n', '\r', ',', ']', '\x7d']

/-- The first character of a text opens a value or a member. -/
def Starts (cs : List Char) : Prop :=
  ∃ c rest, cs = c :: rest ∧ c ∉ [' ', '\t', '\n', '\r', ',', ']', '\x7d']

/-! ## White space -/

theorem isSpace_iff_mem (c : Char) : isSpace c = true ↔ c ∈ [' ', '\t', '\n', '\r'] := by
  simp only [isSpace, Bool.or_eq_true, beq_iff_eq, List.mem_cons, List.not_mem_nil, or_false]
  tauto

theorem isBlank_nil : IsBlank [] := by
  simp [IsBlank]

theorem Starts.ne_nil {cs : List Char} (h : Starts cs) : cs ≠ [] := by
  obtain ⟨c, rest, rfl, -⟩ := h
  exact List.cons_ne_nil c rest

theorem Starts.append {cs : List Char} (h : Starts cs) (rest : List Char) :
    Starts (cs ++ rest) := by
  obtain ⟨c, tail, rfl, hc⟩ := h
  exact ⟨c, tail ++ rest, rfl, hc⟩

theorem skipSpaces_blank_append {blank : List Char} (hblank : IsBlank blank) (cs : List Char) :
    skipSpaces (blank ++ cs) = skipSpaces cs :=
  List.dropWhile_append_of_pos fun c hc => (isSpace_iff_mem c).2 (hblank c hc)

theorem skipSpaces_of_not_mem {c : Char} (hc : c ∉ [' ', '\t', '\n', '\r']) (cs : List Char) :
    skipSpaces (c :: cs) = c :: cs := by
  have hspace : isSpace c = false := by
    rw [← Bool.not_eq_true, isSpace_iff_mem]
    exact hc
  simp [skipSpaces, hspace]

theorem skipSpaces_of_starts {cs : List Char} (h : Starts cs) : skipSpaces cs = cs := by
  obtain ⟨c, rest, rfl, hc⟩ := h
  refine skipSpaces_of_not_mem (fun hspace => hc ?_) rest
  exact List.mem_append_left [',', ']', '\x7d'] hspace

theorem skipSpaces_of_isBlank {cs : List Char} (h : IsBlank cs) : skipSpaces cs = [] := by
  simpa [skipSpaces] using skipSpaces_blank_append h []

theorem delimited_nil : Delimited [] := by
  simp [Delimited]

theorem delimited_cons {c : Char} (hc : c ∈ [' ', '\t', '\n', '\r', ',', ']', '\x7d'])
    (rest : List Char) : Delimited (c :: rest) := by
  simpa [Delimited] using hc

theorem IsBlank.delimited_append {blank rest : List Char} (hblank : IsBlank blank)
    (hrest : Delimited rest) : Delimited (blank ++ rest) := by
  cases blank with
  | nil => exact hrest
  | cons c blank => exact delimited_cons (List.mem_append_left _ (hblank c List.mem_cons_self)) _

theorem IsBlank.delimited {blank : List Char} (hblank : IsBlank blank) : Delimited blank := by
  simpa using hblank.delimited_append delimited_nil

/-! ## The first character of a value -/

theorem starts_cons {c : Char} (hc : c ∉ [' ', '\t', '\n', '\r', ',', ']', '\x7d'])
    (rest : List Char) : Starts (c :: rest) :=
  ⟨c, rest, rfl, hc⟩

/-- A digit is none of the characters that open something else, separate or close. -/
theorem not_mem_of_isDigit {c : Char} (hc : c.isDigit = true) {others : List Char}
    (hothers : ∀ other ∈ others, other.isDigit = false) : c ∉ others := by
  intro hmem
  rw [hothers c hmem] at hc
  exact Bool.false_ne_true hc

theorem IsWhole.starts {cs : List Char} (h : IsWhole cs) : Starts cs := by
  cases h with
  | zero => exact starts_cons (by decide) []
  | digits hd _ _ => exact starts_cons (not_mem_of_isDigit hd (by simp)) _

theorem IsNumber.starts {cs : List Char} (h : IsNumber cs) : Starts cs := by
  obtain ⟨hsign, hwhole, -, -⟩ := h
  simp only [List.mem_cons, List.not_mem_nil, or_false] at hsign
  obtain rfl | rfl := hsign
  · exact hwhole.starts.append _
  · exact starts_cons (by decide) _

theorem IsQuotation.starts {cs : List Char} (h : IsQuotation cs) : Starts cs := by
  obtain ⟨pieces, -, rfl⟩ := h
  exact starts_cons (by decide) _

theorem Bracketed.starts {opening closing : Char} {entries : List (List Char)} {cs : List Char}
    (h : Bracketed opening closing entries cs)
    (hopening : opening ∉ [' ', '\t', '\n', '\r', ',', ']', '\x7d']) : Starts cs := by
  obtain ⟨body, -, rfl⟩ := h
  exact starts_cons hopening _

theorem IsValue.starts {cs : List Char} (h : IsValue cs) : Starts cs := by
  cases h with
  | null => exact starts_cons (by decide) _
  | yes => exact starts_cons (by decide) _
  | no => exact starts_cons (by decide) _
  | number hnumber => exact hnumber.starts
  | quotation hquotation => exact hquotation.starts
  | array _ hbrackets => exact hbrackets.starts (by decide)
  | object _ _ _ hbrackets => exact hbrackets.starts (by decide)

theorem IsMember.starts {key value cs : List Char} (h : IsMember key value cs)
    (hkey : Starts key) : Starts cs := by
  obtain ⟨before, after, -, -, rfl⟩ := h
  exact hkey.append _

/-! ## The length of a list of entries -/

theorem Padded.length_le {cs padded : List Char} (h : Padded cs padded) :
    cs.length ≤ padded.length := by
  obtain ⟨before, after, -, -, rfl⟩ := h
  simp only [List.length_append]
  omega

theorem IsMember.length_value_le {key value cs : List Char} (h : IsMember key value cs) :
    value.length ≤ cs.length := by
  obtain ⟨before, after, -, -, rfl⟩ := h
  simp only [List.length_append, List.length_cons]
  omega

theorem Separated.length_le {entries : List (List Char)} {body : List Char}
    (h : Separated entries body) (hne : ∀ entry ∈ entries, entry ≠ []) :
    entries.length ≤ body.length := by
  induction h with
  | none _ => exact Nat.zero_le _
  | @one entry _ hpadded =>
    have hpos := List.length_pos_iff.2 (hne entry List.mem_cons_self)
    have hle := hpadded.length_le
    simp only [List.length_singleton]
    omega
  | @more entry _ _ _ _ hpadded _ ih =>
    have hle := ih fun entry hentry => hne entry (List.mem_cons_of_mem _ hentry)
    simp only [List.length_append, List.length_cons] at hle ⊢
    omega

theorem Separated.length_entry_le {entries : List (List Char)} {body : List Char}
    (h : Separated entries body) {entry : List Char} (hentry : entry ∈ entries) :
    entry.length ≤ body.length := by
  induction h with
  | none _ => exact absurd hentry (List.not_mem_nil)
  | one hpadded =>
    rw [List.mem_singleton.1 hentry]
    exact hpadded.length_le
  | more hpadded _ ih =>
    rw [List.length_append, List.length_cons]
    obtain rfl | hentry := List.mem_cons.1 hentry
    · exact Nat.le_add_right_of_le hpadded.length_le
    · have := ih hentry
      omega

theorem Bracketed.length_entry_lt {opening closing : Char} {entries : List (List Char)}
    {cs : List Char} (h : Bracketed opening closing entries cs) {entry : List Char}
    (hentry : entry ∈ entries) : entry.length < cs.length := by
  obtain ⟨body, hbody, rfl⟩ := h
  have hle := hbody.length_entry_le hentry
  simp only [List.length_cons, List.length_append]
  omega

end PatternTable.Json
