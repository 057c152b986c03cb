import PatternTable.Proofs.Regex.Scanning

/-!
# Bracket expressions of a literal

A bracket expression goes from a `[` to the `]` that closes it, where an escaped bracket is none. A
literal has the bracket expressions of its pattern: their text is that of the pattern but for
slashes, which are escaped, and POSIX classes, which may be expanded. Outside bracket expressions
the names of groups are changed as well, to names without brackets.

**Where this fails.** The tokens of a pattern know nothing of brackets. What looks like the opening
of a named group or like a reference to a group is taken for one inside brackets, too, and extends
to the next `>` over any brackets before it. If the name in between is not kept as it is, the
bracket expression changes, or loses the bracket that closes it.

Results:
* `carried_iff`: the text that is written for a pattern carries its brackets exactly if the names of
  groups that are changed stand outside brackets and have none.
* `carriesBrackets_iff`: the same of the source of a literal.
* `bracket_lost`: a bracket expression that is not closed in the literal.
-/

namespace PatternTable.Regex

/-! ## Specification -/

/-- Whether a text has no brackets but escaped ones. -/
def bracketFree : List Char → Bool
  | '\\' :: _ :: cs => bracketFree cs
  | c :: cs => c != '[' && c != ']' && bracketFree cs
  | [] => true

/-- The name in a token that names a group. -/
def Token.name? : Token → Option (List Char)
  | namedGroup name => some name
  | backReference name => some name
  | _ => none

/-- A token that names a group, with another name. -/
def Token.withName (name : List Char) : Token → Token
  | namedGroup _ => namedGroup name
  | backReference _ => backReference name
  | token => token

/-- With `depth` brackets open, a text that is written for another one has its brackets at their
    places. Inside brackets all else is the same, too, but for escaped slashes and expanded POSIX
    classes. Outside, the names of groups may differ. -/
inductive Carried (expand : Bool) : (depth : Nat) → (text written : List Char) → Prop where
  | nil {depth : Nat} : Carried expand depth [] []
  | lone {depth : Nat} : Carried expand depth ['\\'] ['\\']
  | escape {depth : Nat} {c : Char} {text written : List Char}
    (h : Carried expand depth text written) :
    Carried expand depth ('\\' :: c :: text) ('\\' :: c :: written)
  | same {depth : Nat} {c : Char} {text written : List Char} (hc : c ∉ ['\\', '/', '[', ']'])
    (h : Carried expand depth text written) : Carried expand depth (c :: text) (c :: written)
  | slash {depth : Nat} {text written : List Char} (h : Carried expand depth text written) :
    Carried expand depth ('/' :: text) ('\\' :: '/' :: written)
  | opening {depth : Nat} {text written : List Char} (h : Carried expand (depth + 1) text written) :
    Carried expand depth ('[' :: text) ('[' :: written)
  | closing {depth : Nat} {text written : List Char} (h : Carried expand (depth - 1) text written) :
    Carried expand depth (']' :: text) (']' :: written)
  | posixClass {depth : Nat} {negated alone : Bool} {name ranges text written : List Char}
    (hexpand : expand) (hranges : expandClass? negated alone name = some ranges)
    (h : Carried expand (depth + 1) text written) :
    Carried expand (depth + 1) ((Token.posixClass negated name).lexeme ++ text) (ranges ++ written)
  | group {token : Token} {name newName text written : List Char} (htoken : token.IsWhole)
    (hname : token.name? = some name) (hfree : bracketFree name)
    (hnewName : ∀ c ∈ newName, isNameCharacter c) (h : Carried expand 0 text written) :
    Carried expand 0 (token.lexeme ++ text) ((token.withName newName).lexeme ++ written)

/-- Whether a token that names a group keeps the brackets of the pattern: its name is not changed,
    or stands outside brackets and has none. -/
def Token.keepsBrackets (depth : Nat) (token : Token) : Bool :=
  token.name?.all fun name => groupName name == name || (depth == 0 && bracketFree name)

/-- Whether all of the tokens that follow `depth` open brackets keep the brackets of the pattern. -/
def keepBrackets (depth : Nat) : List Token → Bool
  | [] => true
  | token :: rest => token.keepsBrackets depth && keepBrackets (token.depthAfter depth) rest

/-- The source of a literal has the brackets of its pattern. A leading `(?i)` is left out, and an
    empty source is written `(?:)`. -/
def CarriesBrackets (expand : Bool) (pattern source : List Char) : Prop :=
  let body := (Text.dropLeading? Token.caseless.lexeme pattern).getD pattern
  Carried expand 0 body source ∨ (body = [] ∧ source = "(?:)".toList)

/-! ## Tokens that keep brackets -/

section KeepBrackets

variable (depth : Nat)

theorem ReadsFirst.keepBrackets {c : Char} {tokens rest : List Token}
    (h : ReadsFirst c tokens rest) :
    keepBrackets depth tokens = Regex.keepBrackets (depthAfter depth c) rest := by
  have hplain (hc : isPlain c) : c ≠ '[' ∧ c ≠ ']' :=
    ⟨ne_of_isPlain hc (by decide), ne_of_isPlain hc (by decide)⟩
  cases h <;>
    simp_all [Regex.keepBrackets, Token.keepsBrackets, Token.name?, Token.depthAfter, depthAfter]

theorem keepBrackets_single {c : Char} {cs : List Char} (hc : c ≠ '\\')
    (h : ¬ StartsWhole (c :: cs)) :
    keepBrackets depth (scan (c :: cs)) = keepBrackets (depthAfter depth c) (scan cs) :=
  (scan_single hc h).keepBrackets depth

theorem keepBrackets_escape {c : Char} {rest : List Char} (h : ¬ StartsWhole ('\\' :: c :: rest)) :
    keepBrackets depth (scan ('\\' :: c :: rest)) = keepBrackets depth (scan rest) := by
  rw [scan_escape h]
  rfl

theorem keepBrackets_whole {token : Token} (h : token.IsWhole) (rest : List Char) :
    keepBrackets depth (scan (token.lexeme ++ rest)) =
      (token.keepsBrackets depth && keepBrackets depth (scan rest)) := by
  rw [scan_whole h]
  cases h <;> rfl

end KeepBrackets

/-! ## Names and classes -/

theorem isNameCharacter_groupName (name : List Char) : ∀ c ∈ groupName name, isNameCharacter c := by
  have hmapped : ∀ c ∈ name.map (fun c => if isNameCharacter c then c else '_'),
      isNameCharacter c := by
    intro c hmem
    obtain ⟨d, -, rfl⟩ := List.mem_map.1 hmem
    split
    · assumption
    · decide
  rw [groupName]
  split
  · exact List.all_eq_true.1 (by decide)
  · next c cs heq =>
    rw [heq] at hmapped
    split
    · exact List.forall_mem_cons.2 ⟨by decide, hmapped⟩
    · exact hmapped

/-- The characters that something starts with, or that are not written as they are, stand in no new
    name. -/
theorem isNameCharacter_active : ∀ c ∈ activeCharacters, isNameCharacter c = false := by
  simp [activeCharacters, isNameCharacter]

theorem not_active_of_groupName {name : List Char} (h : groupName name = name) :
    ∀ c ∈ name, c ∉ activeCharacters := by
  intro c hc hactive
  have hnameCharacter := isNameCharacter_groupName name c (h.symm ▸ hc)
  rw [isNameCharacter_active c hactive] at hnameCharacter
  exact absurd hnameCharacter (by decide)

theorem map_name {name : List Char} (h : ∀ c ∈ name, isNameCharacter c) :
    name.map (fun c => if isNameCharacter c then c else '_') = name :=
  (List.map_congr_left fun c hc => if_pos (h c hc)).trans (List.map_id' name)

theorem groupName_eq_cons (name : List Char) :
    ∃ c cs, groupName name = c :: cs ∧ c.isDigit = false := by
  rw [groupName]
  split
  · exact ⟨'_', [], rfl, by decide⟩
  · next c cs _ =>
    split
    · exact ⟨'_', c :: cs, rfl, by decide⟩
    · next hdigit => exact ⟨c, cs, rfl, by simpa using hdigit⟩

/-- A new name is not changed again. -/
theorem groupName_groupName (name : List Char) : groupName (groupName name) = groupName name := by
  obtain ⟨c, cs, hcons, hdigit⟩ := groupName_eq_cons name
  have hmap := map_name (isNameCharacter_groupName name)
  rw [hcons] at hmap ⊢
  rw [groupName, hmap]
  simp [hdigit]

theorem mem_classRanges_of_lookup {name ranges : List Char}
    (h : classRanges.lookup name = some ranges) : (name, ranges) ∈ classRanges := by
  obtain ⟨before, after, heq, -⟩ := List.lookup_eq_some_iff.1 h
  rw [heq]
  exact List.mem_append_right _ List.mem_cons_self

/-- The ways to expand a class: as its ranges, with a caret in front of them, or as `\D`. -/
theorem expandClass?_eq_some {negated alone : Bool} {name ranges : List Char}
    (h : expandClass? negated alone name = some ranges) :
    ∃ found, classRanges.lookup name = some found ∧
      ((negated = false ∧ ranges = found) ∨ (negated = true ∧ ranges = '^' :: found) ∨
        (negated = true ∧ ranges = ['\\', 'D'])) := by
  rw [expandClass?] at h
  split at h
  · simp at h
  · next found hlookup =>
    refine ⟨found, hlookup, ?_⟩
    cases negated <;> cases alone <;> simp_all

theorem isWhole_of_expandClass? {negated alone : Bool} {name ranges : List Char}
    (h : expandClass? negated alone name = some ranges) :
    (Token.posixClass negated name).IsWhole := by
  have hnames : ∀ entry ∈ classRanges, entry.1 ≠ [] ∧ ∀ c ∈ entry.1, c.isLower := by
    simp [classRanges]
  obtain ⟨found, hlookup, -⟩ := expandClass?_eq_some h
  have hname := hnames _ (mem_classRanges_of_lookup hlookup)
  exact .posixClass negated hname.1 hname.2

/-- An expansion is not empty and starts with no bracket and no underscore. -/
theorem head_of_expandClass? {negated alone : Bool} {name ranges : List Char}
    (h : expandClass? negated alone name = some ranges) :
    ∃ c cs, ranges = c :: cs ∧ c ∉ ['[', ']', '_'] := by
  have hranges : ∀ entry ∈ classRanges, ∃ c cs, entry.2 = c :: cs ∧ c ∉ ['[', ']', '_'] := by
    simp [classRanges]
  obtain ⟨found, hlookup, ⟨-, rfl⟩ | ⟨-, rfl⟩ | ⟨-, rfl⟩⟩ := expandClass?_eq_some h
  · exact hranges _ (mem_classRanges_of_lookup hlookup)
  · exact ⟨_, _, rfl, by decide⟩
  · exact ⟨_, _, rfl, by decide⟩

/-- An expanded class is an escape, or has a hyphen and no character that starts something or that
    the opening of a named group goes on with. -/
theorem inert_of_expandClass? {negated alone : Bool} {name ranges : List Char}
    (h : expandClass? negated alone name = some ranges) :
    ranges = ['\\', 'D'] ∨ ((∀ c ∈ ranges, c ∉ activeCharacters) ∧ '-' ∈ ranges ∧
      ∀ c ∈ ranges, c ∉ ['?', '<', '>']) := by
  have hentries : ∀ entry ∈ classRanges, (∀ c ∈ entry.2, c ∉ activeCharacters) ∧
      '-' ∈ entry.2 ∧ ∀ c ∈ entry.2, c ∉ ['?', '<', '>'] := by
    simp [classRanges, activeCharacters]
  obtain ⟨found, hlookup, hranges⟩ := expandClass?_eq_some h
  obtain ⟨hinert, hhyphen, hmarks⟩ := hentries _ (mem_classRanges_of_lookup hlookup)
  obtain ⟨-, rfl⟩ | ⟨-, rfl⟩ | ⟨-, rfl⟩ := hranges
  · exact .inr ⟨hinert, hhyphen, hmarks⟩
  · exact .inr ⟨List.forall_mem_cons.2 ⟨by decide, hinert⟩, List.mem_cons_of_mem _ hhyphen,
      List.forall_mem_cons.2 ⟨by decide, hmarks⟩⟩
  · exact .inl rfl

/-- How a class is expanded can be told from the first character. -/
theorem expandClass?_unique {negated alone alone' : Bool} {name ranges ranges' : List Char}
    (h : expandClass? negated alone name = some ranges)
    (h' : expandClass? negated alone' name = some ranges')
    {text text' : List Char} (htext : ranges ++ text = ranges' ++ text') : ranges = ranges' := by
  obtain ⟨found, hlookup, hranges⟩ := expandClass?_eq_some h
  obtain ⟨found', hlookup', hranges'⟩ := expandClass?_eq_some h'
  obtain rfl : found = found' := Option.some.inj (hlookup.symm.trans hlookup')
  cases negated with
  | false =>
    obtain rfl : ranges = found := by simpa using hranges
    obtain rfl : ranges' = ranges := by simpa using hranges'
    rfl
  | true =>
    replace hranges : ranges = '^' :: found ∨ ranges = ['\\', 'D'] := by simpa using hranges
    replace hranges' : ranges' = '^' :: found ∨ ranges' = ['\\', 'D'] := by simpa using hranges'
    obtain rfl | rfl := hranges <;> obtain rfl | rfl := hranges' <;> simp at htext ⊢

/-! ## Reading a text whose brackets are carried -/

/-- A text that is read as a whole is read in one way. -/
theorem Token.IsWhole.unique {token other : Token} (htoken : token.IsWhole) (hother : other.IsWhole)
    {rest rest' : List Char} (h : token.lexeme ++ rest = other.lexeme ++ rest') :
    token = other ∧ rest = rest' := by
  have hscan := scan_whole htoken rest
  rw [h, scan_whole hother rest'] at hscan
  obtain rfl := (List.cons.inj hscan).1
  exact ⟨rfl, List.append_cancel_left h⟩

theorem Token.IsWhole.lexeme_posixClass {negated : Bool} {name : List Char}
    (h : (Token.posixClass negated name).IsWhole) :
    ∃ lead, (Token.posixClass negated name).lexeme = '[' :: (lead ++ [']']) ∧
      ∀ c ∈ lead, c ∉ activeCharacters := by
  cases h with
  | posixClass _ hne hlower =>
    refine ⟨':' :: ((if negated then ['^'] else []) ++ name ++ [':']), by simp [lexeme], ?_⟩
    have hname : ∀ c ∈ name, c ∉ activeCharacters := by
      intro c hc hmem
      have hall : ∀ d ∈ activeCharacters, d.isLower = false := by simp [activeCharacters]
      exact absurd (hlower c hc) (by simp [hall c hmem])
    have hcaret : ∀ c ∈ if negated then ['^'] else [], c ∉ activeCharacters := by
      cases negated <;> simp [activeCharacters]
    simp only [List.forall_mem_cons, List.forall_mem_append]
    exact ⟨by decide, ⟨hcaret, hname⟩, by decide, by simp⟩

/-- The two texts that a token which names a group starts with. -/
def groupLeads : List (List Char) :=
  [['(', '?', '<'], ['\\', 'k', '<']]

/-- A token that names a group is written as a text in front of the name, the name and `>`. -/
theorem Token.lexeme_withName {token : Token} {name : List Char} (h : token.name? = some name) :
    ∃ lead ∈ groupLeads, token.lexeme = lead ++ (name ++ ['>']) ∧
      ∀ newName, (token.withName newName).lexeme = lead ++ (newName ++ ['>']) := by
  cases token with
  | namedGroup found =>
    obtain rfl := Option.some.inj h
    exact ⟨['(', '?', '<'], by simp [groupLeads], rfl, fun _ => rfl⟩
  | backReference found =>
    obtain rfl := Option.some.inj h
    exact ⟨['\\', 'k', '<'], by simp [groupLeads], rfl, fun _ => rfl⟩
  | _ => simp [name?] at h

namespace Carried

variable {expand : Bool} {depth : Nat} {text written : List Char}

/-- A character that starts no longer text is carried on its own. -/
theorem of_single {c : Char} (hc : c ≠ '\\') (hwhole : ¬ StartsWhole (c :: text))
    (h : Carried expand depth (c :: text) written) :
    ∃ after, written = writtenCharacter c ++ after ∧
      Carried expand (depthAfter depth c) text after := by
  generalize htext : c :: text = full at h
  cases h with
  | nil => simp at htext
  | lone => exact absurd (List.cons.inj htext).1 hc
  | escape h => exact absurd (List.cons.inj htext).1 hc
  | same hsame h =>
    obtain ⟨rfl, rfl⟩ := List.cons.inj htext
    simp only [List.mem_cons, List.not_mem_nil, or_false, not_or] at hsame
    rw [writtenCharacter, if_neg hsame.2.1, depthAfter, if_neg hsame.2.2.1, if_neg hsame.2.2.2]
    exact ⟨_, rfl, h⟩
  | slash h =>
    obtain ⟨rfl, rfl⟩ := List.cons.inj htext
    exact ⟨_, rfl, h⟩
  | opening h =>
    obtain ⟨rfl, rfl⟩ := List.cons.inj htext
    exact ⟨_, rfl, h⟩
  | closing h =>
    obtain ⟨rfl, rfl⟩ := List.cons.inj htext
    exact ⟨_, rfl, h⟩
  | posixClass hexpand hranges h =>
    exact absurd ⟨_, _, isWhole_of_expandClass? hranges, htext⟩ hwhole
  | group htoken hname hfree hnewName h =>
    exact absurd ⟨_, _, htoken, htext⟩ hwhole

theorem of_escape {c : Char} (hwhole : ¬ StartsWhole ('\\' :: c :: text))
    (h : Carried expand depth ('\\' :: c :: text) written) :
    ∃ after, written = '\\' :: c :: after ∧ Carried expand depth text after := by
  generalize htext : '\\' :: c :: text = full at h
  cases h with
  | nil => simp at htext
  | lone => simp at htext
  | escape h =>
    simp only [List.cons.injEq, true_and] at htext
    obtain ⟨rfl, rfl⟩ := htext
    exact ⟨_, rfl, h⟩
  | same hsame h =>
    obtain ⟨rfl, -⟩ := List.cons.inj htext
    simp at hsame
  | slash h => simp at htext
  | opening h => simp at htext
  | closing h => simp at htext
  | posixClass hexpand hranges h =>
    exact absurd ⟨_, _, isWhole_of_expandClass? hranges, htext⟩ hwhole
  | group htoken hname hfree hnewName h =>
    exact absurd ⟨_, _, htoken, htext⟩ hwhole

/-- Text of characters that are written as they are and start nothing is carried as it is. -/
theorem of_append (lead : List Char) (hlead : ∀ c ∈ lead, c ∉ activeCharacters)
    (h : Carried expand depth (lead ++ text) written) :
    ∃ after, written = lead ++ after ∧ Carried expand depth text after := by
  induction lead generalizing written with
  | nil => exact ⟨written, rfl, h⟩
  | cons c lead ih =>
    obtain ⟨hc, hlead⟩ := List.forall_mem_cons.1 hlead
    obtain ⟨hbackslash, -, hwritten, hdepth, hwhole⟩ := inert_of_not_active hc depth
    obtain ⟨after, rfl, hafter⟩ := of_single hbackslash (hwhole _) h
    rw [hdepth] at hafter
    obtain ⟨rest, rfl, hrest⟩ := ih hlead hafter
    exact ⟨rest, by simp [hwritten], hrest⟩

/-- A POSIX class is carried as it is or expanded. -/
theorem of_posixClass {negated : Bool} {name : List Char}
    (hclass : (Token.posixClass negated name).IsWhole)
    (h : Carried expand depth ((Token.posixClass negated name).lexeme ++ text) written) :
    ∃ item after, written = item ++ after ∧ Carried expand depth text after ∧
      (item = (Token.posixClass negated name).lexeme ∨
        ∃ alone, expandClass? negated alone name = some item) := by
  obtain ⟨lead, hlexeme, hlead⟩ := hclass.lexeme_posixClass
  generalize htext : (Token.posixClass negated name).lexeme ++ text = full at h
  cases h with
  | opening h =>
    rw [hlexeme, List.cons_append, List.append_assoc] at htext
    obtain ⟨after, rfl, hafter⟩ := of_append lead hlead ((List.cons.inj htext).2 ▸ h)
    obtain ⟨rest, rfl, hrest⟩ := of_single (by decide) (not_startsWhole_closeBracket _) hafter
    exact ⟨_, rest, by simp [hlexeme, writtenCharacter], hrest, .inl rfl⟩
  | posixClass hexpand hranges h =>
    obtain ⟨heq, rfl⟩ := hclass.unique (isWhole_of_expandClass? hranges) htext
    obtain ⟨rfl, rfl⟩ := Token.posixClass.inj heq
    exact ⟨_, _, rfl, h, .inr ⟨_, hranges⟩⟩
  | group htoken hname hfree hnewName h =>
    obtain ⟨rfl, -⟩ := hclass.unique htoken htext
    simp [Token.name?] at hname
  | same hsame h =>
    obtain ⟨rfl, -⟩ := List.cons.inj htext
    simp at hsame
  | _ => simp [Token.lexeme] at htext

/-- Only an underscore is carried as an underscore. -/
theorem eq_underscore {c : Char} (h : Carried expand depth (c :: text) ('_' :: written)) :
    c = '_' := by
  generalize htext : c :: text = full at h
  generalize hwritten : '_' :: written = fullWritten at h
  cases h with
  | same hsame h => exact (List.cons.inj htext).1.trans (List.cons.inj hwritten).1.symm
  | posixClass hexpand hranges h =>
    obtain ⟨d, ds, rfl, hd⟩ := head_of_expandClass? hranges
    obtain ⟨rfl, -⟩ := List.cons.inj hwritten
    simp at hd
  | group htoken hname hfree hnewName h =>
    obtain ⟨lead, hlead, -, hlexeme⟩ := Token.lexeme_withName hname
    rw [hlexeme] at hwritten
    simp only [groupLeads, List.mem_cons, List.not_mem_nil, or_false] at hlead
    obtain rfl | rfl := hlead <;> simp at hwritten
  | _ => simp at hwritten

/-- Names are carried character by character only if no character of theirs is replaced. -/
theorem of_map_name {name : List Char}
    (h : Carried expand depth (name ++ '>' :: text)
      (name.map (fun c => if isNameCharacter c then c else '_') ++ '>' :: written)) :
    (∀ c ∈ name, isNameCharacter c) ∧ Carried expand depth text written := by
  induction name with
  | nil =>
    obtain ⟨after, heq, hafter⟩ := of_append ['>'] (by simp [activeCharacters]) h
    obtain rfl : written = after := (List.cons.inj heq).2
    exact ⟨by simp, hafter⟩
  | cons c name ih =>
    rw [List.map_cons, List.cons_append, List.cons_append] at h
    by_cases hc : isNameCharacter c
    · rw [if_pos hc] at h
      obtain ⟨after, heq, hafter⟩ := of_append [c] (by
        rintro d hd hactive
        obtain rfl := List.mem_singleton.1 hd
        rw [isNameCharacter_active d hactive] at hc
        exact absurd hc (by decide)) h
      obtain rfl := (List.cons.inj heq).2
      obtain ⟨hname, hrest⟩ := ih hafter
      exact ⟨List.forall_mem_cons.2 ⟨hc, hname⟩, hrest⟩
    · rw [if_neg hc] at h
      rw [eq_underscore h] at hc
      exact absurd (by decide) hc

/-- Names are carried character by character only if they are not changed. -/
theorem of_name {name : List Char}
    (h : Carried expand depth (name ++ '>' :: text) (groupName name ++ '>' :: written)) :
    groupName name = name ∧ Carried expand depth text written := by
  rw [groupName] at h ⊢
  split at h
  · next hnil =>
    obtain rfl := List.map_eq_nil_iff.1 hnil
    exact absurd (eq_underscore h) (by decide)
  · next c cs hcons =>
    obtain ⟨d, ds, rfl, hd, -⟩ := List.map_eq_cons_iff.1 hcons
    by_cases hdigit : c.isDigit
    · -- The underscore in front stands in the place of the digit.
      rw [if_pos hdigit] at h
      obtain rfl := eq_underscore h
      rw [if_pos (by decide)] at hd
      rw [← hd] at hdigit
      exact absurd hdigit (by decide)
    · rw [if_neg hdigit, ← hcons] at h
      obtain ⟨hname, hrest⟩ := of_map_name h
      rw [if_neg hdigit, ← hcons]
      exact ⟨map_name hname, hrest⟩

/-- What is written for a token that names a group is carried only if the token keeps brackets. -/
theorem of_group {token : Token} {name : List Char} (htoken : token.IsWhole)
    (hname : token.name? = some name)
    (h : Carried expand depth (token.lexeme ++ text)
      ((token.withName (groupName name)).lexeme ++ written)) :
    token.keepsBrackets depth ∧ Carried expand depth text written := by
  obtain ⟨lead, hlead, hlexeme, hwithName⟩ := Token.lexeme_withName hname
  have hkept (hname' : groupName name = name) : token.keepsBrackets depth := by
    simp [Token.keepsBrackets, hname, hname']
  have hlexemes (rest : List Char) : token.lexeme ++ rest = lead ++ (name ++ '>' :: rest) := by
    simp [hlexeme]
  rw [hlexemes, hwithName] at h
  simp only [List.append_assoc, List.singleton_append] at h
  generalize htext : lead ++ (name ++ '>' :: text) = full at h
  generalize hwritten : lead ++ (groupName name ++ '>' :: written) = fullWritten at h
  simp only [groupLeads, List.mem_cons, List.not_mem_nil, or_false] at hlead
  cases h with
  | @group _ foundName newName _ _ hother hfound hfree hnewName h =>
    obtain ⟨rfl, rfl⟩ := htoken.unique hother ((hlexemes text).trans htext)
    obtain rfl : name = foundName := Option.some.inj (hname.symm.trans hfound)
    have hend : '>' ∉ newName := fun hmem => absurd (hnewName _ hmem) (by decide)
    have hend' : '>' ∉ groupName name := fun hmem =>
      absurd (isNameCharacter_groupName name _ hmem) (by decide)
    simp only [hwithName, List.append_assoc, List.append_cancel_left_eq, List.singleton_append]
      at hwritten
    have hcut := Text.cutAt?_append hend' written
    rw [hwritten, Text.cutAt?_append hend] at hcut
    obtain ⟨-, rfl⟩ := Prod.mk.inj (Option.some.inj hcut)
    exact ⟨by simp [Token.keepsBrackets, hname, hfree], h⟩
  | posixClass hexpand hranges h =>
    obtain ⟨rfl, -⟩ := htoken.unique (isWhole_of_expandClass? hranges) ((hlexemes text).trans htext)
    simp [Token.name?] at hname
  | same hsame h =>
    obtain rfl | rfl := hlead
    · obtain ⟨rfl, rfl⟩ := List.cons.inj htext
      obtain ⟨after, heq, hafter⟩ := of_append ['?', '<'] (by simp [activeCharacters]) h
      rw [heq] at hwritten
      obtain rfl : groupName name ++ '>' :: written = after := by simpa using hwritten
      exact (of_name hafter).imp_left hkept
    · obtain ⟨rfl, -⟩ := List.cons.inj htext
      simp at hsame
  | escape h =>
    obtain rfl | rfl := hlead
    · simp at htext
    · simp only [List.cons_append, List.nil_append, List.cons.injEq, true_and] at htext hwritten
      obtain ⟨rfl, rfl⟩ := htext
      obtain ⟨after, heq, hafter⟩ := of_append ['<'] (by simp [activeCharacters]) h
      rw [heq] at hwritten
      obtain rfl : groupName name ++ '>' :: written = after := by simpa using hwritten
      exact (of_name hafter).imp_left hkept
  | _ => obtain rfl | rfl := hlead <;> simp at htext

/-! ## Carrying what is written for a text -/

/-- A text of characters that are written as they are is carried as it is. -/
theorem append (lead : List Char) (hlead : ∀ c ∈ lead, c ∉ ['\\', '/', '[', ']'])
    (h : Carried expand depth text written) :
    Carried expand depth (lead ++ text) (lead ++ written) := by
  induction lead with
  | nil => exact h
  | cons c lead ih =>
    rw [List.forall_mem_cons] at hlead
    exact .same hlead.1 (ih hlead.2)

theorem single {c : Char} (hc : c ≠ '\\') (h : Carried expand (depthAfter depth c) text written) :
    Carried expand depth (c :: text) (writtenCharacter c ++ written) := by
  by_cases hslash : c = '/'
  · subst hslash
    exact .slash h
  · rw [writtenCharacter, if_neg hslash]
    by_cases hopen : c = '['
    · subst hopen
      exact .opening h
    · by_cases hclose : c = ']'
      · subst hclose
        exact .closing h
      · rw [depthAfter, if_neg hopen, if_neg hclose] at h
        exact .same (by simp [hc, hslash, hopen, hclose]) h

/-- What is written for a POSIX class is carried. -/
theorem written_posixClass {negated : Bool} {name : List Char}
    (hclass : (Token.posixClass negated name).IsWhole) (alone : Bool)
    (h : Carried expand depth text written) :
    Carried expand depth ((Token.posixClass negated name).lexeme ++ text)
      ((Token.posixClass negated name).written expand (depth != 0) alone ++ written) := by
  have hkept : Carried expand depth ((Token.posixClass negated name).lexeme ++ text)
      ((Token.posixClass negated name).lexeme ++ written) := by
    obtain ⟨lead, hlexeme, hlead⟩ := hclass.lexeme_posixClass
    simp only [hlexeme, List.cons_append, List.append_assoc, List.nil_append]
    have hsame : ∀ c ∈ lead, c ∉ ['\\', '/', '[', ']'] := fun c hc hmem =>
      hlead c hc (List.mem_append_left ['('] hmem)
    exact .opening (append lead hsame (.closing h))
  simp only [Token.written, Token.expansion?]
  split
  · next hinside =>
    simp only [Bool.and_eq_true, bne_iff_ne] at hinside
    cases hranges : expandClass? negated alone name with
    | none => exact hkept
    | some ranges =>
      obtain ⟨depth, rfl⟩ := Nat.exists_eq_succ_of_ne_zero hinside.2
      exact .posixClass hinside.1 hranges h
  · exact hkept

/-- What is written for a token that names a group is carried if the token keeps brackets. -/
theorem written_group {token : Token} {name : List Char} (htoken : token.IsWhole)
    (hname : token.name? = some name) (hkeeps : token.keepsBrackets depth)
    (h : Carried expand depth text written) :
    Carried expand depth (token.lexeme ++ text)
      ((token.withName (groupName name)).lexeme ++ written) := by
  obtain ⟨lead, hlead, hlexeme, hwithName⟩ := Token.lexeme_withName hname
  simp only [Token.keepsBrackets, hname, Option.all_some, Bool.or_eq_true, Bool.and_eq_true,
    beq_iff_eq] at hkeeps
  obtain hkept | ⟨rfl, hfree⟩ := hkeeps
  · have hnamed : Carried expand depth (name ++ '>' :: text) (name ++ '>' :: written) :=
      append name
        (fun c hc hmem => not_active_of_groupName hkept c hc (List.mem_append_left ['('] hmem))
        (.same (by decide) h)
    simp only [hlexeme, hwithName, hkept, List.append_assoc, List.singleton_append]
    simp only [groupLeads, List.mem_cons, List.not_mem_nil, or_false] at hlead
    obtain rfl | rfl := hlead
    · exact append _ (by simp) hnamed
    · exact .escape (append ['<'] (by simp) hnamed)
  · exact .group htoken hname hfree (isNameCharacter_groupName name) h

end Carried

/-! ## What is written for a token -/

theorem Token.written_of_name? {token : Token} {name : List Char} (h : token.name? = some name)
    (expand inside alone : Bool) :
    token.written expand inside alone = (token.withName (groupName name)).lexeme := by
  cases token <;> simp_all [name?, written, withName, lexeme]

/-- A text that is read as a whole names a group or is a POSIX class. -/
theorem Token.IsWhole.group_or_posixClass {token : Token} (h : token.IsWhole) :
    (∃ name, token.name? = some name) ∨ ∃ negated name, token = .posixClass negated name := by
  cases h with
  | namedGroup h => exact .inl ⟨_, rfl⟩
  | backReference h => exact .inl ⟨_, rfl⟩
  | posixClass negated hne hlower => exact .inr ⟨_, _, rfl⟩

/-- Where a text goes on after a class that is kept or expanded can be told from the text. -/
theorem writtenClass_unique {negated : Bool} {name item item' text text' : List Char}
    (hitem : item = (Token.posixClass negated name).lexeme ∨
      ∃ alone, expandClass? negated alone name = some item)
    (hitem' : item' = (Token.posixClass negated name).lexeme ∨
      ∃ alone, expandClass? negated alone name = some item')
    (h : item ++ text = item' ++ text') : item = item' := by
  -- An expansion does not start like the class itself.
  have hexpanded {alone : Bool} {ranges text text' : List Char}
      (hranges : expandClass? negated alone name = some ranges) :
      ranges ++ text ≠ (Token.posixClass negated name).lexeme ++ text' := by
    obtain ⟨c, cs, rfl, hc⟩ := head_of_expandClass? hranges
    intro heq
    simp [(List.cons.inj heq).1] at hc
  obtain rfl | ⟨alone, hranges⟩ := hitem
  · obtain rfl | ⟨alone', hranges'⟩ := hitem'
    · rfl
    · exact absurd h.symm (hexpanded hranges')
  · obtain rfl | ⟨alone', hranges'⟩ := hitem'
    · exact absurd h (hexpanded hranges)
    · exact expandClass?_unique hranges hranges' h

theorem written_posixClass_eq (negated expand inside alone : Bool) (name : List Char) :
    (Token.posixClass negated name).written expand inside alone =
        (Token.posixClass negated name).lexeme ∨
      ∃ alone', expandClass? negated alone' name =
        some ((Token.posixClass negated name).written expand inside alone) := by
  simp only [Token.written, Token.expansion?]
  split
  · cases hranges : expandClass? negated alone name with
    | none => exact .inl rfl
    | some ranges => exact .inr ⟨alone, hranges⟩
  · exact .inl rfl

/-! ## Main results -/

/-- The text that is written for a pattern carries its brackets exactly if all tokens keep them. -/
theorem carried_iff (expand : Bool) (text : List Char) : ∀ (depth : Nat) (opened : Bool),
    Carried expand depth text (writtenFrom expand depth opened (scan text)) ↔
      keepBrackets depth (scan text) := by
  induction text using scan_induction with
  | nil =>
    intro depth opened
    simp [scan, writtenFrom, keepBrackets, Carried.nil]
  | lone =>
    intro depth opened
    rw [writtenFrom_lone, scan_lone]
    exact iff_of_true .lone rfl
  | whole token rest htoken ih =>
    intro depth opened
    rw [writtenFrom_whole expand depth opened htoken, keepBrackets_whole depth htoken,
      Bool.and_eq_true]
    obtain ⟨name, hname⟩ | ⟨negated, name, rfl⟩ := htoken.group_or_posixClass
    · rw [Token.written_of_name? hname, ← ih depth false]
      exact ⟨fun h => h.of_group htoken hname,
        fun h => h.2.written_group htoken hname h.1⟩
    · rw [← ih depth false]
      constructor
      · intro h
        obtain ⟨item, after, hwritten, hafter, hitem⟩ := h.of_posixClass htoken
        obtain rfl := writtenClass_unique (written_posixClass_eq ..) hitem hwritten
        exact ⟨rfl, List.append_cancel_left hwritten ▸ hafter⟩
      · rintro ⟨-, h⟩
        exact h.written_posixClass htoken _
  | escape c rest hwhole ih =>
    intro depth opened
    rw [writtenFrom_escape expand depth opened hwhole, keepBrackets_escape depth hwhole,
      ← ih depth false]
    constructor
    · intro h
      obtain ⟨after, hwritten, hafter⟩ := h.of_escape hwhole
      obtain rfl : _ = after := by simpa using hwritten
      exact hafter
    · exact .escape
  | single c rest hc hwhole ih =>
    intro depth opened
    rw [writtenFrom_single expand depth opened hc hwhole, keepBrackets_single depth hc hwhole,
      ← ih (depthAfter depth c) (c = '[')]
    constructor
    · intro h
      obtain ⟨after, hwritten, hafter⟩ := h.of_single hc hwhole
      exact List.append_cancel_left hwritten ▸ hafter
    · exact .single hc

theorem Token.written_ne_nil {token : Token} (h : token ≠ .run []) (expand inside alone : Bool) :
    token.written expand inside alone ≠ [] := by
  cases token with
  | posixClass negated name =>
    obtain heq | ⟨alone', hranges⟩ := written_posixClass_eq negated expand inside alone name
    · simp [heq, lexeme]
    · obtain ⟨c, cs, heq, -⟩ := head_of_expandClass? hranges
      simp [heq]
  | run text => simpa [written, expansion?, lexeme] using h
  | _ => simp [written, expansion?, lexeme]

/-- Something is written for every text that is not empty. -/
theorem eq_nil_of_writtenFrom {expand opened : Bool} {depth : Nat} {text : List Char}
    (h : writtenFrom expand depth opened (scan text) = []) : text = [] := by
  cases text with
  | nil => rfl
  | cons c cs =>
    rw [scan, writtenFrom, List.append_eq_nil_iff] at h
    exact absurd h.1 (Token.written_ne_nil (step_ne_run_nil c cs) _ _ _)

/-- The tokens after a leading `(?i)` are those of the text after it. -/
theorem takeCaseless_scan (text : List Char) :
    (takeCaseless (scan text)).2 =
      scan ((Text.dropLeading? Token.caseless.lexeme text).getD text) := by
  cases h : Text.dropLeading? Token.caseless.lexeme text with
  | some rest =>
    obtain rfl := Text.dropLeading?_eq_some_iff.1 h
    have hscan : scan (Token.caseless.lexeme ++ rest) = .caseless :: scan rest := scan_of_step rfl
    rw [hscan]
    rfl
  | none =>
    rw [Option.getD_none, takeCaseless.eq_def]
    split
    · next rest heq =>
      have hlexemes := scan_lexemes text
      rw [heq, List.flatMap_cons] at hlexemes
      rw [Text.dropLeading?_eq_some_iff.2 hlexemes.symm] at h
      simp at h
    · rfl

/-- A text without a leading `(?i)`. -/
def bodyOf (text : List Char) : List Char :=
  (Text.dropLeading? Token.caseless.lexeme text).getD text

theorem eq_bodyOf (text : List Char) :
    text = bodyOf text ∨ text = Token.caseless.lexeme ++ bodyOf text := by
  rw [bodyOf]
  cases h : Text.dropLeading? Token.caseless.lexeme text with
  | none => exact .inl rfl
  | some rest => exact .inr (Text.dropLeading?_eq_some_iff.1 h)

theorem scan_bodyOf (text : List Char) :
    scan text = scan (bodyOf text) ∨ scan text = .caseless :: scan (bodyOf text) := by
  refine (eq_bodyOf text).imp (congrArg scan) fun h => ?_
  exact (congrArg scan h).trans (scan_of_step rfl)

/-- The source of a literal is what is written for its pattern, or stands for nothing. -/
theorem source_cases (expand captures : Bool) (pattern : String) :
    let source := (Literal.ofPattern expand captures pattern).source.toList
    (bodyOf pattern.toList = [] ∧ source = "(?:)".toList) ∨
      (bodyOf pattern.toList ≠ [] ∧
        source = writtenFrom expand 0 false (scan (bodyOf pattern.toList))) := by
  intro source
  have hsource : source = sourceOf expand (scan (bodyOf pattern.toList)) :=
    String.toList_ofList.trans (congrArg (sourceOf expand) (takeCaseless_scan _))
  rw [hsource, sourceOf]
  split
  · next hnil => exact .inl ⟨eq_nil_of_writtenFrom hnil, rfl⟩
  · next c cs hcons =>
    refine .inr ⟨fun hnil => ?_, hcons.symm⟩
    simp [hnil, scan, writtenFrom] at hcons

theorem keepBrackets_takeCaseless (tokens : List Token) :
    keepBrackets 0 (takeCaseless tokens).2 = keepBrackets 0 tokens := by
  rw [takeCaseless.eq_def]
  split <;> rfl

/-- The source of a literal has the brackets of its pattern exactly if all tokens keep them. -/
theorem carriesBrackets_iff (expand captures : Bool) (pattern : String) :
    CarriesBrackets expand pattern.toList
        (Literal.ofPattern expand captures pattern).source.toList ↔
      keepBrackets 0 (scan pattern.toList) := by
  have hsource : (Literal.ofPattern expand captures pattern).source.toList =
      sourceOf expand (takeCaseless (scan pattern.toList)).2 := String.toList_ofList
  rw [hsource, ← keepBrackets_takeCaseless, takeCaseless_scan, CarriesBrackets]
  generalize (Text.dropLeading? Token.caseless.lexeme pattern.toList).getD pattern.toList = body
  have hcarried := carried_iff expand body 0 false
  rw [sourceOf]
  split
  · next hnil =>
    obtain rfl := eq_nil_of_writtenFrom hnil
    exact iff_of_true (.inr ⟨rfl, rfl⟩) (by simp [scan, keepBrackets])
  · next c cs hcons =>
    rw [← hcons, hcarried]
    refine or_iff_left ?_
    rintro ⟨rfl, -⟩
    simp [scan, writtenFrom] at hcons

/-- The name in `[(?<]x>` is the bracket that closes the bracket expression and the `x`. It becomes
    `_x`, and the bracket expression is not closed any more. -/
theorem bracket_lost :
    (Literal.ofPattern true false "[(?<]x>").source = "[(?<_x>" ∧
      ∀ expand, ¬ CarriesBrackets expand "[(?<]x>".toList
        (Literal.ofPattern expand false "[(?<]x>").source.toList := by
  refine ⟨by decide +kernel, fun expand => ?_⟩
  have hsource : (Literal.ofPattern expand false "[(?<]x>").source.toList =
      writtenFrom expand 0 false (scan "[(?<]x>".toList) := by
    cases expand <;> decide +kernel
  have hkeep : keepBrackets 0 (scan "[(?<]x>".toList) = false := by decide +kernel
  rw [hsource]
  rintro (h | ⟨hbody, -⟩)
  · have hkeeps := (carried_iff expand "[(?<]x>".toList 0 false).1 h
    rw [hkeep] at hkeeps
    exact absurd hkeeps (by decide)
  · exact absurd hbody (by decide)

end PatternTable.Regex
