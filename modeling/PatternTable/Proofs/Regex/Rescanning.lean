import PatternTable.Proofs.Regex.CharacterSets
import PatternTable.Proofs.Regex.Flags

/-!
# Sources scanned again

A source is itself a pattern that can be scanned. It is read in the pieces it was written in. The
danger is in the characters that were written for themselves: what comes after them may have been
changed, so that together they could start a longer text than before. They never do. The opening of
a named group or a reference needs a `>`, which is never written anew, and a POSIX class has no
hyphen in it, which every expanded class has.

* `Rewritten`: a text is written as another one, piece by piece.

Results:
* `rewritten_writtenFrom`: what is written for a text.
* `Rewritten.writtenFrom_eq`, `Rewritten.hasAnchor_eq`: nothing is changed a second time, and the
  same anchors are met.
-/

namespace PatternTable.Regex

/-- With `depth` brackets open, the last of them directly in front when `opened`, a text is written
    as another one piece by piece, and both are read in the same pieces. -/
inductive Rewritten (expand : Bool) :
    (depth : Nat) → (opened : Bool) → (text written : List Char) → Prop where
  | nil {depth : Nat} {opened : Bool} : Rewritten expand depth opened [] []
  | lone {depth : Nat} {opened : Bool} : Rewritten expand depth opened ['\\'] ['\\']
  | group {depth : Nat} {opened : Bool} {token : Token} {name text written : List Char}
    (htoken : token.IsWhole) (hname : token.name? = some name)
    (h : Rewritten expand depth false text written) :
    Rewritten expand depth opened (token.lexeme ++ text)
      ((token.withName (groupName name)).lexeme ++ written)
  | keptClass {depth : Nat} {opened negated : Bool} {name text written : List Char}
    (hclass : (Token.posixClass negated name).IsWhole)
    (hkept : (Token.posixClass negated name).written expand (depth != 0)
      (isAlone opened (scan text)) = (Token.posixClass negated name).lexeme)
    (h : Rewritten expand depth false text written) :
    Rewritten expand depth opened ((Token.posixClass negated name).lexeme ++ text)
      ((Token.posixClass negated name).lexeme ++ written)
  | expandedClass {depth : Nat} {opened negated alone : Bool} {name ranges text written : List Char}
    (hdepth : depth ≠ 0) (hranges : expandClass? negated alone name = some ranges)
    (h : Rewritten expand depth false text written) :
    Rewritten expand depth opened ((Token.posixClass negated name).lexeme ++ text)
      (ranges ++ written)
  | escape {depth : Nat} {opened : Bool} {c : Char} {text written : List Char}
    (hwhole : ¬ StartsWhole ('\\' :: c :: text)) (hwritten : ¬ StartsWhole ('\\' :: c :: written))
    (h : Rewritten expand depth false text written) :
    Rewritten expand depth opened ('\\' :: c :: text) ('\\' :: c :: written)
  | slash {depth : Nat} {opened : Bool} {text written : List Char}
    (h : Rewritten expand depth false text written) :
    Rewritten expand depth opened ('/' :: text) ('\\' :: '/' :: written)
  | single {depth : Nat} {opened : Bool} {c : Char} {text written : List Char}
    (hc : c ∉ ['\\', '/']) (hwhole : ¬ StartsWhole (c :: text))
    (hwritten : ¬ StartsWhole (c :: written))
    (h : Rewritten expand (depthAfter depth c) (c = '[') text written) :
    Rewritten expand depth opened (c :: text) (c :: written)

/-! ## Pieces -/

theorem not_startsWhole_slash (rest : List Char) : ¬ StartsWhole ('/' :: rest) :=
  fun h => absurd (head_of_startsWhole h) (by decide)

theorem not_startsWhole_escape {c : Char} (hc : c ≠ 'k') (rest : List Char) :
    ¬ StartsWhole ('\\' :: c :: rest) := by
  rintro ⟨token, after, htoken, heq⟩
  cases htoken with
  | namedGroup h => simp [Token.lexeme] at heq
  | backReference h => simp [Token.lexeme, hc] at heq
  | posixClass negated hne hlower => simp [Token.lexeme] at heq

theorem Token.IsWhole.hyphen_not_mem {negated : Bool} {name : List Char}
    (h : (Token.posixClass negated name).IsWhole) :
    '-' ∉ (Token.posixClass negated name).lexeme := by
  cases h with
  | posixClass _ hne hlower =>
    have hname : '-' ∉ name := fun hmem => absurd (hlower _ hmem) (by decide)
    cases negated <;> simp [lexeme, hname]

/-- A text that goes on like the opening of a named group, and has the end of the name, starts with
    one. -/
theorem startsWhole_namedGroup {c : Char} {cs : List Char} (hc : c ∉ ['=', '!', '>'])
    (hend : '>' ∈ cs) : StartsWhole ('(' :: '?' :: '<' :: c :: cs) := by
  obtain ⟨name, rest, rfl, hname⟩ := List.eq_append_cons_of_mem hend
  simp only [List.mem_cons, List.not_mem_nil, or_false, not_or] at hc
  refine ⟨.namedGroup (c :: name), rest, .namedGroup ⟨?_, c, name, rfl, hc.1, hc.2.1⟩, ?_⟩
  · simp [hname, Ne.symm hc.2.2]
  · simp [Token.lexeme]

theorem startsWhole_backReference {cs : List Char} (hend : '>' ∈ cs) :
    StartsWhole ('\\' :: 'k' :: '<' :: cs) := by
  obtain ⟨name, rest, rfl, hname⟩ := List.eq_append_cons_of_mem hend
  exact ⟨.backReference name, rest, .backReference hname, by simp [Token.lexeme]⟩

namespace Rewritten

variable {expand : Bool} {depth : Nat} {opened : Bool} {text written : List Char}

/-! ## What is written tells of the text -/

/-- The end of a name is never written anew. -/
theorem mem_text (h : Rewritten expand depth opened text written) (hmem : '>' ∈ written) :
    '>' ∈ text := by
  induction h with
  | nil => exact hmem
  | lone => exact hmem
  | group htoken hname h ih =>
    obtain ⟨lead, -, hlexeme, -⟩ := Token.lexeme_withName hname
    simp [hlexeme]
  | keptClass hclass hkept h ih =>
    exact List.mem_append.2 ((List.mem_append.1 hmem).imp_right ih)
  | expandedClass hdepth hranges h ih =>
    refine List.mem_append_right _ (ih ((List.mem_append.1 hmem).resolve_left fun hranges' => ?_))
    obtain rfl | ⟨-, -, hmarks⟩ := inert_of_expandClass? hranges
    · simp at hranges'
    · exact hmarks _ hranges' (by decide)
  | escape hwhole hwritten h ih =>
    simp only [List.mem_cons] at hmem ⊢
    exact hmem.imp_right (Or.imp_right ih)
  | slash h ih => simp_all
  | single hc hwhole hwritten h ih =>
    simp only [List.mem_cons] at hmem ⊢
    exact hmem.imp_right ih

/-- A character that starts nothing is written for itself or as part of a class. -/
theorem of_written_cons {c : Char} (hc : c ∉ activeCharacters)
    (h : Rewritten expand depth opened text (c :: written)) :
    (∃ rest, text = c :: rest ∧ Rewritten expand depth false rest written) ∨
      ∃ ranges rest, c :: written = ranges ++ rest ∧ (∀ d ∈ ranges, d ∉ activeCharacters) ∧
        '-' ∈ ranges ∧ ∀ d ∈ ranges, d ∉ ['?', '<', '>'] := by
  obtain ⟨-, hopen, -, hdepth, -⟩ := inert_of_not_active hc depth
  generalize hfull : c :: written = full at h
  cases h with
  | nil => simp at hfull
  | lone => simp_all [activeCharacters]
  | group htoken hname h =>
    obtain ⟨lead, hlead, -, hwithName⟩ := Token.lexeme_withName hname
    rw [hwithName] at hfull
    simp only [groupLeads, List.mem_cons, List.not_mem_nil, or_false] at hlead
    obtain rfl | rfl := hlead <;> simp_all [activeCharacters]
  | keptClass hclass hkept h => simp_all [activeCharacters, Token.lexeme]
  | expandedClass hdepth hranges h =>
    obtain rfl | hinert := inert_of_expandClass? hranges
    · simp_all [activeCharacters]
    · exact .inr ⟨_, _, rfl, hinert⟩
  | escape hwhole hwritten h => simp_all [activeCharacters]
  | slash h => simp_all [activeCharacters]
  | single hc' hwhole hwritten h =>
    obtain ⟨rfl, rfl⟩ := List.cons.inj hfull
    rw [hdepth, decide_eq_false hopen] at h
    exact .inl ⟨_, rfl, h⟩

/-- A character that starts nothing is written. -/
theorem of_text_cons {c : Char} (hc : c ∉ activeCharacters)
    (h : Rewritten expand depth opened (c :: text) written) : ∃ rest, written = c :: rest := by
  generalize hfull : c :: text = full at h
  cases h with
  | nil => simp at hfull
  | lone => simp_all [activeCharacters]
  | group htoken hname h =>
    obtain ⟨lead, hlead, hlexeme, -⟩ := Token.lexeme_withName hname
    rw [hlexeme] at hfull
    simp only [groupLeads, List.mem_cons, List.not_mem_nil, or_false] at hlead
    obtain rfl | rfl := hlead <;> simp_all [activeCharacters]
  | keptClass hclass hkept h => simp_all [activeCharacters, Token.lexeme]
  | expandedClass hdepth hranges h => simp_all [activeCharacters, Token.lexeme]
  | escape hwhole hwritten h => simp_all [activeCharacters]
  | slash h => simp_all [activeCharacters]
  | single hc' hwhole hwritten h =>
    obtain ⟨rfl, rfl⟩ := List.cons.inj hfull
    exact ⟨_, rfl⟩

/-- What goes on like a token that names a group is written for a text that does. -/
theorem of_written_group {c : Char} (hc : c ∈ ['?', '<'])
    (h : Rewritten expand depth opened text (c :: written)) :
    ∃ rest, text = c :: rest ∧ Rewritten expand depth false rest written := by
  have hactive : c ∉ activeCharacters := by
    intro hmem
    have hnone : ∀ d ∈ activeCharacters, d ∉ ['?', '<'] := by simp [activeCharacters]
    exact hnone c hmem hc
  refine (h.of_written_cons hactive).resolve_right ?_
  rintro ⟨ranges, rest, heq, -, hhyphen, hmarks⟩
  cases ranges with
  | nil => cases hhyphen
  | cons d ranges =>
    obtain ⟨rfl, -⟩ := List.cons.inj heq
    exact hmarks c List.mem_cons_self ((List.sublist_append_left ['?', '<'] ['>']).subset hc)

/-- A bracket that closes is written for itself only, and only for it. -/
theorem head?_eq_closeBracket_iff (h : Rewritten expand depth opened text written) :
    written.head? = some ']' ↔ text.head? = some ']' := by
  cases h with
  | nil => rfl
  | lone => rfl
  | group htoken hname h =>
    obtain ⟨lead, hlead, hlexeme, hwithName⟩ := Token.lexeme_withName hname
    rw [hlexeme, hwithName]
    simp only [groupLeads, List.mem_cons, List.not_mem_nil, or_false] at hlead
    obtain rfl | rfl := hlead <;> simp
  | keptClass hclass hkept h => rfl
  | expandedClass hdepth hranges h =>
    obtain ⟨c, cs, rfl, hc⟩ := head_of_expandClass? hranges
    simp_all [Token.lexeme]
  | escape hwhole hwritten h => rfl
  | slash h => simp
  | single hc hwhole hwritten h => rfl

/-- What reads like a class from its second character on is written for a text that does. -/
theorem of_written_class {lead : List Char} (hlead : ∀ c ∈ lead, c ∉ activeCharacters)
    (hhyphen : '-' ∉ lead) (h : Rewritten expand depth opened text (lead ++ ']' :: written)) :
    ∃ rest, text = lead ++ ']' :: rest := by
  induction lead generalizing opened text with
  | nil => exact List.head?_eq_some_iff.1 (h.head?_eq_closeBracket_iff.1 rfl)
  | cons c lead ih =>
    obtain ⟨hc, hlead'⟩ := List.forall_mem_cons.1 hlead
    obtain ⟨rest, rfl, hrest⟩ | ⟨ranges, rest, heq, hinert, hranges, -⟩ := h.of_written_cons hc
    · obtain ⟨after, rfl⟩ := ih hlead' (fun hmem => hhyphen (List.mem_cons_of_mem _ hmem)) hrest
      exact ⟨after, rfl⟩
    · -- An expanded class would have to end before its hyphen or go on after the bracket.
      have heq' : (c :: lead) ++ ']' :: written = ranges ++ rest := heq
      obtain ⟨after, rfl, hafter⟩ | ⟨after, hafter, -⟩ := List.append_eq_append_iff.1 heq'
      · cases after with
        | nil => exact absurd (by simpa using hranges) hhyphen
        | cons d after =>
          obtain ⟨rfl, -⟩ := List.cons.inj hafter
          exact absurd (by decide) (hinert ']' (List.mem_append_right _ List.mem_cons_self))
      · exact absurd (hafter ▸ List.mem_append_left _ hranges) hhyphen

/-- No text that is read as a whole starts with an unchanged character in the written text only. -/
theorem startsWhole_of_written {c : Char} (hc : c ≠ '\\')
    (h : Rewritten expand depth opened text written) (hwhole : StartsWhole (c :: written)) :
    StartsWhole (c :: text) := by
  obtain ⟨token, rest, htoken, heq⟩ := hwhole
  have hclass := htoken
  cases htoken with
  | backReference hname => exact absurd (List.cons.inj heq).1 hc
  | namedGroup hname =>
    obtain ⟨hend, d, cs, rfl, hequals, hbang⟩ := hname
    obtain ⟨rfl, rfl⟩ : c = '(' ∧ written = '?' :: '<' :: d :: (cs ++ '>' :: rest) := by
      simpa [Token.lexeme] using heq
    -- The name may have been another one, but what stood there began and ended as a name does.
    obtain ⟨_, rfl, hmark⟩ := h.of_written_group (by decide)
    obtain ⟨name, rfl, hname⟩ := hmark.of_written_group (by decide)
    have hmem : '>' ∈ name := hname.mem_text (by simp)
    cases name with
    | nil => cases hmem
    | cons e name =>
      have he : e ∉ ['=', '!', '>'] := by
        intro hlead
        have hinert : ∀ e ∈ ['=', '!', '>'], e ∉ activeCharacters := by simp [activeCharacters]
        obtain ⟨after, hafter⟩ := hname.of_text_cons (hinert e hlead)
        obtain ⟨rfl, -⟩ := List.cons.inj hafter
        simp_all
      refine startsWhole_namedGroup he ((List.mem_cons.1 hmem).resolve_left ?_)
      rintro rfl
      exact he (by decide)
  | @posixClass name negated hne hlower =>
    obtain ⟨lead, hlexeme, hlead⟩ := hclass.lexeme_posixClass
    have hhyphen : '-' ∉ lead := fun hmem => hclass.hyphen_not_mem (by simp [hlexeme, hmem])
    obtain ⟨rfl, rfl⟩ : c = '[' ∧ written = lead ++ ']' :: rest := by
      simpa [hlexeme] using heq
    obtain ⟨after, rfl⟩ := h.of_written_class hlead hhyphen
    exact ⟨_, after, hclass, by simp [hlexeme]⟩

theorem startsWhole_escape_of_written {c : Char} (h : Rewritten expand depth opened text written)
    (hwhole : StartsWhole ('\\' :: c :: written)) : StartsWhole ('\\' :: c :: text) := by
  by_cases hc : c = 'k'
  · subst hc
    obtain ⟨token, rest, htoken, heq⟩ := hwhole
    cases htoken with
    | namedGroup hname => simp [Token.lexeme] at heq
    | posixClass negated hne hlower => simp [Token.lexeme] at heq
    | @backReference name hname =>
      obtain rfl : written = '<' :: (name ++ '>' :: rest) := by simpa [Token.lexeme] using heq
      obtain ⟨after, rfl, hname⟩ := h.of_written_group (by decide)
      exact startsWhole_backReference (hname.mem_text (by simp))
  · exact absurd hwhole (not_startsWhole_escape hc written)

end Rewritten

/-- Every text is written piece by piece. -/
theorem rewritten_writtenFrom (expand : Bool) (text : List Char) : ∀ (depth : Nat) (opened : Bool),
    Rewritten expand depth opened text (writtenFrom expand depth opened (scan text)) := by
  induction text using scan_induction with
  | nil =>
    intro depth opened
    rw [scan, writtenFrom]
    exact .nil
  | lone =>
    intro depth opened
    rw [writtenFrom_lone]
    exact .lone
  | whole token rest htoken ih =>
    intro depth opened
    rw [writtenFrom_whole expand depth opened htoken]
    obtain ⟨name, hname⟩ | ⟨negated, name, rfl⟩ := htoken.group_or_posixClass
    · rw [Token.written_of_name? hname]
      exact .group htoken hname (ih depth false)
    · by_cases hkept : (Token.posixClass negated name).written expand (depth != 0)
          (isAlone opened (scan rest)) = (Token.posixClass negated name).lexeme
      · rw [hkept]
        exact .keptClass htoken hkept (ih depth false)
      · obtain ⟨alone', hranges⟩ := (written_posixClass_eq negated expand (depth != 0)
          (isAlone opened (scan rest)) name).resolve_left hkept
        have hdepth : depth ≠ 0 := by
          rintro rfl
          exact hkept (by simp [Token.written])
        exact .expandedClass hdepth hranges (ih depth false)
  | escape c rest hwhole ih =>
    intro depth opened
    rw [writtenFrom_escape expand depth opened hwhole]
    have hrest := ih depth false
    exact .escape hwhole (fun h => hwhole (hrest.startsWhole_escape_of_written h)) hrest
  | single c rest hc hwhole ih =>
    intro depth opened
    have hrest := ih (depthAfter depth c) (c = '[')
    rw [writtenFrom_single expand depth opened hc hwhole, writtenCharacter]
    split
    · next hslash =>
      subst hslash
      exact .slash hrest
    · next hslash =>
      exact .single (by simp [hc, hslash]) hwhole
        (fun h => hwhole (hrest.startsWhole_of_written hc h)) hrest

/-! ## Scanning what is written -/

theorem head?_scan_iff (text : List Char) :
    (scan text).head? = some .closeBracket ↔ text.head? = some ']' := by
  cases text with
  | nil => simp [scan]
  | cons c cs =>
    rw [scan, List.head?_cons, List.head?_cons, Option.some.injEq, Option.some.injEq]
    constructor
    · intro h
      have hlexeme := step_lexeme c cs
      rw [h] at hlexeme
      exact (List.cons.inj hlexeme).1.symm
    · rintro rfl
      rfl

theorem isGroupName_groupName (name : List Char) : IsGroupName (groupName name) := by
  have hcharacters := isNameCharacter_groupName name
  obtain ⟨c, cs, hcons, -⟩ := groupName_eq_cons name
  have hc := hcharacters c (hcons ▸ List.mem_cons_self)
  refine ⟨fun hmem => absurd (hcharacters _ hmem) (by decide), c, cs, hcons, ?_, ?_⟩
  · rintro rfl
    exact absurd hc (by decide)
  · rintro rfl
    exact absurd hc (by decide)

/-- A token that names a group is one with the new name, too. -/
theorem Token.IsWhole.withName {token : Token} {name : List Char} (h : token.IsWhole)
    (hname : token.name? = some name) :
    (token.withName (groupName name)).IsWhole ∧
      (token.withName (groupName name)).name? = some (groupName name) := by
  have hgroupName := isGroupName_groupName name
  cases h with
  | namedGroup h => exact ⟨.namedGroup hgroupName, rfl⟩
  | backReference h => exact ⟨.backReference hgroupName.unended, rfl⟩
  | posixClass negated hne hlower => simp [name?] at hname

theorem Token.withName_withName (token : Token) (name newName : List Char) :
    (token.withName name).withName newName = token.withName newName := by
  cases token <;> rfl

/-- Inside brackets, text of characters that start nothing has no anchor. -/
theorem hasAnchor_append {depth : Nat} (hdepth : depth ≠ 0) {lead : List Char}
    (hlead : ∀ c ∈ lead, c ∉ activeCharacters) (rest : List Char) :
    hasAnchor depth (scan (lead ++ rest)) = hasAnchor depth (scan rest) := by
  induction lead with
  | nil => rfl
  | cons c lead ih =>
    obtain ⟨hc, hlead⟩ := List.forall_mem_cons.1 hlead
    obtain ⟨hbackslash, -, -, hsame, hwhole⟩ := inert_of_not_active hc depth
    rw [← ih hlead, Bool.eq_iff_iff, List.cons_append, hasAnchor_single depth hbackslash (hwhole _),
      hsame, or_iff_right fun h => hdepth h.1]

namespace Rewritten

variable {expand : Bool} {depth : Nat} {opened : Bool} {text written : List Char}

/-- Whether a class in front is alone in its brackets is not changed. -/
theorem isAlone_eq (h : Rewritten expand depth opened text written) (bracketed : Bool) :
    isAlone bracketed (scan written) = isAlone bracketed (scan text) := by
  have hhead := h.head?_eq_closeBracket_iff
  rw [← head?_scan_iff, ← head?_scan_iff] at hhead
  rw [isAlone, isAlone, Bool.eq_iff_iff]
  simp [hhead]

/-- What is written is not changed a second time. -/
theorem writtenFrom_eq (h : Rewritten expand depth opened text written) :
    Regex.writtenFrom expand depth opened (scan written) = written := by
  induction h with
  | nil => rw [scan, Regex.writtenFrom]
  | lone => rw [writtenFrom_lone]
  | group htoken hname h ih =>
    obtain ⟨hwhole, hnewName⟩ := htoken.withName hname
    rw [writtenFrom_whole _ _ _ hwhole, ih, Token.written_of_name? hnewName,
      Token.withName_withName, groupName_groupName]
  | keptClass hclass hkept h ih =>
    rw [writtenFrom_whole _ _ _ hclass, ih, h.isAlone_eq, hkept]
  | @expandedClass depth opened _ _ _ ranges _ written hdepth hranges h ih =>
    obtain rfl | ⟨hinert, hhyphen, -⟩ := inert_of_expandClass? hranges
    · exact (writtenFrom_escape _ _ _ (not_startsWhole_escape (by decide) _)).trans
        (congrArg (['\\', 'D'] ++ ·) ih)
    · have hopened : (opened && ranges.isEmpty) = false := by
        rw [List.isEmpty_eq_false_iff.2 (List.ne_nil_of_mem hhyphen), Bool.and_false]
      rw [(writtenFrom_append _ _ _ hinert _).1, hopened, ih]
  | escape hwhole hwritten h ih => rw [writtenFrom_escape _ _ _ hwritten, ih]
  | slash h ih =>
    rw [writtenFrom_escape _ _ _ (not_startsWhole_escape (by decide) _), ih]
  | single hc hwhole hwritten h ih =>
    simp only [List.mem_cons, List.not_mem_nil, or_false, not_or] at hc
    rw [writtenFrom_single _ _ _ hc.1 hwritten, ih, writtenCharacter, if_neg hc.2]
    rfl

/-- What is written meets the same anchors. -/
theorem hasAnchor_eq (h : Rewritten expand depth opened text written) :
    Regex.hasAnchor depth (scan written) = Regex.hasAnchor depth (scan text) := by
  induction h with
  | nil => rfl
  | lone => rfl
  | group htoken hname h ih =>
    rw [hasAnchor_whole _ (htoken.withName hname).1, hasAnchor_whole _ htoken, ih]
  | keptClass hclass hkept h ih => rw [hasAnchor_whole _ hclass, hasAnchor_whole _ hclass, ih]
  | expandedClass hdepth hranges h ih =>
    rw [hasAnchor_whole _ (isWhole_of_expandClass? hranges), ← ih]
    obtain rfl | ⟨hinert, -⟩ := inert_of_expandClass? hranges
    · exact hasAnchor_escape _ (not_startsWhole_escape (by decide) _)
    · exact hasAnchor_append hdepth hinert _
  | escape hwhole hwritten h ih => rw [hasAnchor_escape _ hwritten, hasAnchor_escape _ hwhole, ih]
  | slash h ih =>
    rw [hasAnchor_escape _ (not_startsWhole_escape (by decide) _), ih, Bool.eq_iff_iff,
      hasAnchor_single _ (by decide) (not_startsWhole_slash _)]
    simp [depthAfter]
  | single hc hwhole hwritten h ih =>
    simp only [List.mem_cons, List.not_mem_nil, or_false, not_or] at hc
    rw [Bool.eq_iff_iff, hasAnchor_single _ hc.1 hwritten, hasAnchor_single _ hc.1 hwhole, ih]

end Rewritten

end PatternTable.Regex
