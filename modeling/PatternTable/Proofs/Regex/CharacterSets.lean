import PatternTable.Proofs.Regex.Brackets

/-!
# Character sets of flat bracket expressions

A bracket expression without others in it is made of single characters, ranges and POSIX classes. A
literal writes the classes as ranges, so that JavaScript reads it as a character class of characters
and ranges only: from left to right, two characters with a hyphen between them are a range.

**Where this fails.** A hyphen between a single character and a POSIX class stands for itself, but
nothing tells it from others once the class is expanded. It then makes a range of the character
before it and the first character of the class.

Results:
* `writtenFrom_items`: the items of a bracket expression are written one by one.
* `ranges?_items`: they are read as their ranges exactly if no such hyphen is among them.
* `reads_iff`: the same of the source of a literal, which then stands for the characters of the
  bracket expression.
* `digits_lost`: a bracket expression whose literal misses most of its characters.
-/

namespace PatternTable.Regex

/-! ## Bracket expressions -/

/-- Whether a character is in a range. -/
def isBetween (low high c : Char) : Bool :=
  low.toNat ≤ c.toNat && c.toNat ≤ high.toNat

/-- The POSIX classes that have ASCII ranges. -/
inductive PosixClass where
  | alpha
  | alnum
  | upper
  | lower
  | digit
  deriving DecidableEq, Repr

namespace PosixClass

def name : PosixClass → List Char
  | alpha => "alpha".toList
  | alnum => "alnum".toList
  | upper => "upper".toList
  | lower => "lower".toList
  | digit => "digit".toList

/-- Whether an ASCII character is in the class. -/
def contains (c : Char) : PosixClass → Bool
  | alpha => c.isAlpha
  | alnum => c.isAlphanum
  | upper => c.isUpper
  | lower => c.isLower
  | digit => c.isDigit

/-- The class as ranges. -/
def ranges : PosixClass → List (Char × Char)
  | alpha => [('a', 'z'), ('A', 'Z')]
  | alnum => [('a', 'z'), ('A', 'Z'), ('0', '9')]
  | upper => [('A', 'Z')]
  | lower => [('a', 'z')]
  | digit => [('0', '9')]

end PosixClass

/-- What stands between the brackets of a bracket expression. -/
inductive Item where
  | character (c : Char)
  | posix (cls : PosixClass)
  deriving DecidableEq, Repr

/-- The text of an item. -/
def Item.text : Item → List Char
  | character c => [c]
  | posix cls => (Token.posixClass false cls.name).lexeme

/-- What items stand for together. -/
inductive Part where
  | one (c : Char)
  | range (low high : Char)
  | posix (cls : PosixClass)
  deriving DecidableEq, Repr

/-- The parts that items make, from left to right. A hyphen between two characters makes a range of
    them. Every other hyphen is a character. -/
def parts : List Item → List Part
  | .character low :: .character '-' :: .character high :: items => .range low high :: parts items
  | .character c :: items => .one c :: parts items
  | .posix cls :: items => .posix cls :: parts items
  | [] => []

/-- Whether a character is in a part. -/
def Part.contains (c : Char) : Part → Bool
  | one d => c == d
  | range low high => isBetween low high c
  | posix cls => cls.contains c

/-- The part as ranges. -/
def Part.ranges : Part → List (Char × Char)
  | one c => [(c, c)]
  | range low high => [(low, high)]
  | posix cls => cls.ranges

/-- Whether a character is printable and stands for itself as an item. -/
def isItem (c : Char) : Bool :=
  isBetween ' ' '~' c && !(['[', ']', '\\', '^'].contains c)

/-- Whether an item is a POSIX class or a character that stands for itself. -/
def Item.isPrintable : Item → Bool
  | character c => isItem c
  | posix _ => true

/-- Whether a part does not end before it starts. -/
def Part.isOrdered : Part → Bool
  | range low high => low.toNat ≤ high.toNat
  | _ => true

/-- A bracket expression without others in it. -/
structure BracketExpression where
  negated : Bool
  items : List Item
  printable : ∀ item ∈ items, item.isPrintable
  ordered : ∀ part ∈ parts items, part.isOrdered

/-- A character class, by the ranges of the characters it names. -/
structure CharacterClass where
  negated : Bool
  ranges : List (Char × Char)
  deriving DecidableEq, Repr

/-- Whether a character is in a class. -/
def CharacterClass.contains (cls : CharacterClass) (c : Char) : Bool :=
  cls.ranges.any (fun range => isBetween range.1 range.2 c) != cls.negated

namespace BracketExpression

variable (bracket : BracketExpression)

def text : List Char :=
  '[' :: ((if bracket.negated then ['^'] else []) ++ bracket.items.flatMap Item.text ++ [']'])

/-- Whether the bracket expression matches a character. -/
def contains (c : Char) : Bool :=
  (parts bracket.items).any (Part.contains c) != bracket.negated

/-- The class of the characters that the bracket expression matches. -/
def characterClass : CharacterClass :=
  ⟨bracket.negated, (parts bracket.items).flatMap Part.ranges⟩

end BracketExpression

/-- Whether a hyphen stands between a single character and a POSIX class. -/
def Joins (parts : List Part) : Prop :=
  ∃ c cls, [.one c, .one '-', .posix cls] <:+: parts

/-! ## Character classes of JavaScript -/

/-- A character of a character class. Only a bare hyphen can make a range. -/
structure Atom where
  char : Char
  bare : Bool
  deriving DecidableEq, Repr

/-- The atoms of a text that is ended by the first bracket that is not escaped. An escaped character
    stands for itself if it is no letter and no digit; other escapes are not read. -/
def atoms? : List Char → Option (List Atom)
  | [']'] => some []
  | ']' :: _ => none
  | '\\' :: c :: cs => if c.isAlphanum then none else (atoms? cs).map (⟨c, false⟩ :: ·)
  | c :: cs => (atoms? cs).map (⟨c, true⟩ :: ·)
  | [] => none

/-- The ranges that atoms make, from left to right. A range must not end before it starts. -/
def ranges? : List Atom → Option (List (Char × Char))
  | low :: ⟨'-', true⟩ :: high :: atoms =>
    if low.char.toNat ≤ high.char.toNat then
      (ranges? atoms).map ((low.char, high.char) :: ·)
    else none
  | atom :: atoms => (ranges? atoms).map ((atom.char, atom.char) :: ·)
  | [] => some []

/-- The character class that a text is. -/
def read? : List Char → Option CharacterClass
  | '[' :: '^' :: cs => ((atoms? cs).bind ranges?).map (⟨true, ·⟩)
  | '[' :: cs => ((atoms? cs).bind ranges?).map (⟨false, ·⟩)
  | _ => none

/-! ## What is written for a bracket expression -/

section Written

variable (expand : Bool) (depth : Nat) (opened : Bool)

/-- Text of characters that are written as they are and start nothing is read character by
    character. -/
theorem writtenFrom_append {lead : List Char}
    (hlead : ∀ c ∈ lead, c ∉ activeCharacters) (rest : List Char) :
    writtenFrom expand depth opened (scan (lead ++ rest)) =
        lead ++ writtenFrom expand depth (opened && lead.isEmpty) (scan rest) ∧
      keepBrackets depth (scan (lead ++ rest)) = keepBrackets depth (scan rest) := by
  induction lead generalizing opened with
  | nil => simp
  | cons c lead ih =>
    obtain ⟨hc, hlead⟩ := List.forall_mem_cons.1 hlead
    obtain ⟨hbackslash, hopen, hsame, hdepth, hwhole⟩ := inert_of_not_active hc depth
    obtain ⟨hwritten, hkeep⟩ := ih (c = '[') hlead
    rw [List.cons_append, writtenFrom_single expand depth opened hbackslash (hwhole _),
      keepBrackets_single depth hbackslash (hwhole _), hdepth, hsame, hwritten]
    exact ⟨by simp [hopen], hkeep⟩

/-- The bracket that opens a bracket expression is written, also where it starts what looks like a
    POSIX class outside brackets. -/
theorem writtenFrom_openBracket (cs : List Char) :
    writtenFrom expand 0 opened (scan ('[' :: cs)) =
        '[' :: writtenFrom expand 1 true (scan cs) ∧
      keepBrackets 0 (scan ('[' :: cs)) = keepBrackets 1 (scan cs) := by
  by_cases hwhole : StartsWhole ('[' :: cs)
  · obtain ⟨token, rest, htoken, htext⟩ := hwhole
    have hclass := htoken
    cases htoken with
    | namedGroup h => simp [Token.lexeme] at htext
    | backReference h => simp [Token.lexeme] at htext
    | @posixClass name negated hne hlower =>
      obtain ⟨lead, hlexeme, hlead⟩ := hclass.lexeme_posixClass
      obtain ⟨hwritten, hkeep⟩ := writtenFrom_append expand 1 true hlead (']' :: rest)
      have hclose := not_startsWhole_closeBracket rest
      have hcs : cs = lead ++ ']' :: rest := by simpa [hlexeme] using htext
      rw [htext, writtenFrom_whole expand 0 opened hclass, keepBrackets_whole 0 hclass, hcs,
        hwritten, hkeep, writtenFrom_single expand 1 _ (by decide) hclose,
        keepBrackets_single 1 (by decide) hclose]
      refine ⟨?_, rfl⟩
      simp [Token.written, hlexeme, writtenCharacter, depthAfter]
  · rw [writtenFrom_single expand 0 opened (by decide) hwhole,
      keepBrackets_single 0 (by decide) hwhole]
    exact ⟨rfl, rfl⟩

/-- A character between brackets is written on its own if the name of the group that it may start is
    kept. -/
theorem writtenFrom_inside {c : Char} {cs : List Char} (hdepth : depth ≠ 0)
    (hc : c ∉ ['[', ']', '\\']) (hkeep : keepBrackets depth (scan (c :: cs))) :
    writtenFrom expand depth opened (scan (c :: cs)) =
        writtenCharacter c ++ writtenFrom expand depth false (scan cs) ∧
      keepBrackets depth (scan cs) := by
  by_cases hwhole : StartsWhole (c :: cs)
  · obtain ⟨token, rest, htoken, htext⟩ := hwhole
    rw [htext, keepBrackets_whole _ htoken, Bool.and_eq_true] at hkeep
    rw [htext, writtenFrom_whole _ _ _ htoken]
    cases htoken with
    | @namedGroup name h =>
      have hname : groupName name = name := by
        simpa [Token.keepsBrackets, Token.name?, hdepth] using hkeep.1
      obtain ⟨rfl, rfl⟩ : c = '(' ∧ cs = ('?' :: '<' :: (name ++ ['>'])) ++ rest := by
        simpa [Token.lexeme] using htext
      have hlead : ∀ d ∈ '?' :: '<' :: (name ++ ['>']), d ∉ activeCharacters := by
        simp only [List.forall_mem_cons, List.forall_mem_append]
        exact ⟨by decide, by decide, not_active_of_groupName hname, by decide, by simp⟩
      obtain ⟨hwritten, hrest⟩ := writtenFrom_append expand depth false hlead rest
      rw [hwritten, hrest]
      exact ⟨by simp [Token.written, hname, writtenCharacter], hkeep.2⟩
    | backReference h => simp_all [Token.lexeme]
    | posixClass negated hne hlower => simp_all [Token.lexeme]
  · have hbackslash : c ≠ '\\' := by rintro rfl; simp at hc
    rw [keepBrackets_single _ hbackslash hwhole] at hkeep
    rw [writtenFrom_single _ _ _ hbackslash hwhole]
    simp_all [depthAfter]

end Written

/-- The characters that JavaScript reads for an item. -/
def Item.spelling : Item → List Char
  | character c => [c]
  | posix cls => cls.ranges.flatMap fun range => [range.1, '-', range.2]

theorem PosixClass.isWhole (cls : PosixClass) : (Token.posixClass false cls.name).IsWhole := by
  cases cls <;> exact .posixClass false (by decide) (List.all_eq_true.1 (by decide))

theorem PosixClass.expandClass?_name (cls : PosixClass) (alone : Bool) :
    expandClass? false alone cls.name = some (Item.posix cls).spelling := by
  cases cls <;> rfl

theorem PosixClass.isItem_spelling (cls : PosixClass) :
    ∀ c ∈ (Item.posix cls).spelling, isItem c := by
  cases cls <;> exact List.all_eq_true.1 (by decide)

theorem not_mem_of_isItem {c : Char} (h : isItem c) : c ∉ ['[', ']', '\\', '^'] := by
  simp only [isItem, Bool.and_eq_true, Bool.not_eq_true', List.contains_eq_mem,
    decide_eq_false_iff_not] at h
  exact h.2

theorem isItem_spelling {items : List Item} (h : ∀ item ∈ items, item.isPrintable) :
    ∀ c ∈ items.flatMap Item.spelling, isItem c := by
  intro c hc
  obtain ⟨item, hitem, hc⟩ := List.mem_flatMap.1 hc
  cases item with
  | character d =>
    obtain rfl := List.mem_singleton.1 hc
    exact h _ hitem
  | posix cls => exact cls.isItem_spelling c hc

/-- The items of a bracket expression are written one by one. -/
theorem writtenFrom_items {items : List Item} (hitems : ∀ item ∈ items, item.isPrintable)
    (hkeep : keepBrackets 1 (scan (items.flatMap Item.text ++ [']']))) (opened : Bool) :
    writtenFrom true 1 opened (scan (items.flatMap Item.text ++ [']'])) =
      (items.flatMap Item.spelling).flatMap writtenCharacter ++ [']'] := by
  induction items generalizing opened with
  | nil =>
    rw [List.flatMap_nil, List.nil_append,
      writtenFrom_single true 1 opened (by decide) (not_startsWhole_closeBracket [])]
    simp [scan, writtenFrom, writtenCharacter]
  | cons item items ih =>
    obtain ⟨hitem, hrest⟩ := List.forall_mem_cons.1 hitems
    rw [List.flatMap_cons, List.append_assoc] at hkeep ⊢
    rw [List.flatMap_cons, List.flatMap_append, List.append_assoc]
    cases item with
    | character c =>
      have hc := not_mem_of_isItem hitem
      rw [Item.text, List.singleton_append] at hkeep ⊢
      obtain ⟨hwritten, hkeep⟩ := writtenFrom_inside true 1 opened (by decide)
        (fun hmem => hc (List.mem_append_left ['^'] hmem)) hkeep
      rw [hwritten, ih hrest hkeep]
      simp [Item.spelling]
    | posix cls =>
      have hspelled : (Item.posix cls).spelling.flatMap writtenCharacter =
          (Item.posix cls).spelling := by
        cases cls <;> rfl
      rw [Item.text, keepBrackets_whole 1 cls.isWhole, Bool.and_eq_true] at hkeep
      rw [Item.text, writtenFrom_whole true 1 opened cls.isWhole, ih hrest hkeep.2, hspelled]
      simp [Token.written, Token.expansion?, cls.expandClass?_name]

/-- The source of a literal has the brackets and the items of the bracket expression. -/
theorem source_eq (bracket : BracketExpression) (captures : Bool)
    (hkeep : keepBrackets 0 (scan bracket.text)) :
    (Literal.ofPattern true captures (String.ofList bracket.text)).source.toList =
      '[' :: ((if bracket.negated then ['^'] else []) ++
        ((bracket.items.flatMap Item.spelling).flatMap writtenCharacter ++ [']'])) := by
  have hsource : (Literal.ofPattern true captures (String.ofList bracket.text)).source.toList =
      sourceOf true (takeCaseless (scan bracket.text)).2 := by
    simp [Literal.ofPattern]
  have hbody : (Text.dropLeading? Token.caseless.lexeme bracket.text).getD bracket.text =
      bracket.text := by
    simp [Text.dropLeading?, Token.lexeme, BracketExpression.text]
  have hwritten : writtenFrom true 0 false (scan bracket.text) =
      '[' :: ((if bracket.negated then ['^'] else []) ++
        ((bracket.items.flatMap Item.spelling).flatMap writtenCharacter ++ [']'])) := by
    rw [BracketExpression.text, List.append_assoc] at hkeep ⊢
    obtain ⟨hopen, hkeepOpen⟩ := writtenFrom_openBracket true false
      ((if bracket.negated then ['^'] else []) ++ (bracket.items.flatMap Item.text ++ [']']))
    rw [hkeepOpen] at hkeep
    rw [hopen]
    congr 1
    generalize bracket.negated = negated at hkeep ⊢
    cases negated with
    | false => exact writtenFrom_items bracket.printable hkeep true
    | true =>
      obtain ⟨hcaret, hkeep⟩ :=
        writtenFrom_inside (c := '^') true 1 true (by decide) (by decide) hkeep
      exact hcaret.trans (congrArg (['^'] ++ ·) (writtenFrom_items bracket.printable hkeep false))
  rw [hsource, takeCaseless_scan, hbody, sourceOf, hwritten]

/-! ## What JavaScript reads -/

/-- The atom that is read for a character. A slash is escaped. -/
def atomOf (c : Char) : Atom :=
  ⟨c, c != '/'⟩

theorem atoms?_cons {c : Char} (hc : c ∉ [']', '\\']) (cs : List Char) :
    atoms? (c :: cs) = (atoms? cs).map (⟨c, true⟩ :: ·) := by
  rw [atoms?.eq_def]
  split <;> simp_all

theorem atoms?_written {text : List Char} (h : ∀ c ∈ text, isItem c) :
    atoms? (text.flatMap writtenCharacter ++ [']']) = some (text.map atomOf) := by
  induction text with
  | nil => rfl
  | cons c text ih =>
    rw [List.forall_mem_cons] at h
    rw [List.flatMap_cons, List.append_assoc]
    by_cases hslash : c = '/'
    · subst hslash
      simp [writtenCharacter, atoms?, ih h.2, atomOf]
    · have hc := not_mem_of_isItem h.1
      rw [writtenCharacter, if_neg hslash, List.singleton_append, atoms?_cons (by simp_all), ih h.2]
      simp [atomOf, hslash]

/-- Only a caret in front negates a class, and no item is a caret. -/
theorem read?_eq {text : List Char} (h : ∀ c ∈ text, isItem c) (negated : Bool) :
    read? ('[' :: ((if negated then ['^'] else []) ++ (text.flatMap writtenCharacter ++ [']']))) =
      (ranges? (text.map atomOf)).map (⟨negated, ·⟩) := by
  have hatoms := atoms?_written h
  cases negated with
  | true => simp [read?, hatoms]
  | false =>
    have hhead (cs : List Char) : text.flatMap writtenCharacter ++ [']'] ≠ '^' :: cs := by
      intro heq
      cases text with
      | nil => simp at heq
      | cons c text =>
        have hc := not_mem_of_isItem (h c List.mem_cons_self)
        by_cases hslash : c = '/' <;> simp_all [writtenCharacter]
    simp only [Bool.false_eq_true, if_false, List.nil_append]
    rw [read?.eq_def]
    split
    · next cs heq => exact absurd (List.cons.inj heq).2 (hhead cs)
    · next cs _ heq =>
      rw [← (List.cons.inj heq).2, hatoms]
      rfl
    · next hne => exact absurd rfl (hne _)

section Ranges

variable {c low high : Char} {cs : List Char}

theorem ranges?_range (h : low.toNat ≤ high.toNat) (cs : List Char) :
    ranges? ((low :: '-' :: high :: cs).map atomOf) =
      (ranges? (cs.map atomOf)).map ((low, high) :: ·) := by
  simp [ranges?, atomOf, h]

theorem ranges?_one (h : ∀ high rest, cs ≠ '-' :: high :: rest) :
    ranges? ((c :: cs).map atomOf) = (ranges? (cs.map atomOf)).map ((c, c) :: ·) := by
  match cs with
  | [] => rfl
  | [d] => simp [ranges?, atomOf]
  | d :: e :: cs =>
    have hd : d ≠ '-' := by
      rintro rfl
      exact h e cs rfl
    simp [ranges?, atomOf, hd]

theorem ranges?_append {ranges : List (Char × Char)}
    (h : ∀ range ∈ ranges, range.1.toNat ≤ range.2.toNat) (cs : List Char) :
    ranges? (((ranges.flatMap fun range => [range.1, '-', range.2]) ++ cs).map atomOf) =
      (ranges? (cs.map atomOf)).map (ranges ++ ·) := by
  induction ranges with
  | nil => simp
  | cons range ranges ih =>
    rw [List.forall_mem_cons] at h
    simp only [List.flatMap_cons, List.cons_append, List.nil_append]
    rw [ranges?_range h.1, ih h.2, Option.map_map]
    rfl

/-- The first range starts with the first character. -/
theorem fst_of_ranges? {range : Char × Char} {ranges : List (Char × Char)}
    (h : ranges? ((c :: cs).map atomOf) = some (range :: ranges)) : range.1 = c := by
  rw [List.map_cons, ranges?.eq_def] at h
  split at h
  · next low high atoms heq =>
    split at h
    · obtain ⟨_, -, hranges⟩ := Option.map_eq_some_iff.1 h
      rw [← (List.cons.inj hranges).1, ← (List.cons.inj heq).1]
      rfl
    · simp at h
  · next atom atoms _ heq =>
    obtain ⟨_, -, hranges⟩ := Option.map_eq_some_iff.1 h
    rw [← (List.cons.inj hranges).1, ← (List.cons.inj heq).1]
    rfl
  · next heq => simp at heq

end Ranges

/-! ## Hyphens in front of classes -/

theorem not_joins_nil : ¬ Joins [] := by
  simp [Joins]

theorem joins_cons {part : Part} {parts : List Part} :
    Joins (part :: parts) ↔
      (∃ c cls rest, part = .one c ∧ parts = .one '-' :: .posix cls :: rest) ∨ Joins parts := by
  have hprefix (c : Char) (cls : PosixClass) :
      [.one c, .one '-', .posix cls] <+: part :: parts ↔
        ∃ rest, part = .one c ∧ parts = .one '-' :: .posix cls :: rest := by
    rw [List.cons_prefix_cons, List.prefix_iff_exists_append_eq, ← exists_and_left]
    exact exists_congr fun rest => and_congr eq_comm eq_comm
  simp only [Joins, List.infix_cons_iff, exists_or, hprefix]

theorem parts_eq_one {items : List Item} {c : Char} {ps : List Part}
    (h : parts items = .one c :: ps) :
    ∃ rest, items = .character c :: rest ∧ ps = parts rest := by
  fun_cases parts items <;> simp_all [parts]

theorem parts_eq_posix {items : List Item} {cls : PosixClass} {ps : List Part}
    (h : parts items = .posix cls :: ps) : ∃ rest, items = .posix cls :: rest := by
  fun_cases parts items <;> simp_all [parts]

/-- An expanded class starts with a range between two different characters, and none of them is a
    hyphen. -/
theorem PosixClass.spelling_eq (cls : PosixClass) :
    ∃ low high spelling ranges, (Item.posix cls).spelling = low :: '-' :: high :: spelling ∧
      cls.ranges = (low, high) :: ranges ∧ low ≠ '-' ∧ high ≠ '-' ∧ low ≠ high := by
  cases cls <;> exact ⟨_, _, _, _, rfl, rfl, by decide, by decide, by decide⟩

/-- After a character that makes no range, a hyphen with something behind it stands between that
    character and a POSIX class. -/
theorem exists_posix_of_spelling {items : List Item} {high : Char} {cs : List Char}
    (hnext : ∀ high items', items = .character '-' :: .character high :: items' → False)
    (h : items.flatMap Item.spelling = '-' :: high :: cs) :
    ∃ cls rest, items = .character '-' :: .posix cls :: rest := by
  match items with
  | [] => simp at h
  | .posix cls :: items =>
    obtain ⟨low, _, _, _, hspelling, -, hlow, -⟩ := cls.spelling_eq
    rw [List.flatMap_cons, hspelling] at h
    exact absurd (List.cons.inj h).1 hlow
  | .character c :: items =>
    obtain ⟨rfl, hitems⟩ : c = '-' ∧ items.flatMap Item.spelling = high :: cs := by
      simpa [Item.spelling] using h
    match items with
    | [] => simp at hitems
    | .character d :: items => exact absurd rfl (hnext d items)
    | .posix cls :: items => exact ⟨cls, items, rfl⟩

/-- Where a hyphen stands between a character and a POSIX class, other ranges are read. -/
theorem ranges?_ne_of_join (c : Char) (cls : PosixClass) (cs : List Char)
    (ranges : List (Char × Char)) :
    ranges? ((c :: '-' :: ((Item.posix cls).spelling ++ cs)).map atomOf) ≠
      some ((c, c) :: ('-', '-') :: (cls.ranges ++ ranges)) := by
  obtain ⟨low, high, spelling, classRanges, hspelling, hranges, hlow, hhigh, hne⟩ := cls.spelling_eq
  rw [hspelling, hranges]
  intro h
  by_cases hle : c.toNat ≤ low.toNat
  · simp only [List.cons_append] at h
    rw [ranges?_range hle, ranges?_one (by simp [hhigh]), Option.map_map] at h
    obtain ⟨after, hafter, heq⟩ := Option.map_eq_some_iff.1 h
    obtain ⟨rfl, rfl⟩ : low = c ∧ after = (low, high) :: (classRanges ++ ranges) := by
      simpa using heq
    exact hne (fst_of_ranges? hafter)
  · simp [ranges?, atomOf, hle] at h

/-- The items are read as the ranges of the bracket expression exactly if no hyphen stands between a
    single character and a POSIX class. -/
theorem ranges?_items {items : List Item}
    (hordered : ∀ part ∈ parts items, part.isOrdered) :
    ranges? ((items.flatMap Item.spelling).map atomOf) = some ((parts items).flatMap Part.ranges) ↔
      ¬ Joins (parts items) := by
  fun_induction parts items with
  | case1 low high items ih =>
    have hrest := ih fun part h => hordered part (List.mem_cons_of_mem _ h)
    have hnone : ¬ ∃ c cls rest, Part.range low high = .one c ∧
        parts items = .one '-' :: .posix cls :: rest := by simp
    rw [joins_cons, or_iff_right hnone, ← hrest]
    simp only [List.flatMap_cons, Item.spelling, List.cons_append, List.nil_append]
    rw [ranges?_range (by simpa [Part.isOrdered] using hordered _ List.mem_cons_self)]
    simp [Part.ranges]
  | case2 c items hnext ih =>
    have hrest := ih fun part h => hordered part (List.mem_cons_of_mem _ h)
    by_cases hjoin : ∃ cls rest, items = .character '-' :: .posix cls :: rest
    · obtain ⟨cls, rest, rfl⟩ := hjoin
      have hparts : parts (.character '-' :: .posix cls :: rest) =
          .one '-' :: .posix cls :: parts rest := by simp [parts]
      have hread := ranges?_ne_of_join c cls (rest.flatMap Item.spelling)
        ((parts rest).flatMap Part.ranges)
      rw [joins_cons, hparts]
      refine iff_of_false ?_ (not_not_intro (.inl ⟨c, cls, _, rfl, rfl⟩))
      simpa [Item.spelling, Part.ranges] using hread
    · have hnone : ¬ ∃ d cls rest, Part.one c = .one d ∧
          parts items = .one '-' :: .posix cls :: rest := by
        rintro ⟨-, cls, rest, -, hparts⟩
        obtain ⟨after, rfl, hafter⟩ := parts_eq_one hparts
        obtain ⟨rest, rfl⟩ := parts_eq_posix hafter.symm
        exact hjoin ⟨cls, rest, rfl⟩
      rw [joins_cons, or_iff_right hnone, ← hrest]
      simp only [List.flatMap_cons, Item.spelling, List.cons_append, List.nil_append]
      rw [ranges?_one fun high rest h => hjoin (exists_posix_of_spelling hnext h)]
      simp [Part.ranges]
  | case3 cls items ih =>
    have hrest := ih fun part h => hordered part (List.mem_cons_of_mem _ h)
    have hnone : ¬ ∃ c cls' rest, Part.posix cls = .one c ∧
        parts items = .one '-' :: .posix cls' :: rest := by simp
    rw [joins_cons, or_iff_right hnone, ← hrest]
    have hranges : ∀ range ∈ cls.ranges, range.1.toNat ≤ range.2.toNat := by
      cases cls <;> decide
    rw [List.flatMap_cons, Item.spelling, ranges?_append hranges]
    simp [Part.ranges]
  | case4 => exact iff_of_true rfl not_joins_nil

/-! ## Characters that are matched -/

theorem isBetween_iff {low high c : Char} :
    isBetween low high c ↔ low.val ≤ c.val ∧ c.val ≤ high.val := by
  simp [isBetween, UInt32.le_iff_toNat_le]

theorem isBetween_self_iff {c d : Char} : isBetween d d c ↔ c = d := by
  simp only [isBetween, Bool.and_eq_true, decide_eq_true_eq]
  constructor
  · exact fun h => Char.toNat_inj.1 (Nat.le_antisymm h.2 h.1)
  · rintro rfl
    exact ⟨Nat.le_refl _, Nat.le_refl _⟩

theorem PosixClass.contains_eq (cls : PosixClass) (c : Char) :
    cls.contains c = cls.ranges.any fun range => isBetween range.1 range.2 c := by
  have hupper : c.isUpper = isBetween 'A' 'Z' c := by
    rw [Bool.eq_iff_iff, isBetween_iff]
    exact decide_eq_true_iff
  have hlower : c.isLower = isBetween 'a' 'z' c := by
    rw [Bool.eq_iff_iff, isBetween_iff]
    exact Bool.and_eq_true_iff.trans (and_congr decide_eq_true_iff decide_eq_true_iff)
  have hdigit : c.isDigit = isBetween '0' '9' c := by
    rw [Bool.eq_iff_iff, isBetween_iff]
    exact Bool.and_eq_true_iff.trans (and_congr decide_eq_true_iff decide_eq_true_iff)
  have halpha : c.isAlpha = (c.isUpper || c.isLower) := rfl
  have halphanum : c.isAlphanum = (c.isAlpha || c.isDigit) := rfl
  cases cls <;>
    simp [contains, ranges, halphanum, halpha, hupper, hlower, hdigit, Bool.or_comm, Bool.or_assoc]

theorem Part.contains_eq (part : Part) (c : Char) :
    part.contains c = part.ranges.any fun range => isBetween range.1 range.2 c := by
  cases part with
  | one d =>
    rw [Bool.eq_iff_iff]
    simp [contains, ranges, isBetween_self_iff]
  | range low high => simp [contains, ranges]
  | posix cls => exact cls.contains_eq c

theorem BracketExpression.contains_characterClass (bracket : BracketExpression) (c : Char) :
    bracket.characterClass.contains c = bracket.contains c := by
  have hparts : Part.contains c = fun part => part.ranges.any fun range =>
      isBetween range.1 range.2 c := funext fun part => part.contains_eq c
  rw [CharacterClass.contains, characterClass, contains, List.any_flatMap, hparts]

/-- The source of a literal is read as the class of the bracket expression exactly if no hyphen
    stands between a single character and a POSIX class, given that no name of a group in it is
    changed. It then matches the same ASCII characters. -/
theorem reads_iff (bracket : BracketExpression) (captures : Bool)
    (hkeep : keepBrackets 0 (scan bracket.text)) :
    let source := (Literal.ofPattern true captures (String.ofList bracket.text)).source.toList
    (read? source = some bracket.characterClass ↔ ¬ Joins (parts bracket.items)) ∧
      (¬ Joins (parts bracket.items) → ∃ cls, read? source = some cls ∧
        ∀ c, c.toNat < 128 → cls.contains c = bracket.contains c) := by
  have hread : read? (Literal.ofPattern true captures (String.ofList bracket.text)).source.toList =
        some bracket.characterClass ↔ ¬ Joins (parts bracket.items) := by
    rw [source_eq bracket captures hkeep, read?_eq (isItem_spelling bracket.printable),
      ← ranges?_items bracket.ordered]
    simp [BracketExpression.characterClass]
  exact ⟨hread, fun h => ⟨_, hread.2 h, fun c _ => bracket.contains_characterClass c⟩⟩

/-- The bracket expression `[^a-f/[:alpha:]-_[:digit:]-]`. -/
def mixedExpression : BracketExpression where
  negated := true
  items := [.character 'a', .character '-', .character 'f', .character '/', .posix .alpha,
    .character '-', .character '_', .posix .digit, .character '-']
  printable := by decide
  ordered := by decide

theorem reads_mixedExpression :
    keepBrackets 0 (scan mixedExpression.text) ∧
      ∃ cls, read? (Literal.ofPattern true true
          (String.ofList mixedExpression.text)).source.toList = some cls ∧
        ∀ c, c.toNat < 128 → cls.contains c = mixedExpression.contains c := by
  have hkeep : keepBrackets 0 (scan mixedExpression.text) := by decide +kernel
  have hjoins : ¬ Joins (parts mixedExpression.items) := by
    simp [mixedExpression, parts, joins_cons, not_joins_nil]
  exact ⟨hkeep, (reads_iff mixedExpression true hkeep).2 hjoins⟩

/-- The bracket expression `[+-[:digit:]]`. -/
def signOrDigit : BracketExpression where
  negated := false
  items := [.character '+', .character '-', .posix .digit]
  printable := by decide
  ordered := by decide

/-- The hyphen of `[+-[:digit:]]` makes a range that ends with the first digit. The literal matches
    no other digit but the last. -/
theorem digits_lost :
    String.ofList signOrDigit.text = "[+-[:digit:]]" ∧ signOrDigit.contains '5' ∧
      (Literal.ofPattern true false "[+-[:digit:]]").source = "[+-0-9]" ∧
      ∃ cls, read? "[+-0-9]".toList = some cls ∧ ¬ cls.contains '5' :=
  ⟨by decide, by decide, by decide +kernel, _, rfl, by decide⟩

end PatternTable.Regex
