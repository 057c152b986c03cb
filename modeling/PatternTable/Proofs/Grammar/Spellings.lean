import PatternTable.Grammar.Reader
import PatternTable.Proofs.Json.Existence

/-!
# Spellings of grammars

A grammar is spelled as an object, and so are its rules and maps of rules. The fields of an object
stand in any order under their names, white space may stand anywhere between tokens, and members
that no grammar has may hold anything. Whichever spelling is chosen, the grammar is read as it is.

* `SpellsRule`, `SpellsRules`, `SpellsRuleMap`: a text spells a rule, a list or a map of rules, with
  arrays and objects nested to a limited depth.
* `Spells`: a text spells a grammar.
* `Fits`: a grammar is nested at most that deep, and no map of it has a key twice.

Results:
* `spellings_read`: exactly the grammars that fit have spellings, and each spelling is read.
-/

namespace PatternTable.Grammar

open Json

/-! ## Specification -/

/-- The fields of a rule and what may be written for them. -/
def ruleSpellings (rules : List Rule → List Char → Prop) (captures : Captures → List Char → Prop)
    (rule : Rule) : List FieldSpelling :=
  [("include", IsOptional IsText rule.reference),
    ("name", IsOptional IsText rule.name),
    ("contentName", IsOptional IsText rule.contentName),
    ("comment", IsOptional IsText rule.comment),
    ("match", IsOptional IsText rule.single),
    ("begin", IsOptional IsText rule.opening),
    ("end", IsOptional IsText rule.closing),
    ("captures", IsOptional captures rule.captures),
    ("beginCaptures", IsOptional captures rule.openingCaptures),
    ("endCaptures", IsOptional captures rule.closingCaptures),
    ("patterns", IsOptional rules rule.patterns)]

mutual

/-- A text spells a rule, with arrays and objects nested at most `depth` deep, the rule's own
    included. -/
def SpellsRule : (depth : Nat) → Rule → List Char → Prop
  | 0, _, _ => False
  | depth + 1, rule, cs =>
    IsRecord (ruleSpellings (SpellsRules depth) (SpellsRuleMap depth) rule) cs

/-- A text spells a list of rules, nested at most `depth` deep. -/
def SpellsRules : (depth : Nat) → List Rule → List Char → Prop
  | 0, _, _ => False
  | depth + 1, rules, cs => IsArray (SpellsRule depth) rules cs

/-- A text spells a map of rules, nested at most `depth` deep. -/
def SpellsRuleMap : (depth : Nat) → List (String × Rule) → List Char → Prop
  | 0, _, _ => False
  | depth + 1, rules, cs => IsMap (SpellsRule depth) rules cs

end

/-- The fields of a grammar and what may be written for them. -/
def spellings (rules : List Rule → List Char → Prop)
    (ruleMap : List (String × Rule) → List Char → Prop) (grammar : Grammar) : List FieldSpelling :=
  [("scopeName", IsOptional IsText grammar.scopeName),
    ("name", IsOptional IsText grammar.name),
    ("patterns", IsOptional rules grammar.patterns),
    ("repository", IsOptional ruleMap grammar.repository)]

/-- A text spells a grammar, with arrays and objects nested at most 127 deep. Members that no
    grammar has do not count. -/
def Spells (grammar : Grammar) (text : String) : Prop :=
  ∃ cs, IsRecord (spellings (SpellsRules 126) (SpellsRuleMap 126) grammar) cs ∧
    Padded cs text.toList

mutual

/-- A rule nests at most `depth` deep, and no map in it has a key twice. -/
def FitsRule : (depth : Nat) → Rule → Prop
  | 0, _ => False
  | depth + 1, rule =>
    (∀ captures ∈ rule.captures, FitsRuleMap depth captures) ∧
    (∀ captures ∈ rule.openingCaptures, FitsRuleMap depth captures) ∧
    (∀ captures ∈ rule.closingCaptures, FitsRuleMap depth captures) ∧
    ∀ rules ∈ rule.patterns, FitsRules depth rules

/-- A list of rules nests at most `depth` deep, and no map in it has a key twice. -/
def FitsRules : (depth : Nat) → List Rule → Prop
  | 0, _ => False
  | depth + 1, rules => ∀ rule ∈ rules, FitsRule depth rule

/-- A map of rules nests at most `depth` deep, and neither it nor a map in it has a key twice. -/
def FitsRuleMap : (depth : Nat) → List (String × Rule) → Prop
  | 0, _ => False
  | depth + 1, entries =>
    (entries.map Prod.fst).Nodup ∧ ∀ entry ∈ entries, FitsRule depth entry.2

end

/-- A grammar nests at most 127 deep, and no map in it has a key twice. -/
def Fits (grammar : Grammar) : Prop :=
  (∀ rules ∈ grammar.patterns, FitsRules 126 rules) ∧
    ∀ entries ∈ grammar.repository, FitsRuleMap 126 entries

/-! ## Which grammars have a spelling -/

theorem exists_isText (text : String) : ∃ cs, IsText text cs :=
  ⟨_, rfl⟩

theorem exists_isRecord_ruleSpellings_iff {rules : List Rule → List Char → Prop}
    {captures : Captures → List Char → Prop} {rule : Rule} :
    (∃ cs, IsRecord (ruleSpellings rules captures rule) cs) ↔
      (∀ entries ∈ rule.captures, ∃ cs, captures entries cs) ∧
      (∀ entries ∈ rule.openingCaptures, ∃ cs, captures entries cs) ∧
      (∀ entries ∈ rule.closingCaptures, ∃ cs, captures entries cs) ∧
      ∀ list ∈ rule.patterns, ∃ cs, rules list cs := by
  rw [exists_isRecord_iff (by simp [ruleSpellings])]
  simp only [ruleSpellings, List.forall_mem_cons, exists_isOptional_iff, exists_isText,
    List.not_mem_nil, false_imp_iff, implies_true, true_and, and_true]

/-- What fits a depth is what has a spelling of that depth. -/
theorem exists_spells_iff_fits (depth : Nat) :
    (∀ rule, (∃ cs, SpellsRule depth rule cs) ↔ FitsRule depth rule) ∧
    (∀ rules, (∃ cs, SpellsRules depth rules cs) ↔ FitsRules depth rules) ∧
    (∀ entries, (∃ cs, SpellsRuleMap depth entries cs) ↔ FitsRuleMap depth entries) := by
  induction depth with
  | zero => simp [SpellsRule, SpellsRules, SpellsRuleMap, FitsRule, FitsRules, FitsRuleMap]
  | succ depth ih =>
    obtain ⟨hrule, hrules, hruleMap⟩ := ih
    refine ⟨fun rule => ?_, fun rules => ?_, fun entries => ?_⟩
    · simp only [SpellsRule, FitsRule, exists_isRecord_ruleSpellings_iff, hrules, hruleMap]
    · simp only [SpellsRules, FitsRules, exists_isArray_iff, hrule]
    · simp only [SpellsRuleMap, FitsRuleMap, exists_isMap_iff, hrule]

/-- Exactly the grammars that fit have a spelling. -/
theorem exists_spells_iff {grammar : Grammar} : (∃ text, grammar.Spells text) ↔ grammar.Fits := by
  obtain ⟨-, hrules, hruleMap⟩ := exists_spells_iff_fits 126
  have hfits : (∃ cs, IsRecord (spellings (SpellsRules 126) (SpellsRuleMap 126) grammar) cs) ↔
      grammar.Fits := by
    rw [exists_isRecord_iff (by simp [spellings])]
    simp only [spellings, List.forall_mem_cons, exists_isOptional_iff, exists_isText,
      List.not_mem_nil, false_imp_iff, implies_true, true_and, and_true, hrules, hruleMap, Fits]
  rw [← hfits]
  constructor
  · rintro ⟨_, cs, hcs, -⟩
    exact ⟨cs, hcs⟩
  · rintro ⟨cs, hcs⟩
    exact ⟨String.ofList cs, cs, hcs, [], [], isBlank_nil, isBlank_nil, by simp⟩

/-! ## Fields -/

/-- A field with an optional value is read from what may be written for it. -/
theorem readsField_ofOptional {ρ α : Type} {part : List String → ρ} {limit : Nat} {name : String}
    {read : Reader α} {set : ρ → Option α → ρ} {spells : α → List Char → Prop} {value : Option α}
    (hread : ∀ inner text, spells inner text → text.length < limit → Accepts read text inner)
    (hset : ∀ seen, set (part seen) value = part (name :: seen)) :
    ReadsField part limit (.ofOptional name read set) (name, IsOptional spells value) where
  name_eq := rfl
  takes := by
    intro seen text htext hlimit blank hblank rest hrest
    have htakes := takes_optional htext (fun inner hinner => hread inner text hinner hlimit) hblank
    have hvalue := htakes rest hrest
    simp only [Field.ofOptional, hvalue, ← hset]
    rfl

theorem accepts_text_of_length {limit : Nat} (text : String) (cs : List Char)
    (h : IsText text cs) (_ : cs.length < limit) : Accepts Json.text cs text :=
  accepts_text h

/-- The value of a field whose name is in a list. -/
def kept {α : Type} (names : List String) (name : String) (value : Option α) : Option α :=
  if name ∈ names then value else none

theorem kept_eq_self {α : Type} {names : List String} {name : String} {value : Option α}
    (h : name ∉ names → value = none) : kept names name value = value := by
  unfold kept
  split_ifs with hmem
  · rfl
  · exact (h hmem).symm

/-- A rule with those fields only whose names are in a list. -/
def onlyRuleFields (rule : Rule) (names : List String) : Rule where
  reference := kept names "include" rule.reference
  name := kept names "name" rule.name
  contentName := kept names "contentName" rule.contentName
  comment := kept names "comment" rule.comment
  single := kept names "match" rule.single
  opening := kept names "begin" rule.opening
  closing := kept names "end" rule.closing
  captures := kept names "captures" rule.captures
  openingCaptures := kept names "beginCaptures" rule.openingCaptures
  closingCaptures := kept names "endCaptures" rule.closingCaptures
  patterns := kept names "patterns" rule.patterns

theorem readsField_rule {rule : Rule} {limit : Nat} {rules : List Rule → List Char → Prop}
    {captures : Captures → List Char → Prop} {readRules : Reader (List Rule)}
    {readCaptures : Reader Captures}
    (hrules : ∀ value text, rules value text → text.length < limit → Accepts readRules text value)
    (hcaptures : ∀ value text, captures value text → text.length < limit →
      Accepts readCaptures text value) :
    List.Forall₂ (ReadsField (onlyRuleFields rule) limit) (ruleFields readRules readCaptures)
      (ruleSpellings rules captures rule) := by
  refine .cons (readsField_ofOptional accepts_text_of_length fun seen => ?_) <|
    .cons (readsField_ofOptional accepts_text_of_length fun seen => ?_) <|
    .cons (readsField_ofOptional accepts_text_of_length fun seen => ?_) <|
    .cons (readsField_ofOptional accepts_text_of_length fun seen => ?_) <|
    .cons (readsField_ofOptional accepts_text_of_length fun seen => ?_) <|
    .cons (readsField_ofOptional accepts_text_of_length fun seen => ?_) <|
    .cons (readsField_ofOptional accepts_text_of_length fun seen => ?_) <|
    .cons (readsField_ofOptional hcaptures fun seen => ?_) <|
    .cons (readsField_ofOptional hcaptures fun seen => ?_) <|
    .cons (readsField_ofOptional hcaptures fun seen => ?_) <|
    .cons (readsField_ofOptional hrules fun seen => ?_) .nil
  all_goals simp [onlyRuleFields, kept]

theorem onlyRuleFields_eq_self {rule : Rule} {rules : List Rule → List Char → Prop}
    {captures : Captures → List Char → Prop} {names : List String}
    (h : ∀ spelling ∈ ruleSpellings rules captures rule, spelling.1 ∉ names → spelling.2 none) :
    onlyRuleFields rule names = rule := by
  simp only [ruleSpellings, List.forall_mem_cons, isOptional_none_iff] at h
  obtain ⟨h₁, h₂, h₃, h₄, h₅, h₆, h₇, h₈, h₉, h₁₀, h₁₁, -⟩ := h
  rw [onlyRuleFields, kept_eq_self h₁, kept_eq_self h₂, kept_eq_self h₃, kept_eq_self h₄,
    kept_eq_self h₅, kept_eq_self h₆, kept_eq_self h₇, kept_eq_self h₈, kept_eq_self h₉,
    kept_eq_self h₁₀, kept_eq_self h₁₁]
  cases rule
  rfl

theorem accepts_rule {rule : Rule} {rules : List Rule → List Char → Prop}
    {captures : Captures → List Char → Prop} {readRules : Reader (List Rule)}
    {readCaptures : Reader Captures} {cs : List Char}
    (h : IsRecord (ruleSpellings rules captures rule) cs)
    (hrules : ∀ value text, rules value text → text.length < cs.length →
      Accepts readRules text value)
    (hcaptures : ∀ value text, captures value text → text.length < cs.length →
      Accepts readCaptures text value) {bound : Nat} (hbound : cs.length ≤ bound) :
    Accepts (record bound (ruleFields readRules readCaptures) {}) cs rule := by
  have hnone : onlyRuleFields rule [] = {} := rfl
  rw [← hnone]
  exact accepts_record h hbound (readsField_rule hrules hcaptures)
    fun _ hunseen => onlyRuleFields_eq_self hunseen

/-! ## Rules at every depth -/

/-- Rules, and lists and maps of rules, are read from each of their spellings, as deep as they are
    spelled. -/
theorem accepts_of_spells (bound depth : Nat) :
    (∀ rule cs, SpellsRule depth rule cs → cs.length ≤ bound →
      Accepts (readRule bound depth) cs rule) ∧
    (∀ rules cs, SpellsRules depth rules cs → cs.length ≤ bound →
      Accepts (readRules bound depth) cs rules) ∧
    (∀ rules cs, SpellsRuleMap depth rules cs → cs.length ≤ bound →
      Accepts (readRuleMap bound depth) cs rules) := by
  induction depth with
  | zero => exact ⟨fun _ _ h => h.elim, fun _ _ h => h.elim, fun _ _ h => h.elim⟩
  | succ depth ih =>
    obtain ⟨hrule, hrules, hruleMap⟩ := ih
    refine ⟨fun rule cs h hbound => ?_, fun rules cs h hbound => ?_, fun rules cs h hbound => ?_⟩
    · exact accepts_rule h (fun rules text htext hlt => hrules rules text htext (by omega))
        (fun rules text htext hlt => hruleMap rules text htext (by omega)) hbound
    · exact accepts_list h hbound fun rule text htext hlt => hrule rule text htext (by omega)
    · exact accepts_map h hbound fun rule text htext hlt => hrule rule text htext (by omega)

/-! ## Grammars -/

/-- A grammar with those fields only whose names are in a list. -/
def onlyFields (grammar : Grammar) (names : List String) : Grammar where
  scopeName := kept names "scopeName" grammar.scopeName
  name := kept names "name" grammar.name
  patterns := kept names "patterns" grammar.patterns
  repository := kept names "repository" grammar.repository

theorem readsField_grammar {grammar : Grammar} {limit : Nat} {rules : List Rule → List Char → Prop}
    {ruleMap : List (String × Rule) → List Char → Prop} {readRules : Reader (List Rule)}
    {readRuleMap : Reader (List (String × Rule))}
    (hrules : ∀ value text, rules value text → text.length < limit → Accepts readRules text value)
    (hruleMap : ∀ value text, ruleMap value text → text.length < limit →
      Accepts readRuleMap text value) :
    List.Forall₂ (ReadsField grammar.onlyFields limit) (fields readRules readRuleMap)
      (spellings rules ruleMap grammar) := by
  refine .cons (readsField_ofOptional accepts_text_of_length fun seen => ?_) <|
    .cons (readsField_ofOptional accepts_text_of_length fun seen => ?_) <|
    .cons (readsField_ofOptional hrules fun seen => ?_) <|
    .cons (readsField_ofOptional hruleMap fun seen => ?_) .nil
  all_goals simp [onlyFields, kept]

theorem onlyFields_eq_self {grammar : Grammar} {rules : List Rule → List Char → Prop}
    {ruleMap : List (String × Rule) → List Char → Prop} {names : List String}
    (h : ∀ spelling ∈ spellings rules ruleMap grammar, spelling.1 ∉ names → spelling.2 none) :
    grammar.onlyFields names = grammar := by
  simp only [spellings, List.forall_mem_cons, isOptional_none_iff] at h
  obtain ⟨h₁, h₂, h₃, h₄, -⟩ := h
  rw [onlyFields, kept_eq_self h₁, kept_eq_self h₂, kept_eq_self h₃, kept_eq_self h₄]

theorem accepts_grammar {grammar : Grammar} {cs : List Char}
    (h : IsRecord (spellings (SpellsRules 126) (SpellsRuleMap 126) grammar) cs) {bound : Nat}
    (hbound : cs.length ≤ bound) : Accepts (read bound) cs grammar := by
  obtain ⟨-, hrules, hruleMap⟩ := accepts_of_spells bound 126
  have hnone : grammar.onlyFields [] = {} := rfl
  rw [read, ← hnone]
  refine accepts_record h hbound (readsField_grammar (fun rules text htext hlt => ?_)
    fun rules text htext hlt => ?_) fun _ hunseen => onlyFields_eq_self hunseen
  · exact hrules rules text htext (by omega)
  · exact hruleMap rules text htext (by omega)

theorem ofJson_of_padded {grammar : Grammar} {cs : List Char} {text : String}
    (hread : ∀ bound, cs.length ≤ bound → Accepts (read bound) cs grammar)
    (hpadded : Padded cs text.toList) : Grammar.ofJson text = .ok grammar := by
  have hbound : cs.length ≤ text.toList.length + 1 := Nat.le_succ_of_le hpadded.length_le
  obtain ⟨before, after, hbefore, hafter, htext⟩ := hpadded
  have htakes := (hread _ hbound).takes before hbefore after hafter.delimited
  rw [List.append_assoc, ← htext] at htakes
  simp [ofJson, htakes, skipSpaces_of_isBlank hafter]

/-- Exactly the grammars that fit have spellings, and a grammar is read from each of them: nothing
    of it is lost, whichever spelling is chosen. -/
theorem spellings_read (grammar : Grammar) :
    ((∃ text, grammar.Spells text) ↔ grammar.Fits) ∧
      ∀ text, grammar.Spells text → Grammar.ofJson text = .ok grammar := by
  refine ⟨exists_spells_iff, fun text hspells => ?_⟩
  obtain ⟨cs, hrecord, hpadded⟩ := hspells
  exact ofJson_of_padded (fun _ hbound => accepts_grammar hrecord hbound) hpadded

/-- Fields stand in another order, one is `null`, and a member that no rule has holds half of a
    surrogate pair and a number. -/
theorem spellings_read_reordered :
    let text := "\x7b\"patterns\": [\x7b\"old\": [\"\\ud800\", 1e3], \"match\": \"b\"\x7d],\n" ++
      " \"name\": null\x7d\n"
    let grammar : Grammar := { patterns := some [{ single := some "b" }] }
    grammar.Spells text ∧ grammar.Fits ∧ Grammar.ofJson text = .ok grammar := by
  intro text grammar
  have none : IsBlank [] := isBlank_nil
  have space : IsBlank [' '] := by simp [IsBlank]
  have line : IsBlank ['\n', ' '] := by simp [IsBlank]
  let old := "[\"\\ud800\", 1e3]".toList
  let rule := "\x7b\"old\": [\"\\ud800\", 1e3], \"match\": \"b\"\x7d".toList
  let rules := "[\x7b\"old\": [\"\\ud800\", 1e3], \"match\": \"b\"\x7d]".toList
  have hhalf : IsQuotation "\"\\ud800\"".toList :=
    ⟨["\\ud800".toList], by simpa using IsPiece.code (by simp), by decide +kernel⟩
  have hnumber : IsNumber ([] ++ (['1'] ++ ([] ++ 'e' :: ([] ++ ['3'])))) :=
    .mk (by simp) (.digits (by decide) (by decide) (by simp)) .absent
      (.power (by simp) (by simp) ⟨by simp, by simp⟩)
  have hold : IsValue old :=
    .array (List.forall_mem_cons.2 ⟨.quotation hhalf,
      List.forall_mem_cons.2 ⟨.number hnumber, List.forall_mem_nil _⟩⟩)
      ⟨"\"\\ud800\", 1e3".toList, .more ⟨[], [], none, none, rfl⟩
        (.one ⟨[' '], [], space, none, rfl⟩), by decide +kernel⟩
  have hrule : SpellsRule 125 { single := some "b" } rule := by
    refine ⟨[("old", old), ("match", "\"b\"".toList)], by decide, ?_, ?_,
      ["\"old\": [\"\\ud800\", 1e3]".toList, "\"match\": \"b\"".toList],
      .cons ⟨[], [' '], none, space, by decide +kernel⟩
        (.cons ⟨[], [' '], none, space, by decide +kernel⟩ .nil),
      "\"old\": [\"\\ud800\", 1e3], \"match\": \"b\"".toList,
      .more ⟨[], [], none, none, rfl⟩ (.one ⟨[' '], [], space, none, rfl⟩), by decide +kernel⟩
    · have hmatch : IsOptional IsText (some "b") (some "\"b\"".toList) :=
        .value rfl
      simpa [ruleSpellings, List.lookup_cons] using hmatch
    · simpa [ruleSpellings] using hold
  have hrules : SpellsRules 126 [{ single := some "b" }] rules :=
    ⟨[rule], .cons hrule .nil, rule, .one ⟨[], [], none, none, by simp⟩, by decide +kernel⟩
  have hspells : grammar.Spells text := by
    refine ⟨"\x7b\"patterns\": [\x7b\"old\": [\"\\ud800\", 1e3], \"match\": \"b\"\x7d],\n".toList ++
        " \"name\": null\x7d".toList,
      ⟨[("patterns", rules), ("name", "null".toList)], by decide, ?_, by simp [spellings],
        ["\"patterns\": ".toList ++ rules, "\"name\": null".toList],
        .cons ⟨[], [' '], none, space, by decide +kernel⟩
          (.cons ⟨[], [' '], none, space, by decide +kernel⟩ .nil),
        "\"patterns\": ".toList ++ rules ++ ",\n \"name\": null".toList,
        .more ⟨[], [], none, none, by simp⟩ (.one ⟨['\n', ' '], [], line, none, rfl⟩),
        by decide +kernel⟩,
      [], ['\n'], none, by simp [IsBlank], by decide +kernel⟩
    simpa [spellings, grammar, List.lookup_cons] using
      ⟨IsOptional.null, IsOptional.value hrules⟩
  obtain ⟨hfits, hread⟩ := spellings_read grammar
  exact ⟨hspells, hfits.1 ⟨text, hspells⟩, hread text hspells⟩

end PatternTable.Grammar
