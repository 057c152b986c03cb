import PatternTable.Proofs.Json.Records

/-!
# What can be spelled

A spelling exists for everything whose parts have one, as long as a map has different keys and a
record different field names: entries can always be put between brackets, and a field that is absent
can be left out.

Results:
* `exists_isArray_iff`, `exists_isMap_iff`, `exists_isRecord_iff`, `exists_isOptional_iff`: when a
  list, a map, a record and a field of a record can be spelled.
-/

namespace PatternTable.Json

/-! ## Entries -/

theorem exists_forall₂_iff {α β : Type} {r : α → β → Prop} {values : List α} :
    (∃ texts, List.Forall₂ r values texts) ↔ ∀ value ∈ values, ∃ text, r value text := by
  induction values with
  | nil => simp
  | cons value values ih =>
    rw [List.forall_mem_cons, ← ih]
    constructor
    · rintro ⟨_, - | ⟨hvalue, hvalues⟩⟩
      exact ⟨⟨_, hvalue⟩, ⟨_, hvalues⟩⟩
    · rintro ⟨⟨text, hvalue⟩, ⟨texts, hvalues⟩⟩
      exact ⟨text :: texts, .cons hvalue hvalues⟩

theorem exists_separated (entries : List (List Char)) : ∃ body, Separated entries body := by
  have padded (entry : List Char) : Padded entry entry :=
    ⟨[], [], isBlank_nil, isBlank_nil, by simp⟩
  induction entries with
  | nil => exact ⟨[], .none isBlank_nil⟩
  | cons entry entries ih =>
    cases entries with
    | nil => exact ⟨entry, .one (padded entry)⟩
    | cons next entries =>
      obtain ⟨body, hbody⟩ := ih
      exact ⟨entry ++ ',' :: body, .more (padded entry) hbody⟩

theorem exists_bracketed (opening closing : Char) (entries : List (List Char)) :
    ∃ cs, Bracketed opening closing entries cs := by
  obtain ⟨body, hbody⟩ := exists_separated entries
  exact ⟨_, body, hbody, rfl⟩

/-! ## Values -/

theorem exists_isOptional_iff {α : Type} {spells : α → List Char → Prop} {value : Option α} :
    (∃ written, IsOptional spells value written) ↔ ∀ inner ∈ value, ∃ cs, spells inner cs := by
  cases value with
  | none => exact ⟨fun _ => by simp, fun _ => ⟨none, .omitted⟩⟩
  | some inner =>
    simp only [Option.mem_some_iff, forall_eq']
    constructor
    · rintro ⟨_, ⟨⟩⟩
      exact ⟨_, ‹_›⟩
    · rintro ⟨cs, hcs⟩
      exact ⟨some cs, .value hcs⟩

theorem exists_isArray_iff {α : Type} {spells : α → List Char → Prop} {values : List α} :
    (∃ cs, IsArray spells values cs) ↔ ∀ value ∈ values, ∃ cs, spells value cs := by
  rw [← exists_forall₂_iff]
  constructor
  · rintro ⟨cs, texts, htexts, -⟩
    exact ⟨texts, htexts⟩
  · rintro ⟨texts, htexts⟩
    obtain ⟨cs, hcs⟩ := exists_bracketed '[' ']' texts
    exact ⟨cs, texts, htexts, hcs⟩

theorem exists_isNamed (name : String) (value : List Char) : ∃ cs, IsNamed name value cs :=
  ⟨_, [], [], isBlank_nil, isBlank_nil, rfl⟩

theorem exists_isMap_iff {α : Type} {spells : α → List Char → Prop}
    {entries : List (String × α)} :
    (∃ cs, IsMap spells entries cs) ↔
      (entries.map Prod.fst).Nodup ∧ ∀ entry ∈ entries, ∃ cs, spells entry.2 cs := by
  constructor
  · rintro ⟨cs, hnodup, texts, htexts, -⟩
    refine ⟨hnodup, fun entry hentry => ?_⟩
    obtain ⟨text, value, hvalue, -⟩ := exists_forall₂_iff.1 ⟨texts, htexts⟩ entry hentry
    exact ⟨value, hvalue⟩
  · rintro ⟨hnodup, hentries⟩
    obtain ⟨texts, htexts⟩ := (exists_forall₂_iff (r := fun (entry : String × α) text =>
        ∃ value, spells entry.2 value ∧ IsNamed entry.1 value text)).2 fun entry hentry => by
      obtain ⟨value, hvalue⟩ := hentries entry hentry
      obtain ⟨text, htext⟩ := exists_isNamed entry.1 value
      exact ⟨text, value, hvalue, htext⟩
    obtain ⟨cs, hcs⟩ := exists_bracketed '\x7b' '\x7d' texts
    exact ⟨cs, hnodup, texts, htexts, hcs⟩

/-! ## Records -/

/-- Members that write some fields and nothing else. -/
theorem exists_members {spellings : List FieldSpelling} (hnodup : (spellings.map Prod.fst).Nodup)
    (h : ∀ spelling ∈ spellings, ∃ written, spelling.2 written) :
    ∃ members : List (String × List Char),
      (members.map Prod.fst).Sublist (spellings.map Prod.fst) ∧
      ∀ spelling ∈ spellings, spelling.2 (members.lookup spelling.1) := by
  induction spellings with
  | nil => exact ⟨[], by simp, by simp⟩
  | cons spelling spellings ih =>
    rw [List.map_cons, List.nodup_cons] at hnodup
    obtain ⟨⟨written, hwritten⟩, hrest⟩ := List.forall_mem_cons.1 h
    obtain ⟨members, hsublist, hmembers⟩ := ih hnodup.2 hrest
    cases written with
    | none =>
      refine ⟨members, hsublist.cons _, List.forall_mem_cons.2 ⟨?_, hmembers⟩⟩
      rwa [lookup_eq_none_iff_not_mem.2 fun hmem => hnodup.1 (hsublist.subset hmem)]
    | some text =>
      refine ⟨(spelling.1, text) :: members, hsublist.cons_cons _,
        List.forall_mem_cons.2 ⟨by rwa [List.lookup_cons_self], fun other hother => ?_⟩⟩
      have hne : (other.1 == spelling.1) = false := by
        rw [beq_eq_false_iff_ne]
        intro heq
        exact hnodup.1 (heq ▸ List.mem_map_of_mem hother)
      rw [List.lookup_cons, hne]
      exact hmembers other hother

theorem exists_isRecord_iff {spellings : List FieldSpelling}
    (hnodup : (spellings.map Prod.fst).Nodup) :
    (∃ cs, IsRecord spellings cs) ↔ ∀ spelling ∈ spellings, ∃ written, spelling.2 written := by
  constructor
  · rintro ⟨cs, members, -, hwritten, -⟩ spelling hspelling
    exact ⟨_, hwritten spelling hspelling⟩
  · intro h
    obtain ⟨members, hsublist, hmembers⟩ := exists_members hnodup h
    obtain ⟨texts, htexts⟩ := exists_forall₂_iff.2 fun (member : String × List Char)
      (_ : member ∈ members) => exists_isNamed member.1 member.2
    obtain ⟨cs, hcs⟩ := exists_bracketed '\x7b' '\x7d' texts
    refine ⟨cs, members, (hsublist.nodup hnodup).filter _, hmembers, ?_, texts, htexts, hcs⟩
    intro member hmember hother
    exact absurd (hsublist.subset (List.mem_map_of_mem hmember)) hother

end PatternTable.Json
