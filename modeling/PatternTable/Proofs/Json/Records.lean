import Mathlib.Data.List.Nodup
import PatternTable.Json.Record
import PatternTable.Proofs.Json.Skipping
import PatternTable.Proofs.Lists

/-!
# Spellings of texts, arrays, maps and records

One value has many spellings: white space may stand anywhere between tokens, and an object that
spells a record may have its fields in any order, leave out what is absent or write `null` for it,
and have other members beside them. What is spelled inside is a parameter here, so that arrays, maps
and records of anything are covered.

* `IsArray`, `IsMap`, `IsRecord`: a text spells a list, a list of named values, the fields of a
  record.
* `Accepts`: a reader takes exactly a text that opens a value, and gives that value.

Results:
* `accepts_text`, `accepts_list`, `accepts_map`: these readers accept every spelling.
* `accepts_record`: so does the reader of a record, in whatever order its fields stand.
-/

namespace PatternTable.Json

/-! ## Specification -/

/-- A text as it is quoted. -/
def IsText (text : String) (cs : List Char) : Prop :=
  cs = (Text.quote text).toList

/-- What is written for a value that may be absent: nothing or `null` if it is. -/
inductive IsOptional {α : Type} (spells : α → List Char → Prop) :
    Option α → Option (List Char) → Prop where
  | omitted : IsOptional spells none none
  | null : IsOptional spells none (some ['n', 'u', 'l', 'l'])
  | value {value : α} {cs : List Char} : spells value cs → IsOptional spells (some value) (some cs)

/-- An array of values in their order. -/
def IsArray {α : Type} (spells : α → List Char → Prop) (values : List α) (cs : List Char) : Prop :=
  ∃ texts, List.Forall₂ spells values texts ∧ Bracketed '[' ']' texts cs

/-- A member with a quoted name. -/
def IsNamed (name : String) (value cs : List Char) : Prop :=
  IsMember (Text.quote name).toList value cs

/-- An object of values under different names, in their order. -/
def IsMap {α : Type} (spells : α → List Char → Prop) (entries : List (String × α))
    (cs : List Char) : Prop :=
  (entries.map Prod.fst).Nodup ∧
    ∃ texts, List.Forall₂ (fun entry text => ∃ value, spells entry.2 value ∧
      IsNamed entry.1 value text) entries texts ∧ Bracketed '\x7b' '\x7d' texts cs

/-- A field that an object may have, and what may be written for it. -/
abbrev FieldSpelling := String × (Option (List Char) → Prop)

/-- An object with some fields. Their members stand in any order, each of them once if at all, and
    any members with other names may stand beside them. -/
def IsRecord (fields : List FieldSpelling) (cs : List Char) : Prop :=
  ∃ members : List (String × List Char),
    ((members.map Prod.fst).filter (· ∈ fields.map Prod.fst)).Nodup ∧
    (∀ field ∈ fields, field.2 (members.lookup field.1)) ∧
    (∀ member ∈ members, member.1 ∉ fields.map Prod.fst → IsValue member.2) ∧
    ∃ texts, List.Forall₂ (fun member => IsNamed member.1 member.2) members texts ∧
      Bracketed '\x7b' '\x7d' texts cs

/-- A reader takes exactly a text that opens with a quotation mark or a bracket, and gives a value,
    after any white space. -/
structure Accepts {α : Type} (read : Reader α) (cs : List Char) (value : α) : Prop where
  opens : ∃ c rest, cs = c :: rest ∧ c ∈ ['"', '[', '\x7b']
  takes : ∀ blank, IsBlank blank → Takes read (blank ++ cs) value

/-! ## Values -/

theorem Accepts.starts {α : Type} {read : Reader α} {cs : List Char} {value : α}
    (h : Accepts read cs value) : Starts cs := by
  obtain ⟨c, rest, rfl, hc⟩ := h.opens
  refine starts_cons ?_ rest
  simp only [List.mem_cons, List.not_mem_nil, or_false] at hc
  obtain rfl | rfl | rfl := hc <;> decide

theorem Bracketed.opens {opening closing : Char} {entries : List (List Char)} {cs : List Char}
    (h : Bracketed opening closing entries cs) (hopening : opening ∈ ['"', '[', '\x7b']) :
    ∃ c rest, cs = c :: rest ∧ c ∈ ['"', '[', '\x7b'] := by
  obtain ⟨body, -, rfl⟩ := h
  exact ⟨opening, _, rfl, hopening⟩

theorem accepts_text {text : String} {cs : List Char} (h : IsText text cs) :
    Accepts Json.text cs text := by
  subst h
  have htext (rest : List Char) := toList_quote_append text rest
  refine ⟨⟨'"', _, by simpa using htext [], by decide⟩, fun blank hblank rest _ => ?_⟩
  rw [Json.text, List.append_assoc, skipSpaces_blank_append hblank,
    skipSpaces_of_starts ((starts_quote text).append rest), htext]
  exact quoted_of_quote text rest

/-- What is written for a value that may be absent is read as that value. -/
theorem takes_optional {α : Type} {read : Reader α} {spells : α → List Char → Prop}
    {value : Option α} {cs : List Char} (h : IsOptional spells value (some cs))
    (hread : ∀ inner, spells inner cs → Accepts read cs inner) {blank : List Char}
    (hblank : IsBlank blank) : Takes (optional read) (blank ++ cs) value := by
  intro rest hrest
  cases h with
  | null =>
    rw [optional, List.append_assoc, skipSpaces_blank_append hblank,
      skipSpaces_of_starts (IsValue.null.starts.append rest)]
    exact congrArg (Except.map fun rest => (none, rest)) (word_self_append ['u', 'l', 'l'] rest)
  | @value inner _ hinner =>
    have haccepts := hread inner hinner
    have htakes := haccepts.takes [] isBlank_nil rest hrest
    rw [optional, List.append_assoc, skipSpaces_blank_append hblank,
      skipSpaces_of_starts (haccepts.starts.append rest)]
    obtain ⟨c, tail, rfl, hc⟩ := haccepts.opens
    have hne : c ≠ 'n' := by
      rintro rfl
      exact absurd hc (by decide)
    simp only [List.nil_append, List.cons_append] at htakes ⊢
    split
    case h_1 heq => exact absurd (List.cons.inj heq).1 hne
    case h_2 => rw [htakes]; rfl

theorem accepts_list {α : Type} {read : Reader α} {spells : α → List Char → Prop}
    {values : List α} {cs : List Char} (h : IsArray spells values cs) {bound : Nat}
    (hbound : cs.length ≤ bound)
    (hread : ∀ value text, spells value text → text.length < cs.length → Accepts read text value) :
    Accepts (list bound read) cs values := by
  obtain ⟨texts, htexts, hbrackets⟩ := h
  refine ⟨hbrackets.opens (by decide), fun blank hblank rest _ => ?_⟩
  obtain ⟨inner, hinner, hentries⟩ := entries_of_steps hbrackets (by decide) hbound rest
  rw [list, List.append_assoc, skipSpaces_blank_append hblank,
    skipSpaces_of_starts ((hbrackets.starts (by decide)).append rest), hinner]
  -- The values read so far are kept in reverse.
  refine (congrArg (Except.map _) (hentries (steps_of_forall₂ List.reverse htexts ?_))).trans ?_
  · rintro before value after - text hmem htext
    have haccepts := hread value text htext (hbrackets.length_entry_lt hmem)
    refine ⟨haccepts.starts, fun more hmore => ?_⟩
    have htakes := haccepts.takes [] isBlank_nil more hmore
    rw [List.nil_append] at htakes
    simp only [htakes, List.reverse_append, List.reverse_singleton, List.singleton_append,
      Except.map]
  · simp only [Except.map, List.reverse_reverse]

@[simp]
theorem isOptional_none_iff {α : Type} {spells : α → List Char → Prop} {value : Option α} :
    IsOptional spells value none ↔ value = none := by
  constructor
  · rintro ⟨⟩
    rfl
  · rintro rfl
    exact .omitted

/-! ## Members -/

theorem key_of_isNamed {name : String} {value cs : List Char} (h : IsNamed name value cs)
    (rest : List Char) :
    ∃ before after, IsBlank before ∧ IsBlank after ∧
      key (cs ++ rest) = .ok (name, before ++ ':' :: (after ++ (value ++ rest))) := by
  obtain ⟨before, after, hbefore, hafter, rfl⟩ := h
  refine ⟨before, after, hbefore, hafter, ?_⟩
  simp only [List.append_assoc, List.cons_append]
  rw [toList_quote_append]
  exact quoted_of_quote name _

theorem upsert_of_not_mem {α : Type} {name : String} {entries : List (String × α)}
    (h : name ∉ entries.map Prod.fst) (value : α) :
    upsert name value entries = entries ++ [(name, value)] := by
  induction entries with
  | nil => rfl
  | cons entry entries ih =>
    obtain ⟨other, old⟩ := entry
    rw [List.map_cons, List.mem_cons, not_or] at h
    rw [upsert, if_neg (Ne.symm h.1), ih h.2, List.cons_append]

theorem accepts_map {α : Type} {read : Reader α} {spells : α → List Char → Prop}
    {entries : List (String × α)} {cs : List Char} (h : IsMap spells entries cs) {bound : Nat}
    (hbound : cs.length ≤ bound)
    (hread : ∀ value text, spells value text → text.length < cs.length → Accepts read text value) :
    Accepts (map bound read) cs entries := by
  obtain ⟨hnodup, texts, htexts, hbrackets⟩ := h
  refine ⟨hbrackets.opens (by decide), fun blank hblank rest _ => ?_⟩
  obtain ⟨inner, hinner, hentries⟩ := entries_of_steps hbrackets (by decide) hbound rest
  rw [map, List.append_assoc, skipSpaces_blank_append hblank,
    skipSpaces_of_starts ((hbrackets.starts (by decide)).append rest), hinner]
  refine hentries (steps_of_forall₂ id htexts ?_)
  rintro before ⟨name, value⟩ after rfl text hmem ⟨spelt, hspelt, hnamed⟩
  have hnew : name ∉ before.map Prod.fst := by
    rw [List.map_append, List.map_cons, List.nodup_append] at hnodup
    exact fun hname => hnodup.2.2 name hname name List.mem_cons_self rfl
  have hlength := hbrackets.length_entry_lt hmem
  have haccepts := hread value spelt hspelt (Nat.lt_of_le_of_lt hnamed.length_value_le hlength)
  refine ⟨hnamed.starts (starts_quote name), fun more hmore => ?_⟩
  obtain ⟨space, padding, hspace, hpadding, hkey⟩ := key_of_isNamed hnamed more
  have htakes := haccepts.takes padding hpadding more hmore
  rw [List.append_assoc] at htakes
  simp only [hkey, colon_of_blank hspace, htakes]
  simp only [Except.map, upsert_of_not_mem hnew, id_eq]

/-! ## Records -/

/-- A field is read from what may be written for it. Its value takes the record from the part that
    has been read to that part and this field. -/
structure ReadsField {ρ : Type} (part : List String → ρ) (limit : Nat) (field : Field ρ)
    (spelling : FieldSpelling) : Prop where
  name_eq : field.name = spelling.1
  takes : ∀ seen text, spelling.2 (some text) → text.length < limit → ∀ blank, IsBlank blank →
    Takes (field.read (part seen)) (blank ++ text) (part (field.name :: seen))

section

variable {ρ : Type} {fields : List (Field ρ)} {spellings : List FieldSpelling}

/-- The names of fields that some members write, the last one first. -/
def namesSeen (spellings : List FieldSpelling) (members : List (String × List Char)) :
    List String :=
  ((members.map Prod.fst).filter (· ∈ spellings.map Prod.fst)).reverse

theorem namesSeen_append_of_mem {name : String} (hname : name ∈ spellings.map Prod.fst)
    (members : List (String × List Char)) (value : List Char) :
    namesSeen spellings (members ++ [(name, value)]) = name :: namesSeen spellings members := by
  simp only [namesSeen, List.map_append, List.map_singleton, List.filter_append,
    List.filter_singleton, hname, decide_true, List.reverse_append]
  rfl

theorem namesSeen_append_of_not_mem {name : String} (hname : name ∉ spellings.map Prod.fst)
    (members : List (String × List Char)) (value : List Char) :
    namesSeen spellings (members ++ [(name, value)]) = namesSeen spellings members := by
  simp only [namesSeen, List.map_append, List.map_singleton, List.filter_append,
    List.filter_singleton, hname, decide_false, List.reverse_append]
  rfl

/-- A member of one of the fields is read as that field. -/
theorem takes_member_of_field {bound : Nat} {name : String} {value text : List Char}
    (hnamed : IsNamed name value text) {field : Field ρ}
    (hfield : fields.find? (fun field => field.name == name) = some field) {seen : List String}
    (hseen : name ∉ seen) {before after : ρ}
    (hread : ∀ blank, IsBlank blank → Takes (field.read before) (blank ++ value) after) :
    Takes (member bound fields (seen, before)) text (name :: seen, after) := by
  intro rest hrest
  obtain ⟨blank, padding, hblank, hpadding, hkey⟩ := key_of_isNamed hnamed rest
  have htakes := hread padding hpadding rest hrest
  rw [List.append_assoc] at htakes
  have hnot : seen.contains name = false := by simpa using hseen
  simp only [member, hkey, hfield, hnot, colon_of_blank hblank, htakes]
  rfl

/-- A member with another name is ignored, whatever its value. -/
theorem takes_member_of_other {bound : Nat} {name : String} {value text : List Char}
    (hnamed : IsNamed name value text)
    (hfield : fields.find? (fun field => field.name == name) = none) (hvalue : IsValue value)
    (hbound : value.length < bound) (state : List String × ρ) :
    Takes (member bound fields state) text state := by
  intro rest hrest
  obtain ⟨blank, padding, hblank, hpadding, hkey⟩ := key_of_isNamed hnamed rest
  simp only [member, hkey, hfield, colon_of_blank hblank, skipValue_blank_append hpadding,
    skipValue_of_isValue hvalue hbound hrest]
  rfl

/-- The field that is found under a name, beside its spelling. -/
theorem exists_find?_of_forall₂ {part : List String → ρ} {limit : Nat}
    (h : List.Forall₂ (ReadsField part limit) fields spellings) {name : String}
    (hmem : name ∈ spellings.map Prod.fst) :
    ∃ field spelling, fields.find? (fun field => field.name == name) = some field ∧
      spelling ∈ spellings ∧ spelling.1 = name ∧ ReadsField part limit field spelling := by
  induction h with
  | nil => exact absurd hmem List.not_mem_nil
  | @cons field spelling fields spellings hreads _ ih =>
    by_cases heq : field.name = name
    · exact ⟨field, spelling, by simp [heq], List.mem_cons_self, hreads.name_eq ▸ heq, hreads⟩
    · rw [List.map_cons, List.mem_cons, ← hreads.name_eq, or_iff_right (Ne.symm heq)] at hmem
      obtain ⟨found, other, hfind, hother, hrest⟩ := ih hmem
      exact ⟨found, other, by simp [heq, hfind], List.mem_cons_of_mem _ hother, hrest⟩

theorem find?_eq_none_of_forall₂ {part : List String → ρ} {limit : Nat}
    (h : List.Forall₂ (ReadsField part limit) fields spellings) {name : String}
    (hmem : name ∉ spellings.map Prod.fst) :
    fields.find? (fun field => field.name == name) = none := by
  induction h with
  | nil => rfl
  | cons hreads _ ih =>
    rw [List.map_cons, List.mem_cons, not_or, ← hreads.name_eq] at hmem
    simpa [Ne.symm hmem.1] using ih hmem.2

/-- In an object that writes no field twice, a member is the one that its name leads to, and none
    before it has the name. -/
theorem lookup_of_nodup {before after : List (String × List Char)} {name : String}
    {value : List Char} (hnodup : (((before ++ (name, value) :: after).map Prod.fst).filter
      (· ∈ spellings.map Prod.fst)).Nodup) (hname : name ∈ spellings.map Prod.fst) :
    name ∉ namesSeen spellings before ∧
      (before ++ (name, value) :: after).lookup name = some value := by
  have hnew : name ∉ before.map Prod.fst := by
    intro hmem
    simp only [List.map_append, List.map_cons, List.filter_append, List.nodup_append] at hnodup
    refine hnodup.2.2 name (List.mem_filter.2 ⟨hmem, by simpa using hname⟩) name ?_ rfl
    exact List.mem_filter.2 ⟨List.mem_cons_self, by simpa using hname⟩
  refine ⟨fun hseen => hnew ?_, ?_⟩
  · exact (List.mem_filter.1 (List.mem_reverse.1 hseen)).1
  · rw [List.lookup_append, lookup_eq_none_iff_not_mem.2 hnew, List.lookup_cons_self]
    rfl

/-- A record is read from every spelling of its fields, in whatever order they stand. -/
theorem accepts_record {cs : List Char} (h : IsRecord spellings cs) {bound : Nat}
    (hbound : cs.length ≤ bound) {part : List String → ρ}
    (hfields : List.Forall₂ (ReadsField part cs.length) fields spellings) {target : ρ}
    (hwhole : ∀ seen, (∀ spelling ∈ spellings, spelling.1 ∉ seen → spelling.2 none) →
      part seen = target) :
    Accepts (record bound fields (part [])) cs target := by
  obtain ⟨members, hnodup, hwritten, hothers, texts, htexts, hbrackets⟩ := h
  have hsteps : Steps (member bound fields) ([], part []) texts
      (namesSeen spellings members, part (namesSeen spellings members)) := by
    refine steps_of_forall₂
      (fun before => (namesSeen spellings before, part (namesSeen spellings before))) htexts ?_
    rintro before ⟨name, value⟩ after rfl text hmem hnamed
    have hlength : value.length < cs.length :=
      Nat.lt_of_le_of_lt hnamed.length_value_le (hbrackets.length_entry_lt hmem)
    refine ⟨hnamed.starts (starts_quote name), ?_⟩
    by_cases hname : name ∈ spellings.map Prod.fst
    · obtain ⟨hseen, hlookup⟩ := lookup_of_nodup hnodup hname
      rw [namesSeen_append_of_mem hname]
      obtain ⟨field, spelling, hfind, hspelling, rfl, hreads⟩ :=
        exists_find?_of_forall₂ hfields hname
      have hvalue : spelling.2 (some value) := hlookup ▸ hwritten spelling hspelling
      have htakes := hreads.takes (namesSeen spellings before) value hvalue hlength
      rw [hreads.name_eq] at htakes
      exact takes_member_of_field hnamed hfind hseen htakes
    · rw [namesSeen_append_of_not_mem hname]
      exact takes_member_of_other hnamed (find?_eq_none_of_forall₂ hfields hname)
        (hothers _ List.mem_append_cons_self hname) (Nat.lt_of_lt_of_le hlength hbound) _
  have htarget : part (namesSeen spellings members) = target := by
    refine hwhole _ fun spelling hspelling hunseen => ?_
    have hnot : spelling.1 ∉ members.map Prod.fst := by
      intro hmem
      refine hunseen (List.mem_reverse.2 (List.mem_filter.2 ⟨hmem, ?_⟩))
      simpa using List.mem_map_of_mem (f := Prod.fst) hspelling
    exact lookup_eq_none_iff_not_mem.2 hnot ▸ hwritten spelling hspelling
  refine ⟨hbrackets.opens (by decide), fun blank hblank rest _ => ?_⟩
  obtain ⟨inner, hinner, hentries⟩ := entries_of_steps hbrackets (by decide) hbound rest
  rw [record, List.append_assoc, skipSpaces_blank_append hblank,
    skipSpaces_of_starts ((hbrackets.starts (by decide)).append rest), hinner]
  simp only [hentries hsteps]
  simp only [Except.map, htarget]

end

end PatternTable.Json
