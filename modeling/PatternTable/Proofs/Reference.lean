import Mathlib.Data.List.TakeWhile
import PatternTable.Reference

/-!
# The references of includes

An include that starts with `source.` names a document: what comes before its first `#`. Any other
include is about the document that it stands in.

* `Reference.Spells` is the grammar of includes, with the reference that each form makes.

Results:
* `Reference.parse?_external`, `Reference.parse?_internal`: a reference is to another document
  exactly if the include names a document that is not the one it stands in.
* `Reference.parse?_eq_some_iff`: an include makes the reference that it spells, and no other.
* `Reference.includes_exactly`: which includes make a reference, which references are to the
  document that the include stands in, and how a reference is written to be read back.
-/

namespace PatternTable.Reference

/-! ## Specification -/

/-- Whether an include names a document. -/
def NamesDocument (text : String) : Prop :=
  "source.".toList <+: text.toList

/-- The document that an include names, if it names one. -/
def documentNamed (text : String) : Document :=
  ⟨String.ofList (text.toList.takeWhile (· != '#'))⟩

/-- A document that an include can name: its id starts as it has to, and has no `#` in it. -/
structure IsNamable (document : Document) : Prop where
  start : "source.".toList <+: document.id.toList
  plain : '#' ∉ document.id.toList

/-- An include in `current` spells a reference. A key may have any characters, also `#`. -/
inductive Spells (current : Document) : String → Reference → Prop where
  | key {key : String} (hkey : key ≠ "") : Spells current ("#" ++ key) (internal (.key key))
  | self : Spells current "$self" (internal .root)
  | base : Spells current "$base" (internal .root)
  | root {document : Document} (h : IsNamable document) :
    Spells current document.id (within current document .root)
  | entry {document : Document} {key : String} (h : IsNamable document) (hkey : key ≠ "") :
    Spells current (document.id ++ "#" ++ key) (within current document (.key key))

/-- An include is about the document that it stands in without naming it. -/
def IsPlain (text : String) : Prop :=
  (∃ key, key ≠ "" ∧ text = "#" ++ key) ∨ text = "$self" ∨ text = "$base"

/-- An include names a document, and if it has a `#` it has a key after the first one. -/
def IsQualified (text : String) : Prop :=
  NamesDocument text ∧
    ('#' ∈ text.toList → ∃ id key, '#' ∉ id.toList ∧ key ≠ "" ∧ text = id ++ "#" ++ key)

/-! ## The parts of an include -/

theorem documentNamed_of_cutAt? {text : String} {id key : List Char}
    (h : Text.cutAt? '#' text.toList = some (id, key)) :
    documentNamed text = ⟨String.ofList id⟩ := by
  unfold Text.cutAt? at h
  split at h
  · simp at h
  · rw [Option.some.injEq, Prod.mk.injEq] at h
    rw [documentNamed, h.1]

theorem documentNamed_of_uncut {text : String} (h : Text.cutAt? '#' text.toList = none) :
    documentNamed text = ⟨text⟩ := by
  have hall : ∀ c ∈ text.toList, (c != '#') = true := fun c hmem =>
    bne_iff_ne.2 fun heq => Text.cutAt?_eq_none_iff.1 h (heq ▸ hmem)
  rw [documentNamed, List.takeWhile_eq_self_iff.2 hall, String.ofList_toList]

theorem namesDocument_iff {text : String} :
    NamesDocument text ↔ (Text.dropLeading? "source.".toList text.toList).isSome := by
  rw [NamesDocument, Option.isSome_iff_exists]
  exact exists_congr fun rest => eq_comm.trans Text.dropLeading?_eq_some_iff.symm

/-- An include that names a document does not start with `#`, and is neither `$self` nor `$base`. -/
theorem parse?_of_namesDocument {current : Document} {text : String} (h : NamesDocument text) :
    parse? current text =
      match Text.cutAt? '#' text.toList with
      | none => some (within current ⟨text⟩ .root)
      | some (_, []) => none
      | some (id, key) => some (within current ⟨String.ofList id⟩ (.key (String.ofList key))) := by
  have hsource := namesDocument_iff.1 h
  obtain ⟨rest, hrest⟩ := h
  have hhead : text.toList.head? = some 's' := by
    rw [← hrest]
    rfl
  have hkey : Text.dropLeading? ['#'] text.toList = none := by
    rw [← hrest]
    rfl
  have hself : ¬ (text = "$self" ∨ text = "$base") := by
    rintro (rfl | rfl) <;> simp at hhead
  have hnone : ¬ (Text.dropLeading? "source.".toList text.toList).isNone := by
    rw [Option.isNone_iff_eq_none]
    exact Option.isSome_iff_ne_none.1 hsource
  rw [parse?, hkey]
  exact (if_neg hself).trans (if_neg hnone)

/-! ## Documents of references -/

theorem within_external_iff {current document other : Document} {target target' : Target} :
    within current document target = external other target' ↔
      document ≠ current ∧ document = other ∧ target = target' := by
  rw [within]
  split <;> simp [*]

theorem within_internal_iff {current document : Document} {target target' : Target} :
    within current document target = internal target' ↔ document = current ∧ target = target' := by
  rw [within]
  split <;> simp [*]

/-- The reference of an include that names a document is to that document. -/
theorem exists_within_of_namesDocument {current : Document} {text : String}
    {reference : Reference} (hnames : NamesDocument text)
    (h : parse? current text = some reference) :
    ∃ target, reference = within current (documentNamed text) target := by
  rw [parse?_of_namesDocument hnames] at h
  split at h
  · next hcut =>
    rw [Option.some.injEq] at h
    exact ⟨_, by rw [← h, documentNamed_of_uncut hcut]⟩
  · simp at h
  · next hcut =>
    rw [Option.some.injEq] at h
    exact ⟨_, by rw [← h, documentNamed_of_cutAt? hcut]⟩

/-- The reference of any other include is to the document that it stands in. -/
theorem exists_internal_of_not_namesDocument {current : Document} {text : String}
    {reference : Reference} (hnames : ¬ NamesDocument text)
    (h : parse? current text = some reference) : ∃ target, reference = internal target := by
  rw [namesDocument_iff, Option.not_isSome_iff_eq_none] at hnames
  unfold parse? at h
  split at h
  · simp at h
  · exact ⟨_, (Option.some.inj h).symm⟩
  · split at h
    · exact ⟨_, (Option.some.inj h).symm⟩
    · rw [if_pos (by rw [hnames]; rfl)] at h
      simp at h

/-- A reference to another document is to the one that the include names, which is not the one it
    stands in. -/
theorem parse?_external {current document : Document} {text : String} {target : Target}
    (h : parse? current text = some (external document target)) :
    NamesDocument text ∧ documentNamed text = document ∧ document ≠ current := by
  by_cases hnames : NamesDocument text
  · obtain ⟨named, hwithin⟩ := exists_within_of_namesDocument hnames h
    obtain ⟨hne, hdocument, -⟩ := within_external_iff.1 hwithin.symm
    exact ⟨hnames, hdocument, hdocument ▸ hne⟩
  · obtain ⟨named, hinternal⟩ := exists_internal_of_not_namesDocument hnames h
    cases hinternal

/-- An include of the document that it stands in names no document but that one. -/
theorem parse?_internal {current : Document} {text : String} {target : Target}
    (h : parse? current text = some (internal target)) (hnames : NamesDocument text) :
    documentNamed text = current := by
  obtain ⟨named, hwithin⟩ := exists_within_of_namesDocument hnames h
  exact (within_internal_iff.1 hwithin.symm).1

/-! ## How references are spelled -/

theorem toList_entry (id key : String) :
    (id ++ "#" ++ key).toList = id.toList ++ '#' :: key.toList := by
  simp

theorem IsNamable.namesDocument_entry {document : Document} (h : IsNamable document)
    (key : String) : NamesDocument (document.id ++ "#" ++ key) := by
  rw [NamesDocument, toList_entry]
  exact h.start.trans (List.prefix_append _ _)

theorem cutAt?_entry {id : String} (h : '#' ∉ id.toList) (key : String) :
    Text.cutAt? '#' (id ++ "#" ++ key).toList = some (id.toList, key.toList) := by
  rw [toList_entry]
  exact Text.cutAt?_append h key.toList

theorem documentNamed_entry {id : String} (h : '#' ∉ id.toList) (key : String) :
    documentNamed (id ++ "#" ++ key) = ⟨id⟩ := by
  rw [documentNamed_of_cutAt? (cutAt?_entry h key), String.ofList_toList]

theorem parse?_of_spells {current : Document} {text : String} {reference : Reference}
    (h : Spells current text reference) : parse? current text = some reference := by
  cases h with
  | @key key hkey =>
    have hdrop : Text.dropLeading? ['#'] ("#" ++ key).toList = some key.toList := by
      rw [String.toList_append]
      rfl
    rw [parse?, hdrop]
    split
    · next hnil => exact absurd (String.toList_eq_nil_iff.1 (Option.some.inj hnil)) hkey
    · next hsome => rw [← Option.some.inj hsome, String.ofList_toList]
    · next hnone => cases hnone
  | self => rfl
  | base => rfl
  | root hdocument =>
    rw [parse?_of_namesDocument hdocument.start, Text.cutAt?_eq_none_iff.2 hdocument.plain]
  | @entry document key hdocument hkey =>
    rw [parse?_of_namesDocument (hdocument.namesDocument_entry key),
      cutAt?_entry hdocument.plain key]
    split
    · next hnone => cases hnone
    · next hempty =>
      rw [Option.some.injEq, Prod.mk.injEq] at hempty
      exact absurd (String.toList_eq_nil_iff.1 hempty.2) hkey
    · next hsome =>
      rw [Option.some.injEq, Prod.mk.injEq] at hsome
      rw [← hsome.1, ← hsome.2, String.ofList_toList, String.ofList_toList]

/-- The document that an include names can be named. -/
theorem isNamable_documentNamed {text : String} (h : NamesDocument text) :
    IsNamable (documentNamed text) := by
  obtain ⟨rest, hrest⟩ := h
  have hplain : ∀ c ∈ "source.".toList, (c != '#') = true :=
    List.all_eq_true.1 (by decide)
  have hid : (documentNamed text).id.toList = text.toList.takeWhile (· != '#') :=
    String.toList_ofList
  constructor
  · rw [hid, ← hrest, List.takeWhile_append_of_pos hplain]
    exact List.prefix_append _ _
  · rw [hid]
    intro hmem
    simpa using List.mem_takeWhile_imp hmem

/-- An include with a `#` is the document that it names, the `#` and a key. -/
theorem eq_entry_of_cutAt? {text : String} {id key : List Char}
    (h : Text.cutAt? '#' text.toList = some (id, key)) :
    text = (documentNamed text).id ++ "#" ++ String.ofList key := by
  rw [documentNamed_of_cutAt? h, ← String.toList_inj, toList_entry, String.toList_ofList,
    String.toList_ofList]
  exact Text.eq_append_of_cutAt? h

theorem spells_of_parse? {current : Document} {text : String} {reference : Reference}
    (h : parse? current text = some reference) : Spells current text reference := by
  by_cases hnames : NamesDocument text
  · have hnamable := isNamable_documentNamed hnames
    rw [parse?_of_namesDocument hnames] at h
    split at h
    · next hcut =>
      rw [← Option.some.inj h]
      rw [documentNamed_of_uncut hcut] at hnamable
      exact .root hnamable
    · cases h
    · next id key hkey hcut =>
      rw [← Option.some.inj h, ← documentNamed_of_cutAt? hcut]
      have hentry : Spells current ((documentNamed text).id ++ "#" ++ String.ofList key) _ :=
        .entry hnamable fun hempty => hkey (String.ofList_eq_empty_iff.1 hempty)
      rwa [← eq_entry_of_cutAt? hcut] at hentry
  · rw [namesDocument_iff, Option.not_isSome_iff_eq_none] at hnames
    unfold parse? at h
    split at h
    · cases h
    · next key hkey hdrop =>
      have htext : text = "#" ++ String.ofList key := by
        rw [← String.toList_inj, Text.dropLeading?_eq_some_iff.1 hdrop]
        simp
      rw [← Option.some.inj h, htext]
      exact .key fun hempty => hkey (String.ofList_eq_empty_iff.1 hempty)
    · split at h
      · next hroot =>
        rw [← Option.some.inj h]
        obtain rfl | rfl := hroot
        · exact .self
        · exact .base
      · rw [if_pos (by rw [hnames]; rfl)] at h
        cases h

/-- An include makes the reference that it spells, and no other. -/
theorem parse?_eq_some_iff {current : Document} {text : String} {reference : Reference} :
    parse? current text = some reference ↔ Spells current text reference :=
  ⟨spells_of_parse?, parse?_of_spells⟩

/-! ## Which includes make a reference -/

theorem isSome_parse?_iff {current : Document} {text : String} :
    (parse? current text).isSome ↔ IsPlain text ∨ IsQualified text := by
  rw [Option.isSome_iff_exists]
  simp only [parse?_eq_some_iff]
  constructor
  · rintro ⟨reference, hspells⟩
    cases hspells with
    | @key key hkey => exact .inl (.inl ⟨key, hkey, rfl⟩)
    | self => exact .inl (.inr (.inl rfl))
    | base => exact .inl (.inr (.inr rfl))
    | root h => exact .inr ⟨h.start, fun hmem => absurd hmem h.plain⟩
    | @entry document key h hkey =>
      exact .inr ⟨h.namesDocument_entry key, fun _ => ⟨document.id, key, h.plain, hkey, rfl⟩⟩
  · rintro ((⟨key, hkey, rfl⟩ | rfl | rfl) | ⟨hnames, hentry⟩)
    · exact ⟨_, .key hkey⟩
    · exact ⟨_, .self⟩
    · exact ⟨_, .base⟩
    · by_cases hmem : '#' ∈ text.toList
      · obtain ⟨id, key, hid, hkey, rfl⟩ := hentry hmem
        have hnamable := isNamable_documentNamed hnames
        rw [documentNamed_entry hid] at hnamable
        exact ⟨_, .entry hnamable hkey⟩
      · exact ⟨_, @Spells.root current ⟨text⟩ ⟨hnames, hmem⟩⟩

/-- A reference is to the document that the include stands in exactly if the include names no
    document, or names that one. -/
theorem exists_internal_iff {current : Document} {text : String} :
    (∃ target, parse? current text = some (internal target)) ↔
      IsPlain text ∨ IsQualified text ∧ documentNamed text = current := by
  constructor
  · rintro ⟨target, h⟩
    obtain hplain | hqualified := isSome_parse?_iff.1 (Option.isSome_of_eq_some h)
    · exact .inl hplain
    · exact .inr ⟨hqualified, parse?_internal h hqualified.1⟩
  · rintro (hplain | ⟨hqualified, hdocument⟩)
    · obtain ⟨key, hkey, rfl⟩ | rfl | rfl := hplain
      · exact ⟨_, parse?_of_spells (.key hkey)⟩
      · exact ⟨_, parse?_of_spells .self⟩
      · exact ⟨_, parse?_of_spells .base⟩
    · obtain ⟨reference, h⟩ := Option.isSome_iff_exists.1 (isSome_parse?_iff.2 (.inr hqualified))
      obtain ⟨target, rfl⟩ := exists_within_of_namesDocument hqualified.1 h
      exact ⟨target, by rw [h, hdocument, within, if_pos rfl]⟩

/-- An include makes a reference exactly if it is written in one of the forms. The reference is to
    the document that the include stands in for the forms without a document, and for the others
    exactly if it is that document that they name. What is written for a key or for the top-level
    patterns, with or without a document in front, is read as what it was written for. -/
theorem includes_exactly (current : Document) :
    (∀ text, (parse? current text).isSome ↔ IsPlain text ∨ IsQualified text) ∧
    (∀ text, (∃ target, parse? current text = some (internal target)) ↔
      IsPlain text ∨ IsQualified text ∧ documentNamed text = current) ∧
    (∀ key, key ≠ "" → parse? current ("#" ++ key) = some (internal (.key key))) ∧
    ∀ document, IsNamable document →
      (∀ key, key ≠ "" → parse? current (document.id ++ "#" ++ key) =
        some (if document = current then internal (.key key) else external document (.key key))) ∧
      parse? current document.id =
        some (if document = current then internal .root else external document .root) := by
  refine ⟨fun _ => isSome_parse?_iff, fun _ => exists_internal_iff, ?_, fun document h => ⟨?_, ?_⟩⟩
  · exact fun _ hkey => parse?_of_spells (.key hkey)
  · exact fun _ hkey => parse?_of_spells (.entry h hkey)
  · exact parse?_of_spells (.root h)

/-- A key with several `#` in it, of another document and of the document that the include stands
    in. -/
theorem includes_exactly_hashes :
    IsNamable ⟨"source.b"⟩ ∧ IsNamable ⟨"source.a"⟩ ∧
      parse? ⟨"source.a"⟩ "##x#" = some (internal (.key "#x#")) ∧
      parse? ⟨"source.a"⟩ "source.b##x#" = some (external ⟨"source.b"⟩ (.key "#x#")) ∧
      parse? ⟨"source.a"⟩ "source.a##x#" = some (internal (.key "#x#")) := by
  have hother : IsNamable ⟨"source.b"⟩ := ⟨by decide, by decide⟩
  have hown : IsNamable ⟨"source.a"⟩ := ⟨by decide, by decide⟩
  obtain ⟨-, -, hkey, hentries⟩ := includes_exactly ⟨"source.a"⟩
  exact ⟨hother, hown, hkey "#x#" (by decide), (hentries _ hother).1 "#x#" (by decide),
    (hentries _ hown).1 "#x#" (by decide)⟩

end PatternTable.Reference
