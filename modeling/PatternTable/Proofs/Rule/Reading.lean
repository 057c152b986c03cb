import PatternTable.Proofs.Module.Access
import PatternTable.Proofs.Rule.Soundness

/-!
# Reading the text of a path in the source

The text of the path of a rule can be read in the grammar. From a rule on, a field and a number lead
to a rule that it holds: to the entry of the array at the index, or to the entry of the capture
field whose key spells the number. An index and the number of a group look alike. But the field
tells which of them is meant, and in a field that can be built no two keys spell one number.

* `Rule.ReadFrom`: reading a text from a rule on comes to another rule.

Results:
* `Rule.exists_readFrom_of_reaches`: a rule that building comes to can be read.
* `Rule.eq_of_readFrom`: from a rule that is built on, the text of the path to a rule inside it
  reads as nothing else.
-/

namespace PatternTable

/-! ## Specification -/

/-- The text of the access to the element or the group with a number in a field. -/
def Field.accessText (field : Field) (number : Nat) : String :=
  "." ++ field.name ++ "!" ++ ("[" ++ toString number ++ "]")

/-- Reading a text from the rule at a path on, one field with a number after the other, comes to a
    rule at another path. -/
inductive Rule.ReadFrom : Rule → AccessPath → String → Rule → AccessPath → Prop where
  | done (rule : Rule) (path : AccessPath) : ReadFrom rule path "" rule path
  /-- The entry of a capture field whose key spells the number. -/
  | group {rule inner target : Rule} {path below : AccessPath} {field : Field}
    {entries : List (String × Rule)} {key : String} {number : Nat} {text : String}
    (hgroups : rule.groups field = some entries) (hentry : (key, inner) ∈ entries)
    (hnumber : SpellsGroup key number)
    (h : ReadFrom inner ((path.field field).group number) text target below) :
    ReadFrom rule path (field.accessText number ++ text) target below
  /-- The entry of the array at the index. -/
  | entry {rule inner target : Rule} {path below : AccessPath} {rules : List Rule} {index : Nat}
    {text : String} (hrules : rule.patterns = some rules) (hget : rules[index]? = some inner)
    (h : ReadFrom inner ((path.field .patterns).index index) text target below) :
    ReadFrom rule path (Field.patterns.accessText index ++ text) target below

/-! ## Texts of paths -/

namespace AccessPath

theorem renderFrom_append (position : AccessPath → Nat → Nat) (root : String)
    (passed steps more : List Step) : renderFrom position root passed (steps ++ more) =
      renderFrom position root passed steps ++
        renderFrom position root (passed ++ steps) more := by
  induction steps generalizing passed with
  | nil =>
    rw [List.nil_append, List.append_nil]
    exact String.empty_append.symm
  | cons step steps ih =>
    simp only [List.cons_append, renderFrom, ih, String.append_assoc, List.append_assoc,
      List.nil_append]

theorem text_group (path : AccessPath) (field : Field) (number : Nat) :
    ((path.field field).group number).text = path.text ++ field.accessText number := by
  simp [text, renderWith, AccessPath.field, group, extend, renderFrom_append, renderFrom,
    Field.accessText, String.append_assoc]

theorem text_index (path : AccessPath) (field : Field) (index : Nat) :
    ((path.field field).index index).text = path.text ++ field.accessText index := by
  simp [text, renderWith, AccessPath.field, AccessPath.index, extend, renderFrom_append, renderFrom,
    Field.accessText, String.append_assoc]

end AccessPath

/-- A text is cut in one way at the first occurrence of a character. -/
theorem Text.append_cons_inj {c : Char} {a b s t : List Char} (ha : c ∉ a) (hb : c ∉ b)
    (h : a ++ c :: s = b ++ c :: t) : a = b ∧ s = t := by
  have hcut := congrArg (cutAt? c) h
  rw [cutAt?_append ha, cutAt?_append hb, Option.some.injEq, Prod.mk.injEq] at hcut
  exact hcut

namespace Field

theorem accessText_append_ne_empty (field : Field) (number : Nat) (text : String) :
    field.accessText number ++ text ≠ "" := by
  intro h
  have hlist := congrArg String.toList h
  simp [accessText] at hlist

/-- A field ends at the first exclamation mark and a number at the first closing bracket. -/
theorem accessText_append_inj {field other : Field} {number number' : Nat} {text text' : String}
    (h : field.accessText number ++ text = other.accessText number' ++ text') :
    field = other ∧ number = number' ∧ text = text' := by
  have hlist (field : Field) (number : Nat) (text : String) :
      (field.accessText number ++ text).toList =
        '.' :: (field.name.toList ++ '!' :: '[' ::
          ((toString number).toList ++ ']' :: text.toList)) := by
    simp [accessText]
  have hname (field : Field) : '!' ∉ field.name.toList := by cases field <;> decide
  have hdigits (number : Nat) : ']' ∉ (toString number).toList := by
    rw [Nat.toString_eq_ofList_toDigits, String.toList_ofList]
    intro hmem
    exact absurd (Nat.isDigit_of_mem_toDigits (by decide) (by decide) hmem) (by decide)
  have heq := congrArg String.toList h
  rw [hlist, hlist, List.cons.injEq] at heq
  obtain ⟨hfield, hrest⟩ := Text.append_cons_inj (hname field) (hname other) heq.2
  rw [List.cons.injEq] at hrest
  obtain ⟨hnumber, htext⟩ := Text.append_cons_inj (hdigits number) (hdigits number') hrest.2
  exact ⟨name_injective (String.toList_injective hfield),
    toString_injective (String.toList_injective hnumber), String.toList_injective htext⟩

end Field

/-! ## Reading -/

namespace Rule

/-- What is read is the rest of the text of the path. -/
theorem ReadFrom.text_eq {rule target : Rule} {path below : AccessPath} {text : String}
    (h : rule.ReadFrom path text target below) : below.text = path.text ++ text := by
  induction h with
  | done rule path => rw [String.append_empty]
  | group _ _ _ _ ih => rw [ih, AccessPath.text_group, String.append_assoc]
  | entry _ _ _ ih => rw [ih, AccessPath.text_index, String.append_assoc]

theorem ReadFrom.root_eq {rule target : Rule} {path below : AccessPath} {text : String}
    (h : rule.ReadFrom path text target below) : below.root = path.root := by
  induction h with
  | done => rfl
  | group _ _ _ _ ih => exact ih
  | entry _ _ _ ih => exact ih

/-- A rule that building comes to can be read. -/
theorem exists_readFrom_of_reaches {rule target : Rule} {path below : AccessPath}
    (h : rule.Reaches path target below) : ∃ text, rule.ReadFrom path text target below := by
  induction h with
  | self rule path => exact ⟨_, .done rule path⟩
  | group _ hgroups hentry hnumber _ ih =>
    obtain ⟨text, hread⟩ := ih
    exact ⟨_, .group hgroups hentry hnumber hread⟩
  | entry _ hrules hget _ ih =>
    obtain ⟨text, hread⟩ := ih
    exact ⟨_, .entry hrules hget hread⟩

/-- If every rule that building comes to is sound, the text of the path to one of them reads as
    nothing else. -/
theorem eq_of_readFrom {document : Document} {rule target other : Rule}
    {path below place : AccessPath} {text : String} (hreaches : rule.Reaches path target below)
    (hsound : ∀ inner within, rule.Reaches path inner within → inner.Sound document)
    (hread : rule.ReadFrom path text other place) (htext : place.text = below.text) :
    other = target ∧ place = below := by
  rw [hread.text_eq] at htext
  -- Along the way that building takes: the text that is left makes the reader take the same step.
  induction hreaches generalizing text with
  | self rule path =>
    obtain rfl : text = "" := by
      rwa [← String.append_right_inj path.text, String.append_empty]
    generalize hempty : "" = text at hread
    cases hread with
    | done => exact ⟨rfl, rfl⟩
    | group => exact absurd hempty.symm (Field.accessText_append_ne_empty _ _ _)
    | entry => exact absurd hempty.symm (Field.accessText_append_ne_empty _ _ _)
  | @group rule inner target path below field entries _ number hrule hgroups hentry hnumber h ih =>
    obtain ⟨rest, hrest⟩ := exists_readFrom_of_reaches h
    rw [hrest.text_eq, AccessPath.text_group, String.append_assoc,
      String.append_right_inj] at htext
    cases hread with
    | done => exact absurd htext.symm (Field.accessText_append_ne_empty _ _ _)
    | @group _ _ _ _ _ _ entries' _ _ _ hgroups' hentry' hnumber' h' =>
      obtain ⟨rfl, rfl, rfl⟩ := Field.accessText_append_inj htext
      obtain rfl : entries = entries' := Option.some.inj (hgroups.symm.trans hgroups')
      have hkeys := (hsound rule path (.self rule path)).groups hrule _ entries hgroups
      obtain rfl := hkeys.eq_of_spells hentry hnumber hentry' hnumber'
      exact ih (fun inner within hinner =>
        hsound inner within (.group hrule hgroups hentry hnumber hinner)) h' hrest.text_eq.symm
    | entry =>
      obtain ⟨rfl, -, -⟩ := Field.accessText_append_inj htext
      simp [groups] at hgroups
  | @entry rule inner target path below rules index hrule hrules hget h ih =>
    obtain ⟨rest, hrest⟩ := exists_readFrom_of_reaches h
    rw [hrest.text_eq, AccessPath.text_index, String.append_assoc,
      String.append_right_inj] at htext
    cases hread with
    | done => exact absurd htext.symm (Field.accessText_append_ne_empty _ _ _)
    | group hgroups' =>
      obtain ⟨rfl, -, -⟩ := Field.accessText_append_inj htext
      simp [groups] at hgroups'
    | @entry _ inner' _ _ _ rules' _ _ hrules' hget' h' =>
      obtain ⟨-, rfl, rfl⟩ := Field.accessText_append_inj htext
      obtain rfl : rules = rules' := Option.some.inj (hrules.symm.trans hrules')
      obtain rfl : inner = inner' := Option.some.inj (hget.symm.trans hget')
      exact ih (fun inner within hinner =>
        hsound inner within (.entry hrule hrules hget hinner)) h' hrest.text_eq.symm

end Rule

end PatternTable
