import Mathlib.Data.List.Nodup
import Mathlib.Data.Nat.Digits.Defs
import PatternTable.Proofs.FirstFault
import PatternTable.Proofs.Rule.Groups

/-!
# Spelled group numbers

A capture key spells a group number in decimal digits. White space around it does not count, and
neither do a plus sign and zeros in front. The keys of a capture field spell different numbers.

* `SpellsGroup`: the number that a key spells.
* `GroupKeys`: what the keys of a capture field have to be.
* `GroupFault`: what is wrong with a key.

Results:
* `groupNumber?_eq_some_iff`: the number of a key is the one that it spells.
* `exists_numbered_iff`, `numbered_eq_error_iff`: the entries of a capture field are numbered unless
  a key is at fault, and the first such key is reported.
* `mem_sortedGroups_of_mem`, `GroupKeys.eq_of_spells`: every entry of a field that can be numbered
  is a group, and the only one with its number.
-/

namespace PatternTable

/-! ## Specification -/

/-- A key spells a group number. -/
def SpellsGroup (key : String) (number : Nat) : Prop :=
  ∃ digits : List Char, digits ≠ [] ∧ (∀ c ∈ digits, c.isDigit) ∧
    (Text.trim key.toList = digits ∨ Text.trim key.toList = '+' :: digits) ∧
    number = Nat.ofDigits 10 (digits.reverse.map fun c => c.toNat - '0'.toNat) ∧
    number < UInt32.size

/-- What the keys of a capture field have to be. -/
structure GroupKeys (keys : List String) : Prop where
  spelled : ∀ key ∈ keys, ∃ number, SpellsGroup key number
  distinct : keys.Pairwise fun other key =>
    ∀ number, SpellsGroup other number → ¬ SpellsGroup key number

/-- What is wrong with a key of a capture field after some others: the fault is the key. -/
inductive GroupFault (before : List String) (key : String) : String → Prop where
  | unspelled (h : ∀ number, ¬ SpellsGroup key number) : GroupFault before key key
  | repeated {other : String} {number : Nat} (hother : other ∈ before)
    (hnumber : SpellsGroup key number) (hsame : SpellsGroup other number) :
    GroupFault before key key

/-! ## Numbers of keys -/

theorem foldl_digits (digits : List Char) :
    digits.foldl (fun n c => n * 10 + (c.toNat - 0x30)) 0 =
      Nat.ofDigits 10 (digits.reverse.map fun c => c.toNat - '0'.toNat) := by
  have hstep : (fun (n : Nat) (c : Char) => n * 10 + (c.toNat - 0x30)) =
      fun n c => c.toNat - '0'.toNat + 10 * n := by
    funext n c
    have hzero : '0'.toNat = 0x30 := rfl
    rw [hzero]
    omega
  rw [hstep, Nat.ofDigits_eq_foldr, List.foldr_map, List.foldr_reverse]
  rfl

/-- A text of digits does not start with a plus sign. -/
theorem dropLeading?_plus_digits {digits : List Char} (hdigits : ∀ c ∈ digits, c.isDigit) :
    Text.dropLeading? ['+'] digits = none := by
  rw [Option.eq_none_iff_forall_ne_some]
  intro rest h
  rw [Text.dropLeading?_eq_some_iff] at h
  have hplus : '+'.isDigit := hdigits '+' (by simp [h])
  exact absurd hplus (by decide)

theorem groupNumber?_eq_some_iff {key : String} {number : Nat} :
    groupNumber? key = some number ↔ SpellsGroup key number := by
  -- The digits are what is left of the trimmed key after one plus sign, if there is one.
  have hdigits (digits : List Char) (h : ∀ c ∈ digits, c.isDigit) :
      (Text.trim key.toList = digits ∨ Text.trim key.toList = '+' :: digits) ↔
        (Text.dropLeading? ['+'] (Text.trim key.toList)).getD (Text.trim key.toList) = digits := by
    cases hplus : Text.dropLeading? ['+'] (Text.trim key.toList) with
    | none =>
      have hne : Text.trim key.toList ≠ '+' :: digits := by
        intro heq
        simp [heq, Text.dropLeading?] at hplus
      simp [hne]
    | some rest =>
      have htrim := Text.dropLeading?_eq_some_iff.1 hplus
      have hne : Text.trim key.toList ≠ digits := by
        intro heq
        rw [heq, dropLeading?_plus_digits h] at hplus
        simp at hplus
      simp only [htrim, List.cons_append, List.nil_append] at hne ⊢
      simp [hne]
  unfold groupNumber? SpellsGroup
  simp only [foldl_digits]
  generalize (Text.dropLeading? ['+'] (Text.trim key.toList)).getD (Text.trim key.toList) = found
    at hdigits
  constructor
  · intro h
    split at h
    · next hfound =>
      simp only [Bool.and_eq_true, Bool.not_eq_true', List.isEmpty_eq_false_iff, List.all_eq_true,
        decide_eq_true_eq] at hfound
      obtain ⟨⟨hne, hall⟩, hlt⟩ := hfound
      rw [Option.some.injEq] at h
      subst h
      exact ⟨found, hne, hall, (hdigits found hall).2 rfl, rfl, hlt⟩
    · simp at h
  · rintro ⟨digits, hne, hall, htrim, rfl, hlt⟩
    obtain rfl := (hdigits digits hall).1 htrim
    rw [if_pos]
    simp only [Bool.and_eq_true, Bool.not_eq_true', List.isEmpty_eq_false_iff, List.all_eq_true,
      decide_eq_true_eq]
    exact ⟨⟨hne, hall⟩, hlt⟩

/-! ## Numbering the keys of a field -/

/-- The key of an entry that is at fault after those of some others. -/
def groupFault? (before : List String) (key : String) : Option String :=
  match groupNumber? key with
  | none => some key
  | some number => if (before.filterMap groupNumber?).contains number then some key else none

theorem groupFault?_eq_some_iff (before : List String) (key found : String) :
    groupFault? before key = some found ↔ GroupFault before key found := by
  unfold groupFault?
  constructor
  · intro h
    cases hnumber : groupNumber? key with
    | none =>
      simp only [hnumber, Option.some.injEq] at h
      subst h
      refine .unspelled fun number hspells => ?_
      rw [groupNumber?_eq_some_iff.2 hspells] at hnumber
      simp at hnumber
    | some number =>
      simp only [hnumber] at h
      split at h
      · next hmem =>
        rw [List.contains_iff_mem, List.mem_filterMap] at hmem
        obtain ⟨other, hother, hsame⟩ := hmem
        rw [Option.some.injEq] at h
        subst h
        exact .repeated hother (groupNumber?_eq_some_iff.1 hnumber)
          (groupNumber?_eq_some_iff.1 hsame)
      · simp at h
  · rintro (hnone | ⟨hother, hnumber, hsame⟩)
    · have hnumber : groupNumber? key = none := by
        rw [Option.eq_none_iff_forall_ne_some]
        exact fun number h => hnone number (groupNumber?_eq_some_iff.1 h)
      rw [hnumber]
    · rw [groupNumber?_eq_some_iff.2 hnumber]
      have hmem := List.mem_filterMap.2 ⟨_, hother, groupNumber?_eq_some_iff.2 hsame⟩
      simp only [List.contains_iff_mem.2 hmem, if_true]

theorem numbered_eq_error_iff_firstFault? {α : Type} (before : List String)
    (entries : List (String × α)) (found : String) :
    numbered (before.filterMap groupNumber?).reverse entries = .error found ↔
      firstFault? groupFault? before (entries.map Prod.fst) = some found := by
  induction entries generalizing before with
  | nil => simp [numbered, firstFault?]
  | cons entry entries ih =>
    rcases entry with ⟨key, a⟩
    rw [numbered, List.map_cons, firstFault?, groupFault?]
    cases hnumber : groupNumber? key with
    | none => simp
    | some number =>
      dsimp only
      rw [List.contains_reverse]
      split
      · simp
      · have hseen : number :: (before.filterMap groupNumber?).reverse =
            ((before ++ [key]).filterMap groupNumber?).reverse := by
          simp [hnumber]
        rw [hseen, ← ih]
        cases numbered ((before ++ [key]).filterMap groupNumber?).reverse entries <;> simp

/-- Numbering stops at the first key at fault. -/
theorem numbered_eq_error_iff {α : Type} (entries : List (String × α)) (found : String) :
    numbered [] entries = .error found ↔ FirstFault GroupFault (entries.map Prod.fst) found := by
  rw [← firstFault?_eq_some_iff fun before _ => groupFault?_eq_some_iff before]
  exact numbered_eq_error_iff_firstFault? [] entries found

theorem forall_not_groupFault_iff (before : List String) (key : String) :
    (∀ found, ¬ GroupFault before key found) ↔ (∃ number, SpellsGroup key number) ∧
      ∀ other ∈ before, ∀ number, SpellsGroup other number → ¬ SpellsGroup key number := by
  constructor
  · intro h
    constructor
    · by_contra hnone
      rw [not_exists] at hnone
      exact h key (.unspelled hnone)
    · intro other hother number hsame hnumber
      exact h key (.repeated hother hnumber hsame)
  · rintro ⟨⟨number, hnumber⟩, hdistinct⟩ found (hnone | ⟨hother, hspells, hsame⟩)
    · exact hnone number hnumber
    · exact hdistinct _ hother _ hsame hspells

theorem faultless_groupFault_iff {keys : List String} :
    Faultless GroupFault keys ↔ GroupKeys keys := by
  rw [faultless_iff_pairwise forall_not_groupFault_iff]
  exact ⟨fun ⟨hspelled, hdistinct⟩ => ⟨hspelled, hdistinct⟩,
    fun ⟨hspelled, hdistinct⟩ => ⟨hspelled, hdistinct⟩⟩

/-- The entries of a field are numbered if their keys spell different numbers. -/
theorem exists_numbered_iff {α : Type} (entries : List (String × α)) :
    (∃ groups, numbered [] entries = .ok groups) ↔ GroupKeys (entries.map Prod.fst) := by
  rw [← faultless_groupFault_iff,
    ← firstFault?_eq_none_iff fun before _ => groupFault?_eq_some_iff before]
  have herror := numbered_eq_error_iff_firstFault? [] entries
  rw [List.filterMap_nil, List.reverse_nil] at herror
  cases hnumbered : numbered [] entries with
  | error key => simp [(herror key).1 hnumbered]
  | ok groups =>
    have hnone : firstFault? groupFault? [] (entries.map Prod.fst) = none := by
      rw [Option.eq_none_iff_forall_ne_some]
      intro found hfound
      rw [(herror found).2 hfound] at hnumbered
      simp at hnumbered
    simp [hnone]

theorem mem_of_numbered {α : Type} {seen : List Nat} {entries : List (String × α)}
    {groups : List (Nat × α)} (h : numbered seen entries = .ok groups) {key : String} {a : α}
    (hmem : (key, a) ∈ entries) {number : Nat} (hnumber : groupNumber? key = some number) :
    (number, a) ∈ groups := by
  induction entries generalizing seen groups with
  | nil => simp at hmem
  | cons entry entries ih =>
    rcases entry with ⟨first, b⟩
    rw [numbered] at h
    cases hfirst : groupNumber? first with
    | none => simp [hfirst] at h
    | some other =>
      simp only [hfirst] at h
      split at h
      · simp at h
      · cases hrest : numbered (other :: seen) entries with
        | error key => simp [hrest] at h
        | ok rest =>
          simp only [hrest, Except.ok.injEq] at h
          subst h
          rw [List.mem_cons, Prod.mk.injEq] at hmem
          obtain ⟨rfl, rfl⟩ | hmem := hmem
          · rw [hfirst, Option.some.injEq] at hnumber
            rw [hnumber]
            exact List.mem_cons_self
          · exact List.mem_cons_of_mem _ (ih hrest hmem)

/-- Every entry of a field whose keys spell different numbers is a group. -/
theorem mem_sortedGroups_of_mem {α : Type} {entries : List (String × α)}
    (hkeys : GroupKeys (entries.map Prod.fst)) {key : String} {a : α} (hmem : (key, a) ∈ entries)
    {number : Nat} (hnumber : SpellsGroup key number) : (number, a) ∈ sortedGroups entries := by
  obtain ⟨groups, hgroups⟩ := (exists_numbered_iff entries).2 hkeys
  rw [sortedGroups, hgroups]
  refine (List.mergeSort_perm groups _).mem_iff.2 ?_
  exact mem_of_numbered hgroups hmem (groupNumber?_eq_some_iff.2 hnumber)

/-- In such a field, one number belongs to one entry. -/
theorem GroupKeys.eq_of_spells {α : Type} {entries : List (String × α)}
    (hkeys : GroupKeys (entries.map Prod.fst)) {key other : String} {a b : α} {number : Nat}
    (ha : (key, a) ∈ entries) (hkey : SpellsGroup key number) (hb : (other, b) ∈ entries)
    (hother : SpellsGroup other number) : a = b := by
  have heq : (number, a) = (number, b) :=
    List.inj_on_of_nodup_map (sortedGroups_nodup entries) (mem_sortedGroups_of_mem hkeys ha hkey)
      (mem_sortedGroups_of_mem hkeys hb hother) rfl
  exact congrArg Prod.snd heq

end PatternTable
