import Mathlib.Data.List.Forall2
import PatternTable.Proofs.Rule.GroupNumbers

/-!
# The order and the spelling of capture keys

The groups of a capture field are put in the order of their numbers. So it does not matter in which
order its entries come, nor which of its spellings each number has.

* `Respelled`: two keys spell one number.

Results:
* `Respelled.groupNumber?_eq`: keys that are respelled have one number, if any.
* `groupKeys_iff_of_perm`, `sortedGroups_eq_of_perm`: the numbers and values of the entries decide
  which groups there are, in whichever order they come.
* `forall₂_sortedGroups`: entries with the same keys make groups with the same numbers.
-/

namespace PatternTable

/-! ## Specification -/

/-- A key has some digits, with white space around them, and with a plus sign and zeros in front. -/
def SpelledBy (digits : List Char) (key : String) : Prop :=
  ∃ before sign zeros after, key.toList = before ++ (sign ++ (List.replicate zeros '0' ++ digits) ++
      after) ∧
    (∀ c ∈ before, Text.isBlank c) ∧ (sign = [] ∨ sign = ['+']) ∧ ∀ c ∈ after, Text.isBlank c

/-- A key has another spelling: the two are the same, or they have the same digits. -/
inductive Respelled : String → String → Prop where
  | same (key : String) : Respelled key key
  | digits {digits : List Char} {key other : String} (hne : digits ≠ [])
    (hdigits : ∀ c ∈ digits, c.isDigit) (hkey : SpelledBy digits key)
    (hother : SpelledBy digits other) : Respelled key other

/-! ## Spellings -/

theorem Text.isBlank_of_isDigit {c : Char} (h : c.isDigit) : isBlank c = false := by
  have hrange : '0'.val ≤ c.val ∧ c.val ≤ '9'.val := by
    simpa [Char.isDigit] using h
  rw [UInt32.le_iff_toNat_le, UInt32.le_iff_toNat_le] at hrange
  have hzero : '0'.val.toNat = 48 := rfl
  have hnine : '9'.val.toNat = 57 := rfl
  have hnat : c.toNat = c.val.toNat := rfl
  rw [isBlank, blanks, Bool.eq_false_iff, Ne, List.contains_iff_mem]
  simp only [List.mem_cons, List.not_mem_nil, or_false]
  omega

/-- Trimming takes away the blanks around a text without blanks. -/
theorem Text.trim_append {before core after : List Char} (hbefore : ∀ c ∈ before, isBlank c)
    (hne : core ≠ []) (hcore : ∀ c ∈ core, isBlank c = false) (hafter : ∀ c ∈ after, isBlank c) :
    trim (before ++ (core ++ after)) = core := by
  have hhead : (core ++ after).dropWhile isBlank = core ++ after := by
    obtain ⟨c, rest, rfl⟩ := List.exists_cons_of_ne_nil hne
    rw [List.cons_append, List.dropWhile_cons_of_neg (by simp [hcore c])]
  have hlast : (after.reverse ++ core.reverse).dropWhile isBlank = core.reverse := by
    rw [List.dropWhile_append_of_pos (by simpa using hafter)]
    obtain ⟨c, rest, hreverse⟩ := List.exists_cons_of_ne_nil (List.reverse_ne_nil_iff.2 hne)
    have hmem : c ∈ core := List.mem_reverse.1 (hreverse ▸ List.mem_cons_self)
    rw [hreverse, List.dropWhile_cons_of_neg (by simp [hcore c hmem])]
  rw [trim, List.dropWhile_append_of_pos hbefore, hhead, trimEnd, List.reverse_append, hlast,
    List.reverse_reverse]

/-- Zeros in front of some digits do not count. -/
theorem ofDigits_leadingZeros (zeros : Nat) (digits : List Char) :
    Nat.ofDigits 10 ((List.replicate zeros '0' ++ digits).reverse.map
        fun c => c.toNat - '0'.toNat) =
      Nat.ofDigits 10 (digits.reverse.map fun c => c.toNat - '0'.toNat) := by
  have hzeros : (List.replicate zeros '0').reverse.map (fun c => c.toNat - '0'.toNat) =
      List.replicate zeros 0 := by
    rw [List.reverse_replicate, List.map_replicate]
    rfl
  rw [List.reverse_append, List.map_append, hzeros, Nat.ofDigits_append_replicate_zero]

/-- The number that a key spells is that of its digits. -/
theorem SpelledBy.spellsGroup_iff {digits : List Char} {key : String} (h : SpelledBy digits key)
    (hne : digits ≠ []) (hdigits : ∀ c ∈ digits, c.isDigit) {number : Nat} :
    SpellsGroup key number ↔
      number = Nat.ofDigits 10 (digits.reverse.map fun c => c.toNat - '0'.toNat) ∧
        number < UInt32.size := by
  obtain ⟨before, sign, zeros, after, hkey, hbefore, hsign, hafter⟩ := h
  have hall : ∀ c ∈ List.replicate zeros '0' ++ digits, c.isDigit := by
    intro c hc
    obtain hc | hc := List.mem_append.1 hc
    · rw [List.eq_of_mem_replicate hc]
      rfl
    · exact hdigits c hc
  have hsome : List.replicate zeros '0' ++ digits ≠ [] := fun hnil =>
    hne (List.append_eq_nil_iff.1 hnil).2
  have htrim : Text.trim key.toList = sign ++ (List.replicate zeros '0' ++ digits) := by
    rw [hkey]
    refine Text.trim_append hbefore (fun hnil => hsome (List.append_eq_nil_iff.1 hnil).2) ?_ hafter
    intro c hc
    obtain hc | hc := List.mem_append.1 hc
    · obtain rfl | rfl := hsign
      · exact absurd hc List.not_mem_nil
      · rw [List.mem_singleton.1 hc]
        decide
    · exact Text.isBlank_of_isDigit (hall c hc)
  rw [← ofDigits_leadingZeros zeros digits]
  -- The plus sign is no digit, so the digits of the key are what follows it.
  have hplus {digits rest : List Char} (hdigits : ∀ c ∈ digits, c.isDigit) :
      digits ≠ '+' :: rest := by
    rintro rfl
    exact absurd (hdigits '+' List.mem_cons_self) (by decide)
  constructor
  · rintro ⟨found, -, hfound, hspelled, rfl, hlt⟩
    suffices found = List.replicate zeros '0' ++ digits by
      subst this
      exact ⟨rfl, hlt⟩
    rw [htrim] at hspelled
    obtain rfl | rfl := hsign
    · obtain heq | heq := hspelled
      · exact heq.symm
      · exact absurd heq (hplus hall)
    · obtain heq | heq := hspelled
      · exact absurd heq.symm (hplus hfound)
      · exact (List.cons.inj heq).2.symm
  · rintro ⟨hnumber, hlt⟩
    refine ⟨_, hsome, hall, ?_, hnumber, hlt⟩
    rw [htrim]
    obtain rfl | rfl := hsign
    · exact .inl rfl
    · exact .inr rfl

/-- Keys that are respelled have one number, if any. -/
theorem Respelled.groupNumber?_eq {key other : String} (h : Respelled key other) :
    groupNumber? key = groupNumber? other := by
  cases h with
  | same => rfl
  | digits hne hdigits hkey hother =>
    refine Option.ext fun number => ?_
    rw [groupNumber?_eq_some_iff, groupNumber?_eq_some_iff, hkey.spellsGroup_iff hne hdigits,
      hother.spellsGroup_iff hne hdigits]

/-! ## The groups of a field -/

theorem isSome_groupNumber?_iff {key : String} :
    (groupNumber? key).isSome ↔ ∃ number, SpellsGroup key number := by
  rw [Option.isSome_iff_exists]
  exact exists_congr fun _ => groupNumber?_eq_some_iff

theorem groupKeys_iff {keys : List String} : GroupKeys keys ↔
    (∀ number ∈ keys.map groupNumber?, number.isSome) ∧ (keys.map groupNumber?).Nodup := by
  rw [List.forall_mem_map, List.Nodup, List.pairwise_map]
  simp only [isSome_groupNumber?_iff]
  have hdistinct {other key : String} (hother : ∃ number, SpellsGroup other number) :
      (∀ number, SpellsGroup other number → ¬ SpellsGroup key number) ↔
        groupNumber? other ≠ groupNumber? key := by
    obtain ⟨number, hnumber⟩ := hother
    have hsome := groupNumber?_eq_some_iff.2 hnumber
    constructor
    · intro h heq
      exact h number hnumber (groupNumber?_eq_some_iff.1 (heq ▸ hsome))
    · intro hne found hfound hsame
      exact hne ((groupNumber?_eq_some_iff.2 hfound).trans (groupNumber?_eq_some_iff.2 hsame).symm)
  constructor
  · rintro ⟨hspelled, hpairwise⟩
    exact ⟨hspelled, hpairwise.imp_of_mem fun hother _ => (hdistinct (hspelled _ hother)).1⟩
  · rintro ⟨hspelled, hpairwise⟩
    exact ⟨hspelled, hpairwise.imp_of_mem fun hother _ => (hdistinct (hspelled _ hother)).2⟩

/-- The numbers of keys decide whether they can be those of a field, in whichever order. -/
theorem groupKeys_iff_of_perm {keys others : List String}
    (h : (keys.map groupNumber?).Perm (others.map groupNumber?)) :
    GroupKeys keys ↔ GroupKeys others := by
  rw [groupKeys_iff, groupKeys_iff, h.nodup_iff]
  exact and_congr_left fun _ => forall_congr' fun number => by rw [h.mem_iff]

theorem eq_filterMap_of_numbered {α : Type} {seen : List Nat} {entries : List (String × α)}
    {groups : List (Nat × α)} (h : numbered seen entries = .ok groups) :
    groups = (entries.map fun entry => (groupNumber? entry.1, entry.2)).filterMap fun entry =>
      entry.1.map fun number => (number, entry.2) := by
  induction entries generalizing seen groups with
  | nil =>
    rw [numbered, Except.ok.injEq] at h
    exact h.symm
  | cons entry entries ih =>
    rcases entry with ⟨key, a⟩
    simp only [numbered] at h
    cases hnumber : groupNumber? key with
    | none => simp [hnumber] at h
    | some number =>
      simp only [hnumber] at h
      split at h
      · simp at h
      · cases hrest : numbered (number :: seen) entries with
        | error key => simp [hrest] at h
        | ok rest =>
          simp only [hrest, Except.ok.injEq] at h
          rw [← h, ih hrest]
          simp [hnumber]

/-- A field whose keys spell different numbers has all its entries as groups. -/
theorem sortedGroups_perm {α : Type} {entries : List (String × α)}
    (h : GroupKeys (entries.map Prod.fst)) : (sortedGroups entries).Perm
      ((entries.map fun entry => (groupNumber? entry.1, entry.2)).filterMap fun entry =>
        entry.1.map fun number => (number, entry.2)) := by
  obtain ⟨groups, hgroups⟩ := (exists_numbered_iff entries).2 h
  rw [sortedGroups, hgroups, ← eq_filterMap_of_numbered hgroups]
  exact List.mergeSort_perm groups _

theorem sortedGroups_of_not_groupKeys {α : Type} {entries : List (String × α)}
    (h : ¬ GroupKeys (entries.map Prod.fst)) : sortedGroups entries = [] := by
  rw [← exists_numbered_iff] at h
  rw [sortedGroups]
  cases hnumbered : numbered [] entries with
  | error key => rfl
  | ok groups => exact absurd ⟨groups, hnumbered⟩ h

/-- The order of the entries does not matter, and neither does the spelling of their numbers. -/
theorem sortedGroups_eq_of_perm {α : Type} {entries others : List (String × α)}
    (h : (entries.map fun entry => (groupNumber? entry.1, entry.2)).Perm
      (others.map fun entry => (groupNumber? entry.1, entry.2))) :
    sortedGroups entries = sortedGroups others := by
  have hkeys : GroupKeys (entries.map Prod.fst) ↔ GroupKeys (others.map Prod.fst) := by
    refine groupKeys_iff_of_perm ?_
    simpa only [List.map_map, Function.comp_def] using h.map Prod.fst
  by_cases hentries : GroupKeys (entries.map Prod.fst)
  · have hperm : (sortedGroups entries).Perm (sortedGroups others) :=
      ((sortedGroups_perm hentries).trans (h.filterMap _)).trans
        (sortedGroups_perm (hkeys.1 hentries)).symm
    -- No two groups have one number, so there is one way to put them in order.
    exact hperm.eq_of_pairwise (fun _ _ _ _ hlt hgt => absurd hlt (Nat.lt_asymm hgt))
      (sortedGroups_pairwise_lt entries) (sortedGroups_pairwise_lt others)
  · rw [sortedGroups_of_not_groupKeys hentries,
      sortedGroups_of_not_groupKeys (mt hkeys.2 hentries)]

/-- Entries with the same keys and related values are those of pairs of values. -/
theorem exists_pairs_of_forall₂ {α β : Type} {r : α → β → Prop} {entries : List (String × α)}
    {others : List (String × β)}
    (h : List.Forall₂ (fun entry other => entry.1 = other.1 ∧ r entry.2 other.2) entries others) :
    ∃ pairs : List (String × (α × β)), entries = pairs.map (fun pair => (pair.1, pair.2.1)) ∧
      others = pairs.map (fun pair => (pair.1, pair.2.2)) ∧
      ∀ pair ∈ pairs, r pair.2.1 pair.2.2 := by
  induction h with
  | nil => exact ⟨[], rfl, rfl, by simp⟩
  | @cons entry other _ _ hentry _ ih =>
    rcases entry with ⟨key, a⟩
    rcases other with ⟨_, b⟩
    obtain ⟨rfl, hr⟩ := hentry
    obtain ⟨pairs, rfl, rfl, hpairs⟩ := ih
    exact ⟨(key, a, b) :: pairs, rfl, rfl, List.forall_mem_cons.2 ⟨hr, hpairs⟩⟩

/-- Entries with the same keys and related values make groups with the same numbers and related
    values. -/
theorem forall₂_sortedGroups {α β : Type} {r : α → β → Prop} {entries : List (String × α)}
    {others : List (String × β)}
    (h : List.Forall₂ (fun entry other => entry.1 = other.1 ∧ r entry.2 other.2) entries others) :
    List.Forall₂ (fun group other => group.1 = other.1 ∧ r group.2 other.2) (sortedGroups entries)
      (sortedGroups others) := by
  obtain ⟨pairs, rfl, rfl, hpairs⟩ := exists_pairs_of_forall₂ h
  rw [sortedGroups_map, sortedGroups_map, List.forall₂_map_left_iff, List.forall₂_map_right_iff,
    List.forall₂_same]
  intro group hgroup
  obtain ⟨key, hmem, -⟩ := mem_sortedGroups hgroup
  exact ⟨rfl, hpairs _ hmem⟩

end PatternTable
