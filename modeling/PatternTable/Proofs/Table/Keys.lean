import PatternTable.Proofs.FirstFault
import PatternTable.Proofs.Lists
import PatternTable.Table.OfGrammar

/-!
# The repository keys of a grammar

Before any rule is built, the repository keys are checked in order: each one has to make an
identifier of its own, and no key may make that of the top-level patterns.

* `KeyNames`: a key makes an identifier.
* `Grammar.KeyFault`: what is wrong with a key.

Results:
* `Grammar.keyCause?_eq_none_iff`, `Grammar.keyCause?_eq_some_iff`: the check of the keys finds the
  first fault.
* `Grammar.faultless_keyFault_iff`: no key is at fault exactly if each makes an identifier of its
  own.
-/

namespace PatternTable

/-! ## Specification -/

/-- A repository key makes an identifier that can be bound. -/
structure KeyNames (key : String) : Prop where
  nonempty : Identifier.camel key ≠ ""
  lead : ¬ Identifier.startsWithDigit (Identifier.camel key).toList
  unreserved : ¬ Identifier.isReserved (Identifier.camel key)

namespace Grammar

/-- What is wrong with a repository key, when the keys in `before` come before it. -/
inductive KeyFault (document : Document) (grammar : Grammar) (before : List String) (key : String) :
    Cause → Prop where
  | invalid (h : Identifier.camel key = "" ∨
      Identifier.startsWithDigit (Identifier.camel key).toList) :
    KeyFault document grammar before key (.defect ⟨key, []⟩ (.invalidKey key))
  | reserved (hnonempty : Identifier.camel key ≠ "")
    (hlead : ¬ Identifier.startsWithDigit (Identifier.camel key).toList)
    (h : Identifier.isReserved (Identifier.camel key)) :
    KeyFault document grammar before key
      (.defect ⟨key, []⟩ (.reservedKey key (Identifier.camel key)))
  | root (hkey : KeyNames key) (hpatterns : grammar.patterns.isSome)
    (h : Identifier.camel key = document.rootIdentifier) :
    KeyFault document grammar before key (.identifierCollision (Identifier.camel key) "$self" key)
  | repeated (hkey : KeyNames key) {first : String} (hfirst : first ∈ before)
    (h : Identifier.camel first = Identifier.camel key) :
    KeyFault document grammar before key (.identifierCollision (Identifier.camel key) first key)

/-! ## Faultless keys -/

variable {document : Document} {grammar : Grammar}

theorem forall_not_keyFault_iff (before : List String) (key : String) :
    (∀ cause, ¬ grammar.KeyFault document before key cause) ↔
      (KeyNames key ∧ (grammar.patterns.isSome → Identifier.camel key ≠ document.rootIdentifier)) ∧
        ∀ first ∈ before, Identifier.camel first ≠ Identifier.camel key := by
  constructor
  · intro h
    have hvalid := not_or.1 fun hinvalid => h _ (.invalid hinvalid)
    have hkey : KeyNames key :=
      ⟨hvalid.1, hvalid.2, fun hreserved => h _ (.reserved hvalid.1 hvalid.2 hreserved)⟩
    refine ⟨⟨hkey, fun hpatterns heq => h _ (.root hkey hpatterns heq)⟩, ?_⟩
    exact fun first hfirst heq => h _ (.repeated hkey hfirst heq)
  · rintro ⟨⟨hkey, hroot⟩, hfresh⟩ cause hfault
    cases hfault with
    | invalid hinvalid => exact hinvalid.elim hkey.nonempty hkey.lead
    | reserved _ _ hreserved => exact hkey.unreserved hreserved
    | root _ hpatterns heq => exact hroot hpatterns heq
    | repeated _ hfirst heq => exact hfresh _ hfirst heq

/-- No key is at fault exactly if each makes an identifier of its own. -/
theorem faultless_keyFault_iff {keys : List String} :
    Faultless (grammar.KeyFault document) keys ↔
      (∀ key ∈ keys, KeyNames key ∧
        (grammar.patterns.isSome → Identifier.camel key ≠ document.rootIdentifier)) ∧
      (keys.map Identifier.camel).Nodup := by
  rw [faultless_iff_pairwise forall_not_keyFault_iff, List.Nodup, List.pairwise_map]

/-! ## The check of the keys -/

/-- What is wrong with the keys of a grammar. -/
def keyCause? (document : Document) (grammar : Grammar) : Option Cause :=
  PatternTable.keyCause?
    (if grammar.patterns.isSome then [(document.rootIdentifier, "$self")] else []) grammar.ruleKeys

/-- The identifiers that belong to top-level patterns, with what is said of them. -/
def rootTaken (document : Document) (grammar : Grammar) : List (String × String) :=
  if grammar.patterns.isSome then [(document.rootIdentifier, "$self")] else []

/-- The identifiers that are taken once some keys have been checked. -/
def taken (document : Document) (grammar : Grammar) (before : List String) :
    List (String × String) :=
  (before.map fun key => (Identifier.camel key, key)).reverse ++ grammar.rootTaken document

theorem mem_taken_iff {before : List String} {identifier name : String} :
    (identifier, name) ∈ grammar.taken document before ↔
      (name ∈ before ∧ Identifier.camel name = identifier) ∨
        (grammar.patterns.isSome ∧ identifier = document.rootIdentifier ∧ name = "$self") := by
  rw [taken, rootTaken, List.mem_append, List.mem_reverse, List.mem_map]
  refine or_congr ?_ ?_
  · constructor
    · rintro ⟨key, hkey, heq⟩
      obtain ⟨rfl, rfl⟩ := Prod.mk.inj heq
      exact ⟨hkey, rfl⟩
    · rintro ⟨hkey, rfl⟩
      exact ⟨name, hkey, rfl⟩
  · cases grammar.patterns <;> simp

theorem taken_nodup {before : List String}
    (h : Faultless (grammar.KeyFault document) before) :
    ((grammar.taken document before).map Prod.fst).Nodup := by
  obtain ⟨halone, hnodup⟩ := faultless_keyFault_iff.1 h
  have hkeys : ((before.map fun key => (Identifier.camel key, key)).map Prod.fst) =
      before.map Identifier.camel := by
    rw [List.map_map]
    rfl
  rw [taken, rootTaken, List.map_append, List.map_reverse, hkeys, List.nodup_append]
  refine ⟨List.nodup_reverse.2 hnodup, ?_, ?_⟩
  · cases grammar.patterns <;> simp
  · intro identifier hmem other hother
    rw [List.mem_reverse, List.mem_map] at hmem
    obtain ⟨key, hkey, rfl⟩ := hmem
    cases hpatterns : grammar.patterns with
    | none => simp [hpatterns] at hother
    | some patterns =>
      have hroot : other = document.rootIdentifier := by simpa [hpatterns] using hother
      rw [hroot]
      exact (halone key hkey).2 (by rw [hpatterns]; rfl)

/-- The check of one key. -/
def keyFault? (document : Document) (grammar : Grammar) (before : List String) (key : String) :
    Option Cause :=
  let identifier := Identifier.camel key
  if identifier.isEmpty || Identifier.startsWithDigit identifier.toList then
    some (.defect ⟨key, []⟩ (.invalidKey key))
  else if Identifier.isReserved identifier then
    some (.defect ⟨key, []⟩ (.reservedKey key identifier))
  else
    ((grammar.taken document before).lookup identifier).map fun first =>
      .identifierCollision identifier first key

theorem keyCause?_taken (before keys : List String) :
    PatternTable.keyCause? (grammar.taken document before) keys =
      firstFault? (grammar.keyFault? document) before keys := by
  induction keys generalizing before with
  | nil => rfl
  | cons key keys ih =>
    have hnext : grammar.taken document (before ++ [key]) =
        (Identifier.camel key, key) :: grammar.taken document before := by
      simp [taken]
    rw [PatternTable.keyCause?, firstFault?, keyFault?, ← ih, hnext]
    split
    · rfl
    · split
      · rfl
      · cases (grammar.taken document before).lookup (Identifier.camel key) <;> rfl

theorem keyFault?_decides :
    Decides (grammar.keyFault? document) (grammar.KeyFault document) := by
  intro before hbefore key cause
  -- The keys before make different identifiers, so a look-up finds whatever has the identifier.
  have hlookup {first : String} : (grammar.taken document before).lookup (Identifier.camel key) =
      some first ↔ _ := (lookup_eq_some_iff_mem (taken_nodup hbefore)).trans mem_taken_iff
  unfold keyFault?
  constructor
  · intro h
    dsimp only at h
    split at h
    · next hinvalid =>
      rw [Option.some.injEq] at h
      rw [← h]
      exact .invalid (by simpa using hinvalid)
    · next hvalid =>
      obtain ⟨hnonempty, hlead⟩ := by simpa using hvalid
      split at h
      · next hreserved =>
        rw [Option.some.injEq] at h
        rw [← h]
        exact .reserved hnonempty (by simpa using hlead) hreserved
      · next hreserved =>
        have hkey : KeyNames key := ⟨hnonempty, by simpa using hlead, hreserved⟩
        obtain ⟨first, hfirst, rfl⟩ := Option.map_eq_some_iff.1 h
        obtain ⟨hmem, heq⟩ | ⟨hpatterns, heq, rfl⟩ := hlookup.1 hfirst
        · exact .repeated hkey hmem heq
        · exact .root hkey hpatterns heq
  · rintro (hinvalid | ⟨hnonempty, hlead, hreserved⟩ | ⟨hkey, hpatterns, heq⟩ | ⟨hkey, hfirst, heq⟩)
    · exact if_pos (by simpa using hinvalid)
    · dsimp only
      rw [if_neg (by simp [hnonempty, hlead]), if_pos hreserved]
    · dsimp only
      rw [if_neg (by simp [hkey.nonempty, hkey.lead]), if_neg hkey.unreserved,
        hlookup.2 (.inr ⟨hpatterns, heq, rfl⟩)]
      rfl
    · dsimp only
      rw [if_neg (by simp [hkey.nonempty, hkey.lead]), if_neg hkey.unreserved,
        hlookup.2 (.inl ⟨hfirst, heq⟩)]
      rfl

theorem keyCause?_eq_firstFault? : grammar.keyCause? document =
    firstFault? (grammar.keyFault? document) [] grammar.ruleKeys :=
  keyCause?_taken [] grammar.ruleKeys

theorem keyCause?_eq_none_iff : grammar.keyCause? document = none ↔
    Faultless (grammar.KeyFault document) grammar.ruleKeys := by
  rw [keyCause?_eq_firstFault?]
  exact firstFault?_eq_none_iff keyFault?_decides _

theorem keyCause?_eq_some_iff {cause : Cause} : grammar.keyCause? document = some cause ↔
    FirstFault (grammar.KeyFault document) grammar.ruleKeys cause := by
  rw [keyCause?_eq_firstFault?]
  exact firstFault?_eq_some_iff keyFault?_decides _ cause

/-- Keys that pass the check make different identifiers. -/
theorem camel_nodup (h : grammar.keyCause? document = none) :
    (grammar.ruleKeys.map Identifier.camel).Nodup :=
  (faultless_keyFault_iff.1 (keyCause?_eq_none_iff.1 h)).2

/-- No key that passes the check makes the identifier of the top-level patterns. -/
theorem camel_ne_root (h : grammar.keyCause? document = none) (hpatterns : grammar.patterns.isSome)
    {key : String} (hkey : key ∈ grammar.ruleKeys) :
    Identifier.camel key ≠ document.rootIdentifier :=
  ((faultless_keyFault_iff.1 (keyCause?_eq_none_iff.1 h)).1 key hkey).2 hpatterns

end Grammar

end PatternTable
