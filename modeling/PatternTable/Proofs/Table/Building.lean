import PatternTable.Proofs.Rule.Soundness
import PatternTable.Proofs.Table.Patches

/-!
# When a grammar has a table

The repository keys are checked before any rule is built. Then the rules are built, and the first
stop at which something is wrong ends it. So a fault of a key, wherever it is, is reported before
that of a rule.

* `Grammar.Buildable`: what it takes to build a grammar.
* `Grammar.FirstBuildFault`: what is wrong first, with a key or at a stop.

Results:
* `Grammar.definitions_error_iff`: building ends at the first fault.
* `Table.ofGrammar_exactly`: a grammar has a table exactly if it can be built, and otherwise its
  first fault is the cause of the failure.
-/

namespace PatternTable

/-! ## Specification -/

namespace Grammar

/-- Building the definitions of a grammar comes to a rule at a path. -/
def Reaches (document : Document) (grammar : Grammar) (rule : Rule) (path : AccessPath) : Prop :=
  ∃ origin ∈ grammar.origins document, origin.rule.Reaches origin.path rule path

/-- What it takes to build a grammar. -/
structure Buildable (document : Document) (grammar : Grammar) : Prop where
  repository : grammar.repository.isSome
  /-- Every key makes an identifier. -/
  named : ∀ key ∈ grammar.ruleKeys, KeyNames key
  /-- No two keys make the same. -/
  distinct : (grammar.ruleKeys.map Identifier.camel).Nodup
  /-- No key makes that of the top-level patterns. -/
  unrooted : grammar.patterns.isSome →
    document.rootIdentifier ∉ grammar.ruleKeys.map Identifier.camel
  /-- Every rule that is come to can be built. -/
  sound : ∀ rule path, grammar.Reaches document rule path → rule.Sound document

/-- What is wrong first with a grammar: with its keys, or then with its rules. -/
inductive FirstBuildFault (document : Document) (grammar : Grammar) : Cause → Prop where
  | noRepository (h : grammar.repository = none) :
    FirstBuildFault document grammar .missingRepository
  | key {cause : Cause} (hrepository : grammar.repository.isSome)
    (h : FirstFault (grammar.KeyFault document) grammar.ruleKeys cause) :
    FirstBuildFault document grammar cause
  | rule {cause : Cause} (hrepository : grammar.repository.isSome)
    (hkeys : Faultless (grammar.KeyFault document) grammar.ruleKeys)
    (h : FirstFault (fun _ stop => Offence document stop.2) (grammar.stops document) cause) :
    FirstBuildFault document grammar cause

/-! ## Rules -/

variable {document : Document} {grammar : Grammar} {config : Config}

theorem findSome?_stops : (grammar.origins document).findSome? (Origin.cause? config document) =
    (grammar.stops document).findSome? fun stop =>
      (stop.1.context config document).cause? stop.2 := by
  rw [stops]
  induction grammar.origins document with
  | nil => rfl
  | cons origin origins ih =>
    rw [List.flatMap_cons, List.findSome?_append, List.findSome?_map, ← ih, List.findSome?_cons]
    show _ = Option.or (origin.cause? config document) _
    cases origin.cause? config document <;> rfl

/-- Building the rules ends at the first stop at which something is wrong. -/
theorem buildAll_origins_error_iff {cause : Cause} :
    (buildAll config document (grammar.origins document)).result = .error cause ↔
      FirstFault (fun _ stop => Offence document stop.2) (grammar.stops document) cause := by
  rw [buildAll_result, Build.outcome_eq_error_iff, findSome?_stops]
  exact findSome?_eq_some_iff_firstFault
    (fun stop cause => (stop.1.context config document).cause?_eq_some_iff stop.2 cause) _ cause

/-- No stop fails exactly if every rule that is come to is sound. -/
theorem succeeds_iff : (∀ origin ∈ grammar.origins document, origin.Succeeds config document) ↔
    ∀ rule path, grammar.Reaches document rule path → rule.Sound document := by
  constructor
  · rintro h rule path ⟨origin, horigin, hreaches⟩
    exact Rule.sound_of_visits hreaches (h origin horigin)
  · intro h origin horigin
    exact Rule.cause?_visits_iff.2 fun rule path hreaches => h rule path ⟨origin, horigin, hreaches⟩

theorem definitions_result_error_iff {cause : Cause} :
    (grammar.definitions config document).result = .error cause ↔
      (grammar.repository = none ∧ cause = .missingRepository) ∨
        (grammar.repository.isSome ∧ grammar.keyCause? document = some cause) ∨
        (grammar.repository.isSome ∧ grammar.keyCause? document = none ∧
          (buildAll config document (grammar.origins document)).result = .error cause) := by
  -- The cases are those of the definition: no repository, a key at fault, and rules that are built.
  cases hrepository : grammar.repository with
  | none => simp [definitions, hrepository, Build.fail, eq_comm]
  | some repository =>
    have hsome : grammar.repository.isSome := by rw [hrepository]; rfl
    cases hkeys : grammar.keyCause? document with
    | none =>
      rw [definitions_eq hsome hkeys]
      cases hall : (buildAll config document (grammar.origins document)).result with
      | error other => simp [Build.bind_of_error hall]
      | ok =>
        rw [Build.result_bind_of_ok hall, Build.result_pure]
        simp
    | some other =>
      rw [keyCause?, ruleKeys, hrepository, Option.getD_some] at hkeys
      simp [definitions, hrepository, hkeys, Build.fail]

/-- Building a grammar fails with what is wrong with it first. -/
theorem definitions_error_iff {cause : Cause} :
    (grammar.definitions config document).result = .error cause ↔
      grammar.FirstBuildFault document cause := by
  rw [definitions_result_error_iff, keyCause?_eq_some_iff, keyCause?_eq_none_iff,
    buildAll_origins_error_iff]
  constructor
  · rintro (⟨hrepository, rfl⟩ | ⟨hrepository, hkey⟩ | ⟨hrepository, hkeys, hrule⟩)
    · exact .noRepository hrepository
    · exact .key hrepository hkey
    · exact .rule hrepository hkeys hrule
  · rintro (hrepository | ⟨hrepository, hkey⟩ | ⟨hrepository, hkeys, hrule⟩)
    · exact .inl ⟨hrepository, rfl⟩
    · exact .inr (.inl ⟨hrepository, hkey⟩)
    · exact .inr (.inr ⟨hrepository, hkeys, hrule⟩)

theorem buildable_iff (config : Config) : grammar.Buildable document ↔
    grammar.repository.isSome ∧ grammar.keyCause? document = none ∧
      ∀ origin ∈ grammar.origins document, origin.Succeeds config document := by
  rw [keyCause?_eq_none_iff, faultless_keyFault_iff, succeeds_iff]
  constructor
  · rintro ⟨hrepository, hnamed, hdistinct, hunrooted, hsound⟩
    refine ⟨hrepository, ⟨fun key hkey => ⟨hnamed key hkey, fun hpatterns heq => ?_⟩, hdistinct⟩,
      hsound⟩
    exact hunrooted hpatterns (List.mem_map.2 ⟨key, hkey, heq⟩)
  · rintro ⟨hrepository, ⟨halone, hdistinct⟩, hsound⟩
    refine ⟨hrepository, fun key hkey => (halone key hkey).1, hdistinct, ?_, hsound⟩
    intro hpatterns hmem
    obtain ⟨key, hkey, heq⟩ := List.mem_map.1 hmem
    exact (halone key hkey).2 hpatterns heq

end Grammar

/-! ## Tables -/

namespace Table

theorem ofGrammar_error_iff {config : Config} {document : Document} {grammar : Grammar}
    {failure : Failure} : (ofGrammar config document grammar).1 = .error failure ↔
      failure.document = document ∧
        (grammar.definitions config document).result = .error failure.cause := by
  rcases failure with ⟨failed, cause⟩
  simp only [ofGrammar]
  cases (grammar.definitions config document).result <;> simp [eq_comm]

/-- A grammar has a table exactly if it can be built. Otherwise the failure is the document's, and
    its cause is what is wrong first; a cause with a rule has the access path of the rule, capture
    field or include that is at fault. -/
theorem ofGrammar_exactly (config : Config) (document : Document) (grammar : Grammar) :
    ((∃ table, (ofGrammar config document grammar).1 = .ok table) ↔ grammar.Buildable document) ∧
      (∀ failure, (ofGrammar config document grammar).1 = .error failure ↔
        failure.document = document ∧ grammar.FirstBuildFault document failure.cause) ∧
      ∀ stop ∈ grammar.stops document, stop.1.rule.Meets stop.1.path stop.2 := by
  refine ⟨?_, fun failure => ?_, fun stop hstop => ?_⟩
  · rw [Grammar.buildable_iff config]
    constructor
    · rintro ⟨table, htable⟩
      obtain ⟨hrepository, hkeys, hsucceeds, -⟩ := ofGrammar_ok_iff.1 htable
      exact ⟨hrepository, hkeys, hsucceeds⟩
    · rintro ⟨hrepository, hkeys, hsucceeds⟩
      exact ⟨grammar.table config document, ofGrammar_ok_iff.2 ⟨hrepository, hkeys, hsucceeds, rfl⟩⟩
  · rw [ofGrammar_error_iff, Grammar.definitions_error_iff]
  · exact Rule.meets_of_mem_visits (Grammar.mem_stops_iff.1 hstop).2

/-- The includes of an array are resolved before its other rules are built. So the include in second
    place is at fault first, and not the rule in first place that has an end and no start. -/
theorem ofGrammar_exactly_include :
    let document : Document := ⟨"source.list"⟩
    let grammar : Grammar :=
      { repository := some [("list",
          { patterns := some [{ closing := some "x" }, { reference := some "other" }] })] }
    let cause : Cause :=
      .defect ⟨"list", [.field .patterns, .index 1]⟩ (.unrecognizedInclude "other")
    grammar.FirstBuildFault document cause ∧ ∃ stop ∈ grammar.stops document,
      Offence document stop.2 cause ∧ stop.1.rule.Meets stop.1.path stop.2 := by
  intro document grammar cause
  obtain ⟨-, hfailure, hstops⟩ := ofGrammar_exactly {} document grammar
  have hkeys : grammar.keyCause? document = none := by decide +kernel
  have hcause : (ofGrammar {} document grammar).1.map (fun _ => ()) = .error ⟨document, cause⟩ := by
    decide +kernel
  have hfirst : grammar.FirstBuildFault document cause := by
    cases herror : (ofGrammar {} document grammar).1 with
    | ok table => simp [herror, Except.map] at hcause
    | error failure =>
      rw [herror] at hcause
      obtain rfl : failure = ⟨document, cause⟩ := Except.error.inj hcause
      exact ((hfailure _).1 herror).2
  refine ⟨hfirst, ?_⟩
  generalize hfixed : cause = found at hfirst ⊢
  cases hfirst with
  | noRepository => simp [cause] at hfixed
  | key _ h =>
    rw [← Grammar.keyCause?_eq_some_iff, hkeys] at h
    simp at h
  | rule _ _ h =>
    obtain ⟨before, stop, after, hsplit, -, hoffence⟩ := h
    have hmem : stop ∈ grammar.stops document := by
      rw [hsplit]
      exact List.mem_append_right _ List.mem_cons_self
    exact ⟨stop, hmem, hoffence, hstops stop hmem⟩

end Table

end PatternTable
