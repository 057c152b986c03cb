import PatternTable.Proofs.Identifier
import PatternTable.Proofs.Module.Access
import PatternTable.Proofs.Rule.Plan
import PatternTable.Proofs.Table.Keys
import PatternTable.Proofs.Table.Trail

/-!
# What the definitions of a table are made from

Each definition of a table is the node of a rule: of a repository rule, or of a rule that has the
top-level patterns and nothing else. The keys before it are the ones that count as defined while it
is built.

Results:
* `Table.ofGrammar_ok_iff`: when a grammar has a table, and which table it is then.
* `Grammar.origins_identifiers_nodup`: no two definitions have one identifier.
* `Grammar.keys_of_origin`: the keys that count as defined are those of the definitions before.
-/

namespace PatternTable

/-! ## Origins -/

/-- What a definition is made from. -/
structure Origin where
  identifier : String
  /-- The repository key; none for the top-level patterns. -/
  key : Option String
  rule : Rule
  /-- The keys that are defined before. -/
  keys : List String

namespace Origin

/-- What is known while a definition is built. -/
def context (config : Config) (document : Document) (origin : Origin) : Context :=
  ⟨document, config, origin.keys⟩

/-- The path of a definition. -/
def path (origin : Origin) : AccessPath :=
  ⟨origin.identifier, []⟩

/-- The way through a definition. -/
def visits (origin : Origin) : List Visit :=
  origin.rule.visits origin.path

/-- The definition that is built if no stop on the way fails. -/
def definition (config : Config) (document : Document) (origin : Origin) : Definition :=
  ⟨origin.identifier, origin.key, origin.rule.node (origin.context config document) origin.path⟩

/-- The trail of a definition that is built. -/
def trail (config : Config) (document : Document) (origin : Origin) : Trail :=
  Trail.concat (origin.visits.map (origin.context config document).trail)

/-- Whether no stop on the way through a definition fails. -/
def Succeeds (config : Config) (document : Document) (origin : Origin) : Prop :=
  ∀ visit ∈ origin.visits, (origin.context config document).cause? visit = none

instance (config : Config) (document : Document) (origin : Origin) :
    Decidable (origin.Succeeds config document) :=
  inferInstanceAs (Decidable (∀ visit ∈ origin.visits, _ = none))

/-- Builds a definition, and forgets it. -/
def build (config : Config) (document : Document) (origin : Origin) : Build Unit :=
  (origin.context config document).visitAll origin.visits

end Origin

/-- The origins of repository rules, after those of the keys in `defined`. -/
def keyOrigins (defined : List String) : List (String × Rule) → List Origin
  | [] => []
  | (key, rule) :: entries =>
    ⟨Identifier.camel key, some key, rule, defined⟩ :: keyOrigins (defined ++ [key]) entries

namespace Grammar

/-- The origin of the top-level patterns. -/
def rootOrigin (document : Document) (grammar : Grammar) (patterns : List Rule) : Origin :=
  ⟨document.rootIdentifier, none, { patterns := some patterns }, grammar.ruleKeys⟩

/-- The origins of the definitions of a grammar. -/
def origins (document : Document) (grammar : Grammar) : List Origin :=
  keyOrigins [] (grammar.repository.getD []) ++
    (grammar.patterns.map (grammar.rootOrigin document)).toList

/-- The table of a grammar that has one. -/
def table (config : Config) (document : Document) (grammar : Grammar) : Table where
  document
  definitions := (grammar.origins document).map (Origin.definition config document)
  trail := Trail.concat ((grammar.origins document).map (Origin.trail config document))

end Grammar

/-! ## Building the definitions -/

/-- Builds some definitions, and forgets them. -/
def buildAll (config : Config) (document : Document) (origins : List Origin) : Build Unit :=
  forM origins (Origin.build config document)

theorem keyDefinitions_eq (config : Config) (document : Document) (defined : List String)
    (entries : List (String × Rule)) : keyDefinitions document config defined entries =
      buildAll config document (keyOrigins defined entries) >>= fun _ =>
        pure ((keyOrigins defined entries).map (Origin.definition config document)) := by
  induction entries generalizing defined with
  | nil => rfl
  | cons entry entries ih =>
    rcases entry with ⟨key, rule⟩
    simp only [buildAll] at ih ⊢
    simp only [keyDefinitions, keyOrigins, List.forM_cons, List.map_cons]
    rw [ih, Rule.plan_eq_visits]
    simp only [bind_assoc, pure_bind]
    rfl

theorem rootDefinition_eq (config : Config) (document : Document) (grammar : Grammar)
    (patterns : List Rule) : rootDefinition document config grammar.ruleKeys patterns =
      Origin.build config document (grammar.rootOrigin document patterns) >>= fun _ =>
        pure (Origin.definition config document (grammar.rootOrigin document patterns)) := by
  let context : Context := ⟨document, config, grammar.ruleKeys⟩
  let path : AccessPath := ⟨document.rootIdentifier, []⟩
  have hplan : Rule.plan context { patterns := some patterns } path =
      context.array (Rule.entryPlans context patterns) (path.field .patterns) >>= fun node =>
        pure (.object [.plain "patterns" node]) := by
    have hdefect : Rule.defect? { patterns := some patterns } = none := rfl
    rw [Rule.plan_eq, Rule.entryPlans_eq, Context.ruleObject, Context.ownRule_eq context hdefect]
    simp only [Build.optionally, Option.map_none, Option.map_some, bind_assoc, pure_bind]
    rfl
  have hroot : rootDefinition document config grammar.ruleKeys patterns =
      Rule.plan context { patterns := some patterns } path >>= fun node =>
        pure ⟨document.rootIdentifier, none, node⟩ := by
    rw [hplan, rootDefinition]
    simp only [bind_assoc, pure_bind]
    rfl
  rw [hroot, Rule.plan_eq_visits]
  simp only [bind_assoc, pure_bind]
  rfl

theorem buildAll_append (config : Config) (document : Document) (origins others : List Origin) :
    buildAll config document (origins ++ others) =
      buildAll config document origins >>= fun _ => buildAll config document others :=
  List.forM_append

theorem Grammar.definitions_eq {config : Config} {document : Document} {grammar : Grammar}
    (hrepository : grammar.repository.isSome) (hkeys : grammar.keyCause? document = none) :
    grammar.definitions config document =
      buildAll config document (grammar.origins document) >>= fun _ =>
        pure ((grammar.origins document).map (Origin.definition config document)) := by
  obtain ⟨repository, hrepository⟩ := Option.isSome_iff_exists.1 hrepository
  rw [keyCause?, ruleKeys, hrepository, Option.getD_some] at hkeys
  have hroot := rootDefinition_eq config document grammar
  rw [ruleKeys, hrepository, Option.getD_some] at hroot
  simp only [definitions, hrepository, hkeys]
  rw [keyDefinitions_eq, origins, hrepository, Option.getD_some]
  cases grammar.patterns with
  | none =>
    simp only [Build.optionally, Option.map_none, Option.toList_none, List.append_nil, bind_assoc,
      pure_bind]
  | some patterns =>
    simp only [Build.optionally, Option.map_some, Option.toList_some, buildAll_append,
      List.map_append, List.map_cons, List.map_nil, hroot, bind_assoc, pure_bind]
    simp only [buildAll, List.forM_cons, List.forM_nil, bind_assoc, pure_bind]

/-- What is wrong first on the way through a definition. -/
def Origin.cause? (config : Config) (document : Document) (origin : Origin) : Option Cause :=
  origin.visits.findSome? (origin.context config document).cause?

theorem Origin.cause?_eq_none_iff {config : Config} {document : Document} {origin : Origin} :
    origin.cause? config document = none ↔ origin.Succeeds config document :=
  List.findSome?_eq_none_iff

theorem Origin.build_ok_iff {config : Config} {document : Document} {origin : Origin} :
    (origin.build config document).result = .ok () ↔ origin.Succeeds config document :=
  Context.visitAll_ok_iff

theorem buildAll_result (config : Config) (document : Document) (origins : List Origin) :
    (buildAll config document origins).result =
      Build.outcome (origins.findSome? (Origin.cause? config document)) :=
  Build.result_forM
    (fun origin => (origin.context config document).visitAll_result origin.visits) origins

theorem buildAll_ok_iff {config : Config} {document : Document} {origins : List Origin} :
    (buildAll config document origins).result = .ok () ↔
      ∀ origin ∈ origins, origin.Succeeds config document := by
  rw [buildAll_result, Build.outcome_eq_ok_iff, List.findSome?_eq_none_iff]
  exact forall₂_congr fun _ _ => Origin.cause?_eq_none_iff

theorem trail_buildAll {config : Config} {document : Document} {origins : List Origin}
    (h : ∀ origin ∈ origins, origin.Succeeds config document) :
    (buildAll config document origins).trail =
      Trail.concat (origins.map (Origin.trail config document)) := by
  induction origins with
  | nil => rfl
  | cons origin origins ih =>
    rw [List.forall_mem_cons] at h
    have hrest := ih h.2
    have hfirst : (origin.build config document).trail = origin.trail config document :=
      Context.trail_visitAll h.1
    rw [buildAll] at hrest ⊢
    rw [List.forM_cons, Build.trail_bind_of_ok (Origin.build_ok_iff.2 h.1), hrest, hfirst]
    rfl

theorem Grammar.keyCause?_of_definitions {config : Config} {document : Document}
    {grammar : Grammar} {definitions : List Definition}
    (h : (grammar.definitions config document).result = .ok definitions) :
    grammar.repository.isSome ∧ grammar.keyCause? document = none := by
  rw [Grammar.definitions] at h
  rw [Grammar.keyCause?, ruleKeys]
  cases hrepository : grammar.repository with
  | none => simp [hrepository, Build.fail] at h
  | some repository =>
    refine ⟨rfl, ?_⟩
    rw [Option.getD_some]
    simp only [hrepository] at h
    generalize PatternTable.keyCause? _ _ = cause? at h ⊢
    cases cause? with
    | none => rfl
    | some cause => simp [Build.fail] at h

namespace Table

theorem ofGrammar_ok_iff_definitions {config : Config} {document : Document} {grammar : Grammar}
    {table : Table} : (ofGrammar config document grammar).1 = .ok table ↔
      ∃ definitions, (grammar.definitions config document).result = .ok definitions ∧
        ⟨document, definitions, (grammar.definitions config document).trail⟩ = table := by
  simp only [ofGrammar]
  cases (grammar.definitions config document).result <;> simp

/-- A grammar has a table exactly if its keys make different identifiers and no stop on the way
    through its definitions fails. -/
theorem ofGrammar_ok_iff {config : Config} {document : Document} {grammar : Grammar}
    {table : Table} : (ofGrammar config document grammar).1 = .ok table ↔
      grammar.repository.isSome ∧ grammar.keyCause? document = none ∧
        (∀ origin ∈ grammar.origins document, origin.Succeeds config document) ∧
        grammar.table config document = table := by
  rw [ofGrammar_ok_iff_definitions]
  constructor
  · rintro ⟨definitions, hresult, rfl⟩
    obtain ⟨hrepository, hkeys⟩ := Grammar.keyCause?_of_definitions hresult
    rw [Grammar.definitions_eq hrepository hkeys] at hresult ⊢
    obtain ⟨⟨⟩, hall, hdefinitions⟩ := (Build.result_bind_eq_ok_iff _ _ _).1 hresult
    have hsucceeds := buildAll_ok_iff.1 hall
    refine ⟨hrepository, hkeys, hsucceeds, ?_⟩
    rw [Build.trail_bind_of_ok hall, trail_buildAll hsucceeds]
    rw [Build.result_pure, Except.ok.injEq] at hdefinitions
    rw [Build.trail_pure, Trail.append_empty, ← hdefinitions, Grammar.table]
  · rintro ⟨hrepository, hkeys, hsucceeds, rfl⟩
    have hall := buildAll_ok_iff.2 hsucceeds
    rw [Grammar.definitions_eq hrepository hkeys, Build.trail_bind_of_ok hall,
      trail_buildAll hsucceeds, Build.trail_pure, Trail.append_empty]
    exact ⟨_, (Build.result_bind_eq_ok_iff _ _ _).2 ⟨(), hall, rfl⟩, rfl⟩

end Table

/-! ## Identifiers -/

theorem keyOrigins_map (defined : List String) (entries : List (String × Rule)) :
    (keyOrigins defined entries).map (fun origin => (origin.key, origin.identifier)) =
      (entries.map Prod.fst).map fun key => (some key, Identifier.camel key) := by
  induction entries generalizing defined with
  | nil => rfl
  | cons entry entries ih =>
    rcases entry with ⟨key, rule⟩
    rw [keyOrigins, List.map_cons, List.map_cons, List.map_cons, ih]

theorem keyOrigins_identifiers (defined : List String) (entries : List (String × Rule)) :
    (keyOrigins defined entries).map Origin.identifier =
      (entries.map Prod.fst).map Identifier.camel := by
  simpa [Function.comp_def] using congrArg (List.map Prod.snd) (keyOrigins_map defined entries)

theorem keyOrigins_keys (defined : List String) (entries : List (String × Rule)) :
    (keyOrigins defined entries).filterMap Origin.key = entries.map Prod.fst := by
  have hkeys := congrArg (List.filterMap Prod.fst) (keyOrigins_map defined entries)
  rw [List.filterMap_map, List.filterMap_map] at hkeys
  exact hkeys.trans List.filterMap_some

theorem keys_of_keyOrigins {defined : List String} {entries : List (String × Rule)} {index : Nat}
    {origin : Origin} (h : (keyOrigins defined entries)[index]? = some origin) :
    origin.keys = defined ++ ((keyOrigins defined entries).take index).filterMap Origin.key := by
  induction entries generalizing defined index with
  | nil => simp [keyOrigins] at h
  | cons entry entries ih =>
    rcases entry with ⟨key, rule⟩
    rw [keyOrigins] at h ⊢
    cases index with
    | zero =>
      rw [List.getElem?_cons_zero, Option.some.injEq] at h
      simp [← h]
    | succ index =>
      rw [List.getElem?_cons_succ] at h
      rw [ih h, List.take_succ_cons, List.append_assoc]
      rfl

theorem exists_of_mem_keyOrigins {defined : List String} {entries : List (String × Rule)}
    {origin : Origin} (h : origin ∈ keyOrigins defined entries) :
    ∃ key, origin.key = some key ∧ origin.identifier = Identifier.camel key ∧
      (key, origin.rule) ∈ entries := by
  induction entries generalizing defined with
  | nil => simp [keyOrigins] at h
  | cons entry entries ih =>
    rcases entry with ⟨key, rule⟩
    rw [keyOrigins, List.mem_cons] at h
    obtain rfl | h := h
    · exact ⟨key, rfl, rfl, List.mem_cons_self⟩
    · obtain ⟨other, hkey, hidentifier, hmem⟩ := ih h
      exact ⟨other, hkey, hidentifier, List.mem_cons_of_mem _ hmem⟩

namespace Grammar

variable {document : Document} {grammar : Grammar}

theorem origins_identifiers_nodup (h : grammar.keyCause? document = none) :
    ((grammar.origins document).map Origin.identifier).Nodup := by
  have hnodup : (grammar.ruleKeys.map Identifier.camel).Nodup := camel_nodup h
  rw [origins, List.map_append, keyOrigins_identifiers]
  cases hpatterns : grammar.patterns with
  | none =>
    rw [Option.map_none, Option.toList_none, List.map_nil, List.append_nil]
    exact hnodup
  | some patterns =>
    simp only [Option.map_some, Option.toList_some, List.map_cons, List.map_nil]
    refine List.nodup_append.2 ⟨hnodup, List.nodup_singleton _, ?_⟩
    rintro identifier hmem other hother rfl
    obtain ⟨key, hkey, heq⟩ := List.mem_map.1 hmem
    have hroot := camel_ne_root h (by rw [hpatterns]; rfl) hkey
    exact hroot (heq.trans (List.mem_singleton.1 hother))

/-- The keys that the table of a grammar defines are those of its repository. -/
theorem keys_table (config : Config) (document : Document) (grammar : Grammar) :
    (grammar.table config document).keys = grammar.ruleKeys := by
  have horigins : (grammar.table config document).keys =
      (grammar.origins document).filterMap Origin.key := by
    rw [Table.keys, table, List.filterMap_map]
    rfl
  rw [horigins, origins, List.filterMap_append, keyOrigins_keys]
  cases grammar.patterns <;> simp [rootOrigin, ruleKeys]

theorem identifier_of_origin {origin : Origin} (h : origin ∈ grammar.origins document) :
    origin.identifier =
      ((origin.key.map Target.key).getD .root).identifier document := by
  rw [origins, List.mem_append] at h
  obtain h | h := h
  · obtain ⟨key, hkey, hidentifier, -⟩ := exists_of_mem_keyOrigins h
    rw [hkey, hidentifier]
    rfl
  · cases hpatterns : grammar.patterns with
    | none => simp [hpatterns] at h
    | some patterns =>
      rw [hpatterns, Option.map_some, Option.toList_some, List.mem_singleton] at h
      subst h
      rfl

/-- No access starts in the identifier of a definition. -/
theorem isRoot_of_origin {origin : Origin} (h : origin ∈ grammar.origins document) :
    Access.IsRoot origin.identifier := by
  rw [identifier_of_origin h]
  exact Access.isRoot_of_isAlphanum (Target.identifier_isAlphanum _ _)

theorem keys_of_origin {origin : Origin} {index : Nat}
    (h : (grammar.origins document)[index]? = some origin) :
    origin.keys = ((grammar.origins document).take index).filterMap Origin.key := by
  rw [origins] at h ⊢
  generalize hentries : grammar.repository.getD [] = entries at h ⊢
  by_cases hlt : index < (keyOrigins [] entries).length
  · rw [List.getElem?_append_left hlt] at h
    rw [List.take_append_of_le_length hlt.le, keys_of_keyOrigins h, List.nil_append]
  · rw [Nat.not_lt] at hlt
    rw [List.getElem?_append_right hlt] at h
    cases hpatterns : grammar.patterns with
    | none => simp [hpatterns] at h
    | some patterns =>
      rw [hpatterns, Option.map_some, Option.toList_some, List.getElem?_singleton] at h
      obtain ⟨hindex, rfl⟩ := by simpa using h
      obtain rfl : index = (keyOrigins [] entries).length := by omega
      rw [List.take_left, keyOrigins_keys, ← hentries]
      rfl

/-- The definition of the top-level patterns has no other one after it. -/
theorem key_of_mem_take {origin : Origin} {index : Nat}
    (hindex : index < (grammar.origins document).length)
    (h : origin ∈ (grammar.origins document).take index) : origin.key.isSome := by
  rw [origins] at hindex h
  have hle : index ≤ (keyOrigins [] (grammar.repository.getD [])).length := by
    have hroot : (grammar.patterns.map (grammar.rootOrigin document)).toList.length ≤ 1 :=
      Option.length_toList_le
    rw [List.length_append] at hindex
    omega
  rw [List.take_append_of_le_length hle] at h
  obtain ⟨key, hkey, -⟩ := exists_of_mem_keyOrigins (List.mem_of_mem_take h)
  rw [hkey]
  rfl

end Grammar

end PatternTable
