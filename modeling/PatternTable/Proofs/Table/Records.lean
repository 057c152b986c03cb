import PatternTable.Artifact
import PatternTable.Proofs.Rule.Scopes
import PatternTable.Proofs.Table.Patches

/-!
# What a table records of its scope names

While a table is built, every scope name that is met is recorded with its token type, and there is a
warning if it has none. The tree is made beside this, and the enumerations that the module imports
are those of the recorded token types.

* `Grammar.scopes` are the scope names of a grammar in the order in which its rules are built.
* `Table.Uses`: a token type of an enumeration is in one of the trees.
* `RecordsScopes`: the scope names, the warnings and the enumerations are those of the rules.

Results:
* `Table.recordsScopes_of_ofGrammar`: whatever the grammar, its table records its scope names.
-/

namespace PatternTable

/-! ## Specification -/

/-- The scope names of a grammar: those of its repository rules, then those of its top-level
    patterns. -/
def Grammar.scopes (document : Document) (grammar : Grammar) : List ScopeUse :=
  ((grammar.repository.getD []).flatMap fun (key, rule) =>
      rule.scopes ⟨Identifier.camel key, []⟩) ++
    Rule.scopes { patterns := grammar.patterns } ⟨document.rootIdentifier, []⟩

/-- The token type of a scope name. -/
def ScopeUse.token (config : Config) (use : ScopeUse) : Scope.Token :=
  config.classifier.classify use.scope

/-- Whether a scope name has no token type. -/
def ScopeUse.isUnresolved (config : Config) (use : ScopeUse) : Bool :=
  !(use.token config).isResolved

/-- The warning about a scope name that has no token type. -/
def ScopeUse.warning (document : Document) (use : ScopeUse) : Finding :=
  ⟨.unclassifiedScope, document, use.path.text, some use.scope⟩

/-- An expression is a member of an enumeration. -/
def Scope.Category.Has (category : Category) (expression : String) : Prop :=
  ∃ member, expression = category.typeName ++ "." ++ member

namespace Table

/-- The token types in the definitions, in the order in which they are written. -/
def treeTokens (table : Table) : List String :=
  table.definitions.flatMap fun definition => definition.value.tokens

/-- A definition has a token type of an enumeration. -/
def Uses (table : Table) (category : Scope.Category) : Prop :=
  ∃ expression ∈ table.treeTokens, category.Has expression

end Table

/-- What a table and its trees have of scope names are those of the rules that it is built from. -/
structure RecordsScopes (config : Config) (grammar : Grammar) (table : Table) : Prop where
  /-- Every scope name is recorded once, in the order of the first uses. -/
  scopes : InFirstOrder ((grammar.scopes table.document).map ScopeUse.scope)
    (table.scopes.map Prod.fst)
  classified : ∀ entry ∈ table.scopes, entry.2 = config.classifier.classify entry.1
  /-- There is a warning for every use of a scope name without token type. -/
  warnings : (table.trail.findings.filter fun finding => finding.kind == .unclassifiedScope) =
    ((grammar.scopes table.document).filter (ScopeUse.isUnresolved config)).map
      (ScopeUse.warning table.document)
  /-- The trees have a token type for every use of a scope name. -/
  tokens : table.treeTokens =
    (grammar.scopes table.document).map fun use => (use.token config).expression
  /-- The enumerations are those of the token types in the trees. -/
  categories : ∀ category, category ∈ table.categories ↔ table.Uses category
  /-- The module imports them, and nothing else with them. -/
  imports : ∀ exports linkage, table.link exports = .ok linkage →
    ∃ used : List Scope.Category, used.Sublist Scope.Category.all ∧ (∀ category, category ∈ used ↔
        linkage.table.Uses category) ∧
      Artifact.importLines config linkage =
        (if used.isEmpty then []
          else [Artifact.importNames (used.map Scope.Category.typeName) config.tokensModule]) ++
        (if linkage.table.definitions.isEmpty then []
          else [Artifact.importNames ["TokenPattern"] config.typesModule]) ++
        linkage.imports.map (Artifact.importLine config)

/-! ## Enumerations -/

namespace Scope

theorem Category.dot_not_mem_typeName (category : Category) :
    '.' ∉ category.typeName.toList := by
  cases category <;> decide

theorem Category.typeName_injective : Function.Injective typeName := by
  intro category other h
  cases category <;> cases other <;> first | rfl | exact absurd h (by decide)

/-- The expression of a token type is a member of its own enumeration only. -/
theorem Category.has_expression_iff {category : Category} {token : Token} :
    category.Has token.expression ↔ category = token.category := by
  constructor
  · rintro ⟨member, h⟩
    have hcut (category : Category) (member : String) :
        Text.cutAt? '.' (category.typeName ++ "." ++ member).toList =
          some (category.typeName.toList, member.toList) := by
      rw [String.toList_append, String.toList_append, List.append_assoc]
      exact Text.cutAt?_append category.dot_not_mem_typeName member.toList
    have hparts := hcut token.category token.member
    rw [← Token.expression, h, hcut, Option.some.injEq, Prod.mk.injEq, String.toList_inj] at hparts
    exact typeName_injective hparts.1
  · rintro rfl
    exact ⟨token.member, rfl⟩

end Scope

/-! ## The trail of a stop -/

/-- The warnings about scope names without token type. -/
def Trail.unclassified (trail : Trail) : List Finding :=
  trail.findings.filter fun finding => finding.kind == .unclassifiedScope

theorem Trail.unclassified_append (a b : Trail) :
    (a ++ b).unclassified = a.unclassified ++ b.unclassified := by
  rw [unclassified, findings_append, List.filter_append]
  rfl

theorem Trail.unclassified_concat (trails : List Trail) :
    (concat trails).unclassified = trails.flatMap unclassified :=
  part_concat rfl unclassified_append trails

namespace Context

theorem tokens_ownTrail (context : Context) (rule : Rule) (path : AccessPath) :
    (context.ownTrail rule path).tokens =
      rule.ownScopes.map fun scope => (scope, context.config.classifier.classify scope) := by
  have htoken (scope? : Option String) :
      ((scope?.map (context.tokenTrail path)).getD {}).tokens =
        scope?.toList.map fun scope => (scope, context.config.classifier.classify scope) := by
    cases scope? <;> rfl
  have hpattern (pattern? : Option String) :
      ((pattern?.map context.patternTrail).getD {}).tokens = [] := by
    cases pattern? <;> rfl
  simp only [ownTrail, Trail.tokens_append, htoken, hpattern, List.append_nil, Rule.ownScopes,
    List.map_append]
  split <;> exact List.append_nil _

theorem unclassified_ownTrail (context : Context) (rule : Rule) (path : AccessPath) :
    (context.ownTrail rule path).unclassified =
      ((rule.ownScopes.map (ScopeUse.mk path)).filter (ScopeUse.isUnresolved context.config)).map
        (ScopeUse.warning context.document) := by
  have htoken (scope? : Option String) :
      ((scope?.map (context.tokenTrail path)).getD {}).unclassified =
        ((scope?.toList.map (ScopeUse.mk path)).filter (ScopeUse.isUnresolved context.config)).map
          (ScopeUse.warning context.document) := by
    cases scope? with
    | none => rfl
    | some scope =>
      rw [Option.map_some, Option.getD_some, Option.toList_some, List.map_singleton,
        Trail.unclassified, tokenTrail]
      cases hresolved : (context.config.classifier.classify scope).isResolved <;>
        simp [ScopeUse.isUnresolved, ScopeUse.token, hresolved, ScopeUse.warning]
  have hpattern (pattern? : Option String) :
      ((pattern?.map context.patternTrail).getD {}).unclassified = [] := by
    cases pattern? <;> rfl
  simp only [ownTrail, Trail.unclassified_append, htoken, hpattern, List.append_nil,
    Rule.ownScopes, List.map_append, List.filter_append]
  split <;> exact List.append_nil _

variable {context : Context}

theorem trail_of_rule {path : AccessPath} {rule : Rule}
    (h : context.cause? (.rule path rule) = none) :
    context.trail (.rule path rule) = context.ownTrail rule path := by
  rw [cause?, Option.map_eq_none_iff] at h
  rw [trail, h]
  rfl

theorem tokens_trail {visit : Visit} (h : context.cause? visit = none) :
    (context.trail visit).tokens =
      visit.scopes.map fun use => (use.scope, use.token context.config) := by
  cases visit with
  | rule path rule =>
    rw [trail_of_rule h, tokens_ownTrail, Visit.scopes, List.map_map]
    rfl
  | groups path keys => rfl
  | entry array index entry => rfl
  | filled array entries => rfl

theorem unclassified_trail {visit : Visit} (h : context.cause? visit = none) :
    (context.trail visit).unclassified =
      (visit.scopes.filter (ScopeUse.isUnresolved context.config)).map
        (ScopeUse.warning context.document) := by
  cases visit with
  | rule path rule => rw [trail_of_rule h, unclassified_ownTrail, Visit.scopes]
  | groups path keys => rfl
  | entry array index entry =>
    -- The fields beside an include are reported as well, but as another kind of finding.
    rw [trail, entryTrail, Trail.unclassified]
    cases entry.reference with
    | none => rfl
    | some spelling =>
      dsimp only
      split <;> rfl
  | filled array entries => rfl

end Context

/-! ## Tables -/

namespace Grammar

variable {config : Config} {document : Document} {grammar : Grammar}

theorem flatMap_keyOrigins_scopes (defined : List String) (entries : List (String × Rule)) :
    ((keyOrigins defined entries).flatMap fun origin => origin.rule.scopes origin.path) =
      entries.flatMap fun (key, rule) => rule.scopes ⟨Identifier.camel key, []⟩ := by
  induction entries generalizing defined with
  | nil => rfl
  | cons entry entries ih =>
    rw [keyOrigins, List.flatMap_cons, List.flatMap_cons, ih]
    rfl

theorem scopes_eq_flatMap_origins : grammar.scopes document =
    (grammar.origins document).flatMap fun origin => origin.rule.scopes origin.path := by
  rw [scopes, origins, List.flatMap_append, flatMap_keyOrigins_scopes]
  refine congrArg _ ?_
  cases hpatterns : grammar.patterns with
  | none =>
    have hrule : Rule.isReference { patterns := none } = false := rfl
    rw [Rule.scopes_of_not_isReference hrule]
    simp [Rule.ownScopes, Rule.groups, Field.captureFields]
  | some patterns => exact (List.append_nil _).symm

/-- The scope names of a grammar are met at the stops on the way through its definitions. -/
theorem flatMap_stops_scopes :
    (grammar.stops document).flatMap (fun stop => stop.2.scopes) = grammar.scopes document := by
  rw [scopes_eq_flatMap_origins, stops, List.flatMap_assoc]
  refine List.flatMap_congr fun origin _ => ?_
  rw [List.flatMap_map]
  exact origin.rule.flatMap_visits_scopes origin.path

/-- The trees have the token types of the scope names, whether the building succeeds or not. -/
theorem treeTokens_table : (grammar.table config document).treeTokens =
    (grammar.scopes document).map fun use => (use.token config).expression := by
  rw [Table.treeTokens, table, List.flatMap_map, scopes_eq_flatMap_origins, List.map_flatMap]
  exact List.flatMap_congr fun origin _ => Rule.tokens_node _ origin.rule origin.path

theorem uses_table_iff {category : Scope.Category} :
    (grammar.table config document).Uses category ↔
      ∃ use ∈ grammar.scopes document, category = (use.token config).category := by
  rw [Table.Uses, treeTokens_table]
  simp only [List.mem_map, exists_exists_and_eq_and, Scope.Category.has_expression_iff]

variable (hsucceeds : ∀ origin ∈ grammar.origins document, origin.Succeeds config document)
include hsucceeds

theorem cause?_of_mem_stops {stop : Origin × Visit} (h : stop ∈ grammar.stops document) :
    (stop.1.context config document).cause? stop.2 = none :=
  have hstop := mem_stops_iff.1 h
  hsucceeds stop.1 hstop.1 stop.2 hstop.2

theorem tokens_table : (grammar.table config document).trail.tokens =
    (grammar.scopes document).map fun use => (use.scope, use.token config) := by
  have hstops : ∀ stop ∈ grammar.stops document,
      ((stop.1.context config document).trail stop.2).tokens =
        stop.2.scopes.map fun use => (use.scope, use.token config) :=
    fun stop hstop => Context.tokens_trail (cause?_of_mem_stops hsucceeds hstop)
  rw [trail_table, Trail.tokens_concat, List.flatMap_map, List.flatMap_congr hstops,
    ← List.map_flatMap, flatMap_stops_scopes]

theorem unclassified_table : (grammar.table config document).trail.unclassified =
    ((grammar.scopes document).filter (ScopeUse.isUnresolved config)).map
      (ScopeUse.warning document) := by
  have hstops : ∀ stop ∈ grammar.stops document,
      ((stop.1.context config document).trail stop.2).unclassified =
        (stop.2.scopes.filter (ScopeUse.isUnresolved config)).map (ScopeUse.warning document) :=
    fun stop hstop => Context.unclassified_trail (cause?_of_mem_stops hsucceeds hstop)
  rw [trail_table, Trail.unclassified_concat, List.flatMap_map, List.flatMap_congr hstops,
    ← List.map_flatMap, ← List.filter_flatMap, flatMap_stops_scopes]

theorem scopes_table : (grammar.table config document).scopes =
    ((grammar.scopes document).map ScopeUse.scope).eraseDups.map fun scope =>
      (scope, config.classifier.classify scope) := by
  have hpairs : (grammar.scopes document).map (fun use => (use.scope, use.token config)) =
      ((grammar.scopes document).map ScopeUse.scope).map fun scope =>
        (scope, config.classifier.classify scope) := by
    rw [List.map_map]
    rfl
  have hinjective : Function.Injective fun scope =>
      (scope, config.classifier.classify scope) := fun _ _ h => (Prod.mk.inj h).1
  rw [Table.scopes, tokens_table hsucceeds, hpairs, eraseDups_map hinjective]

theorem mem_categories_table_iff {category : Scope.Category} :
    category ∈ (grammar.table config document).categories ↔
      ∃ use ∈ grammar.scopes document, category = (use.token config).category := by
  rw [Table.categories, List.mem_eraseDups, tokens_table hsucceeds, List.map_map, List.mem_map]
  simp only [Function.comp_apply, eq_comm]

end Grammar

namespace Table

/-- Whatever the grammar that a table is built from, the table records its scope names. -/
theorem recordsScopes_of_ofGrammar {config : Config} {document : Document} {grammar : Grammar}
    {table : Table} (hbuild : (ofGrammar config document grammar).1 = .ok table) :
    RecordsScopes config grammar table := by
  obtain ⟨-, -, hsucceeds, rfl⟩ := ofGrammar_ok_iff.1 hbuild
  have hscopes := Grammar.scopes_table hsucceeds
  have hcategories (category : Scope.Category) :
      category ∈ (grammar.table config document).categories ↔
        (grammar.table config document).Uses category := by
    rw [Grammar.mem_categories_table_iff hsucceeds, Grammar.uses_table_iff]
  constructor
  · have hfirsts : (grammar.table config document).scopes.map Prod.fst =
        ((grammar.scopes document).map ScopeUse.scope).eraseDups := by
      rw [hscopes, List.map_map]
      exact List.map_id _
    rw [hfirsts]
    exact inFirstOrder_eraseDups _
  · intro entry hentry
    rw [hscopes] at hentry
    obtain ⟨scope, -, rfl⟩ := List.mem_map.1 hentry
    rfl
  · exact Grammar.unclassified_table hsucceeds
  · exact Grammar.treeTokens_table
  · exact hcategories
  · intro exports linkage hlink
    obtain ⟨-, rfl⟩ := (link_ok_iff _ _ _).1 hlink
    refine ⟨Artifact.usedCategories (grammar.table config document), List.filter_sublist,
      fun category => ?_, rfl⟩
    have hall : category ∈ Scope.Category.all := by cases category <;> decide
    rw [Artifact.usedCategories, List.mem_filter, List.contains_iff_mem, hcategories,
      and_iff_right hall]
    rfl

/-- Scope names that are used again or have no token type, in a group and in an array inside it, and
    one beside an include. -/
theorem recordsScopes_of_ofGrammar_kinds :
    let grammar : Grammar :=
      { repository := some [("word", {
          name := some "keyword.control.flow"
          contentName := some "nothing"
          opening := some "(a)"
          closing := some "(b)"
          openingCaptures := some [("1", { name := some "string.quoted" })]
          captures := some [("1", {
            name := some "nothing"
            patterns := some [{ reference := some "#word", name := some "comment.line" },
              { name := some "keyword.control.flow" }] })] })]
        patterns := some [{ name := some "constant.numeric", single := some "x" }] }
    let table := grammar.table {} ⟨"source.list"⟩
    (ofGrammar {} ⟨"source.list"⟩ grammar).1 = .ok table ∧
      (grammar.scopes ⟨"source.list"⟩).map (fun use => (use.path.text, use.scope)) =
        [("word", "keyword.control.flow"), ("word", "nothing"),
          ("word.captures![1]", "nothing"),
          ("word.captures![1].patterns![1]", "keyword.control.flow"),
          ("word.beginCaptures![1]", "string.quoted"),
          ("listRoot.patterns![0]", "constant.numeric")] ∧
      table.scopes.map Prod.fst =
        ["keyword.control.flow", "nothing", "string.quoted", "constant.numeric"] ∧
      table.trail.findings.map (fun finding => (finding.kind, finding.path)) =
        [(.unclassifiedScope, "word"), (.unclassifiedScope, "word.captures![1]"),
          (.ignoredFields, "word.captures![1].patterns![0]")] ∧
      table.categories = [.region, .literal] ∧ RecordsScopes {} grammar table := by
  intro grammar table
  have hbuild : (ofGrammar {} ⟨"source.list"⟩ grammar).1 = .ok table :=
    ofGrammar_ok_iff.2 ⟨rfl, by decide +kernel, by decide +kernel, rfl⟩
  exact ⟨hbuild, by decide +kernel, by decide +kernel, by decide +kernel, by decide +kernel,
    recordsScopes_of_ofGrammar hbuild⟩

end Table

end PatternTable
