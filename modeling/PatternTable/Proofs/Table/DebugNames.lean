import PatternTable.Proofs.Rule.DebugNames
import PatternTable.Proofs.Rule.Inside
import PatternTable.Proofs.Rule.Reading
import PatternTable.Proofs.Table.Building

/-!
# Tracing debug names

A debug name starts with the identifier of a definition. The rest of it leads from the rule of the
definition to the rule that has the name. No two definitions have one identifier, and from a rule
that is built on the text of a path reads in one way. So a debug name tells where in the grammar its
rule is, and no two nodes share one.

An include with a match has no debug name. The fields beside the include are ignored, which is found
out while the grammar is built.

* `Grammar.Reads`: reading a name in a grammar comes to a rule.
* `Grammar.Makes`: a rule of a definition is built to a node.
* `Table.NamesTrace`: the debug names in a table lead back to the rules of a grammar.

Results:
* `Grammar.eq_of_reads`: the text of the path to a rule reads as nothing else.
* `Table.namesTrace_of_ofGrammar`: the debug names in a table that is built lead back to the
  grammar.
-/

namespace PatternTable

/-! ## Specification -/

namespace Grammar

/-- Reading a name in a grammar comes to a rule at a path. The name starts with an identifier, which
    selects the repository rule that has it, or the top-level patterns. -/
inductive Reads (document : Document) (grammar : Grammar) : String → Rule → AccessPath → Prop where
  | key {key text : String} {rule target : Rule} {below : AccessPath}
    (hentry : (key, rule) ∈ grammar.repository.getD [])
    (h : rule.ReadFrom ⟨Identifier.camel key, []⟩ text target below) :
    Reads document grammar (Identifier.camel key ++ text) target below
  | root {patterns : List Rule} {text : String} {target : Rule} {below : AccessPath}
    (hpatterns : grammar.patterns = some patterns)
    (h : Rule.ReadFrom { patterns := some patterns } ⟨document.rootIdentifier, []⟩ text target
      below) : Reads document grammar (document.rootIdentifier ++ text) target below

/-- Building a definition of a grammar comes to a rule at a path, and the rule is built to a
    node. -/
def Makes (config : Config) (document : Document) (grammar : Grammar) (definition : Definition)
    (rule : Rule) (path : AccessPath) (node : Node) : Prop :=
  ∃ origin ∈ grammar.origins document, origin.definition config document = definition ∧
    origin.rule.Reaches origin.path rule path ∧
      (rule.plan (origin.context config document) path).result = .ok node

end Grammar

/-- The debug names in a table lead back to the rules of a grammar. -/
structure Table.NamesTrace (table : Table) (config : Config) (document : Document)
    (grammar : Grammar) : Prop where
  /-- A node has a debug name exactly if it is built from a rule that is no include and has a match
      or both ends of a span. -/
  carries : ∀ definition ∈ table.definitions, ∀ node ∈ definition.value.nodes,
    node.debugNames ≠ [] ↔ ∃ rule path, grammar.Makes config document definition rule path node ∧
      rule.isReference = false ∧ rule.isMatchOrSpan
  /-- The name is the text of the path of the rule. -/
  named : ∀ definition rule path node, grammar.Makes config document definition rule path node →
    node.debugNames = if rule.isReference = false ∧ rule.isMatchOrSpan then [path.text] else []
  /-- Every rule that is no include has its node in a definition. -/
  made : ∀ rule path, grammar.Reaches document rule path → rule.isReference = false →
    ∃ definition ∈ table.definitions, ∃ node ∈ definition.value.nodes,
      grammar.Makes config document definition rule path node
  /-- The text of the path leads back to the rule, and to no other one. -/
  traced : ∀ definition rule path node, grammar.Makes config document definition rule path node →
    ∀ other place, grammar.Reads document path.text other place ↔ other = rule ∧ place = path
  /-- No two nodes have one name. -/
  distinct : ((table.definitions.flatMap fun definition => definition.value.nodes).flatMap
    Node.debugNames).Nodup

theorem Origin.text_path (origin : Origin) : origin.path.text = origin.identifier :=
  String.append_empty

/-! ## Building a rule on the way -/

namespace Rule

theorem Reaches.trans {rule inner target : Rule} {path within below : AccessPath}
    (h : rule.Reaches path inner within) (hinner : inner.Reaches within target below) :
    rule.Reaches path target below := by
  induction h with
  | self => exact hinner
  | group hrule hgroups hentry hnumber _ ih => exact .group hrule hgroups hentry hnumber (ih hinner)
  | entry hrule hrules hget _ ih => exact .entry hrule hrules hget (ih hinner)

/-- A rule is built to its node if every rule that building comes to is sound. -/
theorem result_plan_of_sound {context : Context} {rule : Rule} {path : AccessPath}
    (h : ∀ target below, rule.Reaches path target below → target.Sound context.document) :
    (rule.plan context path).result = .ok (rule.node context path) := by
  rw [plan_eq_visits]
  exact (Build.result_bind_eq_ok_iff _ _ _).2
    ⟨(), Context.visitAll_ok_iff.2 (cause?_visits_iff.2 h), rfl⟩

end Rule

namespace Grammar

variable {config : Config} {document : Document} {grammar : Grammar}

/-- In a grammar that can be built, the node that a rule makes is its node. -/
theorem makes_iff (hsound : ∀ rule path, grammar.Reaches document rule path → rule.Sound document)
    {definition : Definition} {rule : Rule} {path : AccessPath} {node : Node} :
    grammar.Makes config document definition rule path node ↔
      ∃ origin ∈ grammar.origins document, origin.definition config document = definition ∧
        origin.rule.Reaches origin.path rule path ∧
          rule.node (origin.context config document) path = node := by
  refine exists_congr fun origin => and_congr_right fun horigin =>
    and_congr_right fun _ => and_congr_right fun hreaches => ?_
  rw [Rule.result_plan_of_sound fun target below hbelow =>
    hsound target below ⟨origin, horigin, hreaches.trans hbelow⟩, Except.ok.injEq]

/-! ## Reading a name -/

theorem exists_mem_keyOrigins {defined : List String} {entries : List (String × Rule)}
    {key : String} {rule : Rule} (h : (key, rule) ∈ entries) :
    ∃ origin ∈ keyOrigins defined entries,
      origin.identifier = Identifier.camel key ∧ origin.rule = rule := by
  induction entries generalizing defined with
  | nil => exact absurd h List.not_mem_nil
  | cons entry entries ih =>
    rw [keyOrigins]
    obtain rfl | h := List.mem_cons.1 h
    · exact ⟨_, List.mem_cons_self, rfl, rfl⟩
    · obtain ⟨origin, hmem, horigin⟩ := ih h
      exact ⟨origin, List.mem_cons_of_mem _ hmem, horigin⟩

/-- What an identifier selects is what the definition with this identifier is made from. -/
theorem reads_iff_exists_origin {name : String} {target : Rule} {below : AccessPath} :
    grammar.Reads document name target below ↔ ∃ origin ∈ grammar.origins document, ∃ text,
      name = origin.identifier ++ text ∧ origin.rule.ReadFrom origin.path text target below := by
  constructor
  · rintro (⟨hentry, h⟩ | ⟨hpatterns, h⟩)
    · obtain ⟨origin, hmem, hidentifier, rfl⟩ := exists_mem_keyOrigins hentry
      refine ⟨origin, List.mem_append_left _ hmem, _, by rw [hidentifier], ?_⟩
      rwa [Origin.path, hidentifier]
    · refine ⟨grammar.rootOrigin document _, List.mem_append_right _ ?_, _, rfl, h⟩
      rw [hpatterns]
      exact List.mem_singleton_self _
  · rintro ⟨origin, horigin, text, rfl, h⟩
    obtain hmem | hmem := List.mem_append.1 horigin
    · obtain ⟨key, -, hidentifier, hentry⟩ := exists_of_mem_keyOrigins hmem
      rw [Origin.path] at h
      rw [hidentifier] at h ⊢
      exact .key hentry h
    · cases hpatterns : grammar.patterns with
      | none => simp [hpatterns] at hmem
      | some patterns =>
        rw [hpatterns, Option.map_some, Option.toList_some, List.mem_singleton] at hmem
        subst hmem
        exact .root hpatterns h

/-- What is read starts at the definition, whose identifier has no access in it. -/
theorem root_text_of_readFrom {origin : Origin} (horigin : origin ∈ grammar.origins document)
    {text : String} {target : Rule} {below : AccessPath}
    (h : origin.rule.ReadFrom origin.path text target below) :
    Access.root below.text = origin.identifier := by
  have hroot : below.root = origin.identifier := h.root_eq
  have hisRoot : Access.IsRoot below.root := by
    rw [hroot]
    exact isRoot_of_origin horigin
  rw [AccessPath.text, Access.root_renderWith hisRoot, hroot]

/-- In a grammar that can be built, the text of the path to a rule reads as nothing else. -/
theorem eq_of_reads (hkeys : grammar.keyCause? document = none)
    (hsound : ∀ rule path, grammar.Reaches document rule path → rule.Sound document)
    {rule other : Rule} {path place : AccessPath} (hreaches : grammar.Reaches document rule path)
    (hreads : grammar.Reads document path.text other place) : other = rule ∧ place = path := by
  obtain ⟨origin, horigin, hreaches⟩ := hreaches
  obtain ⟨source, hsource, text, hname, hread⟩ := reads_iff_exists_origin.1 hreads
  have htext : place.text = path.text := by
    rw [hread.text_eq, hname, Origin.text_path]
  obtain ⟨rest, hrest⟩ := Rule.exists_readFrom_of_reaches hreaches
  have hidentifier : source.identifier = origin.identifier := by
    rw [← root_text_of_readFrom hsource hread, htext, root_text_of_readFrom horigin hrest]
  obtain rfl := List.inj_on_of_nodup_map (origins_identifiers_nodup hkeys) hsource horigin
    hidentifier
  exact Rule.eq_of_readFrom hreaches
    (fun inner within hinner => hsound inner within ⟨source, hsource, hinner⟩) hread htext

theorem reads_of_reaches {rule : Rule} {path : AccessPath}
    (hreaches : grammar.Reaches document rule path) :
    grammar.Reads document path.text rule path := by
  obtain ⟨origin, horigin, hreaches⟩ := hreaches
  obtain ⟨text, hread⟩ := Rule.exists_readFrom_of_reaches hreaches
  refine reads_iff_exists_origin.2 ⟨origin, horigin, text, ?_, hread⟩
  rw [hread.text_eq, Origin.text_path]

/-! ## Names of nodes -/

theorem debugNames_of_makes
    (hsound : ∀ rule path, grammar.Reaches document rule path → rule.Sound document)
    {definition : Definition} {rule : Rule} {path : AccessPath} {node : Node}
    (h : grammar.Makes config document definition rule path node) :
    node.debugNames =
      if rule.isReference = false ∧ rule.isMatchOrSpan then [path.text] else [] := by
  obtain ⟨origin, horigin, -, hreaches, rfl⟩ := (makes_iff hsound).1 h
  rw [Rule.debugNames_node]
  cases hrule : rule.isReference with
  | true => simp
  | false => rw [(hsound rule path ⟨origin, horigin, hreaches⟩).hasPattern_eq hrule]

/-- A node that has a debug name is built from a rule. -/
theorem exists_makes_of_debugNames
    (hsound : ∀ rule path, grammar.Reaches document rule path → rule.Sound document)
    {definition : Definition}
    (hdefinition : definition ∈ (grammar.table config document).definitions) {node : Node}
    (hnode : node ∈ definition.value.nodes) (hnames : node.debugNames ≠ []) :
    ∃ rule path, grammar.Makes config document definition rule path node := by
  obtain ⟨origin, horigin, rfl⟩ := List.mem_map.1 hdefinition
  obtain ⟨rule, path, hreaches, heq⟩ := Rule.exists_reaches_of_debugNames hnode hnames
  exact ⟨rule, path, (makes_iff hsound).2 ⟨origin, horigin, rfl, hreaches, heq⟩⟩

/-- The debug names in a table are the texts of the paths of the rules with a pattern. -/
theorem debugNames_table (config : Config) (document : Document) (grammar : Grammar) :
    ((grammar.table config document).definitions.flatMap
        fun definition => definition.value.nodes).flatMap Node.debugNames =
      ((grammar.stops document).filterMap fun stop => stop.2.named?).map AccessPath.text := by
  rw [table, List.flatMap_map, List.flatMap_assoc, stops, List.filterMap_flatMap, List.map_flatMap]
  refine List.flatMap_congr fun origin _ => ?_
  rw [List.filterMap_map]
  exact origin.rule.debugNames_nodes_node origin.path

/-- The paths of different stops with a name are different. -/
theorem named_nodup (hkeys : grammar.keyCause? document = none) :
    ((grammar.stops document).filterMap fun stop => stop.2.named?).Nodup := by
  have hnodup : ((grammar.stops document).filterMap fun stop =>
      stop.2.named?.map fun path => (path, (none : Option Nat))).Nodup := by
    refine nodup_filterMap_of_imp (sites_nodup hkeys) fun stop site heq => ?_
    obtain ⟨path, hpath, rfl⟩ := Option.map_eq_some_iff.1 heq
    obtain ⟨rule, hvisit, -⟩ := Visit.named?_eq_some_iff.1 hpath
    rw [hvisit, Visit.site?]
  rw [← List.map_filterMap] at hnodup
  exact List.Nodup.of_map _ hnodup

theorem exists_reaches_of_named {path : AccessPath}
    (h : path ∈ (grammar.stops document).filterMap fun stop => stop.2.named?) :
    ∃ rule, grammar.Reaches document rule path := by
  obtain ⟨⟨origin, visit⟩, hstop, hpath⟩ := List.mem_filterMap.1 h
  obtain ⟨rule, rfl, -⟩ := Visit.named?_eq_some_iff.1 hpath
  obtain ⟨horigin, hmem⟩ := mem_stops_iff.1 hstop
  exact ⟨rule, origin, horigin, (Rule.meets_of_mem_visits hmem).1⟩

end Grammar

namespace Table

/-- In a table that is built, a node has a debug name exactly if it is built from a rule that is no
    include and has a match or both ends of a span. Read in the grammar, the name leads back to this
    rule only, and no other node has it. -/
theorem namesTrace_of_ofGrammar {config : Config} {document : Document} {grammar : Grammar}
    {table : Table} (hbuild : (ofGrammar config document grammar).1 = .ok table) :
    table.NamesTrace config document grammar := by
  obtain ⟨-, hkeys, hsucceeds, rfl⟩ := ofGrammar_ok_iff.1 hbuild
  have hsound := Grammar.succeeds_iff.1 hsucceeds
  constructor
  · intro definition hdefinition node hnode
    constructor
    · intro hne
      obtain ⟨rule, path, hmakes⟩ :=
        Grammar.exists_makes_of_debugNames hsound hdefinition hnode hne
      rw [Grammar.debugNames_of_makes hsound hmakes] at hne
      exact ⟨rule, path, hmakes, of_not_not fun hrule => hne (if_neg hrule)⟩
    · rintro ⟨rule, path, hmakes, hrule⟩
      rw [Grammar.debugNames_of_makes hsound hmakes, if_pos hrule]
      exact List.cons_ne_nil _ _
  · exact fun definition rule path node => Grammar.debugNames_of_makes hsound
  · rintro rule path ⟨origin, horigin, hreaches⟩ hrule
    refine ⟨_, List.mem_map_of_mem horigin, _, Rule.node_mem_nodes_of_reaches hreaches hrule
      fun inner within hinner => hsound inner within ⟨origin, horigin, hinner⟩, ?_⟩
    exact (Grammar.makes_iff hsound).2 ⟨origin, horigin, rfl, hreaches, rfl⟩
  · rintro definition rule path node ⟨origin, horigin, -, hreaches, -⟩ other place
    have hreaches : grammar.Reaches document rule path := ⟨origin, horigin, hreaches⟩
    constructor
    · exact Grammar.eq_of_reads hkeys hsound hreaches
    · rintro ⟨rfl, rfl⟩
      exact Grammar.reads_of_reaches hreaches
  · rw [Grammar.debugNames_table]
    refine (Grammar.named_nodup hkeys).map_on fun path hpath place hplace htext => ?_
    obtain ⟨rule, hreaches⟩ := Grammar.exists_reaches_of_named hpath
    obtain ⟨other, hother⟩ := Grammar.exists_reaches_of_named hplace
    have hreads : grammar.Reads document path.text other place := by
      rw [htext]
      exact Grammar.reads_of_reaches hother
    exact (Grammar.eq_of_reads hkeys hsound hreaches hreads).2.symm

/-- A span in second place of an array, with two groups of which one is spelled with a plus sign and
    a zero. -/
theorem namesTrace_of_ofGrammar_groups :
    let document : Document := ⟨"source.list"⟩
    let first : Rule := { single := some "a" }
    let second : Rule := { single := some "b" }
    let span : Rule :=
      { opening := some "(.)(.)", closing := some "$"
        openingCaptures := some [("2", second), (" +01", first)] }
    let item : Rule := { patterns := some [{ reference := some "#word" }, span] }
    let grammar : Grammar :=
      { repository := some [("list-item", item), ("word", { single := some "w" })]
        patterns := some [{ reference := some "#list-item" }] }
    let table := grammar.table {} document
    (ofGrammar {} document grammar).1 = .ok table ∧ table.NamesTrace {} document grammar ∧
      ∀ other place,
        grammar.Reads document "listItem.patterns![1].beginCaptures![1]" other place ↔
          other = first ∧ place =
            ⟨"listItem", [.field .patterns, .index 1, .field .openingCaptures, .group 1]⟩ := by
  intro document first second span item grammar table
  have hsound : ∀ origin ∈ grammar.origins document, ∀ target ∈ origin.rule.inside,
      target.Sound document := by
    decide +kernel
  have hbuild : (ofGrammar {} document grammar).1 = .ok table :=
    ofGrammar_ok_iff.2 ⟨rfl, by decide +kernel, fun origin horigin =>
      Rule.cause?_visits_of_inside (hsound origin horigin) _, rfl⟩
  have htrace := namesTrace_of_ofGrammar hbuild
  have hspan : [{ reference := some "#word" }, span][1]? = some span := rfl
  have hgroups : span.groups .openingCaptures = some [("2", second), (" +01", first)] := rfl
  have hnumber : SpellsGroup " +01" 1 := groupNumber?_eq_some_iff.1 (by decide +kernel)
  have hreaches : grammar.Reaches document first
      ⟨"listItem", [.field .patterns, .index 1, .field .openingCaptures, .group 1]⟩ :=
    ⟨⟨"listItem", some "list-item", item, []⟩, List.mem_cons_self,
      .entry rfl rfl hspan (.group rfl hgroups (List.mem_cons_of_mem _ List.mem_cons_self) hnumber
        (.self first _))⟩
  obtain ⟨definition, -, node, -, hmakes⟩ := htrace.made first _ hreaches rfl
  exact ⟨hbuild, htrace, htrace.traced definition first _ node hmakes⟩

/-- An include with a match beside it. The match is ignored, and the node has no debug name. -/
theorem not_carries_include :
    let document : Document := ⟨"source.renpy"⟩
    let rule : Rule := { reference := some "#b", single := some "x" }
    let grammar : Grammar := { repository := some [("b", { single := some "b" }), ("a", rule)] }
    let table := grammar.table {} document
    (ofGrammar {} document grammar).1 = .ok table ∧
      ∃ definition ∈ table.definitions, ∃ node ∈ definition.value.nodes,
        grammar.Makes {} document definition rule ⟨"a", []⟩ node ∧ rule.isMatchOrSpan ∧
          node.debugNames = [] := by
  intro document rule grammar table
  have hsucceeds : ∀ origin ∈ grammar.origins document, origin.Succeeds {} document := by
    decide +kernel
  have hbuild : (ofGrammar {} document grammar).1 = .ok table :=
    ofGrammar_ok_iff.2 ⟨rfl, by decide +kernel, hsucceeds, rfl⟩
  let origin : Origin := ⟨"a", some "a", rule, ["b"]⟩
  have horigin : origin ∈ grammar.origins document := List.mem_cons_of_mem _ List.mem_cons_self
  refine ⟨hbuild, origin.definition {} document, List.mem_map_of_mem horigin,
    rule.node (origin.context {} document) origin.path, ?_, ?_, rfl, ?_⟩
  · rw [Origin.definition, Rule.nodes_node_of_isReference rfl]
    exact List.mem_cons_self
  · exact (Grammar.makes_iff (Grammar.succeeds_iff.1 hsucceeds)).2
      ⟨origin, horigin, rfl, .self rule _, rfl⟩
  · rw [Rule.debugNames_node, if_neg (by decide)]

end Table

end PatternTable
