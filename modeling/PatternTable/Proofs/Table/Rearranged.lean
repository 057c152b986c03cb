import PatternTable.Proofs.Rule.Inside
import PatternTable.Proofs.Rule.Rearranged
import PatternTable.Proofs.Rule.Subtrees
import PatternTable.Proofs.Table.Origins

/-!
# Rearranging the captures of a grammar

In every capture field of a grammar, in whichever rule it is, the entries may be put in another
order and the group numbers respelled. If the grammar has a table, the other one has the same, with
the same trees, patches, arrays, scope names and findings. If it has none, neither has the other;
but the failures may differ, for it is the first key at fault that is reported.

* `Grammar.Rearranged`: one grammar is another one with the captures rearranged.
* `Node.GroupsAscend`: the capture fields in a tree have their groups in ascending order.

Results:
* `Rule.groupsAscend_node`: so they have in the tree of a rule, whatever the order of its captures.
* `Table.ofGrammar_rearranged`: rearranged grammars have one table.
-/

namespace PatternTable

/-! ## Specification -/

/-- A grammar has the rules of another one under the same keys, with the captures rearranged. -/
structure Grammar.Rearranged (grammar other : Grammar) : Prop where
  scopeName : grammar.scopeName = other.scopeName
  name : grammar.name = other.name
  repository : Option.Rel
    (List.Forall₂ fun entry other => entry.1 = other.1 ∧ entry.2.Rearranged other.2)
    grammar.repository other.repository
  patterns : Option.Rel (List.Forall₂ Rule.Rearranged) grammar.patterns other.patterns

/-- Wherever an object in a tree has a capture field, the members of the field are named after group
    numbers in ascending order. -/
def Node.GroupsAscend (tree : Node) : Prop :=
  ∀ items, .object items ∈ tree.nodes → ∀ field ∈ Field.captureFields, ∀ value remark,
    .member field.name value remark ∈ items →
      ∃ groups : List (Nat × Node), value = .object (groups.map fun group =>
        .plain (toString group.1) group.2) ∧ groups.Pairwise fun a b => a.1 < b.1

/-! ## The order of groups -/

namespace Rule

variable {context : Context}

/-- A capture field of a rule has its groups in ascending order. -/
theorem exists_ascending_of_mem_items {rule : Rule} {path : AccessPath} {items : List Item}
    (hitems : rule.node context path = .object items) {field : Field} {value : Node}
    {remark : Option String} (hmem : .member field.name value remark ∈ items)
    (hfield : field ∈ Field.captureFields) : ∃ groups : List (Nat × Node),
      value = .object (groups.map fun group => .plain (toString group.1) group.2) ∧
        groups.Pairwise fun a b => a.1 < b.1 := by
  have hne : field.name ≠ "patterns" := by
    revert hfield
    cases field <;> decide
  cases hrule : rule.isReference with
  | true =>
    rw [node_of_isReference hrule, Node.object.injEq] at hitems
    rw [← hitems, List.mem_singleton, Item.plain, Item.member.injEq] at hmem
    exact absurd hmem.1 hne
  | false =>
    rw [node_of_not_isReference hrule, Node.object.injEq] at hitems
    rw [← hitems, List.mem_append, List.mem_append, List.mem_flatMap] at hmem
    obtain (hmem | ⟨place, -, hmem⟩) | hmem := hmem
    · exact absurd rfl (Context.ownItems_key hmem field)
    · rw [Option.mem_toList, Option.map_eq_some_iff] at hmem
      obtain ⟨entries, -, heq⟩ := hmem
      simp only [Item.plain, Item.member.injEq] at heq
      rw [← heq.2.1, Context.groupsNode, sortedGroups_map, List.map_map]
      refine ⟨(sortedGroups entries).map fun group =>
        (group.1, group.2.node context ((path.field place).group group.1)), ?_, ?_⟩
      · rw [List.map_map]
        rfl
      · rw [List.pairwise_map]
        exact sortedGroups_pairwise_lt entries
    · rw [Option.mem_toList, Option.map_eq_some_iff] at hmem
      obtain ⟨rules, -, heq⟩ := hmem
      simp only [Item.plain, Item.member.injEq] at heq
      exact absurd heq.1.symm hne

/-- The members of a capture field are named after numbers, and so no capture fields themselves. -/
theorem not_mem_groupsNode {path : AccessPath} {entries : List (String × (AccessPath → Node))}
    {items : List Item} (hitems : Context.groupsNode path entries = .object items) {field : Field}
    {value : Node} {remark : Option String} : .member field.name value remark ∉ items := by
  intro hmem
  rw [Context.groupsNode, Node.object.injEq] at hitems
  rw [← hitems, List.mem_map] at hmem
  obtain ⟨⟨number, node⟩, -, heq⟩ := hmem
  simp only [Item.plain, Item.member.injEq] at heq
  exact toString_ne_of_not_digits (by cases field <;> decide) number heq.1

/-- In the tree of a rule, every capture field has its groups in ascending order. -/
theorem groupsAscend_node (rule : Rule) (path : AccessPath) :
    (rule.node context path).GroupsAscend := by
  intro items hobject field hfield value remark hmem
  revert hmem
  refine forall_mem_nodes_node (p := fun node => ∀ items, node = .object items →
    .member field.name value remark ∈ items → _) ?_ ?_ ?_ ?_ _ hobject items rfl
  · rintro node hleaf items rfl
    exact hleaf.elim
  · rintro elements items ⟨⟩
  · exact fun path entries items hitems hmem => absurd hmem (not_mem_groupsNode hitems)
  · exact fun target below _ items hitems hmem => exists_ascending_of_mem_items hitems hmem hfield

end Rule

/-! ## Definitions -/

/-- Two definitions are made from rules that are built alike. -/
structure Origin.Alike (origin other : Origin) : Prop where
  identifier : origin.identifier = other.identifier
  key : origin.key = other.key
  rule : origin.rule.Alike other.rule
  keys : origin.keys = other.keys

namespace Origin.Alike

variable {origin other : Origin}

theorem definition_eq (h : origin.Alike other) (config : Config) (document : Document) :
    origin.definition config document = other.definition config document := by
  rcases h with ⟨hidentifier, hkey, hrule, hkeys⟩
  rw [Origin.definition, Origin.definition, Origin.context, Origin.context, Origin.path,
    Origin.path, hidentifier, hkey, hkeys, hrule.node]

theorem sameWay (h : origin.Alike other) (config : Config) (document : Document) :
    (origin.context config document).SameWay origin.visits other.visits := by
  rw [Origin.visits, Origin.visits, Origin.path, Origin.path, h.identifier]
  exact h.rule.way _ _

theorem succeeds_iff (h : origin.Alike other) (config : Config) (document : Document) :
    origin.Succeeds config document ↔ other.Succeeds config document := by
  have hcontext : origin.context config document = other.context config document := by
    rw [Origin.context, Origin.context, h.keys]
  rw [Origin.Succeeds, Origin.Succeeds, ← hcontext]
  exact (h.sameWay config document).ends

theorem trail_eq (h : origin.Alike other) (config : Config) (document : Document) :
    origin.trail config document = other.trail config document := by
  have hcontext : origin.context config document = other.context config document := by
    rw [Origin.context, Origin.context, h.keys]
  rw [Origin.trail, Origin.trail, ← hcontext]
  exact (h.sameWay config document).trail

end Origin.Alike

theorem keyOrigins_alike {entries others : List (String × Rule)}
    (h : List.Forall₂ (fun entry other => entry.1 = other.1 ∧ entry.2.Rearranged other.2) entries
      others) (defined : List String) :
    List.Forall₂ Origin.Alike (keyOrigins defined entries) (keyOrigins defined others) := by
  induction h generalizing defined with
  | nil => exact .nil
  | @cons entry other _ _ hentry _ ih =>
    rcases entry with ⟨key, rule⟩
    rcases other with ⟨_, rule'⟩
    obtain ⟨rfl, hrule⟩ := hentry
    exact .cons ⟨rfl, rfl, hrule.alike, rfl⟩ (ih (defined ++ [key]))

namespace Grammar.Rearranged

variable {grammar other : Grammar} {document : Document}

theorem getD_repository (h : grammar.Rearranged other) :
    List.Forall₂ (fun entry other => entry.1 = other.1 ∧ entry.2.Rearranged other.2)
      (grammar.repository.getD []) (other.repository.getD []) := by
  have hrepository := h.repository
  generalize grammar.repository = entries, other.repository = others at hrepository
  cases hrepository with
  | none => exact .nil
  | some hentries => exact hentries

theorem ruleKeys_eq (h : grammar.Rearranged other) : grammar.ruleKeys = other.ruleKeys :=
  map_congr_forall₂ h.getD_repository fun _ _ hentry => hentry.1

theorem keyCause?_eq (h : grammar.Rearranged other) :
    grammar.keyCause? document = other.keyCause? document := by
  rw [keyCause?, keyCause?, h.ruleKeys_eq, isSome_congr_rel h.patterns]

/-- The definitions of the two grammars are made from rules that are built alike. -/
theorem origins_alike (h : grammar.Rearranged other) (document : Document) :
    List.Forall₂ Origin.Alike (grammar.origins document) (other.origins document) := by
  have hpatterns := h.patterns
  rw [origins, origins]
  refine List.rel_append (keyOrigins_alike h.getD_repository []) ?_
  generalize grammar.patterns = rules, other.patterns = others at hpatterns
  cases hpatterns with
  | none => exact .nil
  | some hrules =>
    refine .cons ⟨rfl, rfl, ?_, h.ruleKeys_eq⟩ .nil
    refine .of_parts rfl (fun field => ?_) (.some (hrules.imp fun _ _ hrule => hrule.alike))
    cases field <;> exact .none

theorem succeeds_iff (h : grammar.Rearranged other) (config : Config) :
    (∀ origin ∈ grammar.origins document, origin.Succeeds config document) ↔
      ∀ origin ∈ other.origins document, origin.Succeeds config document := by
  have halike := h.origins_alike document
  generalize grammar.origins document = origins, other.origins document = others at halike
  induction halike with
  | nil => exact Iff.rfl
  | cons horigin _ ih =>
    rw [List.forall_mem_cons, List.forall_mem_cons]
    exact and_congr (horigin.succeeds_iff config document) ih

theorem table_eq (h : grammar.Rearranged other) (config : Config) :
    grammar.table config document = other.table config document := by
  have halike := h.origins_alike document
  rw [table, table,
    map_congr_forall₂ halike fun _ _ horigin => horigin.definition_eq config document,
    map_congr_forall₂ halike fun _ _ horigin => horigin.trail_eq config document]

end Grammar.Rearranged

namespace Table

/-- Whatever a grammar is, rearranging its captures makes no difference to its table: either both
    grammars have one and the same table or neither has any. In the table, the groups of captures
    are in ascending order. -/
theorem ofGrammar_rearranged {config : Config} {document : Document} {grammar other : Grammar}
    (h : grammar.Rearranged other) :
    (∀ table, (ofGrammar config document grammar).1 = .ok table ↔
      (ofGrammar config document other).1 = .ok table) ∧
    ∀ table, (ofGrammar config document grammar).1 = .ok table →
      ∀ definition ∈ table.definitions, definition.value.GroupsAscend := by
  constructor
  · intro table
    rw [ofGrammar_ok_iff, ofGrammar_ok_iff, isSome_congr_rel h.repository, h.keyCause?_eq,
      h.succeeds_iff config, h.table_eq config]
  · intro table htable definition hdefinition
    obtain ⟨-, -, -, rfl⟩ := ofGrammar_ok_iff.1 htable
    obtain ⟨origin, -, rfl⟩ := List.mem_map.1 hdefinition
    exact Rule.groupsAscend_node origin.rule _

/-- Two groups in the other order, one of them with another spelling, and two groups inside this one
    in the other order as well. -/
theorem ofGrammar_rearranged_groups :
    let document : Document := ⟨"source.list"⟩
    let letter : Rule := { name := some "string.quoted" }
    let digit : Rule := { name := some "constant.numeric" }
    let inner (groups : Captures) : Rule := { single := some "(c)(d)", captures := some groups }
    let word (groups : Captures) : Rule := { single := some "(a)(b)", captures := some groups }
    let words (groups : Captures) : Grammar :=
      { repository := some [("words", { patterns := some [word groups] })] }
    let grammar := words [("2", letter), ("1", inner [("0", letter), ("10", digit)])]
    let other := words [(" +01", inner [("10", digit), ("0", letter)]), ("2", letter)]
    let table := grammar.table {} document
    grammar.Rearranged other ∧ (ofGrammar {} document grammar).1 = .ok table ∧
      (ofGrammar {} document other).1 = .ok table ∧
      ∀ definition ∈ table.definitions, definition.value.GroupsAscend := by
  intro document letter digit inner word words grammar other table
  have hspelling : Respelled "1" " +01" :=
    .digits (List.cons_ne_nil '1' []) (List.forall_mem_singleton.2 rfl)
      ⟨[], [], 0, [], rfl, List.forall_mem_nil _, .inl rfl, List.forall_mem_nil _⟩
      ⟨[' '], ['+'], 1, [], rfl, List.forall_mem_singleton.2 rfl, .inr rfl,
        List.forall_mem_nil _⟩
  have hinner : (inner [("0", letter), ("10", digit)]).Rearranged
      (inner [("10", digit), ("0", letter)]) :=
    .permuted (inner []) .captures (.swap ("10", digit) ("0", letter) [])
  have hword : (word [("2", letter), ("1", inner [("0", letter), ("10", digit)])]).Rearranged
      (word [(" +01", inner [("10", digit), ("0", letter)]), ("2", letter)]) :=
    .trans (.permuted (word []) .captures (.swap _ ("2", letter) []))
      (.trans (.respelled (word []) .captures [] [("2", letter)] _ hspelling)
        (.group (word []) .captures [] [("2", letter)] " +01" hinner))
  have hrearranged : grammar.Rearranged other :=
    ⟨rfl, rfl, .some (.cons ⟨rfl, .entry {} [] [] hword⟩ .nil), .none⟩
  have hsound : ∀ origin ∈ grammar.origins document, ∀ target ∈ origin.rule.inside,
      target.Sound document := by
    decide +kernel
  have hbuild : (ofGrammar {} document grammar).1 = .ok table :=
    ofGrammar_ok_iff.2 ⟨rfl, by decide +kernel, fun origin horigin =>
      Rule.cause?_visits_of_inside (hsound origin horigin) _, rfl⟩
  obtain ⟨hsame, hascend⟩ := @ofGrammar_rearranged {} document grammar other hrearranged
  exact ⟨hrearranged, hbuild, (hsame table).1 hbuild, hascend table hbuild⟩

end Table

end PatternTable
