import PatternTable.Proofs.Table.Linking
import PatternTable.Proofs.Table.Patches
import PatternTable.Proofs.Workspace.Exports

/-!
# Findings of documents that are built

A table has the scope names that were met while it was built, and the warnings. The outcome of its
document has them too, unless the table cannot be linked: the failure to link takes the place of the
table, and what the table had found is lost.

* `Compiled.Keeps`: the outcome of a document has what its table has found.

Results:
* `Table.isWarning_of_ofGrammar`: a table finds nothing but warnings.
* `Workspace.findings_kept_iff`: when an outcome keeps what the table has found.
-/

namespace PatternTable

/-! ## Specification -/

/-- The finding that a document was abandoned, if it was. -/
def Compiled.fatal (compiled : Compiled) : List Finding :=
  match compiled.artifact with
  | .ok _ => []
  | .error failure => [Finding.ofFailure compiled.document failure]

/-- The outcome of a document has what its table has found, and after it the failure if there is
    one. -/
structure Compiled.Keeps (compiled : Compiled) (table : Table) : Prop where
  scopes : compiled.scopes = table.scopes
  findings : compiled.findings = table.trail.findings ++ compiled.fatal

/-! ## Warnings -/

/-- A trail has nothing but warnings. -/
def Trail.OnlyWarns (trail : Trail) : Prop :=
  ∀ finding ∈ trail.findings, finding.isWarning

namespace Trail

theorem onlyWarns_empty : OnlyWarns {} := by
  simp [OnlyWarns]

theorem OnlyWarns.append {a b : Trail} (ha : a.OnlyWarns) (hb : b.OnlyWarns) :
    (a ++ b).OnlyWarns := by
  intro finding hfinding
  rw [findings_append, List.mem_append] at hfinding
  exact hfinding.elim (ha finding) (hb finding)

theorem onlyWarns_concat {trails : List Trail} (h : ∀ trail ∈ trails, trail.OnlyWarns) :
    (concat trails).OnlyWarns := by
  induction trails with
  | nil => exact onlyWarns_empty
  | cons trail trails ih =>
    rw [List.forall_mem_cons] at h
    exact h.1.append (ih h.2)

end Trail

namespace Context

theorem onlyWarns_ownTrail (context : Context) (rule : Rule) (path : AccessPath) :
    (context.ownTrail rule path).OnlyWarns := by
  have htoken (scope? : Option String) :
      ((scope?.map (context.tokenTrail path)).getD {}).OnlyWarns := by
    cases scope? with
    | none => exact Trail.onlyWarns_empty
    | some scope =>
      rw [Option.map_some, Option.getD_some, tokenTrail]
      cases (context.config.classifier.classify scope).isResolved
      · simp [Trail.OnlyWarns]
        rfl
      · simp [Trail.OnlyWarns]
  have hpattern (pattern? : Option String) :
      ((pattern?.map context.patternTrail).getD {}).OnlyWarns := by
    cases pattern? <;> simp [Trail.OnlyWarns, patternTrail]
  have hempty : (if context.isEmptyRule rule path then
      { findings := [⟨.emptyRule, context.document, path.text, some path.text⟩] }
      else ({} : Trail)).OnlyWarns := by
    split
    · simp [Trail.OnlyWarns]
      rfl
    · exact Trail.onlyWarns_empty
  exact (((((htoken _).append (htoken _)).append (hpattern _)).append (hpattern _)).append
    (hpattern _)).append hempty

theorem onlyWarns_trail (context : Context) (visit : Visit) :
    (context.trail visit).OnlyWarns := by
  cases visit with
  | rule path rule =>
    rw [trail]
    split
    · exact Trail.onlyWarns_empty
    · exact context.onlyWarns_ownTrail rule path
  | groups path keys => exact Trail.onlyWarns_empty
  | entry array index entry =>
    rw [trail, entryTrail, Trail.OnlyWarns]
    cases entry.reference with
    | none => simp
    | some spelling =>
      dsimp only
      split
      · simp
        rfl
      · simp
  | filled array entries => simp [Trail.OnlyWarns, trail]

end Context

/-- Whatever the grammar that a table is built from, the table finds nothing but warnings. -/
theorem Table.isWarning_of_ofGrammar {config : Config} {document : Document} {grammar : Grammar}
    {table : Table} (h : (ofGrammar config document grammar).1 = .ok table) :
    table.trail.OnlyWarns := by
  obtain ⟨-, -, -, rfl⟩ := ofGrammar_ok_iff.1 h
  rw [Grammar.trail_table]
  refine Trail.onlyWarns_concat fun trail htrail => ?_
  obtain ⟨stop, -, rfl⟩ := List.mem_map.1 htrail
  exact (stop.1.context config document).onlyWarns_trail stop.2

/-! ## Outcomes -/

namespace Workspace

variable {config : Config} {workspace : Workspace}

/-- What a document that has a table comes to: its table is linked, or fails to link. -/
theorem documents_getElem?_of_table (now : Calendar.Time) {index : Nat} {staged : Staged Table}
    {table : Table} (hget : (workspace.build config).1[index]? = some staged)
    (htable : staged.stage = .ok table) :
    (workspace.compile config now).documents[index]? = some (Compiled.ofLinkage config now
      ⟨staged.name, staged.document, table.link (workspace.exports config)⟩) := by
  simp only [compile, linkAll, List.getElem?_map, hget, Option.map_some, htable]
  rfl

/-- What a document that has a table comes to. -/
structure ComesTo (config : Config) (workspace : Workspace) (table : Table)
    (compiled : Compiled) : Prop where
  linked : compiled.artifact.isOk ↔ table.Linkable (workspace.exports config)
  /-- The table itself finds nothing but warnings. -/
  warnings : table.trail.OnlyWarns
  /-- The only error, if there is one, is that the document was abandoned. -/
  errors : compiled.findings.filter Finding.isError = compiled.fatal
  keeps : compiled.Keeps table ↔
    compiled.artifact.isOk ∨ (table.scopes = [] ∧ table.trail.findings = [])
  loses : ¬ compiled.artifact.isOk → compiled.scopes = [] ∧ compiled.findings = compiled.fatal

/-- The outcome of a document that has a table keeps what the table has found, and has one failure
    after it exactly if it has no artifact. But if the table cannot be linked, there is the failure
    only: nothing else is kept, and so something is lost if anything was found. -/
theorem findings_kept_iff (config : Config) (now : Calendar.Time) (workspace : Workspace)
    (index : Nat) (staged : Staged Table) (table : Table)
    (hget : (workspace.build config).1[index]? = some staged) (htable : staged.stage = .ok table) :
    ∃ compiled, (workspace.compile config now).documents[index]? = some compiled ∧
      ComesTo config workspace table compiled := by
  refine ⟨_, documents_getElem?_of_table now hget htable, ?_⟩
  have hmem : table ∈ workspace.tables config :=
    Staged.mem_values.2 ⟨staged, List.mem_of_getElem? hget, htable⟩
  obtain ⟨source, -, grammar, -, hbuild⟩ := exists_source_of_mem_tables hmem
  have hwarnings := Table.isWarning_of_ofGrammar hbuild
  cases hcause : table.linkCause? (workspace.exports config) with
  | none =>
    have hlinkable := Table.linkCause?_eq_none_iff.1 hcause
    rw [(Table.link_ok_iff _ _ _).2 ⟨hcause, rfl⟩]
    refine ⟨iff_of_true rfl hlinkable, hwarnings, ?_, iff_of_true ⟨rfl, ?_⟩ (.inl rfl),
      fun hfails => absurd rfl hfails⟩
    · refine List.filter_eq_nil_iff.2 fun finding hfinding => ?_
      have hwarning := hwarnings finding hfinding
      rw [Finding.isWarning_eq_not_isError] at hwarning
      simpa using hwarning
    · exact (List.append_nil _).symm
  | some cause =>
    have hlinkable : ¬ table.Linkable (workspace.exports config) := by
      rw [← Table.linkCause?_eq_none_iff, hcause]
      simp
    have hlink : table.link (workspace.exports config) = .error ⟨table.document, cause⟩ := by
      rw [Table.link, hcause]
    rw [hlink]
    refine ⟨iff_of_false Bool.false_ne_true hlinkable, hwarnings, rfl, ?_, fun _ => ⟨rfl, rfl⟩⟩
    constructor
    · rintro ⟨hscopes, hfindings⟩
      exact .inr ⟨hscopes.symm, List.self_eq_append_left.1 hfindings⟩
    · rintro (hok | ⟨hscopes, hfindings⟩)
      · exact absurd hok Bool.false_ne_true
      · refine ⟨hscopes.symm, ?_⟩
        rw [hfindings]
        rfl

/-- Two rules with scope names that have no token type: the table is linked, and both warnings are
    kept. -/
theorem findings_kept_iff_linked :
    let grammar : Grammar :=
      { scopeName := some "source.renpy"
        repository := some
          [("odd", { name := some "markup.odd", single := some "o" }),
            ("even",
              { name := some "markup.even", patterns := some [{ reference := some "#odd" }] })] }
    let source : Source := .ofGrammar "renpy.tmLanguage.json" grammar
    let table := grammar.table {} ⟨"source.renpy"⟩
    ∃ compiled, (compile {} ⟨0⟩ [source]).documents[0]? = some compiled ∧
      ComesTo {} [source] table compiled ∧ compiled.artifact.isOk ∧ compiled.Keeps table ∧
      table.trail.findings.map Finding.detail = [some "markup.odd", some "markup.even"] := by
  intro grammar source table
  have hbuild : (Table.ofGrammar {} source.document grammar).1 = .ok table :=
    Table.ofGrammar_ok_iff.2 ⟨rfl, by decide +kernel, by decide +kernel, rfl⟩
  have hget : (build {} [source]).1[0]? = some ⟨source.name, source.document, .ok table⟩ := by
    rw [build, buildFrom_cons, List.getElem?_cons_zero]
    exact congrArg some (congrArg _ hbuild)
  obtain ⟨compiled, hcompiled, hcomes⟩ := findings_kept_iff {} ⟨0⟩ [source] 0 _ table hget rfl
  have hlinkable : table.Linkable (exports {} [source]) :=
    Table.linkCause?_eq_none_iff.1 (by decide +kernel)
  have hok := hcomes.linked.2 hlinkable
  exact ⟨compiled, hcompiled, hcomes, hok, hcomes.keeps.2 (.inl hok), by decide +kernel⟩

/-- A rule with a scope name that has no token type refers to a rule that there is not: the table is
    built with a scope name and a warning, and the outcome has neither. -/
theorem findings_lost :
    let grammar : Grammar :=
      { scopeName := some "source.renpy"
        repository := some
          [("odd", {
            name := some "markup.odd"
            single := some "o"
            patterns := some [{ reference := some "#missing" }] })] }
    let source : Source := .ofGrammar "renpy.tmLanguage.json" grammar
    let table := grammar.table {} ⟨"source.renpy"⟩
    (build {} [source]).1[0]? = some ⟨source.name, source.document, .ok table⟩ ∧
      ∃ compiled, (compile {} ⟨0⟩ [source]).documents[0]? = some compiled ∧
        ¬ compiled.Keeps table ∧ table.scopes.map Prod.fst = ["markup.odd"] ∧
        compiled.scopes = [] ∧ table.trail.findings.length = 1 ∧
        compiled.findings = compiled.fatal := by
  intro grammar source table
  have hbuild : (Table.ofGrammar {} source.document grammar).1 = .ok table :=
    Table.ofGrammar_ok_iff.2 ⟨rfl, by decide +kernel, by decide +kernel, rfl⟩
  have hget : (build {} [source]).1[0]? = some ⟨source.name, source.document, .ok table⟩ := by
    rw [build, buildFrom_cons, List.getElem?_cons_zero]
    exact congrArg some (congrArg _ hbuild)
  have hscopes : table.scopes.map Prod.fst = ["markup.odd"] := by decide +kernel
  have hfindings : table.trail.findings.length = 1 := by decide +kernel
  have hcompiled := documents_getElem?_of_table ⟨0⟩ hget rfl
  obtain ⟨cause, hcause⟩ := Option.isSome_iff_exists.1
    (show (table.linkCause? (exports {} [source])).isSome by decide +kernel)
  have hlink : table.link (exports {} [source]) = .error ⟨table.document, cause⟩ := by
    rw [Table.link, hcause]
  rw [hlink] at hcompiled
  refine ⟨hget, _, hcompiled, fun hkeeps => ?_, hscopes, rfl, hfindings, rfl⟩
  have hempty : table.scopes = [] := hkeeps.scopes.symm
  rw [hempty] at hscopes
  simp at hscopes

end Workspace

end PatternTable
