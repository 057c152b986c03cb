import PatternTable.Proofs.Module.Code
import PatternTable.Proofs.Workspace.Exports

/-!
# Changes that the comparison sees

An artifact is compared with a text line by line. The comparison leaves out every line that gives a
time, and not only the one of the header, and does not see a carriage return at the end of a line. A
scope name is written into a comment as it is, and a pattern into a literal. So if there are line
feeds in them, a module can have such lines elsewhere too, and a change in these is not seen. If
there are none, every change is.

* `Artifact.rest`: the lines of an artifact after its header.
* `Workspace.OnOneLine`: what the grammars of a document have to be.

Results:
* `Workspace.isUnchanged_iff_of_mem_artifacts`: which changes the comparison sees.
-/

namespace PatternTable

/-! ## Specification -/

/-- The lines of an artifact after the one with the time. -/
def Artifact.rest (artifact : Artifact) : List (List Char) :=
  (Text.rawLines artifact.contents.toList).drop (opening.length + 1)

/-- No grammar of a document has texts that break a line. -/
def Workspace.OnOneLine (config : Config) (workspace : Workspace) (document : Document) : Prop :=
  ∀ source ∈ workspace, source.document = document → ∀ grammar, source.grammar = .ok grammar →
    grammar.OnOneLine config document

/-- What the comparison of two artifacts tells. -/
structure Artifact.Compared (artifact other : Artifact) : Prop where
  unchanged : artifact.isUnchanged other.contents ↔ blurred artifact.rest = blurred other.rest
  equal : EqualButTime artifact.contents other.contents ↔ artifact.rest = other.rest
  /-- No change is seen where there is none. -/
  sound : EqualButTime artifact.contents other.contents → artifact.isUnchanged other.contents
  /-- If a change is not seen, some line after the header gives a time or ends in a carriage
      return. -/
  unseen : artifact.isUnchanged other.contents →
    ¬ EqualButTime artifact.contents other.contents →
      ∃ line ∈ artifact.rest ++ other.rest, isTimeLine line ∨ line.getLast? = some '\r'

/-! ## The lines after the header -/

namespace Artifact

variable (config config' : Config) (now now' : Calendar.Time) (linkage linkage' : Linkage)

theorem rest_ofLinkage :
    (ofLinkage config now linkage).rest = bodyLines config linkage ++ [[]] := by
  rw [rest, rawLines_contents, List.drop_length_add_append, List.drop_one, List.tail_cons]

theorem blurred_rest_ofLinkage :
    blurred (ofLinkage config now linkage).rest = blurred (bodyLines config linkage) ++ [[]] := by
  rw [rest_ofLinkage, blurred_append]
  rfl

/-- The comparison sees the lines of an artifact as they are, if none gives a time or ends in a
    carriage return. -/
theorem blurred_rest_of_forall {artifact : Artifact}
    (h : ∀ line ∈ artifact.rest, ¬ (isTimeLine line ∨ line.getLast? = some '\r')) :
    blurred artifact.rest = artifact.rest := by
  refine blurred_of_plain fun line hline => ?_
  obtain ⟨htime, hreturn⟩ := not_or.1 (h line hline)
  refine ⟨Bool.eq_false_iff.2 htime, ?_, hreturn⟩
  exact Text.not_mem_of_mem_rawLines (List.mem_of_mem_drop hline)

theorem ofLinkage_compared :
    (ofLinkage config now linkage).Compared (ofLinkage config' now' linkage') := by
  have hunchanged := isUnchanged_iff config config' now now' linkage linkage'
  have hequal := equalButTime_iff config config' now now' linkage linkage'
  -- Both contents end in a line feed, after which there is one more text that is empty.
  rw [← List.append_cancel_right_eq _ [[]], ← blurred_rest_ofLinkage config now,
    ← blurred_rest_ofLinkage config' now'] at hunchanged
  rw [← List.append_cancel_right_eq _ [[]], ← rest_ofLinkage config now,
    ← rest_ofLinkage config' now'] at hequal
  refine ⟨hunchanged, hequal, fun h => ?_, fun hsame hchanged => ?_⟩
  · rw [hunchanged, hequal.1 h]
  · by_contra hlines
    simp only [not_exists, not_and, List.forall_mem_append] at hlines
    refine hchanged (hequal.2 ?_)
    rw [← blurred_rest_of_forall hlines.1, ← blurred_rest_of_forall hlines.2]
    exact hunchanged.1 hsame

/-- The lines after the header are plain if no text of the grammar breaks a line. -/
theorem plain_rest {document : Document} {grammar : Grammar}
    (h : grammar.OnOneLine config document) :
    Plain (ofLinkage config now (grammar.table config document).plan).rest := by
  rw [rest_ofLinkage]
  exact plain_append (plain_bodyLines h) (by decide)

end Artifact

/-! ## Two compilations -/

namespace Workspace

/-- Whatever is compiled, an artifact is taken for another exactly if the lines after their headers
    are the same but for lines that give a time and for carriage returns at the ends of lines. So it
    is if they are equal but for the time. If no text in the grammars of the two documents breaks a
    line, it is only then. -/
theorem isUnchanged_iff_of_mem_artifacts (config config' : Config) (now now' : Calendar.Time)
    (workspace workspace' : Workspace) (artifact other : Artifact)
    (hartifact : artifact ∈ (workspace.compile config now).artifacts)
    (hother : other ∈ (workspace'.compile config' now').artifacts) :
    artifact.Compared other ∧
      (workspace.OnOneLine config artifact.document → workspace'.OnOneLine config' other.document →
        (artifact.isUnchanged other.contents ↔
          Artifact.EqualButTime artifact.contents other.contents)) := by
  obtain ⟨source, hsource, hdocument, grammar, hgrammar, heq⟩ :=
    exists_grammar_of_mem_artifacts hartifact
  obtain ⟨source', hsource', hdocument', grammar', hgrammar', heq'⟩ :=
    exists_grammar_of_mem_artifacts hother
  have hcompared : artifact.Compared other := by
    rw [heq, heq']
    exact Artifact.ofLinkage_compared _ _ _ _ _ _
  refine ⟨hcompared, fun hlines hlines' => ?_⟩
  have hplain : Artifact.Plain artifact.rest := by
    rw [heq]
    exact Artifact.plain_rest config now (hlines source hsource hdocument grammar hgrammar)
  have hplain' : Artifact.Plain other.rest := by
    rw [heq']
    exact Artifact.plain_rest config' now' (hlines' source' hsource' hdocument' grammar' hgrammar')
  rw [hcompared.unchanged, hcompared.equal, Artifact.blurred_of_plain hplain,
    Artifact.blurred_of_plain hplain']

/-- A rule gets a scope name, and the grammar is compiled again at another time: the change is
    seen. -/
theorem isUnchanged_iff_of_mem_artifacts_named :
    let source (name : Option String) : Source := .ofGrammar "renpy.tmLanguage.json"
      { scopeName := some "source.renpy"
        repository := some [("a", { name, single := some "a" })] }
    ∃ artifact ∈ (compile {} ⟨0⟩ [source none]).artifacts,
      ∃ other ∈ (compile {} ⟨1⟩ [source (some "keyword.if")]).artifacts,
        OnOneLine {} [source none] artifact.document ∧
          OnOneLine {} [source (some "keyword.if")] other.document ∧
            artifact.Compared other ∧ ¬ artifact.isUnchanged other.contents := by
  intro source
  let rule (name : Option String) : Rule := { name, single := some "a" }
  let grammar (name : Option String) : Grammar :=
    { scopeName := some "source.renpy", repository := some [("a", rule name)] }
  let document : Document := ⟨"source.renpy"⟩
  have hartifact : .ofLinkage {} ⟨0⟩ ((grammar none).table {} document).plan ∈
      (compile {} ⟨0⟩ [source none]).artifacts :=
    mem_artifacts_singleton ⟨0⟩ rfl (Table.ofGrammar_ok_iff.2
      ⟨rfl, by decide +kernel, by decide +kernel, rfl⟩) (by decide +kernel)
  have hother : .ofLinkage {} ⟨1⟩ ((grammar (some "keyword.if")).table {} document).plan ∈
      (compile {} ⟨1⟩ [source (some "keyword.if")]).artifacts :=
    mem_artifacts_singleton ⟨1⟩ rfl (Table.ofGrammar_ok_iff.2
      ⟨rfl, by decide +kernel, by decide +kernel, rfl⟩) (by decide +kernel)
  have honOneLine (name : Option String) (hrule : (rule name).OnOneLine)
      (hdocuments : ((grammar name).table {} document).dependencies = []) :
      OnOneLine {} [source name] document := by
    intro made hmade _ read hread
    rw [List.mem_singleton.1 hmade] at hread
    cases hread
    refine ⟨fun reached path ⟨origin, horigin, hreaches⟩ => ?_,
      fun _ hother => absurd (hdocuments ▸ hother) List.not_mem_nil⟩
    rw [List.mem_singleton.1 (show origin ∈ [_] from horigin)] at hreaches
    rw [Rule.eq_of_reaches (fun field => by cases field <;> rfl) rfl hreaches]
    exact hrule
  have hlines := honOneLine none (by decide +kernel) (by decide +kernel)
  have hlines' := honOneLine (some "keyword.if") (by decide +kernel) (by decide +kernel)
  obtain ⟨hcompared, hiff⟩ :=
    isUnchanged_iff_of_mem_artifacts {} {} ⟨0⟩ ⟨1⟩ _ _ _ _ hartifact hother
  refine ⟨_, hartifact, _, hother, hlines, hlines', hcompared, fun hunchanged => ?_⟩
  have hrest := hcompared.equal.1 ((hiff hlines hlines').1 hunchanged)
  rw [Artifact.rest_ofLinkage, Artifact.rest_ofLinkage] at hrest
  exact absurd hrest (by decide +kernel)

/-- A scope name changes in a line that starts like the one with the time: the artifacts differ in
    this line, and the one is taken for the other. -/
theorem change_unseen :
    let source (remark : String) : Source := .ofGrammar "renpy.tmLanguage.json"
      { scopeName := some "source.renpy"
        repository := some
          [("a", {
            name := some ("keyword.x\n// Last generated: " ++ remark ++ "\n")
            single := some "a" })] }
    ∃ artifact ∈ (compile {} ⟨0⟩ [source "one"]).artifacts,
      ∃ other ∈ (compile {} ⟨0⟩ [source "two"]).artifacts,
        artifact.isUnchanged other.contents ∧
          ¬ Artifact.EqualButTime artifact.contents other.contents := by
  intro source
  let table (remark : String) : Table := Grammar.table {} ⟨"source.renpy"⟩
    { scopeName := some "source.renpy"
      repository := some
        [("a", {
          name := some ("keyword.x\n// Last generated: " ++ remark ++ "\n")
          single := some "a" })] }
  let imports : String := Text.unlines
    ["import \x7b MetaTokenType \x7d from \"./renpy-tokens\";",
      "import \x7b TokenPattern \x7d from \"./token-pattern-types\";"]
  let definition (timed : String) : String := Text.unlines
    ["export const a: TokenPattern = \x7b", "    debugName: \"a\",", "",
      "    token: MetaTokenType.Invalid, /*ERROR: keyword.x", timed, "*/", "    match: /a/g,",
      "\x7d;"]
  have hartifact : .ofLinkage {} ⟨0⟩ (table "one").plan ∈
      (compile {} ⟨0⟩ [source "one"]).artifacts :=
    mem_artifacts_singleton ⟨0⟩ rfl (Table.ofGrammar_ok_iff.2
      ⟨rfl, by decide +kernel, by decide +kernel, rfl⟩) (by decide +kernel)
  have hother : .ofLinkage {} ⟨0⟩ (table "two").plan ∈
      (compile {} ⟨0⟩ [source "two"]).artifacts :=
    mem_artifacts_singleton ⟨0⟩ rfl (Table.ofGrammar_ok_iff.2
      ⟨rfl, by decide +kernel, by decide +kernel, rfl⟩) (by decide +kernel)
  have hone : Artifact.body {} (table "one").plan =
      [imports, definition "// Last generated: one"] := by decide +kernel
  have htwo : Artifact.body {} (table "two").plan =
      [imports, definition "// Last generated: two"] := by decide +kernel
  have hlines :
      Artifact.blurred (Artifact.bodyLines {} (table "one").plan) =
          Artifact.blurred (Artifact.bodyLines {} (table "two").plan) ∧
        Artifact.bodyLines {} (table "one").plan ≠ Artifact.bodyLines {} (table "two").plan := by
    rw [Artifact.bodyLines, Artifact.bodyLines, hone, htwo]
    simp only [imports, definition, List.flatMap_cons, List.flatMap_nil, String.reduceToList,
      Text.rawLines_unlines (List.cons_ne_nil _ _)]
    decide +kernel
  refine ⟨_, hartifact, _, hother, (Artifact.isUnchanged_iff _ _ _ _ _ _).2 hlines.1, ?_⟩
  exact fun hequal => hlines.2 ((Artifact.equalButTime_iff _ _ _ _ _ _).1 hequal)

end Workspace

end PatternTable
