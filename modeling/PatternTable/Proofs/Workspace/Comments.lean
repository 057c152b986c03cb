import Mathlib.Data.List.Infix
import PatternTable.Proofs.Module.Code
import PatternTable.Proofs.Rule.Comments
import PatternTable.Proofs.Workspace.Exports

/-!
# User text in line comments

An artifact writes two kinds of user text in line comments: the comments of rules, line by line, and
the ids of the documents that the link function refers to, as they are. A line comment ends at any
of four characters. Only the line feeds in the comments of rules are taken care of, so text spills
out of a comment exactly if another of the four is inside a line of a comment, or any of them in an
id.

* `StaysOnLine`: a text has no character that ends a line comment.
* `Linkage.comments`, `Linkage.headings`: the user's texts that are written in line comments.

Results:
* `Workspace.staysOnLine_iff`: when all of them stay on their lines.
-/

namespace PatternTable

/-! ## Specification -/

/-- Whether a character ends a line comment in the generated module. -/
def endsComment (c : Char) : Bool :=
  c == '\n' || c == '\r' || c == '\u2028' || c == '\u2029'

/-- A text has no character that ends a line comment. -/
def StaysOnLine (text : String) : Prop :=
  ∀ c ∈ text.toList, endsComment c = false

instance (text : String) : Decidable (StaysOnLine text) :=
  inferInstanceAs (Decidable (∀ c ∈ text.toList, _))

namespace Linkage

/-- The comments in the definitions of a module. -/
def comments (linkage : Linkage) : List String :=
  linkage.table.definitions.flatMap fun definition => definition.value.comments

/-- The ids that head the statements of the link function. -/
def headings (linkage : Linkage) : List String :=
  linkage.externalBlock.map fun group => group.document.id

end Linkage

/-- What the line comments of an artifact are. -/
structure Artifact.HasComments (grammar : Grammar) (linkage : Linkage) (artifact : Artifact) :
    Prop where
  /-- The comments in definitions are the lines of the comments of the rules that are built. -/
  comments : ∀ words, words ∈ linkage.comments ↔
    ∃ rule path, grammar.Reaches artifact.document rule path ∧ rule.isReference = false ∧
      words ∈ rule.ownComments
  /-- The headings are the ids of the documents that are referred to. -/
  headings : linkage.headings = linkage.table.dependencies.map Document.id
  commentsWritten : ∀ words ∈ linkage.comments,
    (Item.commentLine words ++ "\n").toList <:+: artifact.contents.toList
  headingsWritten : ∀ id ∈ linkage.headings,
    ("// " ++ id ++ "\n").toList <:+: artifact.contents.toList

/-! ## Texts in a module -/

namespace Text

theorem infix_intercalate {part : String} {parts : List String} (h : part ∈ parts)
    (separator : String) : part.toList <:+: (separator.intercalate parts).toList := by
  induction parts with
  | nil => cases h
  | cons first rest ih =>
    cases rest with
    | nil =>
      rw [List.mem_singleton.1 h, String.intercalate_singleton]
    | cons next rest =>
      rw [String.intercalate_cons_cons, String.toList_append, String.toList_append]
      obtain rfl | h := List.mem_cons.1 h
      · exact (List.prefix_append _ _).isInfix.trans (List.prefix_append _ _).isInfix
      · exact (ih h).trans (List.suffix_append _ _).isInfix

/-- A line that is not the last one has a line feed after it. -/
theorem infix_unlines {line : String} {lines : List String} (h : line ∈ lines) (last : String) :
    (line ++ "\n").toList <:+: (unlines (lines ++ [last])).toList := by
  have hcons (first : String) (rest : List String) : unlines (first :: (rest ++ [last])) =
      first ++ "\n" ++ unlines (rest ++ [last]) := by
    cases rest <;> exact String.intercalate_cons_cons
  induction lines with
  | nil => cases h
  | cons first rest ih =>
    have htext : (unlines (first :: (rest ++ [last]))).toList =
        (first ++ "\n").toList ++ (unlines (rest ++ [last])).toList := by
      rw [hcons, String.toList_append]
    rw [List.cons_append, htext]
    obtain rfl | h := List.mem_cons.1 h
    · exact (List.prefix_append _ _).isInfix
    · exact (ih h).trans (List.suffix_append _ _).isInfix

end Text

namespace Artifact

variable {config : Config} {now : Calendar.Time} {linkage : Linkage}

theorem infix_contents {part : String} (h : part ∈ sections config now linkage) :
    part.toList <:+: (ofLinkage config now linkage).contents.toList := by
  rw [ofLinkage, String.toList_append]
  exact (Text.infix_intercalate h _).trans (List.prefix_append _ _).isInfix

variable (config now) in
theorem commentLine_infix_contents {words : String} (h : words ∈ linkage.comments) :
    (Item.commentLine words ++ "\n").toList <:+:
      (ofLinkage config now linkage).contents.toList := by
  obtain ⟨definition, hdefinition, hwords⟩ := List.mem_flatMap.1 h
  have hsection : definitionText definition ∈ sections config now linkage := by
    simp only [sections, List.mem_append]
    exact .inl (.inl (.inr (List.mem_map_of_mem hdefinition)))
  refine (Node.commentLine_infix_render hwords 0).trans (.trans ?_ (infix_contents hsection))
  unfold definitionText
  rw [String.toList_append, String.toList_append]
  exact (List.suffix_append _ _).isInfix.trans (List.prefix_append _ _).isInfix

theorem mem_groupsLines {group : PatchGroup} {groups : List PatchGroup} {line : String}
    (hgroup : group ∈ groups) (hline : line ∈ groupLines group) : line ∈ groupsLines groups := by
  fun_induction groupsLines groups with
  | case1 => cases hgroup
  | case2 other => rwa [List.mem_singleton.1 hgroup] at hline
  | case3 other groups hne ih =>
    rw [List.mem_append, List.mem_cons]
    obtain rfl | hgroup := List.mem_cons.1 hgroup
    · exact .inl hline
    · exact .inr (.inr (ih hgroup))

variable (config now) in
theorem heading_infix_contents {id : String} (h : id ∈ linkage.headings) :
    ("// " ++ id ++ "\n").toList <:+: (ofLinkage config now linkage).contents.toList := by
  obtain ⟨group, hgroup, rfl⟩ := List.mem_map.1 h
  have hne : linkage.externalBlock.isEmpty = false := by
    rw [← Bool.not_eq_true, List.isEmpty_iff]
    exact List.ne_nil_of_mem hgroup
  have hsection : linkSection linkage.table.document linkage.externalBlock ∈
      sections config now linkage := by
    simp only [sections, List.mem_append, hne]
    exact .inr (by simp)
  refine .trans ?_ (infix_contents hsection)
  have hline : bodyLine ("// " ++ group.document.id) ∈ groupsLines linkage.externalBlock :=
    mem_groupsLines hgroup List.mem_cons_self
  refine .trans ?_ (Text.infix_unlines (List.mem_append_right _ hline) _)
  have htext : (bodyLine ("// " ++ group.document.id) ++ "\n").toList =
      "    ".toList ++ ("// " ++ group.document.id ++ "\n").toList := by
    rw [bodyLine, ← String.toList_append]
    simp only [String.append_assoc]
  rw [htext]
  exact (List.suffix_append _ _).isInfix

end Artifact

/-! ## Characters that end a comment -/

/-- A line of a comment stays on its line if it has no other such characters than a line feed. -/
theorem staysOnLine_commentLines_iff {comment words : String} (h : words ∈ commentLines comment) :
    StaysOnLine words ↔
      '\r' ∉ words.toList ∧ '\u2028' ∉ words.toList ∧ '\u2029' ∉ words.toList := by
  have hfeed := feed_not_mem_commentLines h
  constructor
  · intro hstays
    have hnot {c : Char} (hends : endsComment c = true) : c ∉ words.toList := fun hmem => by
      rw [hstays c hmem] at hends
      cases hends
    exact ⟨hnot (by decide), hnot (by decide), hnot (by decide)⟩
  · rintro ⟨hreturn, hline, hparagraph⟩ c hmem
    have hne {d : Char} (hd : d ∉ words.toList) : (c == d) = false :=
      beq_eq_false_iff_ne.2 fun heq => hd (heq ▸ hmem)
    rw [endsComment, hne hfeed, hne hreturn, hne hline, hne hparagraph]
    rfl

/-! ## Workspaces -/

theorem Table.headings_plan (table : Table) :
    table.plan.headings = table.dependencies.map Document.id := by
  have hgroups (arrays : Arrays) := congrArg (List.map fun group => group.1.id)
    (table.references_externalGroups arrays table.dependencies)
  simp only [List.map_map] at hgroups
  exact hgroups _

/-- The comments in the definitions of a grammar that can be built. -/
theorem Grammar.mem_comments_plan_iff (config : Config) {document : Document} {grammar : Grammar}
    (hsound : ∀ rule path, grammar.Reaches document rule path → rule.Sound document)
    (words : String) : words ∈ (grammar.table config document).plan.comments ↔
      ∃ rule path, grammar.Reaches document rule path ∧ rule.isReference = false ∧
        words ∈ rule.ownComments := by
  have horigin {origin : Origin} (h : origin ∈ grammar.origins document) :=
    Rule.mem_comments_node_iff (origin.context config document) origin.rule origin.path
      (fun rule path hreaches => hsound rule path ⟨origin, h, hreaches⟩) words
  constructor
  · intro hmem
    obtain ⟨_, hdefinition, hwords⟩ := List.mem_flatMap.1 hmem
    obtain ⟨origin, hmem, rfl⟩ := List.mem_map.1 hdefinition
    obtain ⟨rule, path, hreaches, hrest⟩ := (horigin hmem).1 hwords
    exact ⟨rule, path, ⟨origin, hmem, hreaches⟩, hrest⟩
  · rintro ⟨rule, path, ⟨origin, hmem, hreaches⟩, hrest⟩
    exact List.mem_flatMap.2 ⟨_, List.mem_map_of_mem hmem,
      (horigin hmem).2 ⟨rule, path, hreaches, hrest⟩⟩

namespace Workspace

/-- The line comments of an artifact have user text from the comments of rules and from the ids of
    documents. None has a line feed from a comment of a rule. All of them stay on their lines
    exactly if no line of a comment has one of the other characters that end a comment, and no id
    has any. -/
theorem staysOnLine_iff (config : Config) (now : Calendar.Time) (workspace : Workspace)
    (artifact : Artifact) (h : artifact ∈ (workspace.compile config now).artifacts) :
    ∃ source ∈ workspace, source.document = artifact.document ∧
      ∃ grammar, source.grammar = .ok grammar ∧
      ∃ linkage, artifact = .ofLinkage config now linkage ∧ artifact.HasComments grammar linkage ∧
        (∀ words ∈ linkage.comments, '\n' ∉ words.toList) ∧
        ((∀ text ∈ linkage.comments ++ linkage.headings, StaysOnLine text) ↔
          (∀ rule path, grammar.Reaches artifact.document rule path → rule.isReference = false →
            ∀ words ∈ rule.ownComments,
              '\r' ∉ words.toList ∧ '\u2028' ∉ words.toList ∧ '\u2029' ∉ words.toList) ∧
          ∀ document ∈ linkage.table.dependencies, StaysOnLine document.id) := by
  rw [artifacts_compile, List.mem_map] at h
  obtain ⟨linkage, hlinkage, rfl⟩ := h
  obtain ⟨table, htable, hlink⟩ := mem_linked_iff.1 hlinkage
  obtain ⟨-, rfl⟩ := (Table.link_ok_iff _ _ _).1 hlink
  obtain ⟨source, hsource, grammar, hgrammar, hbuild⟩ := exists_source_of_mem_tables htable
  obtain ⟨-, -, hsucceeds, rfl⟩ := Table.ofGrammar_ok_iff.1 hbuild
  have hcomments := Grammar.mem_comments_plan_iff config (Grammar.succeeds_iff.1 hsucceeds)
  have hheadings := (grammar.table config source.document).headings_plan
  refine ⟨source, hsource, rfl, grammar, hgrammar, _, rfl,
    ⟨hcomments, hheadings, fun _ => Artifact.commentLine_infix_contents config now,
      fun _ => Artifact.heading_infix_contents config now⟩, fun words hwords => ?_, ?_⟩
  · obtain ⟨rule, -, -, -, hown⟩ := (hcomments words).1 hwords
    obtain ⟨comment, hcomment⟩ := Rule.exists_commentLines_of_mem hown
    exact feed_not_mem_commentLines hcomment
  · rw [List.forall_mem_append, hheadings, List.forall_mem_map]
    refine and_congr_left fun _ => ⟨fun hstays rule path hreaches hrule words hown => ?_,
      fun hlines words hwords => ?_⟩
    · obtain ⟨comment, hcomment⟩ := Rule.exists_commentLines_of_mem hown
      rw [← staysOnLine_commentLines_iff hcomment]
      exact hstays words ((hcomments words).2 ⟨rule, path, hreaches, hrule, hown⟩)
    · obtain ⟨rule, path, hreaches, hrule, hown⟩ := (hcomments words).1 hwords
      obtain ⟨comment, hcomment⟩ := Rule.exists_commentLines_of_mem hown
      rw [staysOnLine_commentLines_iff hcomment]
      exact hlines rule path hreaches hrule words hown

/-- A comment of two lines, and a reference to a document that is written by hand. -/
theorem staysOnLine_iff_reference :
    let config : Config := { handwritten := [⟨"source.python"⟩] }
    let grammar : Grammar :=
      { scopeName := some "source.renpy"
        repository := some
          [("a", {
            comment := some "one\ntwo"
            patterns := some [{ reference := some "source.python#x" }] })] }
    ∃ artifact ∈ (compile config ⟨0⟩ [.ofGrammar "renpy.tmLanguage.json" grammar]).artifacts,
      ∃ linkage, artifact = .ofLinkage config ⟨0⟩ linkage ∧
        artifact.HasComments grammar linkage ∧ ∀ words ∈ linkage.comments, '\n' ∉ words.toList := by
  intro config grammar
  have hartifact : .ofLinkage config ⟨0⟩ (grammar.table config ⟨"source.renpy"⟩).plan ∈
      (compile config ⟨0⟩ [.ofGrammar "renpy.tmLanguage.json" grammar]).artifacts :=
    mem_artifacts_singleton ⟨0⟩ rfl (Table.ofGrammar_ok_iff.2
      ⟨rfl, by decide +kernel, by decide +kernel, rfl⟩) (by decide +kernel)
  obtain ⟨source, hsource, -, read, hread, linkage, hlinkage, hcomments, hfeed, -⟩ :=
    staysOnLine_iff config ⟨0⟩ _ _ hartifact
  rw [List.mem_singleton.1 hsource] at hread
  cases hread
  exact ⟨_, hartifact, linkage, hlinkage, hcomments, hfeed⟩

/-- A line separator inside a line of a comment ends the comment, and so does a line feed in the id
    of a document. -/
theorem comments_spill :
    let config : Config := { handwritten := [⟨"source.py\nthon"⟩] }
    let grammar : Grammar :=
      { scopeName := some "source.renpy"
        repository := some
          [("a", {
            comment := some "one\u2028two"
            patterns := some [{ reference := some "source.py\nthon#x" }] })] }
    ∃ artifact ∈ (compile config ⟨0⟩ [.ofGrammar "renpy.tmLanguage.json" grammar]).artifacts,
      "// one\u2028two\n".toList <:+: artifact.contents.toList ∧
        "// source.py\nthon\n".toList <:+: artifact.contents.toList := by
  intro config grammar
  have hartifact : .ofLinkage config ⟨0⟩ (grammar.table config ⟨"source.renpy"⟩).plan ∈
      (compile config ⟨0⟩ [.ofGrammar "renpy.tmLanguage.json" grammar]).artifacts :=
    mem_artifacts_singleton ⟨0⟩ rfl (Table.ofGrammar_ok_iff.2
      ⟨rfl, by decide +kernel, by decide +kernel, rfl⟩) (by decide +kernel)
  have hcomment : "one\u2028two" ∈ (grammar.table config ⟨"source.renpy"⟩).plan.comments := by
    decide +kernel
  have hheading : "source.py\nthon" ∈ (grammar.table config ⟨"source.renpy"⟩).plan.headings := by
    decide +kernel
  have hline : "// one\u2028two\n" = Item.commentLine "one\u2028two" ++ "\n" := by decide +kernel
  have hlines : "// source.py\nthon\n" = "// " ++ "source.py\nthon" ++ "\n" := by decide +kernel
  have hwritten := Artifact.commentLine_infix_contents config ⟨0⟩ hcomment
  have hheaded := Artifact.heading_infix_contents config ⟨0⟩ hheading
  rw [← hline] at hwritten
  rw [← hlines] at hheaded
  exact ⟨_, hartifact, hwritten, hheaded⟩

end Workspace

end PatternTable
