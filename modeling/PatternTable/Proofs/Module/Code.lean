import PatternTable.Proofs.Module.Contents
import PatternTable.Proofs.Module.Names
import PatternTable.Proofs.Rule.Lines
import PatternTable.Proofs.Table.Building

/-!
# The lines of a module

After its header a module has imports, definitions, statements, and a few comments. The names in it
are made of letters and digits, and module specifiers are quoted. So none of its lines is taken for
the line with the time or ends in a carriage return, if the scope names and patterns of the rules
have no line feed, and the ids of the documents that are referred to, which are written in comments,
are lines.

* `Grammar.OnOneLine`: what the texts of a grammar have to be.

Results:
* `Artifact.plain_bodyLines`: the lines of a module after the one with the time.
-/

namespace PatternTable

open Text

/-! ## Specification -/

/-- The rules that a grammar comes to have no line feed in scope names and patterns, and the
    documents that its table refers to have ids on one line. -/
structure Grammar.OnOneLine (config : Config) (document : Document) (grammar : Grammar) :
    Prop where
  rules : ∀ rule path, grammar.Reaches document rule path → rule.OnOneLine
  documents : ∀ other ∈ (grammar.table config document).dependencies, IsLine other.id.toList

/-! ## Plain lines -/

namespace Artifact

/-- A line of code is not taken for the line with the time. -/
theorem isTimeLine_eq_false {line : List Char} (h : IsCode line) : isTimeLine line = false := by
  rw [Bool.eq_false_iff]
  intro htime
  rw [isTimeLine, List.isPrefixOf_iff_prefix] at htime
  obtain ⟨rest, rfl⟩ := htime
  refine h.start ?_
  rw [List.head?_append]
  rfl

theorem plain_of_isCode {lines : List (List Char)} (h : ∀ line ∈ lines, IsCode line) :
    Plain lines :=
  fun line hline => ⟨isTimeLine_eq_false (h line hline), (h line hline).toIsLine⟩

theorem plain_append {lines others : List (List Char)} (h : Plain lines) (hothers : Plain others) :
    Plain (lines ++ others) :=
  List.forall_mem_append.2 ⟨h, hothers⟩

/-- A comment that is spelled out. -/
theorem plain_cons_literal {text : List Char} (h : isTimeLine text = false ∧ IsLine text)
    {lines : List (List Char)} (hlines : Plain lines) :
    Plain ((String.ofList text).toList :: lines) := by
  rw [String.toList_ofList, Plain, List.forall_mem_cons]
  exact ⟨h, hlines⟩

theorem plain_unlines {lines : List String} (hne : lines ≠ [])
    (h : Plain (lines.map String.toList)) : Plain (rawLines (unlines lines).toList) := by
  rw [rawLines_unlines_of_isLine hne fun line hline => (h _ (List.mem_map_of_mem hline)).2]
  exact h

end Artifact

/-! ## Imports -/

namespace Artifact

theorem isCode_importNames {names : List String} (h : ∀ name ∈ names, IsLine name.toList)
    (specifier : String) : IsCode (importNames names specifier).toList := by
  have hnames := IsLine.intercalate ", " (.literal (by decide)) h
  unfold importNames
  simp only [String.append_assoc]
  refine (IsCode.literal (by decide)).concat_of_ne_nil (by decide) (hnames.concat ?_)
  exact (IsLine.literal (by decide)).concat ((isLine_quote specifier).concat (.literal (by decide)))

theorem isCode_importLine (config : Config) (table : Table) (document : Document) :
    IsCode (importLine config (table.importOf document)).toList := by
  rw [Table.importOf]
  split
  · refine isCode_importNames (fun name hname => ?_) _
    rw [List.mem_eraseDups, List.mem_map] at hname
    obtain ⟨patch, -, rfl⟩ := hname
    exact Target.isLine_identifier _ _
  · unfold importLine
    simp only [String.append_assoc]
    refine (IsCode.literal (by decide)).concat_of_ne_nil (by decide) ?_
    refine (IsLine.of_isAlphanum document.namespaceAlias_isAlphanum).concat ?_
    exact (IsLine.literal (by decide)).concat ((isLine_quote _).concat (.literal (by decide)))

theorem isCode_importLines (config : Config) (table : Table) :
    ∀ line ∈ importLines config table.plan, IsCode line.toList := by
  have hcategories (categories : List Scope.Category) :
      ∀ name ∈ categories.map Scope.Category.typeName, IsLine name.toList := by
    intro name hname
    obtain ⟨category, -, rfl⟩ := List.mem_map.1 hname
    cases category <;> exact .literal (by decide)
  simp only [importLines, List.forall_mem_append]
  refine ⟨⟨?_, ?_⟩, ?_⟩
  · split
    · simp
    · rw [List.forall_mem_singleton]
      exact isCode_importNames (hcategories _) _
  · split
    · simp
    · rw [List.forall_mem_singleton]
      refine isCode_importNames ?_ _
      rw [List.forall_mem_singleton]
      exact .literal (by decide)
  · intro line hline
    obtain ⟨imported, himported, rfl⟩ := List.mem_map.1 hline
    obtain ⟨document, -, rfl⟩ := Table.mem_imports_iff.1 himported
    exact isCode_importLine config table document

end Artifact

/-! ## Definitions -/

theorem Artifact.plain_definitionText {definition : Definition}
    (hidentifier : IsLine definition.identifier.toList) (hvalue : AreLines definition.value.words) :
    Plain (rawLines (definitionText definition).toList) := by
  refine plain_of_isCode (Node.isCode_render hvalue ?_ ?_ (.literal (by decide)))
  · rw [String.append_assoc]
    exact (IsCode.literal (by decide)).concat_of_ne_nil (by decide)
      (hidentifier.concat (.literal (by decide)))
  · simp

/-! ## Statements -/

theorem AccessPath.isCode_renderWith {path : AccessPath} (h : ∀ c ∈ path.root.toList, c.isAlphanum)
    (position : AccessPath → Nat → Nat) : IsCode (path.renderWith position).toList := by
  have hnumber (number : Nat) : IsCode ("[" ++ toString number ++ "]").toList :=
    ((IsCode.literal (by decide)).concat_of_ne_nil (by decide) (isLine_toString number)).concat
      (.literal (by decide))
  have hsteps (passed steps : List Step) :
      IsCode (renderFrom position path.root passed steps).toList := by
    induction steps generalizing passed with
    | nil => exact .literal (by decide)
    | cons step steps ih =>
      simp only [renderFrom]
      refine IsCode.concat ?_ (ih _)
      cases step with
      | field field =>
        have hname : IsLine field.name.toList := by cases field <;> exact .literal (by decide)
        exact ((IsCode.literal (by decide)).concat_of_ne_nil (by decide) hname).concat
          (.literal (by decide))
      | index index => exact hnumber _
      | group number => exact hnumber _
  rw [renderWith]
  exact (IsCode.of_isAlphanum h).concat (hsteps [] path.steps)

theorem PatchStatement.isCode_text {statement : PatchStatement}
    (htarget : IsCode statement.target.toList)
    (hreferences : ∀ reference ∈ statement.references, IsLine reference.toList) :
    IsCode statement.text.toList := by
  have hnames := IsLine.intercalate ", " (.literal (by decide)) hreferences
  have hend : IsLine (", ".intercalate statement.references ++ ");").toList :=
    hnames.concat (.literal (by decide))
  rw [text]
  cases statement.kind with
  | push =>
    simp only [String.append_assoc]
    exact htarget.concat ((IsCode.literal (by decide)).concat_of_ne_nil (by decide) hend)
  | splice position =>
    simp only [String.append_assoc]
    refine htarget.concat ((IsCode.literal (by decide)).concat_of_ne_nil (by decide) ?_)
    exact (isLine_toString position).concat ((IsLine.literal (by decide)).concat hend)

namespace Grammar

variable {config : Config} {document : Document} {grammar : Grammar}

/-- An array with a patch is part of a definition, whose identifier it starts with. -/
theorem isAlphanum_root {origin : Origin} {array : AccessPath} {index : Nat} {entry : Rule}
    (h : (origin, .entry array index entry) ∈ grammar.stops document) :
    ∀ c ∈ array.root.toList, c.isAlphanum := by
  obtain ⟨horigin, hvisit⟩ := mem_stops_iff.1 h
  obtain ⟨entries, harray, -⟩ := Rule.entry_mem_visits_iff.1 hvisit
  have hroot : array.root = origin.identifier := (Rule.hasArray_below harray).root
  rw [hroot, identifier_of_origin horigin]
  exact Target.identifier_isAlphanum _ _

theorem isCode_of_mem_internalBlock {statement : PatchStatement}
    (h : statement ∈ (grammar.table config document).plan.internalBlock) :
    IsCode statement.text.toList := by
  obtain ⟨⟨patch, hpatch, position, htarget⟩, hreferences⟩ := Table.exists_of_mem_internalBlock h
  obtain ⟨origin, entry, hstop, -⟩ := mem_internalPatches_iff.1 hpatch
  refine PatchStatement.isCode_text ?_ fun reference hreference => ?_
  · rw [htarget]
    exact AccessPath.isCode_renderWith (isAlphanum_root hstop) position
  · obtain ⟨patch, -, rfl⟩ := hreferences reference hreference
    exact Target.isLine_identifier _ _

theorem isCode_of_mem_externalBlock {group : PatchGroup} {statement : PatchStatement}
    (hgroup : group ∈ (grammar.table config document).plan.externalBlock)
    (h : statement ∈ group.statements) : IsCode statement.text.toList := by
  obtain ⟨patch, hpatch, position, htarget⟩ :=
    Table.exists_of_mem_externalGroups (List.mem_flatMap.2 ⟨group, hgroup, h⟩)
  obtain ⟨origin, entry, hstop, -⟩ := mem_externalPatches_iff.1 hpatch
  refine PatchStatement.isCode_text ?_ fun reference hreference => ?_
  · rw [htarget]
    exact AccessPath.isCode_renderWith (isAlphanum_root hstop) position
  · have hmem : reference ∈ (grammar.table config document).plan.externalBlock.flatMap
        PatchGroup.references :=
      List.mem_flatMap.2 ⟨group, hgroup, List.mem_flatMap.2 ⟨statement, h, hreference⟩⟩
    rw [Table.references_externalBlock_all] at hmem
    obtain ⟨patch, -, rfl⟩ := List.mem_map.1 hmem
    rw [Table.externalReference]
    split
    · exact Target.isLine_identifier _ _
    · exact ((IsLine.of_isAlphanum (Document.namespaceAlias_isAlphanum _)).concat
        (.literal (by decide))).concat (Target.isLine_identifier _ _)

end Grammar

theorem Table.mem_dependencies_of_mem_externalBlock {table : Table} {group : PatchGroup}
    (h : group ∈ table.plan.externalBlock) : group.document ∈ table.dependencies := by
  have hpair := List.mem_map_of_mem (f := fun group => (group.document, group.references)) h
  rw [plan, references_externalGroups] at hpair
  obtain ⟨document, hdocument, heq⟩ := List.mem_map.1 hpair
  rw [← (Prod.mk.inj heq).1]
  exact hdocument

theorem Document.isLine_linkFunction (document : Document) :
    IsLine document.linkFunction.toList := by
  rw [linkFunction, String.append_assoc]
  exact (IsLine.literal (by decide)).concat (.of_isAlphanum document.namespaceAlias_isAlphanum)

/-! ## Modules -/

namespace Artifact

theorem body_eq (config : Config) (linkage : Linkage) : body config linkage =
    (if (importLines config linkage).isEmpty then [] else [unlines (importLines config linkage)]) ++
      linkage.table.definitions.map definitionText ++
      (if linkage.internalBlock.isEmpty then [] else [loadSection linkage.internalBlock]) ++
      (if linkage.externalBlock.isEmpty then []
        else [linkSection linkage.table.document linkage.externalBlock]) :=
  rfl

/-- A line inside the link function is indented. -/
theorem isCode_bodyLine {text : String} (h : IsLine text.toList) :
    IsCode (bodyLine text).toList :=
  (IsCode.literal (by decide)).concat_of_ne_nil (by decide) h

theorem isCode_groupLines {group : PatchGroup} (hid : IsLine group.document.id.toList)
    (h : ∀ statement ∈ group.statements, IsCode statement.text.toList) :
    ∀ line ∈ groupLines group, IsCode line.toList := by
  rw [groupLines, List.forall_mem_cons]
  refine ⟨isCode_bodyLine ((IsLine.literal (by decide)).concat hid), fun line hline => ?_⟩
  obtain ⟨statement, hstatement, rfl⟩ := List.mem_map.1 hline
  exact isCode_bodyLine (h statement hstatement).toIsLine

theorem isCode_groupsLines {groups : List PatchGroup}
    (h : ∀ group ∈ groups, ∀ line ∈ groupLines group, IsCode line.toList) :
    ∀ line ∈ groupsLines groups, IsCode line.toList := by
  fun_induction groupsLines groups with
  | case1 => simp
  | case2 group => exact h group List.mem_cons_self
  | case3 group groups hne ih =>
    rw [List.forall_mem_cons] at h
    rw [List.forall_mem_append, List.forall_mem_cons]
    exact ⟨h.1, .literal (by decide), ih h.2⟩

theorem plain_loadSection {statements : List PatchStatement}
    (h : ∀ statement ∈ statements, IsCode statement.text.toList) :
    Plain (rawLines (loadSection statements).toList) := by
  refine plain_unlines (by simp) ?_
  rw [List.map_cons, List.map_map]
  refine plain_cons_literal (by decide) (plain_of_isCode fun line hline => ?_)
  obtain ⟨statement, hstatement, rfl⟩ := List.mem_map.1 hline
  exact h statement hstatement

theorem plain_linkSection (document : Document) {groups : List PatchGroup}
    (h : ∀ group ∈ groups, ∀ line ∈ groupLines group, IsCode line.toList) :
    Plain (rawLines (linkSection document groups).toList) := by
  refine plain_unlines (by simp) ?_
  simp only [List.map_append, List.map_cons, List.map_nil, List.cons_append, List.nil_append]
  refine plain_cons_literal (by decide) (plain_cons_literal (by decide) (plain_of_isCode ?_))
  rw [List.forall_mem_cons, List.forall_mem_append, List.forall_mem_map, List.forall_mem_singleton]
  refine ⟨?_, isCode_groupsLines h, .literal (by decide)⟩
  rw [String.append_assoc]
  refine (IsCode.literal (by decide)).concat_of_ne_nil (by decide) ?_
  exact document.isLine_linkFunction.concat (.literal (by decide))

/-- The lines after the one with the time are plain if no text of the grammar breaks them. -/
theorem plain_bodyLines {config : Config} {document : Document} {grammar : Grammar}
    (h : grammar.OnOneLine config document) :
    Plain (bodyLines config (grammar.table config document).plan) := by
  have hsections : ∀ text ∈ body config (grammar.table config document).plan,
      Plain (rawLines text.toList) := by
    rw [body_eq]
    simp only [List.forall_mem_append]
    -- The imports, the definitions, what runs when the module is loaded, and the link function.
    refine ⟨⟨⟨?_, ?_⟩, ?_⟩, ?_⟩
    · split
      · simp
      · next hne =>
        rw [List.forall_mem_singleton]
        refine plain_unlines (by simpa using hne) (plain_of_isCode ?_)
        rw [List.forall_mem_map]
        exact isCode_importLines config _
    · rw [List.forall_mem_map]
      intro definition hdefinition
      obtain ⟨origin, horigin, rfl⟩ := List.mem_map.1 hdefinition
      refine plain_definitionText ?_ ?_
      · rw [Origin.definition, Grammar.identifier_of_origin horigin]
        exact Target.isLine_identifier _ _
      · exact Rule.areLines_node _ _ _ fun rule path hreaches =>
          h.rules rule path ⟨origin, horigin, hreaches⟩
    · split
      · simp
      · rw [List.forall_mem_singleton]
        exact plain_loadSection fun statement => Grammar.isCode_of_mem_internalBlock
    · split
      · simp
      · rw [List.forall_mem_singleton]
        refine plain_linkSection _ fun group hgroup => isCode_groupLines ?_ ?_
        · exact h.documents _ (Table.mem_dependencies_of_mem_externalBlock hgroup)
        · exact fun statement => Grammar.isCode_of_mem_externalBlock hgroup
  rw [bodyLines, Plain, List.forall_mem_flatMap]
  intro text htext
  rw [List.forall_mem_cons]
  exact ⟨⟨by decide, by decide⟩, hsections text htext⟩

end Artifact

end PatternTable
