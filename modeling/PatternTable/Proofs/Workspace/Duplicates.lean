import PatternTable.Proofs.Workspace.Files
import PatternTable.Proofs.Workspace.Removal

/-!
# Documents with one id or one file

A document takes its id whether or not it can be read. It takes its file only if it can be read and
is not rejected itself; whether it can be built does not matter then. So the ids and the files that
are taken before a document come from different documents, and the file of a rejected document stays
free for a later one.

* `Workspace.FailsFor`: a document fails for a cause.
* `Workspace.KeepsApart`: which documents of a workspace are rejected, and what the others have to
  themselves.

Results:
* `Workspace.mem_taken_iff`: the files that are taken before a document, and who takes them.
* `Workspace.failsFor_iff`: a document is rejected for what is taken before it.
* `Workspace.keepsApart`: every workspace keeps its documents apart.
-/

namespace PatternTable

namespace Workspace

/-! ## Specification -/

/-- The document at an index fails for a cause. -/
def FailsFor (config : Config) (now : Calendar.Time) (workspace : Workspace) (index : Nat)
    (cause : Cause) : Prop :=
  ∃ compiled, (workspace.compile config now).documents[index]? = some compiled ∧
    compiled.artifact = .error ⟨compiled.document, cause⟩

/-- The document at an index is rejected, for its id or for its file. -/
def Rejected (config : Config) (now : Calendar.Time) (workspace : Workspace) (index : Nat) : Prop :=
  workspace.FailsFor config now index .duplicateDocument ∨
    ∃ file owner, workspace.FailsFor config now index (.duplicateArtifact file owner)

/-- A document before an index has an id. -/
def HasBefore (workspace : Workspace) (index : Nat) (document : Document) : Prop :=
  ∃ earlier < index, ∃ other, workspace[earlier]? = some other ∧ other.document = document

/-- A document before an index can be read, is not rejected, and has a file. -/
def FilesBefore (config : Config) (now : Calendar.Time) (workspace : Workspace) (index : Nat)
    (file : String) (document : Document) : Prop :=
  ∃ earlier < index, ∃ other, workspace[earlier]? = some other ∧ other.grammar.isOk ∧
    ¬ workspace.Rejected config now earlier ∧ other.document = document ∧
    config.fileName document = file

/-- Which documents of a workspace are rejected, and what the others have to themselves. -/
structure KeepsApart (config : Config) (now : Calendar.Time) (workspace : Workspace) : Prop where
  /-- A document that can be read is rejected for its id exactly if a document before it has the
      id. -/
  byId : ∀ index source, workspace[index]? = some source → source.grammar.isOk →
    (workspace.FailsFor config now index .duplicateDocument ↔
      workspace.HasBefore index source.document)
  /-- Otherwise it is rejected for its file exactly if a document before it that is not rejected has
      the file. The cause names that document. -/
  byFile : ∀ index source, workspace[index]? = some source → source.grammar.isOk →
    ∀ file owner, workspace.FailsFor config now index (.duplicateArtifact file owner) ↔
      ¬ workspace.HasBefore index source.document ∧ config.fileName source.document = file ∧
        workspace.FilesBefore config now index file owner
  documents : ((workspace.compile config now).artifacts.map Artifact.document).Nodup
  files : ((workspace.compile config now).artifacts.map Artifact.fileName).Nodup
  /-- No two tables that are linked have one id. -/
  tables : ((workspace.tables config).map Table.document).Nodup
  /-- Nor do any two documents that others can refer to. -/
  exports : ((workspace.exports config).documents.map Prod.fst).Nodup

/-! ## What is taken before a document -/

variable {config : Config} {now : Calendar.Time} {workspace : Workspace} {index : Nat}
  {source : Source}

/-- The documents before an index. -/
def before (workspace : Workspace) (index : Nat) : Workspace :=
  workspace.take index

/-- Why a document at an index is rejected, if it is. -/
def rejectionAt? (config : Config) (workspace : Workspace) (index : Nat) (document : Document) :
    Option Cause :=
  duplicateCause? config (workspace.before index).seen ((workspace.before index).taken config)
    document

theorem before_succ (hget : workspace[index]? = some source) :
    workspace.before (index + 1) = workspace.before index ++ [source] := by
  rw [before, List.take_add_one, hget, Option.toList_some, before]

theorem before_succ_of_none (hget : workspace[index]? = none) :
    workspace.before (index + 1) = workspace.before index := by
  rw [before, List.take_add_one, hget, Option.toList_none, List.append_nil, before]

/-- What becomes of a document, from what is taken before it. -/
theorem build_getElem? (hget : workspace[index]? = some source) :
    (workspace.build config).1[index]? = some
      ⟨source.name, source.document, source.stage config (workspace.before index).seen
        ((workspace.before index).taken config)⟩ := by
  have hindex := (List.getElem?_eq_some_iff.1 hget).1
  have hsplit : workspace.before index ++ source :: workspace.drop (index + 1) = workspace := by
    rw [← List.singleton_append, ← List.append_assoc, ← before_succ hget, before,
      List.take_append_drop]
  have hlength : (workspace.before index).length = index := List.length_take_of_le hindex.le
  have hbuild := build_getElem?_length config (workspace.before index)
    (workspace.drop (index + 1)) source
  rwa [hsplit, hlength] at hbuild

theorem mem_seen_before_iff {document : Document} :
    document ∈ (workspace.before index).seen ↔ workspace.HasBefore index document := by
  rw [mem_seen, before, List.mem_map]
  simp only [List.mem_iff_getElem?, List.getElem?_take, Option.ite_none_right_eq_some]
  constructor
  · rintro ⟨other, ⟨earlier, hlt, hget⟩, rfl⟩
    exact ⟨earlier, hlt, other, hget, rfl⟩
  · rintro ⟨earlier, hlt, other, hget, rfl⟩
    exact ⟨other, ⟨earlier, hlt, hget⟩, rfl⟩

theorem taken_before_succ (hget : workspace[index]? = some source) :
    (workspace.before (index + 1)).taken config = source.filesAfter config
      (workspace.before index).seen ((workspace.before index).taken config) := by
  rw [before_succ hget, taken, takenFiles_append, List.append_nil, takenFiles, takenFiles]
  rfl

/-- A document takes no file that is taken. -/
theorem files_nodup_filesAfter {seen : List Document} {files : List (String × Document)}
    (h : (files.map Prod.fst).Nodup) :
    ((source.filesAfter config seen files).map Prod.fst).Nodup := by
  rw [Source.filesAfter]
  split
  · next hfree =>
    rw [Bool.and_eq_true, Option.isNone_iff_eq_none, duplicateCause?] at hfree
    have hlookup := hfree.2
    split at hlookup
    · simp at hlookup
    · rw [Option.map_eq_none_iff, lookup_eq_none_iff_not_mem] at hlookup
      exact List.nodup_cons.2 ⟨hlookup, h⟩
  · exact h

theorem taken_before_nodup (config : Config) (workspace : Workspace) (index : Nat) :
    (((workspace.before index).taken config).map Prod.fst).Nodup := by
  induction index with
  | zero => exact List.nodup_nil
  | succ index ih =>
    cases hget : workspace[index]? with
    | none =>
      rw [before_succ_of_none hget]
      exact ih
    | some source =>
      rw [taken_before_succ hget]
      exact files_nodup_filesAfter ih

/-! ## Rejections -/

theorem document_ofLinkage (staged : Staged Linkage) :
    (Compiled.ofLinkage config now staged).document = staged.document := by
  rw [Compiled.ofLinkage]
  cases staged.stage <;> rfl

theorem artifact_ofLinkage_error_iff {staged : Staged Linkage} {failure : Failure} :
    (Compiled.ofLinkage config now staged).artifact = .error failure ↔
      staged.stage = .error failure := by
  rw [Compiled.ofLinkage]
  cases staged.stage <;> simp

/-- Neither building nor linking rejects a document. -/
theorem stage_bind_link_error_iff (hreadable : source.grammar.isOk) {cause : Cause}
    (hcause : cause.isDuplicate) (seen : List Document) (files : List (String × Document))
    (exports : Exports) :
    (source.stage config seen files).bind (Table.link exports) = .error ⟨source.document, cause⟩ ↔
      duplicateCause? config seen files source.document = some cause := by
  cases hgrammar : source.grammar with
  | error failure => simp [hgrammar, Except.isOk, Except.toBool] at hreadable
  | ok grammar =>
    rw [Source.stage, hgrammar]
    cases duplicateCause? config seen files source.document with
    | some other => simp [Except.bind]
    | none =>
      simp only [reduceCtorEq, iff_false]
      intro herror
      have hnone := rejection?_bind_link exports (Table.ofGrammar config source.document grammar).1
      simp only [Except.bind] at herror hnone
      rw [herror, rejection?_ofGrammar, rejection?, if_pos hcause] at hnone
      simp at hnone

/-- A document that can be read is rejected for what is taken before it. -/
theorem failsFor_iff (hget : workspace[index]? = some source) (hreadable : source.grammar.isOk)
    {cause : Cause} (hcause : cause.isDuplicate) : workspace.FailsFor config now index cause ↔
      workspace.rejectionAt? config index source.document = some cause := by
  rw [rejectionAt?, ← stage_bind_link_error_iff hreadable hcause _ _ (workspace.exports config)]
  simp only [FailsFor, compile, linkAll, List.getElem?_map, build_getElem? hget, Option.map_some,
    Option.some.injEq, exists_eq_left', artifact_ofLinkage_error_iff, document_ofLinkage]
  rfl

theorem not_rejected_iff (hget : workspace[index]? = some source)
    (hreadable : source.grammar.isOk) : ¬ workspace.Rejected config now index ↔
      workspace.rejectionAt? config index source.document = none := by
  have hartifact (file : String) (owner : Document) :
      workspace.FailsFor config now index (.duplicateArtifact file owner) ↔
        workspace.rejectionAt? config index source.document =
          some (.duplicateArtifact file owner) :=
    failsFor_iff hget hreadable rfl
  rw [Option.eq_none_iff_forall_ne_some, Rejected, failsFor_iff hget hreadable rfl]
  simp only [hartifact]
  constructor
  · intro hnot cause hcause
    have hduplicate := isDuplicate_of_duplicateCause? hcause
    cases cause with
    | duplicateDocument => exact hnot (.inl hcause)
    | duplicateArtifact file owner => exact hnot (.inr ⟨file, owner, hcause⟩)
    | _ => cases hduplicate
  · rintro hnone (hcause | ⟨file, owner, hcause⟩)
    · exact hnone _ hcause
    · exact hnone _ hcause

/-- The files that are taken before a document are those of the documents that can be read and are
    not rejected. -/
theorem mem_taken_iff (now : Calendar.Time) {file : String} {document : Document} :
    (file, document) ∈ (workspace.before index).taken config ↔
      workspace.FilesBefore config now index file document := by
  induction index with
  | zero => simp [before, taken, takenFiles, FilesBefore]
  | succ index ih =>
    -- The last document before the next one either takes its file or leaves the files as they are.
    have hlast : workspace.FilesBefore config now (index + 1) file document ↔
        workspace.FilesBefore config now index file document ∨
          ∃ other, workspace[index]? = some other ∧ other.grammar.isOk ∧
            ¬ workspace.Rejected config now index ∧ other.document = document ∧
            config.fileName document = file := by
      simp only [FilesBefore, Nat.lt_succ_iff_lt_or_eq, or_and_right, exists_or, exists_eq_left]
    rw [hlast, ← ih]
    cases hget : workspace[index]? with
    | none => simp [before_succ_of_none hget]
    | some source =>
      rw [taken_before_succ hget, Source.filesAfter, ← rejectionAt?]
      simp only [Option.some.injEq, exists_eq_left']
      by_cases hreadable : source.grammar.isOk
      · rw [not_rejected_iff hget hreadable]
        cases workspace.rejectionAt? config index source.document with
        | some cause => simp
        | none =>
          simp only [hreadable, Option.isNone_none, Bool.and_self, ↓reduceIte, List.mem_cons,
            Prod.mk.injEq, true_and]
          rw [or_comm]
          refine or_congr_right ⟨?_, ?_⟩
          · rintro ⟨rfl, rfl⟩
            exact ⟨rfl, rfl⟩
          · rintro ⟨rfl, rfl⟩
            exact ⟨rfl, rfl⟩
      · simp [hreadable]

/-- A document is rejected for its id if that is taken, and otherwise for its file if that is. -/
theorem rejectionAt?_eq (config : Config) (workspace : Workspace) (index : Nat)
    (document : Document) [Decidable (workspace.HasBefore index document)] :
    workspace.rejectionAt? config index document =
      if workspace.HasBefore index document then some .duplicateDocument
      else
        (((workspace.before index).taken config).lookup (config.fileName document)).map fun other =>
          .duplicateArtifact (config.fileName document) other := by
  have hseen : (workspace.before index).seen.contains document = true ↔
      workspace.HasBefore index document :=
    List.contains_iff_mem.trans mem_seen_before_iff
  rw [rejectionAt?, duplicateCause?]
  exact if_congr hseen rfl rfl

theorem rejectionAt?_id_iff {document : Document} :
    workspace.rejectionAt? config index document = some .duplicateDocument ↔
      workspace.HasBefore index document := by
  classical
  rw [rejectionAt?_eq]
  by_cases hbefore : workspace.HasBefore index document <;> simp [hbefore]

theorem rejectionAt?_file_iff (now : Calendar.Time) {document owner : Document} {file : String} :
    workspace.rejectionAt? config index document = some (.duplicateArtifact file owner) ↔
      ¬ workspace.HasBefore index document ∧ config.fileName document = file ∧
        workspace.FilesBefore config now index file owner := by
  classical
  rw [rejectionAt?_eq, ← mem_taken_iff now]
  by_cases hbefore : workspace.HasBefore index document
  · simp [hbefore]
  · simp only [hbefore, ↓reduceIte, Option.map_eq_some_iff, Cause.duplicateArtifact.injEq,
      not_false_eq_true, true_and]
    constructor
    · rintro ⟨other, hlookup, rfl, rfl⟩
      exact ⟨rfl, (lookup_eq_some_iff_mem (taken_before_nodup config workspace index)).1 hlookup⟩
    · rintro ⟨rfl, hmem⟩
      have hlookup := lookup_eq_some_of_mem (taken_before_nodup config workspace index) hmem
      exact ⟨owner, hlookup, rfl, rfl⟩

/-! ## Artifacts and tables -/

theorem documents_nodup (config : Config) (now : Calendar.Time) (workspace : Workspace) :
    ((workspace.compile config now).artifacts.map Artifact.document).Nodup := by
  have hfiles := fileNames_nodup config now workspace
  rw [List.map_congr_left fun artifact => fileName_of_mem_artifacts] at hfiles
  refine List.Nodup.of_map config.fileName ?_
  rw [List.map_map]
  exact hfiles

theorem nodup_addHandwritten {exports : Exports} (h : (exports.documents.map Prod.fst).Nodup)
    (document : Document) : ((exports.addHandwritten document).documents.map Prod.fst).Nodup := by
  rw [Exports.addHandwritten]
  split
  · exact h
  · next hcontains =>
    rw [Exports.contains, Exports.find?, Option.not_isSome_iff_eq_none,
      lookup_eq_none_iff_not_mem] at hcontains
    rw [List.map_append, List.map_singleton]
    refine h.append (List.nodup_singleton _) ?_
    rwa [List.disjoint_singleton]

/-- No document is known twice. -/
theorem exports_nodup (config : Config) (workspace : Workspace) :
    ((workspace.exports config).documents.map Prod.fst).Nodup := by
  rw [exports, exportsOf]
  refine List.foldlRecOn (motive := fun exports : Exports => (exports.documents.map Prod.fst).Nodup)
    config.handwritten _ ?_ fun exports h document _ => nodup_addHandwritten h document
  rw [foldl_addTable_documents, List.append_nil, List.map_reverse, List.nodup_reverse, List.map_map]
  exact tables_nodup config workspace

/-- Whatever documents a workspace has, one is rejected exactly if its id is taken before it, or
    else its file. So artifacts do not overwrite each other, and no id is linked twice. -/
theorem keepsApart (config : Config) (now : Calendar.Time) (workspace : Workspace) :
    workspace.KeepsApart config now where
  byId index source hget hreadable := by
    rw [failsFor_iff hget hreadable rfl, rejectionAt?_id_iff]
  byFile index source hget hreadable file owner := by
    rw [failsFor_iff hget hreadable rfl, rejectionAt?_file_iff now]
  documents := documents_nodup config now workspace
  files := fileNames_nodup config now workspace
  tables := tables_nodup config workspace
  exports := exports_nodup config workspace

/-- A document that cannot be read takes its id, and one that cannot be built takes its file. The
    third is rejected, so that its file is free for the fourth. -/
example :
    let unreadable : Source := ⟨"a", ⟨"source.a"⟩, .error ⟨⟨"source.a"⟩, .unreadable .truncated⟩⟩
    let unbuilt : Source := .ofGrammar "b" { scopeName := some "source.b" }
    let named (id : String) : Source :=
      .ofGrammar "c" { scopeName := some id, repository := some [("x", { single := some "x" })] }
    (compile {} ⟨0⟩ [unreadable, unbuilt, named "source.a", named "text.a", named "text.b"]
      ).documents.map (fun compiled => compiled.artifact.map Artifact.fileName) =
      [.error ⟨⟨"source.a"⟩, .unreadable .truncated⟩,
        .error ⟨⟨"source.b"⟩, .missingRepository⟩,
        .error ⟨⟨"source.a"⟩, .duplicateDocument⟩,
        .ok "a-token-patterns.g.ts",
        .error ⟨⟨"text.b"⟩, .duplicateArtifact "b-token-patterns.g.ts" ⟨"source.b"⟩⟩] := by
  decide +kernel

end Workspace

end PatternTable
