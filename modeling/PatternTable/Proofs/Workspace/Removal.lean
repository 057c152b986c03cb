import PatternTable.Proofs.Table.Building
import PatternTable.Proofs.Table.Linking
import PatternTable.Proofs.Workspace.Isolation

/-!
# Removing a document that fails

A document that fails has no table, and nothing is known of it by the documents that refer to it.
But it keeps its id, and its file as well if it can be read. So a document that comes after it can
be rejected for an id or a file although there is no table that has it.

The workspace is built with the failed document and without it. `Beside` relates what is taken in
the two runs; a document that is not displaced comes out the same and keeps the relation.

* `Workspace.FailsAt`: a document cannot be read or built.
* `Source.Displaces`: a failed document is the reason why a later one is rejected.

Results:
* `Workspace.removal_iff`: removing a failed document changes nothing for the others exactly if it
  displaces none of them, and each one that it displaces is rejected.
-/

namespace PatternTable

/-! ## Specification -/

/-- The document at an index cannot be read, or is no duplicate and cannot be built. -/
def Workspace.FailsAt (config : Config) (workspace : Workspace) (index : Nat) : Prop :=
  ∃ source failure, workspace[index]? = some source ∧ source.table config = .error failure ∧
    (workspace.build config).1[index]? = some ⟨source.name, source.document, .error failure⟩

/-- A failed document is the cause why a document is rejected. It comes before the document, as do
    the documents in `others`, and none of these has the id of the document. -/
inductive Source.Displaces (config : Config) (failed : Source) (others : Workspace)
    (source : Source) : Cause → Prop where
  | byId (hreadable : source.grammar.isOk) (hnew : source.document ∉ others.map Source.document)
    (hid : source.document = failed.document) :
    Displaces config failed others source .duplicateDocument
  | byFile (hreadable : source.grammar.isOk) (hnew : source.document ∉ others.map Source.document)
    (hid : source.document ≠ failed.document) (hfailed : failed.grammar.isOk)
    (hfile : config.fileName source.document = config.fileName failed.document) :
    Displaces config failed others source
      (.duplicateArtifact (config.fileName source.document) failed.document)

/-! ## Rejections -/

/-- Whether a cause is that an id or a file is taken. -/
def Cause.isDuplicate : Cause → Bool
  | duplicateDocument => true
  | duplicateArtifact _ _ => true
  | _ => false

/-- Why a document is rejected, if it is. -/
def rejection? {α : Type} : Except Failure α → Option Cause
  | .ok _ => none
  | .error failure => if failure.cause.isDuplicate then some failure.cause else none

theorem Grammar.FirstBuildFault.not_isDuplicate {document : Document} {grammar : Grammar}
    {cause : Cause} (h : grammar.FirstBuildFault document cause) : cause.isDuplicate = false := by
  cases h with
  | noRepository => rfl
  | key _ h =>
    obtain ⟨_, _, _, _, _, hfault⟩ := h
    cases hfault <;> rfl
  | rule _ _ h =>
    obtain ⟨_, ⟨origin, visit⟩, _, _, _, hoffence⟩ := h
    generalize hcause : cause = found at hoffence ⊢
    cases hoffence <;> rfl

theorem Table.FirstLinkFault.not_isDuplicate {table : Table} {exports : Exports} {cause : Cause}
    (h : table.FirstLinkFault exports cause) : cause.isDuplicate = false := by
  cases h with
  | internal h =>
    obtain ⟨_, _, _, _, _, hfault⟩ := h
    cases hfault <;> rfl
  | external _ h =>
    obtain ⟨_, _, _, _, _, hfault⟩ := h
    cases hfault <;> rfl

/-- Building a grammar rejects nothing. -/
theorem rejection?_ofGrammar (config : Config) (document : Document) (grammar : Grammar) :
    rejection? (Table.ofGrammar config document grammar).1 = none := by
  cases hbuild : (Table.ofGrammar config document grammar).1 with
  | ok table => rfl
  | error failure =>
    have hfault := Grammar.definitions_error_iff.1 (Table.ofGrammar_error_iff.1 hbuild).2
    rw [rejection?, hfault.not_isDuplicate]
    rfl

/-- Neither does linking: a document is rejected exactly if it was rejected before. -/
theorem rejection?_bind_link (exports : Exports) (stage : Except Failure Table) :
    rejection? (stage.bind (Table.link exports)) = rejection? stage := by
  cases stage with
  | error failure => rfl
  | ok table =>
    show rejection? (table.link exports) = none
    cases hcause : table.linkCause? exports with
    | none => rw [(Table.link_ok_iff _ _ _).2 ⟨hcause, rfl⟩, rejection?]
    | some cause =>
      have hlink : table.link exports = .error ⟨table.document, cause⟩ := by
        rw [Table.link, hcause]
      rw [hlink, rejection?, if_neg]
      rw [(Table.linkCause?_eq_some_iff.1 hcause).not_isDuplicate]
      exact Bool.false_ne_true

/-! ## What is taken -/

namespace Workspace

theorem isDuplicate_of_duplicateCause? {config : Config} {seen : List Document}
    {files : List (String × Document)} {document : Document} {cause : Cause}
    (h : duplicateCause? config seen files document = some cause) : cause.isDuplicate := by
  rw [duplicateCause?] at h
  split at h
  · cases h
    rfl
  · obtain ⟨other, -, rfl⟩ := Option.map_eq_some_iff.1 h
    rfl

/-- The files that are taken after some documents. -/
def takenFiles (config : Config) (seen : List Document) (files : List (String × Document)) :
    Workspace → List (String × Document)
  | [] => files
  | source :: sources =>
    takenFiles config (source.document :: seen) (source.filesAfter config seen files) sources

theorem takenFiles_append (config : Config) (seen : List Document)
    (files : List (String × Document)) (sources others : Workspace) :
    takenFiles config seen files (sources ++ others) =
      takenFiles config ((sources.map Source.document).reverse ++ seen)
        (takenFiles config seen files sources) others := by
  induction sources generalizing seen files with
  | nil => rfl
  | cons source sources ih =>
    rw [List.cons_append, takenFiles, takenFiles, ih]
    simp

theorem buildFrom_append (config : Config) (seen : List Document)
    (files : List (String × Document)) (sources others : Workspace) :
    (buildFrom config seen files (sources ++ others)).1 =
      (buildFrom config seen files sources).1 ++
        (buildFrom config ((sources.map Source.document).reverse ++ seen)
          (takenFiles config seen files sources) others).1 := by
  induction sources generalizing seen files with
  | nil => rfl
  | cons source sources ih =>
    rw [List.cons_append, buildFrom_cons, buildFrom_cons, ih, takenFiles]
    simp

/-- The ids that are taken after a workspace. -/
def seen (workspace : Workspace) : List Document :=
  (workspace.map Source.document).reverse

/-- The files that are taken after a workspace. -/
def taken (config : Config) (workspace : Workspace) : List (String × Document) :=
  takenFiles config [] [] workspace

theorem mem_seen {workspace : Workspace} {document : Document} :
    document ∈ workspace.seen ↔ document ∈ workspace.map Source.document :=
  List.mem_reverse

theorem build_append (config : Config) (sources others : Workspace) :
    ((sources ++ others).build config).1 = (sources.build config).1 ++
      (buildFrom config sources.seen (sources.taken config) others).1 := by
  rw [build, buildFrom_append, List.append_nil]
  rfl

/-- What becomes of a document, from what is taken before it. -/
theorem build_getElem?_length (config : Config) (ahead behind : Workspace) (source : Source) :
    ((ahead ++ source :: behind).build config).1[ahead.length]? =
      some ⟨source.name, source.document, source.stage config ahead.seen (ahead.taken config)⟩ := by
  rw [build_append, ← buildFrom_length config [] [] ahead, ← build,
    List.getElem?_append_right (Nat.le_refl _), Nat.sub_self, buildFrom_cons,
    List.getElem?_cons_zero]

/-- A file that is taken stays taken by the same document. -/
theorem lookup_takenFiles {config : Config} {seen : List Document}
    {files : List (String × Document)} {file : String} {document : Document}
    (h : files.lookup file = some document) (sources : Workspace) :
    (takenFiles config seen files sources).lookup file = some document := by
  induction sources generalizing seen files with
  | nil => exact h
  | cons source sources ih =>
    refine ih ?_
    rw [Source.filesAfter]
    split
    · next hfree =>
      have hne : config.fileName source.document ≠ file := by
        rintro rfl
        rw [Bool.and_eq_true, duplicateCause?, h] at hfree
        split at hfree <;> simp at hfree
      rw [List.lookup_cons, beq_eq_false_iff_ne.2 hne.symm]
      exact h
    · exact h

end Workspace

/-- What is taken after a failed document and the documents in `others`, in a run with the failed
    document and in one without it. -/
structure Beside (config : Config) (failed : Source) (others : Workspace)
    (seen : List Document) (files : List (String × Document)) (seen' : List Document)
    (files' : List (String × Document)) : Prop where
  seen : ∀ document,
    document ∈ seen ↔ document = failed.document ∨ document ∈ others.map Source.document
  without : ∀ document, document ∈ seen' ↔ document ∈ others.map Source.document
  /-- A failed document that can be read takes its file. -/
  file : failed.grammar.isOk →
    files.lookup (config.fileName failed.document) = some failed.document
  free : failed.grammar.isOk → files'.lookup (config.fileName failed.document) = none
  same : ∀ file, (failed.grammar.isOk → file ≠ config.fileName failed.document) →
    files.lookup file = files'.lookup file

namespace Beside

variable {config : Config} {failed : Source} {others : Workspace} {seen seen' : List Document}
  {files files' : List (String × Document)} {source : Source}

/-- A document that is not displaced is checked alike in the two runs. -/
theorem duplicateCause?_eq (h : Beside config failed others seen files seen' files')
    (hspared : ∀ cause, ¬ failed.Displaces config others source cause)
    (hreadable : source.grammar.isOk) :
    Workspace.duplicateCause? config seen files source.document =
      Workspace.duplicateCause? config seen' files' source.document := by
  by_cases hold : source.document ∈ others.map Source.document
  · have hseen := (h.seen source.document).2 (.inr hold)
    have hseen' := (h.without source.document).2 hold
    simp [Workspace.duplicateCause?, hseen, hseen']
  · have hid : source.document ≠ failed.document := fun hid =>
      hspared _ (.byId hreadable hold hid)
    have hfile : files.lookup (config.fileName source.document) =
        files'.lookup (config.fileName source.document) :=
      h.same _ fun hfailed hfile => hspared _ (.byFile hreadable hold hid hfailed hfile)
    have hseen : source.document ∉ seen := by
      rw [h.seen, not_or]
      exact ⟨hid, hold⟩
    have hseen' : source.document ∉ seen' := mt (h.without _).1 hold
    simp [Workspace.duplicateCause?, hseen, hseen', hfile]

/-- So it has one table in both, or fails alike. -/
theorem stage_eq (h : Beside config failed others seen files seen' files')
    (hspared : ∀ cause, ¬ failed.Displaces config others source cause) :
    source.stage config seen files = source.stage config seen' files' := by
  rw [Source.stage, Source.stage]
  cases hgrammar : source.grammar with
  | error failure => rfl
  | ok grammar =>
    have hreadable : source.grammar.isOk := by rw [hgrammar]; rfl
    simp only [Except.bind, h.duplicateCause?_eq hspared hreadable]

/-- What is taken stays related after a document that is not displaced. -/
theorem next (h : Beside config failed others seen files seen' files')
    (hspared : ∀ cause, ¬ failed.Displaces config others source cause) :
    Beside config failed (others ++ [source]) (source.document :: seen)
      (source.filesAfter config seen files) (source.document :: seen')
      (source.filesAfter config seen' files') := by
  have hseen : ∀ document, document ∈ source.document :: seen ↔
      document = failed.document ∨ document ∈ (others ++ [source]).map Source.document := by
    intro document
    rw [List.mem_cons, h.seen, List.map_append, List.mem_append, List.map_singleton,
      List.mem_singleton]
    tauto
  have hwithout : ∀ document, document ∈ source.document :: seen' ↔
      document ∈ (others ++ [source]).map Source.document := by
    intro document
    rw [List.mem_cons, h.without, List.map_append, List.mem_append, List.map_singleton,
      List.mem_singleton, or_comm]
  by_cases htaken : source.grammar.isOk ∧
      Workspace.duplicateCause? config seen files source.document = none
  · obtain ⟨hreadable, hfree⟩ := htaken
    have hfree' := (h.duplicateCause?_eq hspared hreadable).symm.trans hfree
    have hne : failed.grammar.isOk →
        config.fileName failed.document ≠ config.fileName source.document := by
      intro hfailed heq
      rw [Workspace.duplicateCause?, ← heq, h.file hfailed] at hfree
      split at hfree <;> simp at hfree
    have hafter : source.filesAfter config seen files =
        (config.fileName source.document, source.document) :: files := by
      simp [Source.filesAfter, hreadable, hfree]
    have hafter' : source.filesAfter config seen' files' =
        (config.fileName source.document, source.document) :: files' := by
      simp [Source.filesAfter, hreadable, hfree']
    rw [hafter, hafter']
    refine ⟨hseen, hwithout, fun hfailed => ?_, fun hfailed => ?_, fun file hfile => ?_⟩
    · rw [List.lookup_cons, beq_eq_false_iff_ne.2 (hne hfailed)]
      exact h.file hfailed
    · rw [List.lookup_cons, beq_eq_false_iff_ne.2 (hne hfailed)]
      exact h.free hfailed
    · rw [List.lookup_cons, List.lookup_cons, h.same file hfile]
  · have hafter : source.filesAfter config seen files = files := by
      rw [Source.filesAfter, if_neg]
      simpa using htaken
    have hafter' : source.filesAfter config seen' files' = files' := by
      rw [Source.filesAfter, if_neg]
      intro h'
      rw [Bool.and_eq_true, Option.isNone_iff_eq_none] at h'
      exact htaken ⟨h'.1, (h.duplicateCause?_eq hspared h'.1).trans h'.2⟩
    rw [hafter, hafter']
    exact ⟨hseen, hwithout, h.file, h.free, h.same⟩

end Beside

namespace Source.Displaces

variable {config : Config} {failed source : Source} {others : Workspace} {cause : Cause}

/-- A document that is displaced is rejected in the run with the failed document. -/
theorem stage_eq_error (h : failed.Displaces config others source cause) {seen : List Document}
    {files : List (String × Document)} (hseen : ∀ document,
      document ∈ seen ↔ document = failed.document ∨ document ∈ others.map Source.document)
    (hfile : failed.grammar.isOk →
      files.lookup (config.fileName failed.document) = some failed.document) :
    source.stage config seen files = .error ⟨source.document, cause⟩ := by
  have hstage {cause : Cause} (hreadable : source.grammar.isOk)
      (hcause : Workspace.duplicateCause? config seen files source.document = some cause) :
      source.stage config seen files = .error ⟨source.document, cause⟩ := by
    rw [Source.stage]
    cases hgrammar : source.grammar with
    | error failure => simp [hgrammar, Except.isOk, Except.toBool] at hreadable
    | ok grammar => simp only [Except.bind, hcause]
  cases h with
  | byId hreadable hnew hid =>
    have hmem : source.document ∈ seen := (hseen _).2 (.inl hid)
    exact hstage hreadable (by simp [Workspace.duplicateCause?, hmem])
  | byFile hreadable hnew hid hfailed hsame =>
    have hmem : source.document ∉ seen := by
      rw [hseen, not_or]
      exact ⟨hid, hnew⟩
    have hlookup := hfile hfailed
    exact hstage hreadable (by simp [Workspace.duplicateCause?, hmem, hsame, hlookup])

/-- In the run without it, the document is not rejected for the same cause. -/
theorem rejection?_stage_ne (h : failed.Displaces config others source cause)
    {seen seen' : List Document} {files files' : List (String × Document)}
    (hbeside : Beside config failed others seen files seen' files') :
    rejection? (source.stage config seen' files') ≠ some cause := by
  rw [Source.stage]
  cases hgrammar : source.grammar with
  | error failure => cases h <;> simp_all [Except.isOk, Except.toBool]
  | ok grammar =>
    cases h with
    | byId _ hnew _ =>
      have hmem : source.document ∉ seen' := mt (hbeside.without _).1 hnew
      simp only [Except.bind, Workspace.duplicateCause?, List.contains_iff_mem, hmem, ↓reduceIte]
      cases files'.lookup (config.fileName source.document) with
      | none => simp [rejection?_ofGrammar]
      | some other => simp [rejection?, Cause.isDuplicate]
    | byFile _ hnew _ hfailed hsame =>
      have hmem : source.document ∉ seen' := mt (hbeside.without _).1 hnew
      have hlookup := hbeside.free hfailed
      simp [Except.bind, Workspace.duplicateCause?, hmem, hsame, hlookup, rejection?_ofGrammar]

end Source.Displaces

/-! ## The two runs -/

namespace Beside

variable {config : Config} {failed : Source} {others : Workspace} {seen seen' : List Document}
  {files files' : List (String × Document)}

/-- If no document is displaced, the two runs agree. -/
theorem buildFrom_eq (h : Beside config failed others seen files seen' files') {sources : Workspace}
    (hspared : Faultless (fun ahead => failed.Displaces config (others ++ ahead)) sources) :
    (Workspace.buildFrom config seen files sources).1 =
      (Workspace.buildFrom config seen' files' sources).1 := by
  induction sources generalizing others seen files seen' files' with
  | nil => rfl
  | cons source sources ih =>
    rw [faultless_cons_iff, List.append_nil] at hspared
    rw [Workspace.buildFrom_cons, Workspace.buildFrom_cons, h.stage_eq hspared.1,
      ih (h.next hspared.1)]
    simpa using hspared.2

/-- If the two runs reject the same documents for the same causes, no document is displaced. -/
theorem faultless_of_rejections (h : Beside config failed others seen files seen' files')
    {sources : Workspace}
    (heq : ((Workspace.buildFrom config seen files sources).1.map fun staged =>
        rejection? staged.stage) =
      (Workspace.buildFrom config seen' files' sources).1.map fun staged =>
        rejection? staged.stage) :
    Faultless (fun ahead => failed.Displaces config (others ++ ahead)) sources := by
  induction sources generalizing others seen files seen' files' with
  | nil => exact faultless_nil _
  | cons source sources ih =>
    rw [Workspace.buildFrom_cons, Workspace.buildFrom_cons, List.map_cons, List.map_cons,
      List.cons.injEq] at heq
    obtain ⟨hfirst, hrest⟩ := heq
    have hspared : ∀ cause, ¬ failed.Displaces config others source cause := by
      intro cause hdisplaced
      have hne := hdisplaced.rejection?_stage_ne h
      rw [← hfirst, hdisplaced.stage_eq_error h.seen h.file, rejection?] at hne
      cases hdisplaced <;> simp [Cause.isDuplicate] at hne
    rw [faultless_cons_iff, List.append_nil]
    refine ⟨hspared, ?_⟩
    simpa using ih (h.next hspared) hrest

end Beside

namespace Workspace

variable {config : Config} {before after : Workspace} {failed : Source}

/-- A document that has the table it would have alone, or fails as it would, is no duplicate. -/
theorem duplicateCause?_of_stage_eq_table {seen : List Document} {files : List (String × Document)}
    (h : failed.stage config seen files = failed.table config) (hreadable : failed.grammar.isOk) :
    duplicateCause? config seen files failed.document = none := by
  rw [Source.stage, Source.table] at h
  cases hgrammar : failed.grammar with
  | error failure => simp [hgrammar, Except.isOk, Except.toBool] at hreadable
  | ok grammar =>
    simp only [hgrammar, Except.bind] at h
    cases hcause : duplicateCause? config seen files failed.document with
    | none => rfl
    | some cause =>
      -- Building the grammar would end in a rejection.
      have hnone := rejection?_ofGrammar config failed.document grammar
      rw [← h, hcause, rejection?, if_pos (isDuplicate_of_duplicateCause? hcause)] at hnone
      simp at hnone

/-- The stage of a failed document: it is not rejected, and has no table. -/
theorem FailsAt.stage (h : (before ++ failed :: after).FailsAt config before.length) :
    ∃ failure, failed.table config = .error failure ∧
      failed.stage config before.seen (before.taken config) = .error failure := by
  obtain ⟨source, failure, hget, htable, hstage⟩ := h
  obtain rfl : failed = source := by simpa using hget
  rw [build_getElem?_length] at hstage
  simp only [Option.some.injEq, Staged.mk.injEq, true_and] at hstage
  exact ⟨failure, htable, hstage⟩

/-- A document that cannot be read fails, whatever else there is. -/
theorem failsAt_of_unreadable {failure : Failure} (h : failed.grammar = .error failure) :
    (before ++ failed :: after).FailsAt config before.length := by
  have hstage (seen : List Document) (files : List (String × Document)) :
      failed.stage config seen files = .error failure := by
    rw [Source.stage, h]
    rfl
  refine ⟨failed, failure, by simp, ?_, ?_⟩
  · rw [Source.table, h]
    rfl
  · rw [build_getElem?_length, hstage]

/-- What is taken after a failed document, with it and without it. -/
theorem FailsAt.beside (h : (before ++ failed :: after).FailsAt config before.length) :
    Beside config failed before (failed.document :: before.seen)
      (failed.filesAfter config before.seen (before.taken config)) before.seen
      (before.taken config) := by
  obtain ⟨failure, htable, hstage⟩ := h.stage
  have hfree := duplicateCause?_of_stage_eq_table (hstage.trans htable.symm)
  have hlookup : failed.grammar.isOk →
      (before.taken config).lookup (config.fileName failed.document) = none := by
    intro hreadable
    have hnone := hfree hreadable
    rw [duplicateCause?] at hnone
    split at hnone
    · simp at hnone
    · exact Option.map_eq_none_iff.1 hnone
  rw [Source.filesAfter]
  refine ⟨fun document => ?_, fun document => mem_seen, fun hreadable => ?_, hlookup,
    fun file hfile => ?_⟩
  · rw [List.mem_cons, mem_seen]
  · simp [hreadable, hfree hreadable]
  · split
    · next htaken =>
      rw [Bool.and_eq_true] at htaken
      rw [List.lookup_cons, beq_eq_false_iff_ne.2 (hfile htaken.1)]
    · rfl

/-! ## Outcomes -/

/-- The outcomes of documents that are at the stage of tables. -/
def outcomes (config : Config) (now : Calendar.Time) (tables : List (Staged Table)) :
    List Compiled :=
  (linkAll config tables).map (Compiled.ofLinkage config now)

theorem documents_compile (config : Config) (now : Calendar.Time) (workspace : Workspace) :
    (workspace.compile config now).documents = outcomes config now (workspace.build config).1 :=
  rfl

/-- A document without a table takes part in no other outcome. -/
theorem outcomes_eraseIdx (config : Config) (now : Calendar.Time)
    (ahead behind : List (Staged Table)) (name : String) (document : Document)
    (failure : Failure) :
    (outcomes config now (ahead ++ ⟨name, document, .error failure⟩ :: behind)).eraseIdx
      ahead.length = outcomes config now (ahead ++ behind) := by
  have hvalues : Staged.values (ahead ++ ⟨name, document, .error failure⟩ :: behind) =
      Staged.values (ahead ++ behind) := by
    simp [Staged.values, Except.toOption]
  have hexports : exportsOf config (ahead ++ ⟨name, document, .error failure⟩ :: behind) =
      exportsOf config (ahead ++ behind) := by
    rw [exportsOf, hvalues, exportsOf]
  simp only [outcomes, linkAll, hexports, List.map_append, List.map_cons]
  rw [List.eraseIdx_append_of_length_le (by simp)]
  simp

/-- A document is rejected in its outcome as it is at the stage of tables. -/
theorem rejections_outcomes (config : Config) (now : Calendar.Time) (tables : List (Staged Table)) :
    ((outcomes config now tables).map fun compiled => rejection? compiled.artifact) =
      tables.map fun staged => rejection? staged.stage := by
  rw [outcomes, linkAll, List.map_map, List.map_map]
  refine List.map_congr_left fun staged _ => ?_
  rw [Function.comp_apply, Function.comp_apply, ← rejection?_bind_link (exportsOf config tables)]
  dsimp only [Compiled.ofLinkage]
  split <;> next hstage => rw [hstage]; rfl

/-- A document that is displaced has a rejection for its outcome. -/
theorem FailsAt.rejected (h : (before ++ failed :: after).FailsAt config before.length)
    (now : Calendar.Time) {ahead behind : Workspace} {source : Source} {cause : Cause}
    (hafter : after = ahead ++ source :: behind)
    (hdisplaced : failed.Displaces config (before ++ ahead) source cause) :
    (((before ++ failed :: after).compile config now).documents.map
        Compiled.artifact)[(before ++ failed :: ahead).length]? =
      some (.error ⟨source.document, cause⟩) := by
  have hseen : ∀ document, document ∈ (before ++ failed :: ahead).seen ↔
      document = failed.document ∨ document ∈ (before ++ ahead).map Source.document := by
    intro document
    simp only [mem_seen, List.map_append, List.map_cons, List.mem_append, List.mem_cons]
    tauto
  have hfile : failed.grammar.isOk → ((before ++ failed :: ahead).taken config).lookup
      (config.fileName failed.document) = some failed.document := by
    intro hreadable
    rw [taken, takenFiles_append, takenFiles, List.append_nil]
    exact lookup_takenFiles (h.beside.file hreadable) ahead
  have hbuild := build_getElem?_length config (before ++ failed :: ahead) behind source
  rw [hdisplaced.stage_eq_error hseen hfile, List.append_assoc, List.cons_append, ← hafter]
    at hbuild
  rw [documents_compile, outcomes, linkAll, List.getElem?_map, List.getElem?_map,
    List.getElem?_map, hbuild]
  rfl

/-- Removing a document that fails changes nothing for the other documents exactly if it displaces
    none of them. Every document that it displaces is rejected. -/
theorem removal_iff (config : Config) (now : Calendar.Time) (before after : Workspace)
    (failed : Source) (hfails : (before ++ failed :: after).FailsAt config before.length) :
    (((before ++ failed :: after).compile config now).documents.eraseIdx before.length =
        ((before ++ after).compile config now).documents ↔
      Faultless (fun ahead => failed.Displaces config (before ++ ahead)) after) ∧
    ∀ ahead source behind cause, after = ahead ++ source :: behind →
      failed.Displaces config (before ++ ahead) source cause →
      (((before ++ failed :: after).compile config now).documents.map
          Compiled.artifact)[(before ++ failed :: ahead).length]? =
        some (.error ⟨source.document, cause⟩) := by
  refine ⟨?_, fun ahead source behind cause hafter hdisplaced =>
    hfails.rejected now hafter hdisplaced⟩
  obtain ⟨failure, -, hstage⟩ := hfails.stage
  have hwith : ((before ++ failed :: after).compile config now).documents.eraseIdx before.length =
      outcomes config now ((before.build config).1 ++
        (buildFrom config (failed.document :: before.seen)
          (failed.filesAfter config before.seen (before.taken config)) after).1) := by
    rw [← outcomes_eraseIdx config now _ _ failed.name failed.document failure, build,
      buildFrom_length, ← hstage, ← buildFrom_cons, ← build, ← build_append, documents_compile]
  have hwithout : ((before ++ after).compile config now).documents =
      outcomes config now ((before.build config).1 ++
        (buildFrom config before.seen (before.taken config) after).1) := by
    rw [← build_append, documents_compile]
  rw [hwith, hwithout]
  constructor
  · intro heq
    have hrejections := congrArg (List.map fun compiled => rejection? compiled.artifact) heq
    rw [rejections_outcomes, rejections_outcomes, List.map_append, List.map_append,
      List.append_cancel_left_eq] at hrejections
    exact hfails.beside.faultless_of_rejections hrejections
  · intro hspared
    rw [hfails.beside.buildFrom_eq hspared]

/-- Between two documents, one that cannot be read. It displaces neither, so without it they have
    the same outcomes. -/
theorem removal_iff_between :
    let first : Source := .ofGrammar "a.tmLanguage.json"
      { scopeName := some "source.renpy.a"
        repository := some
          [("u", { patterns := some [{ reference := some "source.renpy.c#x" }] })] }
    let failed : Source := .ofText "b.tmLanguage.json" "\x7b"
    let last : Source := .ofGrammar "c.tmLanguage.json"
      { scopeName := some "source.renpy.c", repository := some [("x", { patterns := some [] })] }
    FailsAt {} [first, failed, last] 1 ∧
      (compile {} ⟨0⟩ [first, failed, last]).documents.eraseIdx 1 =
        (compile {} ⟨0⟩ [first, last]).documents := by
  intro first failed last
  have hgrammar : failed.grammar = .error ⟨⟨"source.b"⟩, .unreadable .truncated⟩ := by cbv
  have hfails : FailsAt {} ([first] ++ failed :: [last]) 1 := failsAt_of_unreadable hgrammar
  refine ⟨hfails, (removal_iff {} ⟨0⟩ [first] [last] failed hfails).1.2 ?_⟩
  rw [faultless_cons_iff]
  refine ⟨?_, faultless_nil _⟩
  rintro cause (⟨-, -, hid⟩ | ⟨-, -, -, hreadable, -⟩)
  · exact absurd hid (by decide +kernel)
  · exact absurd hreadable (by decide +kernel)

/-- A document that cannot be built, for want of a repository, keeps its file. The document after it
    is rejected for the file of a table that there is not, and is built without it. -/
theorem removal_changes_outcome :
    let failed : Source := .ofGrammar "a.tmLanguage.json" { scopeName := some "source.renpy.atl" }
    let other : Source := .ofGrammar "b.tmLanguage.json"
      { scopeName := some "source.other.atl", repository := some [("x", { single := some "x" })] }
    FailsAt {} [failed, other] 0 ∧
      (compile {} ⟨1685631468⟩ [failed, other]).documents.eraseIdx 0 ≠
        (compile {} ⟨1685631468⟩ [other]).documents := by
  intro failed other
  have hfails : FailsAt {} [failed, other] 0 :=
    ⟨failed, ⟨⟨"source.renpy.atl"⟩, .missingRepository⟩, rfl, rfl, rfl⟩
  refine ⟨hfails, fun heq => ?_⟩
  have hartifacts := congrArg (List.map fun compiled => compiled.artifact.isOk) heq
  exact absurd hartifacts (by decide +kernel)

end Workspace

end PatternTable
