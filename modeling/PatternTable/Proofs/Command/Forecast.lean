import PatternTable.Proofs.Command.Placement

/-!
# Runs before and after a run

A run that only checks compares every artifact with the disk as it is. A run that writes compares it
with what the artifacts before it have left, and makes the directory of the artifacts before it
writes the first of them. A path that goes up may lead nowhere until then. So a check reports what
the run that writes does, unless such a path comes to lead to artifacts that are current.

A run that follows finds every artifact current. It loads what the first one loaded, except if the
single grammar that it is told was in the file of its own artifact.

* `Disk.Wrote`: what a run that writes does to a disk.
* `Disk.Forecast`: what a check reports of a run that writes.
* `Disk.Settled`: what a run that follows finds.
* `Disk.Regenerates`: all of this together.

Results:
* `Disk.generate_regenerates`: it holds of every run that does not fail, on any tree.
* `Disk.grammar_overwritten`: a run after which a grammar is lost.
-/

namespace PatternTable.Disk

/-! ## Specification -/

/-- What a run that writes to a directory does to a disk. -/
structure Wrote (disk : Disk) (directory : String) (generated : Generated) (after : Disk) :
    Prop where
  stale : generated.summary.stale = []
  /-- What is written and what is unchanged are in the order of the artifacts, -/
  written : generated.summary.written.Sublist
    (generated.compilation.artifacts.map (Artifact.pathIn directory))
  unchanged : generated.summary.unchanged.Sublist
    (generated.compilation.artifacts.map (Artifact.pathIn directory))
  /-- and every artifact is one or the other. -/
  every : (generated.summary.written ++ generated.summary.unchanged).Perm
    (generated.compilation.artifacts.map (Artifact.pathIn directory))
  contents : ∀ artifact ∈ generated.compilation.artifacts,
    artifact.pathIn directory ∈ generated.summary.written →
      after.readText (artifact.pathIn directory) = .ok artifact.contents
  /-- No other file changes. -/
  others : ∀ place content,
    (∀ path ∈ generated.summary.written, after.locate path ≠ .ok place) →
      (after.find? place = some (.file content) ↔ disk.find? place = some (.file content))
  directories : ∀ place, disk.find? place = some .directory → after.find? place = some .directory

/-- What a check reports of a run that writes. -/
structure Forecast (disk : Disk) (generated checked : Generated) : Prop where
  written : checked.summary.written = []
  failed : checked.failed = generated.failed
  /-- It tells what is written and what is unchanged exactly if everything that is unchanged can be
      read beforehand. -/
  accurate : (checked.summary.stale = generated.summary.written ∧
      checked.summary.unchanged = generated.summary.unchanged) ↔
    ∀ path ∈ generated.summary.unchanged, ∃ text, disk.readText path = .ok text

/-- What a run finds that follows one on the disk. -/
structure Settled (disk : Disk) (options : GenerateOptions) (generated : Generated) (after : Disk)
    (next : Generated) : Prop where
  written : next.summary.written = []
  stale : next.summary.stale = []
  unchanged : next.summary.unchanged =
    next.compilation.artifacts.map (Artifact.pathIn (disk.outDirectory options))
  /-- These are the artifacts of the first run unless it has written to the file that it was told to
      load. -/
  same : next.summary.unchanged =
      generated.compilation.artifacts.map (Artifact.pathIn (disk.outDirectory options)) ↔
    after.readText options.path = disk.readText options.path

/-- What comes of a run, with the check before it and the runs that follow it. -/
structure Regenerates (disk : Disk) (options : GenerateOptions) (generated : Generated)
    (after : Disk) : Prop where
  run : disk.Wrote (disk.outDirectory options) generated after
  /-- A check changes nothing. -/
  check : ∀ now, (generate access { options with check := true } now disk).2 = disk ∧
    ∃ checked, (generate access { options with check := true } now disk).1.1 = .ok checked ∧
      disk.Forecast generated checked
  /-- What is unchanged can be read beforehand if the artifacts are next to the grammars, if their
      directory is there, or if its path does not go up. -/
  readable : (options.outDirectory = none ∨ disk.isDirectory (disk.outDirectory options) = true ∨
      ".." ∉ Path.components (disk.outDirectory options)) →
    ∀ path ∈ generated.summary.unchanged, ∃ text, disk.readText path = .ok text
  /-- Neither does a run that follows, whether or not it only checks. -/
  next : ∀ check now, (generate access { options with check := check } now after).2 = after ∧
    ∃ next, (generate access { options with check := check } now after).1.1 = .ok next ∧
      disk.Settled options generated after next
  /-- What is loaded stays if it does not have the name of an artifact. -/
  loaded : (∀ artifact ∈ generated.compilation.artifacts,
      (Path.components options.path).getLast? ≠ some artifact.fileName) →
    after.readText options.path = disk.readText options.path

/-! ## Times -/

section

variable (config : Config) (now now' : Calendar.Time) (workspace : Workspace)

theorem pathIn_ofLinkage (directory : String) (linkage : Linkage) :
    (Artifact.ofLinkage config now linkage).pathIn directory =
      Path.join directory (config.fileName linkage.table.document) := rfl

/-- Whether an artifact is current does not depend on the time. -/
theorem isCurrentAt_ofLinkage (disk : Disk) (directory : String) (linkage : Linkage) :
    disk.isCurrentAt directory (.ofLinkage config now linkage) =
      disk.isCurrentAt directory (.ofLinkage config now' linkage) := by
  unfold isCurrentAt Artifact.isUnchanged
  rw [pathIn_ofLinkage, pathIn_ofLinkage, Artifact.significantLines_contents,
    Artifact.significantLines_contents]

/-- Neither do the paths of those that are. -/
theorem map_filter_artifacts (disk : Disk) (directory : String) (keep : Bool → Bool) :
    ((workspace.compile config now).artifacts.filter fun artifact =>
        keep (disk.isCurrentAt directory artifact)).map (Artifact.pathIn directory) =
      ((workspace.compile config now').artifacts.filter fun artifact =>
        keep (disk.isCurrentAt directory artifact)).map (Artifact.pathIn directory) := by
  rw [Workspace.artifacts_compile, Workspace.artifacts_compile, List.filter_map, List.filter_map,
    List.map_map, List.map_map]
  have hkeep : ((fun artifact => keep (disk.isCurrentAt directory artifact)) ∘
      Artifact.ofLinkage config now) =
        (fun artifact => keep (disk.isCurrentAt directory artifact)) ∘
          Artifact.ofLinkage config now' :=
    funext fun linkage => congrArg keep (isCurrentAt_ofLinkage config now now' disk _ linkage)
  rw [hkeep]
  exact List.map_congr_left fun linkage _ => by
    simp only [Function.comp_apply, pathIn_ofLinkage]

theorem failures_compile : (workspace.compile config now).failures =
    (workspace.compile config now').failures := by
  rw [Compilation.failures, Compilation.failures, Workspace.compile, Workspace.compile,
    List.filterMap_map, List.filterMap_map]
  refine List.filterMap_congr fun staged _ => ?_
  simp only [Function.comp_apply, Compiled.ofLinkage]
  cases staged.stage <;> rfl

end

/-- A text that is no grammar fails, and has no artifact. -/
theorem compile_of_unreadable (config : Config) (now : Calendar.Time) (path : String)
    {text : String} {fault : Json.Fault} (hfault : Grammar.ofJson text = .error fault) :
    (Workspace.compile config now [.ofText path text]).artifacts = [] ∧
      (Workspace.compile config now [.ofText path text]).failures.length = 1 := by
  rw [Source.ofText, hfault]
  exact ⟨rfl, rfl⟩

/-! ## A run -/

/-- A run that does not fail: what it loads, what it keeps and what it writes. -/
structure Ran (disk : Disk) (options : GenerateOptions) (now : Calendar.Time)
    (generated : Generated) (after : Disk) (workspace : Workspace)
    (kept written : List Artifact) : Prop where
  load : disk.load options.path = .ok workspace
  compilation : generated.compilation = workspace.compile options.config now
  delivers : Delivers (disk.outDirectory options) disk generated.compilation.artifacts kept written
    after
  written : generated.summary.written =
    written.map (Artifact.pathIn (disk.outDirectory options))
  unchanged : generated.summary.unchanged =
    kept.map (Artifact.pathIn (disk.outDirectory options))
  stale : generated.summary.stale = []
  names : ∀ artifact ∈ generated.compilation.artifacts, Path.IsName artifact.fileName

theorem exists_ran {disk : Disk} {options : GenerateOptions} {now : Calendar.Time}
    {generated : Generated} (hcheck : options.check = false)
    (hnames : ∀ artifact ∈ disk.artifacts options now, '/' ∉ artifact.fileName.toList)
    (hrun : (generate access options now disk).1.1 = .ok generated) :
    ∃ workspace kept written, Ran disk options now generated
      (generate access options now disk).2 workspace kept written := by
  rw [generate_access] at hrun ⊢
  cases hload : disk.load options.path with
  | error fault => simp [hload] at hrun
  | ok workspace =>
    rw [hload, hcheck] at hrun
    rw [hcheck]
    dsimp only at hrun ⊢
    cases hdeliver : deliver access false (disk.outDirectory options) {}
      (workspace.compile options.config now).artifacts disk with
    | mk result after =>
      rw [hdeliver] at hrun
      cases result with
      | error fault => simp at hrun
      | ok summary =>
        obtain rfl := Except.ok.inj hrun
        obtain ⟨kept, written, hdelivers, rfl⟩ := deliver_ok_iff.1 hdeliver
        refine ⟨workspace, kept, written, hload, rfl, hdelivers, rfl, rfl, rfl, ?_⟩
        intro artifact hmem
        have hname := Workspace.fileName_of_mem_artifacts hmem
        have hslash := hnames artifact (artifacts_of_load hload now ▸ hmem)
        rw [hname, GenerateOptions.slash_mem_fileName_iff] at hslash
        exact hname ▸ (GenerateOptions.isName_fileName_iff _ _).2 hslash

theorem fileName_eq_of_pathIn {directory : String} {artifact other : Artifact}
    (hname : Path.IsName artifact.fileName) (hother : Path.IsName other.fileName)
    (h : artifact.pathIn directory = other.pathIn directory) :
    artifact.fileName = other.fileName := by
  rwa [Artifact.pathIn, Artifact.pathIn,
    Path.join_eq (Path.not_isAbsolute_of_not_mem hname.slash),
    Path.join_eq (Path.not_isAbsolute_of_not_mem hother.slash), String.append_right_inj] at h

namespace Ran

variable {disk after : Disk} {options : GenerateOptions} {now : Calendar.Time}
  {generated : Generated} {workspace : Workspace} {kept written : List Artifact}
  (h : Ran disk options now generated after workspace kept written)
include h

theorem nodup : (generated.compilation.artifacts.map Artifact.fileName).Nodup := by
  rw [h.compilation]
  exact Workspace.fileNames_nodup _ _ _

theorem mem_written {artifact : Artifact} (hmem : artifact ∈ generated.compilation.artifacts)
    (hpath : artifact.pathIn (disk.outDirectory options) ∈ generated.summary.written) :
    artifact ∈ written := by
  rw [h.written, List.mem_map] at hpath
  obtain ⟨other, hwritten, heq⟩ := hpath
  have hother := h.delivers.sublist_written.subset hwritten
  have hname := fileName_eq_of_pathIn (h.names other hother) (h.names artifact hmem) heq
  exact List.inj_on_of_nodup_map h.nodup hother hmem hname ▸ hwritten

/-- What the run does to the disk. -/
theorem wrote : disk.Wrote (disk.outDirectory options) generated after := by
  obtain ⟨places, hupdated, hplaces⟩ := h.delivers.updated
  refine ⟨h.stale, ?_, ?_, ?_, fun artifact hmem hpath => ?_, fun place content hplace => ?_,
    hupdated.directory⟩
  · rw [h.written]
    exact h.delivers.sublist_written.map _
  · rw [h.unchanged]
    exact h.delivers.sublist_kept.map _
  · rw [h.written, h.unchanged, ← List.map_append]
    exact h.delivers.perm.map _
  · exact h.delivers.readText_of_mem_written h.names h.nodup (h.mem_written hmem hpath)
  · have hother : place ∉ places := fun hmem => by
      obtain ⟨artifact, hwritten, hlocate⟩ := hplaces place hmem
      exact hplace _ (h.written ▸ List.mem_map_of_mem hwritten) hlocate
    exact ⟨hupdated.fresh place content hother, hupdated.file place content hother⟩

/-! ## The check before it -/

/-- A check compares the artifacts with the disk before the run. -/
theorem forecast (now' : Calendar.Time) :
    (generate access { options with check := true } now' disk).2 = disk ∧
      ∃ checked,
        (generate access { options with check := true } now' disk).1.1 = .ok checked ∧
          disk.Forecast generated checked := by
  have hdirectory : disk.outDirectory { options with check := true } =
    disk.outDirectory options := rfl
  have hconfig : GenerateOptions.config { options with check := true } = options.config := rfl
  rw [generate_access]
  simp only [h.load, hdirectory, hconfig, deliver_check, List.nil_append]
  have hcurrent : ((workspace.compile options.config now').artifacts.filter
        (disk.isCurrentAt (disk.outDirectory options))).map
          (Artifact.pathIn (disk.outDirectory options)) =
      ((workspace.compile options.config now).artifacts.filter
        (disk.isCurrentAt (disk.outDirectory options))).map
          (Artifact.pathIn (disk.outDirectory options)) :=
    map_filter_artifacts _ now' now _ disk _ id
  refine ⟨trivial, _, rfl, rfl, ?_, ?_⟩
  · rw [Generated.failed, Generated.failed, h.compilation, failures_compile]
  · dsimp only
    rw [map_filter_artifacts _ now' now _ disk _ not, hcurrent, ← h.compilation, h.written,
      h.unchanged]
    constructor
    · rintro ⟨-, hkept⟩ path hpath
      rw [← hkept, List.mem_map] at hpath
      obtain ⟨artifact, hmem, rfl⟩ := hpath
      obtain ⟨text, hread, -⟩ := isCurrentAt_iff.1 (List.mem_filter.1 hmem).2
      exact ⟨text, hread⟩
    · intro hreadable
      have hkept : ∀ artifact ∈ kept,
          disk.isCurrentAt (disk.outDirectory options) artifact = true := by
        intro artifact hmem
        obtain ⟨text, hread⟩ := hreadable _ (List.mem_map_of_mem hmem)
        exact h.delivers.isCurrentAt_of_readText h.names h.nodup hmem hread
      obtain ⟨hfilter, hfilter'⟩ := h.delivers.filter_eq hkept
        fun artifact => h.delivers.not_isCurrentAt_of_mem_written h.names h.nodup
      exact ⟨congrArg _ hfilter', congrArg _ hfilter⟩

/-- What is unchanged was there, and can be read if its directory can be found. -/
theorem readText_of_walk {artifact : Artifact} (hmem : artifact ∈ kept)
    (hwalk : ∀ target content,
      after.walk [] (Path.components (disk.outDirectory options) ++ [artifact.fileName]) =
        .ok target → disk.find? target = some (.file content) →
      disk.walk [] (Path.components (disk.outDirectory options) ++ [artifact.fileName]) =
        .ok target) :
    ∃ text, disk.readText (artifact.pathIn (disk.outDirectory options)) = .ok text := by
  obtain ⟨places, hupdated, hplaces⟩ := h.delivers.updated
  have hartifact := h.delivers.sublist_kept.subset hmem
  have hname := h.names artifact hartifact
  obtain ⟨text, hread, -⟩ := isCurrentAt_iff.1
    (h.delivers.isCurrentAt_of_mem_kept h.names h.nodup hmem)
  obtain ⟨target, hlocate, hfile⟩ := readText_ok_iff.1 hread
  -- The file is not one of those that are written, since no artifact is both.
  have hother : target ∉ places := by
    intro hplace
    obtain ⟨other, hwritten, hlocate'⟩ := hplaces target hplace
    have hsame := name_eq_of_locate hname (h.names other
      (h.delivers.sublist_written.subset hwritten)) hlocate hlocate'
    have hnodup := (h.delivers.perm.map Artifact.fileName).nodup_iff.2 h.nodup
    rw [List.map_append, List.nodup_append] at hnodup
    exact hnodup.2.2 _ (List.mem_map_of_mem hwritten) _ (List.mem_map_of_mem hmem) hsame.symm
  have hbefore := hupdated.fresh target _ hother hfile
  obtain ⟨hfault, hafter⟩ := locate_ok_iff.1 hlocate
  rw [Artifact.pathIn, walk_join _ _ hname] at hafter
  refine ⟨text, readText_ok_iff.2 ⟨target, locate_ok_iff.2 ⟨hfault, ?_⟩, hbefore⟩⟩
  rw [Artifact.pathIn, walk_join _ _ hname]
  exact hwalk target _ hafter hbefore

theorem readable (htree : disk.IsTree)
    (hdirectory : options.outDirectory = none ∨
      disk.isDirectory (disk.outDirectory options) = true ∨
      ".." ∉ Path.components (disk.outDirectory options))
    {path : String} (hpath : path ∈ generated.summary.unchanged) :
    ∃ text, disk.readText path = .ok text := by
  obtain ⟨places, hupdated, -⟩ := h.delivers.updated
  rw [h.unchanged, List.mem_map] at hpath
  obtain ⟨artifact, hmem, rfl⟩ := hpath
  have hname := h.names artifact (h.delivers.sublist_kept.subset hmem)
  -- A directory that is there is found in the same place afterwards.
  have hthere {place : Place}
      (hplace : disk.walk [] (Path.components (disk.outDirectory options)) = .ok place)
      (hentry : disk.find? place = some .directory) :
      ∃ text, disk.readText (artifact.pathIn (disk.outDirectory options)) = .ok text := by
    refine h.readText_of_walk hmem fun target content hwalk hfile => ?_
    rw [walk_append_ok_iff] at hwalk ⊢
    obtain ⟨place', hplace', hlast⟩ := hwalk
    rw [hupdated.walk hplace, Except.ok.injEq] at hplace'
    subst hplace'
    exact ⟨place, hplace, (walk_name_iff hname).2 ⟨hentry, ((walk_name_iff hname).1 hlast).2⟩⟩
  have hfound (hdirectory : disk.isDirectory (disk.outDirectory options) = true) :
      ∃ text, disk.readText (artifact.pathIn (disk.outDirectory options)) = .ok text := by
    obtain ⟨place, hlocate, hentry⟩ := isDirectory_iff.1 hdirectory
    exact hthere (locate_ok_iff.1 hlocate).2 hentry
  obtain hnone | hdirectory | hup := hdirectory
  · cases hpath : disk.isDirectory options.path with
    | true =>
      refine hfound ?_
      rw [outDirectory, hnone, if_pos hpath]
      exact hpath
    | false =>
      obtain ⟨-, hall⟩ := (load_ok_iff.1 h.load).resolve_left fun hfound => by
        simp [hpath] at hfound
      obtain ⟨_, _, ⟨text, hread, -⟩, -⟩ := List.forall₂_cons_left_iff.1 hall
      obtain ⟨target, hlocate, hfile⟩ := readText_ok_iff.1 hread
      obtain ⟨place, hplace, hentry⟩ := htree.exists_walk_parent hlocate hfile
      refine hthere ?_ hentry
      rw [outDirectory, hnone, if_neg (Bool.eq_false_iff.1 hpath)]
      exact hplace
  · exact hfound hdirectory
  · exact h.readText_of_walk hmem fun target content hwalk hfile =>
      htree.walk_of_walk hname hup hwalk hfile

/-! ## The runs that follow -/

/-- What is loaded afterwards is what was loaded, or the artifact that took its place. -/
theorem load_cases (htree : disk.IsTree) :
    after.isDirectory options.path = disk.isDirectory options.path ∧
      ((after.readText options.path = disk.readText options.path ∧
          after.load options.path = .ok workspace) ∨
        (after.readText options.path ≠ disk.readText options.path ∧
          ∃ artifact ∈ written, after.readText options.path = .ok artifact.contents ∧
            after.locate options.path =
              after.locate (artifact.pathIn (disk.outDirectory options)))) := by
  obtain ⟨places, hupdated, hplaces⟩ := h.delivers.updated
  cases hdirectory : disk.isDirectory options.path with
  | true =>
    have hafter := hupdated.isDirectory hdirectory
    refine ⟨hafter, .inl ⟨?_, ?_⟩⟩
    · rw [readText_of_isDirectory hafter, readText_of_isDirectory hdirectory]
    · refine hupdated.load_directory htree (h.delivers.isTree htree) (fun place name hmem => ?_)
        hdirectory h.load
      obtain ⟨artifact, hwritten, hlocate⟩ := hplaces _ hmem
      have hartifact := h.delivers.sublist_written.subset hwritten
      obtain ⟨-, -, base, -, -, heq⟩ := (locate_join_iff (h.names artifact hartifact)).1 hlocate
      obtain rfl : name = artifact.fileName := by simpa using congrArg List.getLast? heq
      rw [h.compilation] at hartifact
      rw [Workspace.fileName_of_mem_artifacts hartifact]
      exact GenerateOptions.not_isGrammarName options _
  | false =>
    obtain ⟨-, hall⟩ := (load_ok_iff.1 h.load).resolve_left fun hfound => by
      simp [hdirectory] at hfound
    obtain ⟨_, _, ⟨text, hread, -⟩, -⟩ := List.forall₂_cons_left_iff.1 hall
    obtain ⟨target, hlocate, hfile⟩ := readText_ok_iff.1 hread
    by_cases hsame : after.readText options.path = disk.readText options.path
    · have hload := h.load
      rw [load_of_readText hread] at hload
      rw [hread] at hsame
      exact ⟨isDirectory_of_readText hsame, .inl ⟨hsame.trans hread.symm,
        (load_of_readText hsame).trans hload⟩⟩
    · have hplace : target ∈ places := by
        by_contra hother
        refine hsame ?_
        rw [hread]
        refine hupdated.readText hread fun place hplace => ?_
        rw [hlocate, Except.ok.injEq] at hplace
        exact hplace ▸ hother
      obtain ⟨artifact, hwritten, hlocate'⟩ := hplaces target hplace
      obtain ⟨_, hlocate'', hcontents⟩ := readText_ok_iff.1
        (h.delivers.readText_of_mem_written h.names h.nodup hwritten)
      rw [hlocate', Except.ok.injEq] at hlocate''
      subst hlocate''
      have hafter := readText_ok_iff.2 ⟨_, hupdated.locate hlocate, hcontents⟩
      exact ⟨isDirectory_of_readText hafter, .inr ⟨hsame, artifact, hwritten, hafter,
        (hupdated.locate hlocate).trans hlocate'.symm⟩⟩

/-- The artifacts afterwards are all current, and they are those of the run unless what was loaded
    has been replaced. -/
theorem exists_load (htree : disk.IsTree) (now' : Calendar.Time) :
    ∃ loaded, after.load options.path = .ok loaded ∧
      (∀ artifact ∈ (loaded.compile options.config now').artifacts,
        after.isCurrentAt (disk.outDirectory options) artifact = true) ∧
      ((loaded.compile options.config now').artifacts.map
            (Artifact.pathIn (disk.outDirectory options)) =
          generated.compilation.artifacts.map (Artifact.pathIn (disk.outDirectory options)) ↔
        after.readText options.path = disk.readText options.path) := by
  obtain ⟨-, ⟨hsame, hload⟩ | ⟨hchanged, artifact, hwritten, hread, -⟩⟩ := h.load_cases htree
  · refine ⟨workspace, hload, fun artifact hmem => ?_, iff_of_true ?_ hsame⟩
    · rw [Workspace.artifacts_compile, List.mem_map] at hmem
      obtain ⟨linkage, hlinkage, rfl⟩ := hmem
      rw [isCurrentAt_ofLinkage _ now' now]
      refine h.delivers.isCurrentAt_of_mem h.names h.nodup ?_
      rw [h.compilation, Workspace.artifacts_compile]
      exact List.mem_map_of_mem hlinkage
    · rw [h.compilation, Workspace.artifacts_compile, Workspace.artifacts_compile, List.map_map,
        List.map_map]
      exact List.map_congr_left fun linkage _ => by
        simp only [Function.comp_apply, pathIn_ofLinkage]
  · have hmem := h.delivers.sublist_written.subset hwritten
    obtain ⟨fault, hfault⟩ := Workspace.ofJson_of_mem_artifacts (h.compilation ▸ hmem)
    refine ⟨_, load_of_readText hread, ?_, iff_of_false (fun hpaths => ?_) hchanged⟩
    · rw [(compile_of_unreadable _ now' _ hfault).1]
      exact nofun
    · rw [(compile_of_unreadable _ now' _ hfault).1, List.map_nil] at hpaths
      rw [List.map_eq_nil_iff.1 hpaths.symm] at hmem
      cases hmem

theorem settled (htree : disk.IsTree) (check : Bool) (now' : Calendar.Time) :
    (generate access { options with check := check } now' after).2 = after ∧
      ∃ next, (generate access { options with check := check } now' after).1.1 = .ok next ∧
        disk.Settled options generated after next := by
  obtain ⟨loaded, hload, hcurrent, hsame⟩ := h.exists_load htree now'
  have hdirectory : after.outDirectory { options with check := check } =
      disk.outDirectory options := by
    rw [outDirectory, outDirectory]
    dsimp only
    rw [(h.load_cases htree).1]
  have hrun : generate access { options with check := check } now' after = _ :=
    generate_of_deliver hload (by
      rw [hdirectory]
      exact deliver_of_isCurrentAt hcurrent check {})
  rw [hrun]
  exact ⟨rfl, _, rfl, rfl, rfl, rfl, hsame⟩

theorem loaded (htree : disk.IsTree)
    (hother : ∀ artifact ∈ generated.compilation.artifacts,
      (Path.components options.path).getLast? ≠ some artifact.fileName) :
    after.readText options.path = disk.readText options.path := by
  obtain ⟨-, ⟨hsame, -⟩ | ⟨-, artifact, hwritten, hread, hlocate⟩⟩ := h.load_cases htree
  · exact hsame
  · have hmem := h.delivers.sublist_written.subset hwritten
    obtain ⟨target, htarget, hfile⟩ := readText_ok_iff.1 hread
    obtain ⟨before, name, place, hpath, -, -, -, rfl⟩ :=
      (h.delivers.isTree htree).exists_name_of_locate htarget hfile
    rw [htarget] at hlocate
    obtain ⟨-, -, base, -, -, heq⟩ := (locate_join_iff (h.names artifact hmem)).1 hlocate.symm
    refine absurd ?_ (hother artifact hmem)
    rw [hpath, List.getLast?_concat]
    simpa using congrArg List.getLast? heq

end Ran

/-- Every run that does not fail, and whose artifacts have names without slashes: what it does to
    the disk, what a check reports beforehand, and what the runs that follow it find. -/
theorem generate_regenerates {disk : Disk} (htree : disk.IsTree) {options : GenerateOptions}
    (hcheck : options.check = false) (now : Calendar.Time)
    (hnames : ∀ artifact ∈ disk.artifacts options now, '/' ∉ artifact.fileName.toList)
    {generated : Generated} (hrun : (generate access options now disk).1.1 = .ok generated) :
    disk.Regenerates options generated (generate access options now disk).2 := by
  obtain ⟨workspace, kept, written, h⟩ := exists_ran hcheck hnames hrun
  exact ⟨h.wrote, h.forecast, fun hdirectory _ => h.readable htree hdirectory,
    h.settled htree, h.loaded htree⟩

/-- A directory of two grammars. -/
def twoGrammars : Disk :=
  ⟨[(["g"], .directory),
    (["g", "a.tmLanguage.json"],
      .file (.text "\x7b\"scopeName\": \"source.renpy.a\", \"repository\": \x7b\x7d\x7d")),
    (["g", "b.tmLanguage.json"],
      .file (.text "\x7b\"scopeName\": \"source.renpy.b\", \"repository\": \x7b\x7d\x7d"))]⟩

/-- The artifacts of two grammars, in a directory that is made for them. -/
theorem generate_regenerates_two :
    twoGrammars.IsTree ∧
      (∀ artifact ∈ twoGrammars.artifacts { path := "g", outDirectory := some "out" } ⟨0⟩,
        '/' ∉ artifact.fileName.toList) ∧
      ∃ generated,
        (generate access { path := "g", outDirectory := some "out" } ⟨0⟩ twoGrammars).1.1 =
            .ok generated ∧
          generated.summary.written = ["out/a-token-patterns.g.ts", "out/b-token-patterns.g.ts"] ∧
          twoGrammars.Regenerates { path := "g", outDirectory := some "out" } generated
            (generate access { path := "g", outDirectory := some "out" } ⟨0⟩
              twoGrammars).2 := by
  have htree : twoGrammars.IsTree := by decide +kernel
  have hload := load_of_pairwise twoGrammars "g" ["a.tmLanguage.json", "b.tmLanguage.json"]
    (by decide +kernel) (by decide +kernel) (by decide +kernel) (by decide +kernel)
  have hnames : ∀ artifact ∈ twoGrammars.artifacts
      { path := "g", outDirectory := some "out" } ⟨0⟩, '/' ∉ artifact.fileName.toList := by
    rw [artifacts, hload]
    decide +kernel
  have hwritten : (generate access { path := "g", outDirectory := some "out" } ⟨0⟩
      twoGrammars).1.1.toOption.map (fun generated => generated.summary.written) =
        some ["out/a-token-patterns.g.ts", "out/b-token-patterns.g.ts"] := by
    rw [generate_access, hload]
    decide +kernel
  refine ⟨htree, hnames, ?_⟩
  cases hrun : (generate access { path := "g", outDirectory := some "out" } ⟨0⟩
    twoGrammars).1.1 with
  | error fault =>
    rw [hrun] at hwritten
    cases hwritten
  | ok generated =>
    rw [hrun] at hwritten
    exact ⟨generated, rfl, Option.some.inj hwritten,
      generate_regenerates htree rfl ⟨0⟩ hnames hrun⟩

/-! ## A grammar in the place of its artifact -/

/-- No artifact is current in a file of one line. -/
theorem not_isUnchanged_of_length {config : Config} {now : Calendar.Time} {workspace : Workspace}
    {artifact : Artifact} (h : artifact ∈ (workspace.compile config now).artifacts) {text : String}
    (hline : (Artifact.significantLines text).length = 1) : artifact.isUnchanged text = false := by
  rw [Workspace.artifacts_compile, List.mem_map] at h
  obtain ⟨linkage, -, rfl⟩ := h
  have hopening : 1 < Artifact.opening.length := by decide
  rw [← Bool.not_eq_true, Artifact.isUnchanged, beq_iff_eq, Artifact.significantLines_contents]
  intro hunchanged
  rw [← hunchanged, List.length_append] at hline
  omega

/-- A grammar without rules. -/
def emptyGrammar : String :=
  "\x7b\"scopeName\":\"source.renpy.x\",\"repository\":\x7b\x7d\x7d"

/-- A grammar in a file with the name of its own artifact. -/
def grammarAsArtifact : Disk :=
  ⟨[(["g"], .directory), (["g", "x-token-patterns.g.ts"], .file (.text emptyGrammar))]⟩

theorem readText_grammarAsArtifact :
    grammarAsArtifact.readText "g/x-token-patterns.g.ts" = .ok emptyGrammar := by
  decide +kernel

/-- An artifact that is not the grammar is written over it. -/
theorem exists_delivers_grammarAsArtifact {artifact : Artifact}
    (hpath : artifact.pathIn "g" = "g/x-token-patterns.g.ts")
    (hunchanged : artifact.isUnchanged emptyGrammar = false) :
    ∃ after, Delivers "g" grammarAsArtifact [artifact] [] [artifact] after ∧
      after.readText "g/x-token-patterns.g.ts" = .ok artifact.contents := by
  have hstale : grammarAsArtifact.isCurrentAt "g" artifact = false := by
    rw [← Bool.not_eq_true, isCurrentAt_iff, hpath, readText_grammarAsArtifact]
    rintro ⟨_, ⟨⟩, hcurrent⟩
    rw [hunchanged] at hcurrent
    cases hcurrent
  have hmake : grammarAsArtifact.makeDirectories "g" = (.ok (), grammarAsArtifact) := by
    decide +kernel
  have hlocate : grammarAsArtifact.locate "g/x-token-patterns.g.ts" =
      .ok ["g", "x-token-patterns.g.ts"] := by
    decide +kernel
  have hplace : grammarAsArtifact.find? ["g", "x-token-patterns.g.ts"] ≠ some .directory := by
    decide +kernel
  have hput := Updated.put_file hplace (.text artifact.contents)
  refine ⟨_, .write hstale hmake (write_ok_iff.2 ⟨_, hpath ▸ hlocate, hplace, rfl⟩) (.done _), ?_⟩
  exact readText_ok_iff.2 ⟨_, hput.locate hlocate, find?_put_self _ (by simp) _⟩

/-- The artifact takes the place of the grammar, so that the run that follows has no grammar to
    compile and does not list the artifact. -/
theorem grammar_overwritten :
    (∀ artifact ∈ grammarAsArtifact.artifacts { path := "g/x-token-patterns.g.ts" } ⟨0⟩,
        '/' ∉ artifact.fileName.toList) ∧
      ∃ generated next,
        (generate access { path := "g/x-token-patterns.g.ts" } ⟨0⟩ grammarAsArtifact).1.1 =
            .ok generated ∧
          generated.summary.written = ["g/x-token-patterns.g.ts"] ∧
          (generate access { path := "g/x-token-patterns.g.ts" } ⟨0⟩
            (generate access { path := "g/x-token-patterns.g.ts" } ⟨0⟩ grammarAsArtifact).2).1.1 =
              .ok next ∧
          next.summary.unchanged = [] ∧ next.failed = 1 := by
  -- With the options left open, no step computes the lines of the artifact.
  generalize hoptions : ({ path := "g/x-token-patterns.g.ts" } : GenerateOptions) = options
  have hoption : options.path = "g/x-token-patterns.g.ts" := by rw [← hoptions]
  have hload : grammarAsArtifact.load options.path = .ok [.ofText options.path emptyGrammar] :=
    load_of_readText (by rw [hoption, readText_grammarAsArtifact])
  have hdirectory : grammarAsArtifact.outDirectory options = "g" := by
    rw [← hoptions]
    decide +kernel
  obtain ⟨artifact, hartifacts, hname⟩ : ∃ artifact, (Workspace.compile options.config ⟨0⟩
      [.ofText options.path emptyGrammar]).artifacts = [artifact] ∧
        artifact.fileName = "x-token-patterns.g.ts" := by
    rw [← hoptions]
    exact List.map_eq_singleton_iff.1 (by decide +kernel)
  have hpath : artifact.pathIn "g" = "g/x-token-patterns.g.ts" := by
    rw [Artifact.pathIn, hname]
    decide +kernel
  have hmem := hartifacts ▸ List.mem_singleton_self artifact
  obtain ⟨after, hdelivers, hafter⟩ := exists_delivers_grammarAsArtifact hpath
    (not_isUnchanged_of_length hmem (by decide +kernel))
  have hrun : generate access options ⟨0⟩ grammarAsArtifact = _ :=
    generate_of_deliver hload (by
      rw [hdirectory, hartifacts, ← hoptions]
      exact deliver_ok_iff.2 ⟨_, _, hdelivers, rfl⟩)
  have hslash : ∀ artifact ∈ grammarAsArtifact.artifacts options ⟨0⟩,
      '/' ∉ artifact.fileName.toList := by
    rw [artifacts_of_load hload, hartifacts, List.forall_mem_singleton, hname]
    decide
  obtain ⟨fault, hfault⟩ := Workspace.ofJson_of_mem_artifacts hmem
  obtain ⟨hnone, hfailed⟩ := compile_of_unreadable options.config ⟨0⟩ options.path hfault
  have hnext : generate access options ⟨0⟩ after = _ :=
    generate_of_deliver (load_of_readText (by rw [hoption, hafter]))
      (by rw [hnone, deliver_nil])
  rw [hrun, hnext]
  exact ⟨hslash, _, _, rfl, congrArg (fun path => [path]) hpath, rfl, rfl, hfailed⟩

end PatternTable.Disk
