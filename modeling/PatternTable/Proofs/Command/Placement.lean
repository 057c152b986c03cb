import PatternTable.Proofs.Command.Delivery
import PatternTable.Proofs.Command.Loading
import PatternTable.Proofs.Workspace.Files

/-!
# Where artifacts are placed

A run reports the paths of its artifacts, and changes no file that is not at one of them. These
paths are made from the names that the artifacts' documents have, and documents name themselves: a
language with slashes leads out of the directory that the run is told to write to, into one below it
or to an absolute path.

* `Disk.outDirectory`: the directory that a run writes to.
* `Disk.artifacts`: the artifacts of a run.
* `Disk.Placed`: what a run reports and writes is at the paths of its artifacts.

Results:
* `Disk.generate_access`: a run, as loading, compiling and a delivery.
* `Disk.generate_placed`: where artifacts are placed, and which of them lie directly in the
  directory.
-/

namespace PatternTable.Disk

/-! ## Specification -/

/-- The directory that a run writes to: the one that it is told, or else the directory of the
    grammars. -/
def outDirectory (disk : Disk) (options : GenerateOptions) : String :=
  match options.outDirectory with
  | some directory => directory
  | none => if disk.isDirectory options.path then options.path else Path.parent options.path

/-- The artifacts of a run. -/
def artifacts (disk : Disk) (options : GenerateOptions) (now : Calendar.Time) : List Artifact :=
  match disk.load options.path with
  | .error _ => []
  | .ok workspace => (workspace.compile options.config now).artifacts

/-- The files on a disk are those that were there, and those of some artifacts at their paths. -/
def WritesOnly (directory : String) (artifacts : List Artifact) (disk after : Disk) : Prop :=
  ∀ place content, after.find? place = some (.file content) →
    disk.find? place = some (.file content) ∨
      ∃ artifact ∈ artifacts, after.locate (artifact.pathIn directory) = .ok place ∧
        content = .text artifact.contents

/-- What a run reports and writes is at the paths of its artifacts. -/
structure Placed (disk : Disk) (options : GenerateOptions) (now : Calendar.Time)
    (result : Except CommandFault Generated) (after : Disk) : Prop where
  reported : ∀ generated, result = .ok generated →
    ∀ path ∈ generated.summary.written ++ generated.summary.stale ++ generated.summary.unchanged,
      ∃ artifact ∈ disk.artifacts options now,
        path = artifact.pathIn (disk.outDirectory options)
  /-- Also if it fails. -/
  files : WritesOnly (disk.outDirectory options) (disk.artifacts options now) disk after

/-! ## Runs -/

theorem outDirectory_access (disk : Disk) (options : GenerateOptions) :
    PatternTable.outDirectory access options disk = (disk.outDirectory options, disk) := by
  have hdirectory : (access.isDirectory options.path : StateM Disk _) disk =
      (disk.isDirectory options.path, disk) := rfl
  rw [PatternTable.outDirectory, outDirectory]
  cases options.outDirectory with
  | some directory => rfl
  | none =>
    simp only [bind, StateT.bind, hdirectory]
    cases disk.isDirectory options.path <;> rfl

theorem artifacts_of_load {disk : Disk} {options : GenerateOptions} {workspace : Workspace}
    (hload : disk.load options.path = .ok workspace) (now : Calendar.Time) :
    disk.artifacts options now = (workspace.compile options.config now).artifacts := by
  rw [artifacts, hload]

/-- A run loads, compiles and delivers. -/
theorem generate_access (disk : Disk) (options : GenerateOptions) (now : Calendar.Time) :
    generate access options now disk =
      match disk.load options.path with
      | .error fault => ((.error fault, []), disk)
      | .ok workspace =>
        let compilation := workspace.compile options.config now
        match deliver access options.check (disk.outDirectory options) {} compilation.artifacts
          disk with
        | (.error fault, after) => ((.error fault, compilation.notices), after)
        | (.ok summary, after) => ((.ok ⟨compilation, summary⟩, compilation.notices), after) := by
  rw [generate]
  simp only [bind, StateT.bind, loadPath_access]
  cases disk.load options.path with
  | error fault => rfl
  | ok workspace =>
    simp only [StateT.bind, bind, outDirectory_access]
    rcases deliver access options.check (disk.outDirectory options) {}
      (workspace.compile options.config now).artifacts disk with ⟨_ | _, after⟩ <;> rfl

/-- A run that loads a workspace and delivers its artifacts. -/
theorem generate_of_deliver {disk after : Disk} {options : GenerateOptions} {now : Calendar.Time}
    {workspace : Workspace} {summary : Summary} (hload : disk.load options.path = .ok workspace)
    (hdeliver : deliver access options.check (disk.outDirectory options) {}
      (workspace.compile options.config now).artifacts disk = (.ok summary, after)) :
    generate access options now disk = ((.ok ⟨workspace.compile options.config now, summary⟩,
      (workspace.compile options.config now).notices), after) := by
  rw [generate_access, hload]
  dsimp only
  rw [hdeliver]

/-! ## Deliveries -/

variable {directory : String}

/-- What a delivery reports are paths of its artifacts. -/
theorem reported_of_deliver {disk after : Disk} {check : Bool} {artifacts : List Artifact}
    {total : Summary}
    (h : deliver access check directory {} artifacts disk = (.ok total, after)) {path : String}
    (hpath : path ∈ total.written ++ total.stale ++ total.unchanged) :
    ∃ artifact ∈ artifacts, path = artifact.pathIn directory := by
  cases check with
  | true =>
    rw [deliver_check] at h
    obtain rfl := Except.ok.inj (congrArg Prod.fst h)
    simp only [List.nil_append, List.mem_append, List.mem_map, List.mem_filter] at hpath
    obtain ⟨artifact, ⟨hmem, -⟩, rfl⟩ | ⟨artifact, ⟨hmem, -⟩, rfl⟩ := hpath
    · exact ⟨artifact, hmem, rfl⟩
    · exact ⟨artifact, hmem, rfl⟩
  | false =>
    obtain ⟨kept, written, hdelivers, rfl⟩ := deliver_ok_iff.1 h
    simp only [List.nil_append, List.append_nil, List.mem_append, List.mem_map] at hpath
    obtain ⟨artifact, hmem, rfl⟩ | ⟨artifact, hmem, rfl⟩ := hpath
    · exact ⟨artifact, hdelivers.sublist_written.subset hmem, rfl⟩
    · exact ⟨artifact, hdelivers.sublist_kept.subset hmem, rfl⟩

/-- One artifact is written, or fails to be. -/
theorem writesOnly_writeArtifact (disk : Disk) (artifact : Artifact) :
    ∃ result mid, writeArtifact access directory (artifact.pathIn directory) artifact disk =
        (result, mid) ∧ WritesOnly directory [artifact] disk mid ∧
      ∃ places, Updated places disk mid := by
  have hmade := updated_makeDirectories disk directory
  have hfresh : WritesOnly directory [artifact] disk (disk.makeDirectories directory).2 :=
    fun place content hfile => .inl (hmade.fresh place content List.not_mem_nil hfile)
  rw [writeArtifact_access]
  cases hmake : disk.makeDirectories directory with
  | mk result made =>
    rw [hmake] at hmade hfresh
    cases result with
    | error fault => exact ⟨_, made, rfl, hfresh, [], hmade⟩
    | ok =>
      dsimp only
      cases hwrite : made.write (artifact.pathIn directory) (.text artifact.contents) with
      | error fault => exact ⟨_, made, rfl, hfresh, [], hmade⟩
      | ok mid =>
        obtain ⟨place, hlocate, hplace, hupdated⟩ := Delivers.updated_write hmake hwrite
        refine ⟨_, mid, rfl, fun other content hfile => ?_, [place], hupdated⟩
        by_cases hother : other = place
        · subst hother
          rw [hplace, Option.some.injEq, Entry.file.injEq] at hfile
          exact .inr ⟨artifact, List.mem_singleton_self artifact, hlocate, hfile.symm⟩
        · exact .inl (hupdated.fresh other content (List.mem_singleton.not.2 hother) hfile)

/-- A delivery writes its artifacts and nothing else, whether or not it fails. -/
theorem writesOnly_deliver (check : Bool) (artifacts : List Artifact) (disk : Disk)
    (summary : Summary) :
    ∃ result after, deliver access check directory summary artifacts disk = (result, after) ∧
      WritesOnly directory artifacts disk after ∧ ∃ places, Updated places disk after := by
  induction artifacts generalizing disk summary with
  | nil => exact ⟨_, disk, rfl, fun _ _ hfile => .inl hfile, [], .refl disk⟩
  | cons artifact artifacts ih =>
    have hrest {after : Disk} (h : WritesOnly directory artifacts disk after) :
        WritesOnly directory (artifact :: artifacts) disk after := fun place content hfile =>
      (h place content hfile).imp_right fun ⟨other, hmem, hother⟩ =>
        ⟨other, List.mem_cons_of_mem _ hmem, hother⟩
    rw [deliver_cons]
    split
    · obtain ⟨result, after, hrun, hfiles, hupdated⟩ := ih disk _
      exact ⟨result, after, hrun, hrest hfiles, hupdated⟩
    · split
      · obtain ⟨result, after, hrun, hfiles, hupdated⟩ := ih disk _
        exact ⟨result, after, hrun, hrest hfiles, hupdated⟩
      · obtain ⟨result, mid, hwrite, hmid, places, hupdated⟩ :=
          @writesOnly_writeArtifact directory disk artifact
        rw [hwrite]
        cases result with
        | error fault =>
          refine ⟨_, mid, rfl, fun place content hfile => ?_, places, hupdated⟩
          obtain hfile | ⟨other, hmem, hother⟩ := hmid place content hfile
          · exact .inl hfile
          · exact .inr ⟨other, List.mem_singleton.1 hmem ▸ List.mem_cons_self, hother⟩
        | ok =>
          obtain ⟨result, after, hrun, hfiles, places', hupdated'⟩ := ih mid _
          refine ⟨result, after, hrun, fun place content hfile => ?_, _, hupdated.trans hupdated'⟩
          obtain hfile | ⟨other, hmem, hother⟩ := hfiles place content hfile
          · obtain hfile | ⟨other, hmem, hlocate, hcontent⟩ := hmid place content hfile
            · exact .inl hfile
            · exact .inr ⟨other, List.mem_singleton.1 hmem ▸ List.mem_cons_self,
                hupdated'.locate hlocate, hcontent⟩
          · exact .inr ⟨other, List.mem_cons_of_mem _ hmem, hother⟩

/-- A run reports the paths of its artifacts, and changes no file that is not at one of them. No
    path goes up, and exactly those lie directly in the directory whose documents have languages
    without slashes, or whose names are paths that lie there by themselves. -/
theorem generate_placed (disk : Disk) (options : GenerateOptions) (now : Calendar.Time) :
    disk.Placed options now (generate access options now disk).1.1
        (generate access options now disk).2 ∧
      ∀ artifact ∈ disk.artifacts options now,
        ".." ∉ Path.components artifact.fileName ∧
          (Path.IsChild (disk.outDirectory options)
              (artifact.pathIn (disk.outDirectory options)) ↔
            '/' ∉ artifact.document.language.toList ∨
              (Path.isAbsolute artifact.fileName = true ∧
                Path.IsChild (disk.outDirectory options) artifact.fileName)) := by
  constructor
  · rw [generate_access]
    cases hload : disk.load options.path with
    | error fault =>
      exact ⟨nofun, fun _ _ hfile => .inl hfile⟩
    | ok workspace =>
      dsimp only
      rw [← artifacts_of_load hload now]
      obtain ⟨result, after, hrun, hfiles, -⟩ := @writesOnly_deliver
        (disk.outDirectory options) options.check (disk.artifacts options now) disk {}
      rw [hrun]
      cases result with
      | error fault => exact ⟨nofun, hfiles⟩
      | ok summary =>
        refine ⟨fun generated h path hpath => ?_, hfiles⟩
        obtain rfl := Except.ok.inj h
        exact reported_of_deliver hrun hpath
  · intro artifact hmem
    have hname : artifact.fileName = options.config.fileName artifact.document := by
      rw [artifacts] at hmem
      split at hmem
      · cases hmem
      · exact Workspace.fileName_of_mem_artifacts hmem
    rw [Artifact.pathIn, Path.isChild_join_iff, hname, GenerateOptions.isName_fileName_iff]
    exact ⟨GenerateOptions.up_not_mem_components options _, Iff.rfl⟩

/-- The language of a document whose scope name has a slash leads to a directory below the one that
    is written to. -/
theorem written_below_directory :
    let disk : Disk :=
      ⟨[(["g"], .directory), (["g", "sub"], .directory),
        (["g", "a.tmLanguage.json"],
          .file (.text "\x7b\"scopeName\": \"source.sub/x\", \"repository\": \x7b\x7d\x7d"))]⟩
    let options : GenerateOptions := { path := "g" }
    disk.outDirectory options = "g" ∧
      (generate access options ⟨0⟩ disk).1.1.toOption.map (fun generated =>
        generated.summary.written) = some ["g/sub/x-token-patterns.g.ts"] ∧
      ¬Path.IsChild "g" "g/sub/x-token-patterns.g.ts" := by
  refine ⟨by decide +kernel, by decide +kernel, ?_⟩
  change ¬Path.IsChild "g" (Path.join "g" "sub/x-token-patterns.g.ts")
  rw [Path.isChild_join_iff]
  have hname : ¬Path.IsName "sub/x-token-patterns.g.ts" := by decide
  have hrelative : Path.isAbsolute "sub/x-token-patterns.g.ts" = false := by decide
  simp [hname, hrelative]

end PatternTable.Disk
