import PatternTable.Command.Generate
import PatternTable.Proofs.Files.Tree

/-!
# Delivering artifacts to a disk

A delivery goes through the artifacts in order. An artifact that is current when its turn comes is
kept, and any other one is written. The names of the artifacts are different, so what is done about
one of them does not touch the file of another.

* `Disk.isCurrentAt`: the file of an artifact holds it, up to the time.
* `Disk.Delivers`: what is kept and what is written when artifacts are delivered.

Results:
* `Disk.deliver_ok_iff`: a delivery that does not fail.
* `Disk.deliver_check`: a delivery that only compares.
* `Disk.Delivers.updated`, `Disk.Delivers.readText_of_mem_written`,
  `Disk.Delivers.isCurrentAt_of_mem_kept`: what is on the disk afterwards.
* `Disk.Delivers.isCurrentAt_of_readText`, `Disk.Delivers.not_isCurrentAt_of_mem_written`: what was
  on the disk before.
-/

namespace PatternTable

/-! ## Specification -/

/-- The path of an artifact in a directory. -/
def Artifact.pathIn (directory : String) (artifact : Artifact) : String :=
  Path.join directory artifact.fileName

namespace Disk

/-- Whether the file of an artifact holds it, up to the time. -/
def isCurrentAt (disk : Disk) (directory : String) (artifact : Artifact) : Bool :=
  match disk.readText (artifact.pathIn directory) with
  | .error _ => false
  | .ok text => artifact.isUnchanged text

/-- What is kept and what is written when artifacts are delivered to a directory. An artifact is
    compared with what the artifacts before it have left on the disk. -/
inductive Delivers (directory : String) :
    Disk → List Artifact → (kept written : List Artifact) → Disk → Prop where
  | done (disk : Disk) : Delivers directory disk [] [] [] disk
  | keep {disk after : Disk} {artifact : Artifact} {artifacts kept written : List Artifact}
      (hcurrent : disk.isCurrentAt directory artifact = true)
      (hrest : Delivers directory disk artifacts kept written after) :
      Delivers directory disk (artifact :: artifacts) (artifact :: kept) written after
  | write {disk made mid after : Disk} {artifact : Artifact}
      {artifacts kept written : List Artifact}
      (hcurrent : disk.isCurrentAt directory artifact = false)
      (hmake : disk.makeDirectories directory = (.ok (), made))
      (hwrite : made.write (artifact.pathIn directory) (.text artifact.contents) = .ok mid)
      (hrest : Delivers directory mid artifacts kept written after) :
      Delivers directory disk (artifact :: artifacts) kept (artifact :: written) after

/-! ## Runs -/

theorem isCurrentAt_iff {disk : Disk} {directory : String} {artifact : Artifact} :
    disk.isCurrentAt directory artifact = true ↔
      ∃ text, disk.readText (artifact.pathIn directory) = .ok text ∧ artifact.isUnchanged text := by
  unfold isCurrentAt
  cases disk.readText (artifact.pathIn directory) <;> simp

theorem isCurrent_access (disk : Disk) (directory : String) (artifact : Artifact) :
    isCurrent access (artifact.pathIn directory) artifact disk =
      (disk.isCurrentAt directory artifact, disk) := by
  have hread : (access.readText (artifact.pathIn directory) : StateM Disk _) disk =
      (disk.readText (artifact.pathIn directory), disk) := rfl
  unfold isCurrent isCurrentAt
  simp only [bind, StateT.bind, hread]
  cases disk.readText (artifact.pathIn directory) <;> rfl

theorem writeArtifact_access (disk : Disk) (directory : String) (artifact : Artifact) :
    writeArtifact access directory (artifact.pathIn directory) artifact disk =
      match disk.makeDirectories directory with
      | (.error fault, made) => (.error (.unwritable (artifact.pathIn directory) fault), made)
      | (.ok (), made) =>
        match made.write (artifact.pathIn directory) (.text artifact.contents) with
        | .error fault => (.error (.unwritable (artifact.pathIn directory) fault), made)
        | .ok mid => (.ok (), mid) := by
  have hmake : (access.makeDirectories directory : StateM Disk _) disk =
      disk.makeDirectories directory := rfl
  rw [writeArtifact]
  simp only [bind, StateT.bind, hmake]
  rcases disk.makeDirectories directory with ⟨_ | _, made⟩
  · rfl
  · have hwrite : (access.writeText (artifact.pathIn directory) artifact.contents :
        StateM Disk _) made = made.writeText (artifact.pathIn directory) artifact.contents := rfl
    simp only [StateT.bind, bind, hwrite, writeText]
    cases made.write (artifact.pathIn directory) (.text artifact.contents) <;> rfl

theorem deliver_nil (check : Bool) (directory : String) (summary : Summary) (disk : Disk) :
    deliver access check directory summary [] disk = (.ok summary, disk) :=
  rfl

/-- A delivery, artifact by artifact. -/
theorem deliver_cons (disk : Disk) (check : Bool) (directory : String) (summary : Summary)
    (artifact : Artifact) (artifacts : List Artifact) :
    deliver access check directory summary (artifact :: artifacts) disk =
      if disk.isCurrentAt directory artifact then
        deliver access check directory
          { summary with unchanged := summary.unchanged ++ [artifact.pathIn directory] }
          artifacts disk
      else if check then
        deliver access check directory
          { summary with stale := summary.stale ++ [artifact.pathIn directory] } artifacts disk
      else
        match writeArtifact access directory (artifact.pathIn directory) artifact disk with
        | (.error fault, made) => (.error fault, made)
        | (.ok (), mid) =>
          deliver access check directory
            { summary with written := summary.written ++ [artifact.pathIn directory] }
            artifacts mid := by
  have hcurrent := isCurrent_access disk directory artifact
  rw [deliver]
  simp only [← Artifact.pathIn.eq_1, bind, StateT.bind, hcurrent]
  cases disk.isCurrentAt directory artifact with
  | true => rfl
  | false =>
    cases check with
    | true => rfl
    | false =>
      simp only [Bool.false_eq_true, if_false, StateT.bind, bind]
      rcases writeArtifact access directory (artifact.pathIn directory) artifact disk with
        ⟨_ | _, mid⟩ <;> rfl

/-- A delivery that only compares changes nothing, and does not fail. -/
theorem deliver_check (disk : Disk) (directory : String) (summary : Summary)
    (artifacts : List Artifact) :
    deliver access true directory summary artifacts disk =
      (.ok
        { summary with
          unchanged := summary.unchanged ++
            (artifacts.filter (disk.isCurrentAt directory)).map (Artifact.pathIn directory)
          stale := summary.stale ++
            (artifacts.filter fun artifact => !disk.isCurrentAt directory artifact).map
              (Artifact.pathIn directory) },
        disk) := by
  induction artifacts generalizing summary with
  | nil => simp [deliver_nil]
  | cons artifact artifacts ih =>
    rw [deliver_cons]
    cases hcurrent : disk.isCurrentAt directory artifact <;> simp [ih, hcurrent]

/-- So does a delivery of artifacts that are all current. -/
theorem deliver_of_isCurrentAt {disk : Disk} {directory : String} {artifacts : List Artifact}
    (h : ∀ artifact ∈ artifacts, disk.isCurrentAt directory artifact = true) (check : Bool)
    (summary : Summary) :
    deliver access check directory summary artifacts disk =
      (.ok
        { summary with
          unchanged := summary.unchanged ++ artifacts.map (Artifact.pathIn directory) },
        disk) := by
  induction artifacts generalizing summary with
  | nil => simp [deliver_nil]
  | cons artifact artifacts ih =>
    rw [List.forall_mem_cons] at h
    rw [deliver_cons, if_pos h.1, ih h.2]
    simp

theorem writeArtifact_ok_iff {disk mid : Disk} {directory : String} {artifact : Artifact} :
    writeArtifact access directory (artifact.pathIn directory) artifact disk = (.ok (), mid) ↔
      ∃ made, disk.makeDirectories directory = (.ok (), made) ∧
        made.write (artifact.pathIn directory) (.text artifact.contents) = .ok mid := by
  rw [writeArtifact_access]
  rcases disk.makeDirectories directory with ⟨_ | _, made⟩
  · change (Except.error _, made) = (Except.ok (), mid) ↔ _
    simp
  · dsimp only
    cases hwrite : made.write (artifact.pathIn directory) (.text artifact.contents) with
    | error fault =>
      change (Except.error _, made) = (Except.ok (), mid) ↔ _
      simp [hwrite]
    | ok written =>
      change (Except.ok (), written) = (Except.ok (), mid) ↔ _
      simp [hwrite]

/-- A delivery that does not fail: what it reports is what it keeps and what it writes. -/
theorem deliver_ok_iff {disk after : Disk} {directory : String} {artifacts : List Artifact}
    {summary total : Summary} :
    deliver access false directory summary artifacts disk = (.ok total, after) ↔
      ∃ kept written, Delivers directory disk artifacts kept written after ∧
        total =
          { summary with
            unchanged := summary.unchanged ++ kept.map (Artifact.pathIn directory)
            written := summary.written ++ written.map (Artifact.pathIn directory) } := by
  constructor
  · intro h
    induction artifacts generalizing disk summary with
    | nil =>
      change (Except.ok summary, disk) = (Except.ok total, after) at h
      obtain ⟨rfl, rfl⟩ : summary = total ∧ disk = after := by simpa using h
      exact ⟨[], [], .done disk, by simp⟩
    | cons artifact artifacts ih =>
      rw [deliver_cons] at h
      cases hcurrent : disk.isCurrentAt directory artifact with
      | true =>
        obtain ⟨kept, written, hrest, rfl⟩ := ih (by simpa [hcurrent] using h)
        exact ⟨artifact :: kept, written, .keep hcurrent hrest, by simp⟩
      | false =>
        rw [hcurrent, if_neg Bool.false_ne_true, if_neg Bool.false_ne_true] at h
        split at h
        · cases h
        · next mid hwrites =>
          obtain ⟨made, hmake, hwrite⟩ := writeArtifact_ok_iff.1 hwrites
          obtain ⟨kept, written, hrest, rfl⟩ := ih h
          exact ⟨kept, artifact :: written, .write hcurrent hmake hwrite hrest, by simp⟩
  · rintro ⟨kept, written, h, rfl⟩
    induction h generalizing summary with
    | done disk => simp [deliver_nil]
    | keep hcurrent hrest ih =>
      rw [deliver_cons, if_pos hcurrent, ih]
      simp
    | write hcurrent hmake hwrite hrest ih =>
      rw [deliver_cons, hcurrent, if_neg Bool.false_ne_true, if_neg Bool.false_ne_true,
        writeArtifact_ok_iff.2 ⟨_, hmake, hwrite⟩]
      dsimp only
      rw [ih]
      simp

namespace Delivers

variable {directory : String} {disk after : Disk} {artifacts kept written : List Artifact}

/-! ## What is kept and what is written -/

theorem sublist_kept (h : Delivers directory disk artifacts kept written after) :
    kept.Sublist artifacts := by
  induction h with
  | done => exact .slnil
  | keep _ _ ih => exact ih.cons_cons _
  | write _ _ _ _ ih => exact ih.cons _

theorem sublist_written (h : Delivers directory disk artifacts kept written after) :
    written.Sublist artifacts := by
  induction h with
  | done => exact .slnil
  | keep _ _ ih => exact ih.cons _
  | write _ _ _ _ ih => exact ih.cons_cons _

/-- Every artifact is kept or written. -/
theorem perm (h : Delivers directory disk artifacts kept written after) :
    (written ++ kept).Perm artifacts := by
  induction h with
  | done => exact .nil
  | keep _ _ ih => exact List.perm_middle.trans (ih.cons _)
  | write _ _ _ _ ih => exact ih.cons _

/-- What separates the artifacts that are kept from those that are written. -/
theorem filter_eq (h : Delivers directory disk artifacts kept written after)
    {p : Artifact → Bool} (hkept : ∀ artifact ∈ kept, p artifact = true)
    (hwritten : ∀ artifact ∈ written, p artifact = false) :
    artifacts.filter p = kept ∧ (artifacts.filter fun artifact => !p artifact) = written := by
  induction h with
  | done => exact ⟨rfl, rfl⟩
  | keep _ _ ih =>
    rw [List.forall_mem_cons] at hkept
    obtain ⟨hk, hw⟩ := ih hkept.2 hwritten
    simp [hkept.1, hk, hw]
  | write _ _ _ _ ih =>
    rw [List.forall_mem_cons] at hwritten
    obtain ⟨hk, hw⟩ := ih hkept hwritten.2
    simp [hwritten.1, hk, hw]

/-! ## The disk -/

/-- An artifact that is written, as a change of the disk. -/
theorem updated_write {made mid : Disk} {artifact : Artifact}
    (hmake : disk.makeDirectories directory = (.ok (), made))
    (hwrite : made.write (artifact.pathIn directory) (.text artifact.contents) = .ok mid) :
    ∃ place, mid.locate (artifact.pathIn directory) = .ok place ∧
      mid.find? place = some (.file (.text artifact.contents)) ∧ Updated [place] disk mid := by
  obtain ⟨place, hlocate, hplace, rfl⟩ := write_ok_iff.1 hwrite
  have hput := Updated.put_file hplace (.text artifact.contents)
  have hmade := updated_makeDirectories disk directory
  rw [hmake] at hmade
  have hroot : place ≠ [] := by
    rintro rfl
    exact hplace (find?_root made)
  exact ⟨place, hput.locate hlocate, find?_put_self made hroot _, hmade.trans hput⟩

/-- The files that a delivery changes are those of the artifacts that it writes. -/
theorem updated (h : Delivers directory disk artifacts kept written after) :
    ∃ places, Updated places disk after ∧ ∀ place ∈ places, ∃ artifact ∈ written,
      after.locate (artifact.pathIn directory) = .ok place := by
  induction h with
  | done disk => exact ⟨[], .refl disk, nofun⟩
  | keep _ _ ih => exact ih
  | write _ hmake hwrite _ ih =>
    obtain ⟨place, hlocate, -, hupdated⟩ := updated_write hmake hwrite
    obtain ⟨places, hrest, hplaces⟩ := ih
    refine ⟨place :: places, hupdated.trans hrest, List.forall_mem_cons.2 ⟨?_, ?_⟩⟩
    · exact ⟨_, List.mem_cons_self, hrest.locate hlocate⟩
    · exact fun other hother => (hplaces other hother).imp fun _ hartifact =>
        hartifact.imp_left (List.mem_cons_of_mem _)

theorem isTree (h : Delivers directory disk artifacts kept written after) (htree : disk.IsTree) :
    after.IsTree := by
  induction h with
  | done => exact htree
  | keep _ _ ih => exact ih htree
  | write _ hmake hwrite _ ih =>
    have hmade := htree.makeDirectories directory
    rw [hmake] at hmade
    exact ih (hmade.write hwrite)

section

variable (h : Delivers directory disk artifacts kept written after)
  (hnames : ∀ artifact ∈ artifacts, Path.IsName artifact.fileName)
include h hnames

/-- What is read at the name of another artifact stays. -/
theorem readText_of_readText {name text : String} (hname : Path.IsName name)
    (hother : ∀ artifact ∈ written, name ≠ artifact.fileName)
    (hread : disk.readText (Path.join directory name) = .ok text) :
    after.readText (Path.join directory name) = .ok text := by
  obtain ⟨places, hupdated, hplaces⟩ := h.updated
  refine hupdated.readText hread fun place hplace hmem => ?_
  obtain ⟨artifact, hwritten, hlocate⟩ := hplaces place hmem
  exact hother artifact hwritten (name_eq_of_locate hname
    (hnames _ (h.sublist_written.subset hwritten)) (hupdated.locate hplace) hlocate)

variable (hnodup : (artifacts.map Artifact.fileName).Nodup)
include hnodup

/-- A file that is written holds its artifact. -/
theorem readText_of_mem_written {artifact : Artifact} (hmem : artifact ∈ written) :
    after.readText (artifact.pathIn directory) = .ok artifact.contents := by
  induction h with
  | done => cases hmem
  | keep _ _ ih =>
    exact ih (List.forall_mem_cons.1 hnames).2 (List.nodup_cons.1 hnodup).2 hmem
  | write _ hmake hwrite hrest ih =>
    obtain ⟨hname, hrestNames⟩ := List.forall_mem_cons.1 hnames
    obtain ⟨hfresh, hrestNodup⟩ := List.nodup_cons.1 hnodup
    obtain rfl | hmem := List.mem_cons.1 hmem
    · obtain ⟨place, hlocate, hfile, -⟩ := updated_write hmake hwrite
      refine hrest.readText_of_readText hrestNames hname (fun other hother heq => ?_)
        (readText_ok_iff.2 ⟨place, hlocate, hfile⟩)
      exact hfresh (heq ▸ List.mem_map_of_mem (hrest.sublist_written.subset hother))
    · exact ih hrestNames hrestNodup hmem

/-- An artifact that is kept is current afterwards. -/
theorem isCurrentAt_of_mem_kept {artifact : Artifact} (hmem : artifact ∈ kept) :
    after.isCurrentAt directory artifact = true := by
  induction h with
  | done => cases hmem
  | keep hcurrent hrest ih =>
    obtain ⟨hname, hrestNames⟩ := List.forall_mem_cons.1 hnames
    obtain ⟨hfresh, hrestNodup⟩ := List.nodup_cons.1 hnodup
    obtain rfl | hmem := List.mem_cons.1 hmem
    · obtain ⟨text, hread, hunchanged⟩ := isCurrentAt_iff.1 hcurrent
      refine isCurrentAt_iff.2 ⟨text, ?_, hunchanged⟩
      refine hrest.readText_of_readText hrestNames hname (fun other hother heq => ?_) hread
      exact hfresh (heq ▸ List.mem_map_of_mem (hrest.sublist_written.subset hother))
    · exact ih hrestNames hrestNodup hmem
  | write _ _ _ _ ih =>
    exact ih (List.forall_mem_cons.1 hnames).2 (List.nodup_cons.1 hnodup).2 hmem

/-- Every artifact is current afterwards. -/
theorem isCurrentAt_of_mem {artifact : Artifact} (hmem : artifact ∈ artifacts) :
    after.isCurrentAt directory artifact = true := by
  obtain hwritten | hkept := List.mem_append.1 (h.perm.mem_iff.2 hmem)
  · exact isCurrentAt_iff.2
      ⟨_, h.readText_of_mem_written hnames hnodup hwritten, artifact.isUnchanged_contents⟩
  · exact h.isCurrentAt_of_mem_kept hnames hnodup hkept

end

/-- Writing the file of one artifact leaves that of another one readable as it was. -/
theorem readText_of_write {made mid : Disk} {artifact other : Artifact} {text : String}
    (hmake : disk.makeDirectories directory = (.ok (), made))
    (hwrite : made.write (artifact.pathIn directory) (.text artifact.contents) = .ok mid)
    (hname : Path.IsName artifact.fileName) (hother : Path.IsName other.fileName)
    (hne : other.fileName ≠ artifact.fileName)
    (hread : disk.readText (other.pathIn directory) = .ok text) :
    mid.readText (other.pathIn directory) = .ok text := by
  obtain ⟨place, hlocate, -, hupdated⟩ := updated_write hmake hwrite
  refine hupdated.readText hread fun target htarget hmem => hne ?_
  rw [List.mem_singleton.1 hmem] at htarget
  exact name_eq_of_locate hother hname (hupdated.locate htarget) hlocate

section

variable (h : Delivers directory disk artifacts kept written after)
  (hnames : ∀ artifact ∈ artifacts, Path.IsName artifact.fileName)
  (hnodup : (artifacts.map Artifact.fileName).Nodup)
include h hnames hnodup

/-- An artifact that is kept was current before, if its file could be read then. Its path may lead
    nowhere until the directories have been made. -/
theorem isCurrentAt_of_readText {artifact : Artifact} (hmem : artifact ∈ kept) {text : String}
    (hread : disk.readText (artifact.pathIn directory) = .ok text) :
    disk.isCurrentAt directory artifact = true := by
  induction h with
  | done => cases hmem
  | keep hcurrent _ ih =>
    obtain rfl | hmem := List.mem_cons.1 hmem
    · exact hcurrent
    · exact ih (List.forall_mem_cons.1 hnames).2 (List.nodup_cons.1 hnodup).2 hmem hread
  | write _ hmake hwrite hrest ih =>
    obtain ⟨hname, hrestNames⟩ := List.forall_mem_cons.1 hnames
    obtain ⟨hfresh, hrestNodup⟩ := List.nodup_cons.1 hnodup
    have hother := hrest.sublist_kept.subset hmem
    have hmid := readText_of_write hmake hwrite hname (hrestNames _ hother)
      (fun heq => hfresh (heq ▸ List.mem_map_of_mem hother)) hread
    obtain ⟨text', hread', hunchanged⟩ := isCurrentAt_iff.1 (ih hrestNames hrestNodup hmem hmid)
    rw [hmid, Except.ok.injEq] at hread'
    exact isCurrentAt_iff.2 ⟨text, hread, hread' ▸ hunchanged⟩

/-- An artifact that is written was not current before. -/
theorem not_isCurrentAt_of_mem_written {artifact : Artifact} (hmem : artifact ∈ written) :
    disk.isCurrentAt directory artifact = false := by
  induction h with
  | done => cases hmem
  | keep _ _ ih =>
    exact ih (List.forall_mem_cons.1 hnames).2 (List.nodup_cons.1 hnodup).2 hmem
  | write hcurrent hmake hwrite hrest ih =>
    obtain ⟨hname, hrestNames⟩ := List.forall_mem_cons.1 hnames
    obtain ⟨hfresh, hrestNodup⟩ := List.nodup_cons.1 hnodup
    obtain rfl | hmem := List.mem_cons.1 hmem
    · exact hcurrent
    · have hother := hrest.sublist_written.subset hmem
      have hmid := ih hrestNames hrestNodup hmem
      rw [← Bool.not_eq_true] at hmid ⊢
      refine fun hcurrent => hmid ?_
      obtain ⟨text, hread, hunchanged⟩ := isCurrentAt_iff.1 hcurrent
      exact isCurrentAt_iff.2 ⟨text, readText_of_write hmake hwrite hname (hrestNames _ hother)
        (fun heq => hfresh (heq ▸ List.mem_map_of_mem hother)) hread, hunchanged⟩

end

end Delivers

end Disk

end PatternTable
