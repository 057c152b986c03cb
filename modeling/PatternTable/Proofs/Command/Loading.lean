import Mathlib.Data.List.Forall2
import PatternTable.Command.Load
import PatternTable.Proofs.Files.Tree

/-!
# Loading grammars from a disk

Loading only reads. So it comes to the same workspace on a disk on which directories have been made
and files have been written, unless a written file is one of those that are loaded: it is the file
that the command is told, or has the name of a grammar file.

* `Disk.load`: the documents that a command finds at a path.

Results:
* `Disk.loadPath_access`: loading changes nothing.
* `Disk.load_ok_iff`: what is loaded.
* `Disk.Updated.load_directory`: a directory is loaded as before if no grammar file is written.
-/

namespace PatternTable

namespace Disk

/-! ## Specification -/

/-- The documents that a command finds at a path. -/
def load (disk : Disk) (path : String) : Except CommandFault Workspace :=
  (loadPath access path disk).1

/-- A document is in the file at a path. -/
def Holds (disk : Disk) (path : String) (source : Source) : Prop :=
  ∃ text, disk.readText path = .ok text ∧ source = .ofText path text

/-! ## Files -/

theorem loadFiles_access_cons (disk : Disk) (path : String) (paths : List String) :
    loadFiles access (path :: paths) disk =
      match disk.readText path with
      | .error fault => (.error (.unreadable path fault), disk)
      | .ok text =>
        match loadFiles access paths disk with
        | (.error fault, after) => (.error fault, after)
        | (.ok sources, after) => (.ok (Source.ofText path text :: sources), after) := by
  have hread : (access.readText path : StateM Disk _) disk = (disk.readText path, disk) := rfl
  rw [loadFiles]
  simp only [bind, StateT.bind, hread]
  cases disk.readText path with
  | error fault => rfl
  | ok text =>
    dsimp only [StateT.bind, bind]
    rcases loadFiles access paths disk with ⟨_ | _, after⟩ <;> rfl

/-- Reading files changes nothing, and comes to the documents in them. -/
theorem loadFiles_access (disk : Disk) (paths : List String) :
    ∃ loaded, loadFiles access paths disk = (loaded, disk) ∧
      ∀ workspace, loaded = .ok workspace ↔ List.Forall₂ disk.Holds paths workspace := by
  induction paths with
  | nil => exact ⟨.ok [], rfl, fun workspace => by simp [eq_comm]⟩
  | cons path paths ih =>
    obtain ⟨loaded, hloaded, hiff⟩ := ih
    rw [loadFiles_access_cons, hloaded]
    cases hread : disk.readText path with
    | error fault =>
      refine ⟨_, rfl, fun workspace => iff_of_false (by simp) fun hholds => ?_⟩
      obtain ⟨_, _, ⟨text, htext, -⟩, -⟩ := List.forall₂_cons_left_iff.1 hholds
      rw [hread] at htext
      cases htext
    | ok text =>
      have hholds (source : Source) : disk.Holds path source ↔ source = .ofText path text := by
        simp [Holds, hread]
      cases loaded with
      | error fault =>
        refine ⟨_, rfl, fun workspace => iff_of_false (by simp) fun hall => ?_⟩
        obtain ⟨_, sources, -, hsources, -⟩ := List.forall₂_cons_left_iff.1 hall
        cases (hiff sources).2 hsources
      | ok sources =>
        refine ⟨_, rfl, fun workspace => ?_⟩
        rw [List.forall₂_cons_left_iff, Except.ok.injEq]
        constructor
        · rintro rfl
          exact ⟨_, _, (hholds _).2 rfl, (hiff _).1 rfl, rfl⟩
        · rintro ⟨source, others, hsource, hothers, rfl⟩
          rw [(hholds source).1 hsource, Except.ok.inj ((hiff others).2 hothers)]

/-- The files in a directory. -/
theorem fileNames_ok_iff {disk : Disk} {path : String} {names : List String} :
    disk.fileNames path = .ok names ↔ ∃ place, disk.locate path = .ok place ∧
      disk.find? place = some .directory ∧
      names = (disk.namesIn place).filter fun name => disk.isFile (Path.join path name) := by
  rw [fileNames]
  cases disk.locate path with
  | error fault => simp
  | ok place =>
    cases hfault : disk.lookupFault? place with
    | none => simp [hfault, lookupFault?_eq_none_iff.1 hfault, eq_comm]
    | some fault =>
      have hplace : disk.find? place ≠ some .directory := fun h => by
        rw [lookupFault?_eq_none_iff.2 h] at hfault
        cases hfault
      simp [hplace, hfault]

/-! ## Paths -/

/-- Loading, as a choice between a directory and a single file. -/
theorem loadPath_access_eq (disk : Disk) (path : String) :
    loadPath access path disk =
      if disk.isDirectory path then
        match disk.fileNames path with
        | .error fault => (.error (.unreadable path fault), disk)
        | .ok names =>
          if grammarNames names = [] then (.error (.noGrammars path), disk)
          else loadFiles access ((grammarNames names).map (Path.join path)) disk
      else loadFiles access [path] disk := by
  have hdirectory : (access.isDirectory path : StateM Disk _) disk =
      (disk.isDirectory path, disk) := rfl
  have hnames : (access.fileNames path : StateM Disk _) disk = (disk.fileNames path, disk) := rfl
  rw [loadPath]
  simp only [bind, StateT.bind, hdirectory]
  cases disk.isDirectory path with
  | false => rfl
  | true =>
    simp only [if_true, grammarPaths, bind, StateT.bind, hnames]
    cases disk.fileNames path with
    | error fault => rfl
    | ok names =>
      dsimp only
      cases grammarNames names <;> rfl

/-- Loading changes nothing. -/
theorem loadPath_access (disk : Disk) (path : String) :
    loadPath access path disk = (disk.load path, disk) := by
  have hfiles (paths : List String) : (loadFiles access paths disk).2 = disk := by
    obtain ⟨loaded, hloaded, -⟩ := loadFiles_access disk paths
    rw [hloaded]
  refine Prod.ext rfl ?_
  rw [loadPath_access_eq]
  split
  · split
    · rfl
    · split
      · rfl
      · exact hfiles _
  · exact hfiles _

/-- What is loaded: the grammar files of a directory, or a single file. -/
theorem load_ok_iff {disk : Disk} {path : String} {workspace : Workspace} :
    disk.load path = .ok workspace ↔
      (disk.isDirectory path = true ∧ ∃ names, disk.fileNames path = .ok names ∧
        grammarNames names ≠ [] ∧
        List.Forall₂ disk.Holds ((grammarNames names).map (Path.join path)) workspace) ∨
      (disk.isDirectory path = false ∧ List.Forall₂ disk.Holds [path] workspace) := by
  have hfiles (paths : List String) : (loadFiles access paths disk).1 = .ok workspace ↔
      List.Forall₂ disk.Holds paths workspace := by
    obtain ⟨loaded, hloaded, hiff⟩ := loadFiles_access disk paths
    rw [hloaded]
    exact hiff workspace
  rw [load, loadPath_access_eq]
  cases disk.isDirectory path with
  | false => simpa using hfiles [path]
  | true =>
    cases disk.fileNames path with
    | error fault => simp
    | ok names =>
      by_cases hempty : grammarNames names = []
      · simp [hempty]
      · simpa [hempty] using hfiles ((grammarNames names).map (Path.join path))

/-- Grammar files that are in order are loaded in that order. -/
theorem load_of_pairwise (disk : Disk) (path : String) (names : List String)
    (hdirectory : disk.isDirectory path = true) (hnames : disk.fileNames path = .ok names)
    (hne : names.filter isGrammarName ≠ [])
    (hsorted : (names.filter isGrammarName).Pairwise fun a b =>
      (Text.compareOctets a.toList b.toList).isLE = true) :
    disk.load path =
      (loadFiles access ((names.filter isGrammarName).map (Path.join path)) disk).1 := by
  have hgrammars : grammarNames names = names.filter isGrammarName :=
    List.mergeSort_of_pairwise hsorted
  rw [load, loadPath_access_eq, if_pos hdirectory, hnames]
  dsimp only
  rw [hgrammars, if_neg hne]

/-! ## Disks that have changed -/

theorem namesIn_eq (disk : Disk) (place : Place) :
    disk.namesIn place = disk.places.filterMap fun other =>
      if other.dropLast = place then other.getLast? else none := by
  rw [namesIn, places, List.filterMap_map]
  rfl

/-- A name in a directory, as a place. -/
theorem mem_namesIn_iff {places : List Place} {place : Place} {name : String} :
    name ∈ (places.filterMap fun other =>
        if other.dropLast = place then other.getLast? else none) ↔
      place ++ [name] ∈ places := by
  rw [List.mem_filterMap]
  constructor
  · rintro ⟨other, hother, hname⟩
    split at hname
    · next hplace =>
      obtain ⟨before, rfl⟩ := List.getLast?_eq_some_iff.1 hname
      rw [List.dropLast_concat] at hplace
      rwa [← hplace]
    · cases hname
  · exact fun hmem => ⟨place ++ [name], hmem, by simp⟩

/-- A file in a directory. -/
theorem isFile_join_iff {disk : Disk} {directory name : String} {place : Place}
    (hplace : disk.locate directory = .ok place) (hdirectory : disk.find? place = some .directory)
    (hname : Path.IsName name) : disk.isFile (Path.join directory name) = true ↔
      pathFault? (Path.join directory name) = none ∧
        Text.octets name.toList ≤ maxNameOctets ∧
        ∃ content, disk.find? (place ++ [name]) = some (.file content) := by
  have hwalk := (locate_ok_iff.1 hplace).2
  simp only [isFile_iff, locate_join_iff hname, hwalk, Except.ok.injEq]
  constructor
  · rintro ⟨target, content, ⟨hfault, hoctets, base, rfl, -, rfl⟩, hfile⟩
    exact ⟨hfault, hoctets, content, hfile⟩
  · rintro ⟨hfault, hoctets, content, hfile⟩
    exact ⟨_, content, ⟨hfault, hoctets, place, rfl, hdirectory, rfl⟩, hfile⟩

namespace Updated

variable {written : List Place} {disk after : Disk} (h : Updated written disk after)
  (htree : disk.IsTree) (hafter : after.IsTree)
  (hwritten : ∀ place name, place ++ [name] ∈ written → isGrammarName name = false)
include h htree hafter hwritten

/-- The grammar files in a directory are those that were there. -/
theorem grammarNames_of_fileNames {path : String} {names : List String}
    (hnames : disk.fileNames path = .ok names) :
    ∃ names', after.fileNames path = .ok names' ∧ grammarNames names' = grammarNames names := by
  obtain ⟨place, hplace, hdirectory, rfl⟩ := fileNames_ok_iff.1 hnames
  have hplace' := h.locate hplace
  have hdirectory' := h.directory place hdirectory
  refine ⟨_, fileNames_ok_iff.2 ⟨place, hplace', hdirectory', rfl⟩, ?_⟩
  obtain ⟨new, hplaces, hnew⟩ := h.added
  rw [grammarNames, grammarNames, namesIn_eq, namesIn_eq, hplaces, List.filterMap_append,
    List.filter_append, List.filter_append]
  -- What was there is a file if it was one.
  have hold : ∀ name ∈ disk.places.filterMap (fun other =>
        if other.dropLast = place then other.getLast? else none),
      after.isFile (Path.join path name) = disk.isFile (Path.join path name) := by
    intro name hname
    rw [mem_namesIn_iff] at hname
    have hisname : Path.IsName name := htree.name _ hname name (by simp)
    rw [Bool.eq_iff_iff, isFile_join_iff hplace' hdirectory' hisname,
      isFile_join_iff hplace hdirectory hisname, h.file_iff (find?_ne_none hname)]
  -- What is new is a directory, or does not have the name of a grammar file.
  have hfresh : ∀ name ∈ new.filterMap (fun other =>
        if other.dropLast = place then other.getLast? else none),
      after.isFile (Path.join path name) = true → isGrammarName name = false := by
    intro name hname hfile
    rw [mem_namesIn_iff] at hname
    have hisname : Path.IsName name :=
      hafter.name _ (hplaces ▸ List.mem_append_right _ hname) name (by simp)
    obtain ⟨-, -, content, hcontent⟩ := (isFile_join_iff hplace' hdirectory' hisname).1 hfile
    refine hwritten place name ((hnew _ hname).resolve_right fun hnewdirectory => ?_)
    rw [hcontent] at hnewdirectory
    cases hnewdirectory
  have hnone : ((new.filterMap fun other =>
      if other.dropLast = place then other.getLast? else none).filter fun name =>
        after.isFile (Path.join path name)).filter isGrammarName = [] := by
    rw [List.filter_eq_nil_iff]
    intro name hname
    obtain ⟨hmem, hfile⟩ := List.mem_filter.1 hname
    simp [hfresh name hmem hfile]
  rw [hnone, List.append_nil, List.filter_congr hold]

omit htree hafter in
/-- A grammar file in a directory reads as before. -/
theorem holds_of_isGrammarName {path name : String} {source : Source}
    (hname : Path.IsName name) (hgrammar : isGrammarName name = true)
    (hholds : disk.Holds (Path.join path name) source) :
    after.Holds (Path.join path name) source := by
  obtain ⟨text, hread, rfl⟩ := hholds
  refine ⟨text, h.readText hread fun target htarget hmem => ?_, rfl⟩
  obtain ⟨-, -, base, -, -, rfl⟩ := (locate_join_iff hname).1 htarget
  rw [hwritten base name hmem] at hgrammar
  cases hgrammar

/-- A directory of grammars is loaded as before. -/
theorem load_directory {path : String} {workspace : Workspace}
    (hdirectory : disk.isDirectory path = true) (hload : disk.load path = .ok workspace) :
    after.load path = .ok workspace := by
  obtain ⟨-, names, hnames, hne, hall⟩ :=
    (load_ok_iff.1 hload).resolve_right fun hfile => by simp [hdirectory] at hfile
  obtain ⟨names', hnames', hgrammars⟩ :=
    h.grammarNames_of_fileNames htree hafter hwritten hnames
  refine load_ok_iff.2 (.inl ⟨h.isDirectory hdirectory, names', hnames', ?_⟩)
  rw [hgrammars]
  refine ⟨hne, ?_⟩
  obtain ⟨place, -, -, hnames⟩ := fileNames_ok_iff.1 hnames
  have hgrammarName : ∀ name ∈ grammarNames names,
      Path.IsName name ∧ isGrammarName name = true := by
    intro name hname
    rw [grammarNames, List.mem_mergeSort, List.mem_filter, hnames, List.mem_filter, namesIn_eq,
      mem_namesIn_iff] at hname
    exact ⟨htree.name _ hname.1.1 name (by simp), hname.2⟩
  rw [List.forall₂_map_left_iff] at hall ⊢
  refine ((List.forall₂_and_left _ _).2 ⟨hgrammarName, hall⟩).imp fun name source hboth => ?_
  exact h.holds_of_isGrammarName hwritten hboth.1.1 hboth.1.2 hboth.2

end Updated

/-- A single file is loaded as what it holds. -/
theorem load_of_readText {disk : Disk} {path text : String}
    (hread : disk.readText path = .ok text) :
    disk.load path = .ok [.ofText path text] :=
  load_ok_iff.2 (.inr ⟨isDirectory_of_readText hread, .cons ⟨text, hread, rfl⟩ .nil⟩)

end Disk

end PatternTable
