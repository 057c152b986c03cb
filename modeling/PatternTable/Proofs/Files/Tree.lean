import Mathlib.Data.List.Induction
import PatternTable.Proofs.Files.Disk

/-!
# Disks that are trees

On a disk that is a tree, whatever there is has a name and lies in a directory. The requests keep it
so. The way to a place on a tree can only fail where the path goes up again: without that it leads
through the directories that the place lies in.

* `Disk.IsTree`: what there is has names, and lies in directories.

Results:
* `Disk.IsTree.makeDirectories`, `Disk.IsTree.write`: the requests keep a disk a tree.
* `Disk.IsTree.exists_walk_parent`: the parent of the path of a file is a directory.
* `Disk.IsTree.walk_of_walk`: a way that does not go up is there if what it leads to is.
-/

namespace PatternTable.Disk

/-! ## Specification -/

/-- What is on a disk has names, and lies in directories that are on it. -/
structure IsTree (disk : Disk) : Prop where
  name : ∀ place ∈ disk.places, ∀ name ∈ place, Path.IsName name
  parent : ∀ place ∈ disk.places, disk.find? place.dropLast = some .directory

instance (disk : Disk) : Decidable disk.IsTree :=
  decidable_of_iff ((∀ place ∈ disk.places, ∀ name ∈ place, Path.IsName name) ∧
      ∀ place ∈ disk.places, disk.find? place.dropLast = some .directory)
    ⟨fun h => ⟨h.1, h.2⟩, fun h => ⟨h.name, h.parent⟩⟩

/-! ## What is on a disk -/

theorem mem_places_of_find? {disk : Disk} {place : Place} {entry : Entry}
    (h : disk.find? place = some entry) : place = [] ∨ place ∈ disk.places := by
  rw [find?] at h
  split at h
  · next hempty => exact .inl (List.isEmpty_iff.1 hempty)
  · obtain ⟨before, after, hentries, -⟩ := List.lookup_eq_some_iff.1 h
    exact .inr (List.mem_map.2 ⟨(place, entry), by simp [hentries], rfl⟩)

theorem find?_ne_none {disk : Disk} {place : Place} (h : place ∈ disk.places) :
    disk.find? place ≠ none := by
  rw [find?]
  split
  · simp
  · rw [Ne, List.lookup_eq_none_iff]
    intro hnone
    obtain ⟨entry, hentry, rfl⟩ := List.mem_map.1 h
    simpa using hnone entry hentry

/-- A way to a name that does not go up leads below where it starts. -/
theorem exists_append_of_walk {disk : Disk} {place target : Place}
    {components : List String} {name : String} (hname : Path.IsName name)
    (hup : ".." ∉ components) (hwalk : disk.walk place (components ++ [name]) = .ok target) :
    ∃ more, more ≠ [] ∧ target = place ++ more := by
  induction components generalizing place with
  | nil => exact ⟨[name], List.cons_ne_nil _ _, ((walk_name_iff hname).1 hwalk).2.2⟩
  | cons component rest ih =>
    rw [List.mem_cons, not_or] at hup
    rw [List.cons_append, walk_cons_of_directory (directory_of_walk_cons hwalk)] at hwalk
    split_ifs at hwalk with hsilent hdots
    · exact ih hup.2 hwalk
    · exact absurd hdots.symm hup.1
    · obtain ⟨more, -, rfl⟩ := ih hup.2 hwalk
      exact ⟨component :: more, List.cons_ne_nil _ _, by simp⟩

/-- Components that say nothing lead nowhere else. -/
theorem eq_of_walk_silent {disk : Disk} {place target : Place} {components : List String}
    (h : ∀ component ∈ components, Path.IsSilent component)
    (hwalk : disk.walk place components = .ok target) : place = target := by
  induction components with
  | nil => exact Except.ok.inj hwalk
  | cons component rest ih =>
    obtain ⟨hsilent, hrest⟩ := List.forall_mem_cons.1 h
    rw [Path.IsSilent] at hsilent
    rw [walk_cons_of_directory (directory_of_walk_cons hwalk), if_pos hsilent] at hwalk
    exact ih hrest hwalk

namespace IsTree

variable {disk after : Disk}

/-- What a place lies in is a directory. -/
theorem find?_dropLast (h : disk.IsTree) {place : Place} {entry : Entry}
    (hentry : disk.find? place = some entry) : disk.find? place.dropLast = some .directory := by
  obtain rfl | hplace := mem_places_of_find? hentry
  · exact find?_root disk
  · exact h.parent place hplace

/-- So are all the places that it is below. -/
theorem find?_prefix (h : disk.IsTree) {place more : Place} (hne : more ≠ []) {entry : Entry}
    (hentry : disk.find? (place ++ more) = some entry) : disk.find? place = some .directory := by
  induction more using List.reverseRecOn generalizing entry with
  | nil => exact absurd rfl hne
  | append_singleton more name ih =>
    have hparent := h.find?_dropLast hentry
    rw [← List.append_assoc, List.dropLast_concat] at hparent
    cases more with
    | nil => rwa [List.append_nil] at hparent
    | cons first rest => exact ih (List.cons_ne_nil first rest) hparent

/-! ## Walking -/

/-- A way leads to a directory, or to a name in one. -/
theorem walk_cases (h : disk.IsTree) {place target : Place} {components : List String}
    (hplace : disk.find? place = some .directory)
    (hslash : ∀ component ∈ components, '/' ∉ component.toList)
    (hwalk : disk.walk place components = .ok target) :
    disk.find? target = some .directory ∨
      ∃ base name, target = base ++ [name] ∧ Path.IsName name ∧
        disk.find? base = some .directory := by
  induction components generalizing place with
  | nil => exact .inl (Except.ok.inj hwalk ▸ hplace)
  | cons component rest ih =>
    rw [List.forall_mem_cons] at hslash
    rw [walk_cons_of_directory hplace] at hwalk
    split_ifs at hwalk with hsilent hup hroot hoctets
    · exact ih hplace hslash.2 hwalk
    · exact ih (h.find?_dropLast hplace) hslash.2 hwalk
    · have hname : Path.IsName component :=
        ⟨fun heq => hsilent (.inl heq), fun heq => hsilent (.inr heq), hup, hslash.1⟩
      cases rest with
      | nil => exact .inr ⟨place, component, (Except.ok.inj hwalk).symm, hname, hplace⟩
      | cons next rest => exact ih (directory_of_walk_cons hwalk) hslash.2 hwalk

theorem locate_cases (h : disk.IsTree) {path : String} {target : Place}
    (hlocate : disk.locate path = .ok target) :
    disk.find? target = some .directory ∨
      ∃ base name, target = base ++ [name] ∧ Path.IsName name ∧
        disk.find? base = some .directory :=
  h.walk_cases (find?_root disk) (fun _ => Path.not_mem_of_mem_components)
    (locate_ok_iff.1 hlocate).2

/-- A way to a name that does not go up leads through directories, if what it leads to is on the
    disk. So it is there already if it is there on a disk that comes from this one. -/
theorem walk_of_walk (h : disk.IsTree) {place target : Place} {components : List String}
    {name : String} (hname : Path.IsName name) (hup : ".." ∉ components)
    (hwalk : after.walk place (components ++ [name]) = .ok target) {entry : Entry}
    (hentry : disk.find? target = some entry) :
    disk.walk place (components ++ [name]) = .ok target := by
  -- Every place on the way is above the target.
  have habove {place : Place} (components : List String) (hup : ".." ∉ components)
      (hwalk : after.walk place (components ++ [name]) = .ok target) :
      disk.find? place = some .directory := by
    obtain ⟨more, hne, rfl⟩ := exists_append_of_walk hname hup hwalk
    exact h.find?_prefix hne hentry
  induction components generalizing place with
  | nil =>
    rw [List.nil_append] at hwalk ⊢
    rw [walk_name_iff hname] at hwalk ⊢
    exact ⟨habove [] List.not_mem_nil ((walk_name_iff hname).2 hwalk), hwalk.2⟩
  | cons component rest ih =>
    have hplace := habove _ hup hwalk
    rw [List.mem_cons, not_or] at hup
    rw [List.cons_append] at hwalk ⊢
    rw [walk_cons_of_directory (directory_of_walk_cons hwalk)] at hwalk
    rw [walk_cons_of_directory hplace]
    split_ifs at hwalk ⊢ with hsilent hdots
    · exact ih hup.2 hwalk
    · exact absurd hdots.symm hup.1
    · exact ih hup.2 hwalk

/-- A path to a file ends in the name of the file, after the way to a directory. -/
theorem exists_name_of_locate (h : disk.IsTree) {path : String} {target : Place} {content : Content}
    (hlocate : disk.locate path = .ok target) (hfile : disk.find? target = some (.file content)) :
    ∃ before name place, Path.components path = before ++ [name] ∧ Path.IsName name ∧
      disk.walk [] before = .ok place ∧ disk.find? place = some .directory ∧
      target = place ++ [name] := by
  have hwalk := (locate_ok_iff.1 hlocate).2
  have hne : Path.components path ≠ [] := by
    intro hnil
    rw [hnil] at hwalk
    rw [← Except.ok.inj hwalk, find?_root] at hfile
    cases hfile
  have hcomponents := (List.dropLast_append_getLast hne).symm
  have hslash := Path.not_mem_of_mem_components (List.getLast_mem hne)
  generalize (Path.components path).dropLast = before at hcomponents
  generalize (Path.components path).getLast hne = name at hcomponents hslash
  rw [hcomponents, walk_append_ok_iff] at hwalk
  obtain ⟨place, hbefore, hlast⟩ := hwalk
  have hplace := directory_of_walk_cons hlast
  have hnot {other : Place} (hother : disk.find? other = some .directory) : target ≠ other := by
    rintro rfl
    rw [hfile] at hother
    cases hother
  rw [walk_cons_of_directory hplace] at hlast
  split_ifs at hlast with hsilent hup hroot hoctets
  · exact absurd (Except.ok.inj hlast).symm (hnot hplace)
  · exact absurd (Except.ok.inj hlast).symm (hnot (h.find?_dropLast hplace))
  · exact ⟨before, name, place, hcomponents,
      ⟨fun heq => hsilent (.inl heq), fun heq => hsilent (.inr heq), hup, hslash⟩, hbefore, hplace,
      (Except.ok.inj hlast).symm⟩

/-- A file lies in the directory that its path has for a parent. -/
theorem exists_walk_parent (h : disk.IsTree) {path : String} {target : Place} {content : Content}
    (hlocate : disk.locate path = .ok target) (hfile : disk.find? target = some (.file content)) :
    ∃ place, disk.walk [] (Path.components (Path.parent path)) = .ok place ∧
      disk.find? place = some .directory := by
  obtain ⟨before, name, place, hpath, hname, hwalk, hplace, -⟩ :=
    h.exists_name_of_locate hlocate hfile
  refine ⟨place, ?_, hplace⟩
  obtain ⟨silent, hbefore, hsilent⟩ := Path.exists_trimComponents before
  have hslash : ∀ component ∈ Path.trimComponents before, '/' ∉ component.toList :=
    fun component hmem => @Path.not_mem_of_mem_components path component <| by
      rw [hpath, hbefore]
      exact List.mem_append_left _ (List.mem_append_left _ hmem)
  rw [hbefore, walk_append_ok_iff] at hwalk
  obtain ⟨reached, hreached, hrest⟩ := hwalk
  obtain rfl := eq_of_walk_silent hsilent hrest
  rw [Path.parent, hpath, Path.trimComponents_append_name hname, List.dropLast_concat]
  generalize Path.trimComponents before = trimmed at hreached hslash
  unfold Path.ofComponents
  split
  · exact hreached
  · by_cases hempty : trimmed = []
    · rw [hempty] at hreached ⊢
      exact hreached
    · rwa [Path.components_intercalate hempty hslash]

/-! ## Requests -/

/-- Something that is put where a path leads, and where there was no directory. -/
theorem put (h : disk.IsTree) {path : String} {place : Place}
    (hlocate : disk.locate path = .ok place) (hplace : disk.find? place ≠ some .directory)
    {written : List Place} {entry : Entry}
    (hupdated : Updated written disk (disk.put place entry)) :
    (disk.put place entry).IsTree := by
  obtain hdirectory | ⟨base, name, rfl, hname, hbase⟩ := h.locate_cases hlocate
  · exact absurd hdirectory hplace
  · have hplaces : ∀ other ∈ (disk.put (base ++ [name]) entry).places,
        other ∈ disk.places ∨ other = base ++ [name] := by
      intro other hother
      rw [places_put] at hother
      split at hother
      · exact .inl hother
      · rwa [List.mem_append, List.mem_singleton] at hother
    constructor
    · intro other hother
      obtain hother | rfl := hplaces other hother
      · exact h.name other hother
      · rw [List.forall_mem_append, List.forall_mem_singleton]
        refine ⟨?_, hname⟩
        obtain rfl | hmem := mem_places_of_find? hbase
        · simp
        · exact h.name base hmem
    · intro other hother
      obtain hother | rfl := hplaces other hother
      · exact hupdated.directory _ (h.parent other hother)
      · rw [List.dropLast_concat]
        exact hupdated.directory base hbase

theorem makeDirectories (h : disk.IsTree) (path : String) :
    (disk.makeDirectories path).2.IsTree := by
  refine makeNested_induction (fun disk after => disk.IsTree → after.IsTree)
    (fun _ h => h) (fun _ _ _ h h' hdisk => h' (h hdisk)) (fun disk after path hmake h => ?_)
    _ disk path h
  obtain ⟨place, hlocate, hnone, rfl⟩ := makeDirectory_ok_iff.1 hmake
  rw [locateBare] at hlocate
  split at hlocate
  · cases hlocate
  · exact h.put hlocate (by simp [hnone]) (.put_directory hnone)

theorem write (h : disk.IsTree) {path : String} {content : Content}
    (hwrite : disk.write path content = .ok after) : after.IsTree := by
  obtain ⟨place, hlocate, hplace, rfl⟩ := write_ok_iff.1 hwrite
  exact h.put hlocate hplace (.put_file hplace content)

end IsTree

end PatternTable.Disk
