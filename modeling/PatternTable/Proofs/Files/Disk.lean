import PatternTable.Files.Disk
import PatternTable.Proofs.Files.Path
import PatternTable.Proofs.Lists

/-!
# What a request changes on a disk

Making a directory puts it where there was nothing, and writing a file puts it where there was no
directory. So what leads to a place keeps leading there, directories stay, and a file changes only
if it is written.

* `Disk.Updated`: a disk comes from another one by making directories, and by writing files at some
  places.

Results:
* `Disk.locate_join_iff`: where a name joined to a directory leads.
* `Disk.updated_makeDirectories`, `Disk.Updated.put_file`: what the requests change.
* `Disk.Updated.readText`: a file that is not written reads as before.
-/

namespace PatternTable.Disk

/-! ## Specification -/

/-- The places of what is on a disk. -/
def places (disk : Disk) : List Place :=
  disk.entries.map Prod.fst

/-- A disk comes from another one by making directories where there is nothing, and by writing files
    at some places. -/
structure Updated (written : List Place) (disk after : Disk) : Prop where
  directory : ∀ place, disk.find? place = some .directory → after.find? place = some .directory
  /-- A file stays as it is unless it is written. -/
  file : ∀ place content, place ∉ written → disk.find? place = some (.file content) →
    after.find? place = some (.file content)
  /-- There are no other files. -/
  fresh : ∀ place content, place ∉ written → after.find? place = some (.file content) →
    disk.find? place = some (.file content)
  overwritten : ∀ place ∈ written, ∃ content, after.find? place = some (.file content)
  /-- What is new comes after what was there. -/
  added : ∃ new, after.places = disk.places ++ new ∧
    ∀ place ∈ new, place ∈ written ∨ after.find? place = some .directory

/-! ## Walking -/

theorem find?_root (disk : Disk) : disk.find? [] = some .directory := rfl

theorem lookupFault?_eq_none_iff {disk : Disk} {place : Place} :
    disk.lookupFault? place = none ↔ disk.find? place = some .directory := by
  rw [lookupFault?]
  split <;> simp_all

/-- A component that leads on from a directory. -/
theorem walk_cons_of_directory {disk : Disk} {place : Place}
    (h : disk.find? place = some .directory) (component : String) (rest : List String) :
    disk.walk place (component :: rest) =
      if component = "" ∨ component = "." then disk.walk place rest
      else if component = ".." then
        if place.isEmpty then .error .notFound else disk.walk place.dropLast rest
      else if maxNameOctets < Text.octets component.toList then .error .nameTooLong
      else disk.walk (place ++ [component]) rest := by
  rw [walk, lookupFault?_eq_none_iff.2 h]

theorem directory_of_walk_cons {disk : Disk} {place target : Place} {component : String}
    {rest : List String} (h : disk.walk place (component :: rest) = .ok target) :
    disk.find? place = some .directory := by
  rw [walk] at h
  split at h
  · cases h
  · next hfault => exact lookupFault?_eq_none_iff.1 hfault

theorem walk_append (disk : Disk) (place : Place) (components others : List String) :
    disk.walk place (components ++ others) =
      (disk.walk place components).bind fun reached => disk.walk reached others := by
  induction components generalizing place with
  | nil => rfl
  | cons component components ih =>
    rw [List.cons_append, walk, walk]
    split
    · rfl
    · split_ifs
      · exact ih place
      · rfl
      · exact ih place.dropLast
      · rfl
      · exact ih (place ++ [component])

theorem walk_append_ok_iff {disk : Disk} {place target : Place}
    {components others : List String} :
    disk.walk place (components ++ others) = .ok target ↔
      ∃ reached, disk.walk place components = .ok reached ∧
        disk.walk reached others = .ok target := by
  rw [walk_append]
  cases disk.walk place components <;> simp [Except.bind]

/-- A component that says nothing before another one. -/
theorem walk_empty_cons (disk : Disk) (place : Place) (component : String) (rest : List String) :
    disk.walk place ("" :: component :: rest) = disk.walk place (component :: rest) := by
  rw [walk]
  split
  · next hfault => rw [walk, hfault]
  · rw [if_pos (.inl rfl)]

theorem walk_name_iff {disk : Disk} {place target : Place} {name : String}
    (hname : Path.IsName name) : disk.walk place [name] = .ok target ↔
      disk.find? place = some .directory ∧ Text.octets name.toList ≤ maxNameOctets ∧
        target = place ++ [name] := by
  constructor
  · intro h
    have hdirectory := directory_of_walk_cons h
    rw [walk_cons_of_directory hdirectory, if_neg (not_or.2 ⟨hname.nonempty, hname.dot⟩),
      if_neg hname.dots] at h
    split at h
    · cases h
    · next hoctets => exact ⟨hdirectory, Nat.not_lt.1 hoctets, (Except.ok.inj h).symm⟩
  · rintro ⟨hdirectory, hoctets, rfl⟩
    rw [walk_cons_of_directory hdirectory, if_neg (not_or.2 ⟨hname.nonempty, hname.dot⟩),
      if_neg hname.dots, if_neg (Nat.not_lt.2 hoctets)]
    rfl

/-- The way to a name that is joined to a directory goes through the directory. -/
theorem walk_join (disk : Disk) (directory : String) {name : String} (hname : Path.IsName name) :
    disk.walk [] (Path.components (Path.join directory name)) =
      disk.walk [] (Path.components directory ++ [name]) := by
  have habsolute := Path.not_isAbsolute_of_not_mem hname.slash
  have hcomponents := Path.components_of_not_mem hname.slash
  obtain hjoin | ⟨before, hdirectory, hjoin⟩ := Path.components_join habsolute directory
  · rw [hjoin, hcomponents]
    split
    · next hempty =>
      rw [String.isEmpty_iff.1 hempty, Path.components_empty]
      exact (walk_empty_cons disk [] name []).symm
    · rfl
  · rw [hjoin, hdirectory, hcomponents, List.append_assoc, walk_append, walk_append]
    refine congrArg _ (funext fun reached => ?_)
    exact (walk_empty_cons disk reached name []).symm

theorem locate_ok_iff {disk : Disk} {path : String} {target : Place} :
    disk.locate path = .ok target ↔
      pathFault? path = none ∧ disk.walk [] (Path.components path) = .ok target := by
  rw [locate]
  cases pathFault? path <;> simp

/-- A name that is joined to a directory leads into the directory. -/
theorem locate_join_iff {disk : Disk} {directory name : String} {target : Place}
    (hname : Path.IsName name) : disk.locate (Path.join directory name) = .ok target ↔
      pathFault? (Path.join directory name) = none ∧
        Text.octets name.toList ≤ maxNameOctets ∧
        ∃ place, disk.walk [] (Path.components directory) = .ok place ∧
          disk.find? place = some .directory ∧ target = place ++ [name] := by
  rw [locate_ok_iff, walk_join disk directory hname, walk_append_ok_iff]
  simp only [walk_name_iff hname]
  exact and_congr_right fun _ =>
    ⟨fun ⟨place, hwalk, hdirectory, hoctets, htarget⟩ =>
      ⟨hoctets, place, hwalk, hdirectory, htarget⟩,
    fun ⟨hoctets, place, hwalk, hdirectory, htarget⟩ =>
      ⟨place, hwalk, hdirectory, hoctets, htarget⟩⟩

/-- Two names that are joined to one directory lead to different places. -/
theorem name_eq_of_locate {disk : Disk} {directory name other : String} {target : Place}
    (hname : Path.IsName name) (hother : Path.IsName other)
    (h : disk.locate (Path.join directory name) = .ok target)
    (h' : disk.locate (Path.join directory other) = .ok target) : name = other := by
  obtain ⟨-, -, place, hplace, -, htarget⟩ := (locate_join_iff hname).1 h
  obtain ⟨-, -, place', hplace', -, htarget'⟩ := (locate_join_iff hother).1 h'
  rw [hplace, Except.ok.injEq] at hplace'
  rw [htarget, hplace', List.append_cancel_left_eq, List.singleton_inj] at htarget'
  exact htarget'

/-! ## Reading -/

theorem readText_ok_iff {disk : Disk} {path text : String} :
    disk.readText path = .ok text ↔
      ∃ place, disk.locate path = .ok place ∧ disk.find? place = some (.file (.text text)) := by
  rw [readText, entryAt]
  cases disk.locate path with
  | error fault => simp
  | ok place =>
    cases hentry : disk.find? place with
    | none => simp [hentry]
    | some entry =>
      simp only [Except.ok.injEq, exists_eq_left', hentry, Option.some.injEq]
      cases entry with
      | directory => simp
      | file content => cases content <;> simp

/-- What is read is no directory. -/
theorem isDirectory_of_readText {disk : Disk} {path text : String}
    (h : disk.readText path = .ok text) : disk.isDirectory path = false := by
  obtain ⟨place, hlocate, hfile⟩ := readText_ok_iff.1 h
  simp [isDirectory, entryAt, hlocate, hfile]

theorem readText_of_isDirectory {disk : Disk} {path : String} (h : disk.isDirectory path = true) :
    disk.readText path = .error .isDirectory := by
  rw [isDirectory] at h
  rw [readText]
  split at h
  · next hentry => rw [hentry]
  · cases h

theorem isDirectory_iff {disk : Disk} {path : String} :
    disk.isDirectory path = true ↔
      ∃ place, disk.locate path = .ok place ∧ disk.find? place = some .directory := by
  rw [isDirectory, entryAt]
  cases disk.locate path with
  | error fault => simp
  | ok place =>
    cases hentry : disk.find? place with
    | none => simp [hentry]
    | some entry => cases entry <;> simp [hentry]

theorem isFile_iff {disk : Disk} {path : String} :
    disk.isFile path = true ↔
      ∃ place content, disk.locate path = .ok place ∧
        disk.find? place = some (.file content) := by
  rw [isFile, entryAt]
  cases disk.locate path with
  | error fault => simp
  | ok place =>
    cases hentry : disk.find? place with
    | none => simp [hentry]
    | some entry => cases entry <;> simp [hentry]

/-! ## Entries that are put on a disk -/

theorem places_put (disk : Disk) (place : Place) (entry : Entry) :
    (disk.put place entry).places =
      if place ∈ disk.places then disk.places else disk.places ++ [place] := by
  rcases disk with ⟨entries⟩
  simp only [places, put]
  induction entries with
  | nil => rfl
  | cons head rest ih =>
    rcases head with ⟨other, old⟩
    by_cases h : other = place
    · simp [putEntry, h]
    · simp only [putEntry, h, if_false, List.map_cons, ih, List.mem_cons, Ne.symm h, false_or]
      split <;> simp [*]

namespace Updated

variable {written others : List Place} {disk mid after : Disk}

theorem refl (disk : Disk) : Updated [] disk disk where
  directory _ h := h
  file _ _ _ h := h
  fresh _ _ _ h := h
  overwritten _ h := absurd h List.not_mem_nil
  added := ⟨[], (List.append_nil _).symm, fun _ h => absurd h List.not_mem_nil⟩

theorem trans (h : Updated written disk mid) (h' : Updated others mid after) :
    Updated (written ++ others) disk after where
  directory place hplace := h'.directory place (h.directory place hplace)
  file place content hplace hfile := by
    rw [List.mem_append, not_or] at hplace
    exact h'.file place content hplace.2 (h.file place content hplace.1 hfile)
  fresh place content hplace hfile := by
    rw [List.mem_append, not_or] at hplace
    exact h.fresh place content hplace.1 (h'.fresh place content hplace.2 hfile)
  overwritten place hplace := by
    by_cases hlater : place ∈ others
    · exact h'.overwritten place hlater
    · obtain ⟨content, hfile⟩ :=
        h.overwritten place ((List.mem_append.1 hplace).resolve_right hlater)
      exact ⟨content, h'.file place content hlater hfile⟩
  added := by
    obtain ⟨new, hplaces, hnew⟩ := h.added
    obtain ⟨later, hplaces', hlater⟩ := h'.added
    refine ⟨new ++ later, by rw [hplaces', hplaces, List.append_assoc], fun place hplace => ?_⟩
    rw [List.mem_append] at hplace ⊢
    obtain hplace | hplace := hplace
    · exact (hnew place hplace).imp .inl (h'.directory place)
    · exact (hlater place hplace).imp_left .inr

/-- A directory that is put where there was nothing. -/
theorem put_directory {place : Place} (h : disk.find? place = none) :
    Updated [] disk (disk.put place .directory) := by
  have hplace : place ≠ [] := by
    rintro rfl
    simp [find?_root] at h
  have hother {other : Place} {entry : Entry} (hentry : disk.find? other = some entry) :
      (disk.put place .directory).find? other = some entry := by
    rw [find?_put_other, hentry]
    rintro rfl
    simp [h] at hentry
  refine ⟨fun _ => hother, fun _ _ _ => hother, fun other content _ hfile => ?_, by simp, ?_⟩
  · rwa [find?_put_other] at hfile
    rintro rfl
    simp [find?_put_self disk hplace] at hfile
  · rw [places_put]
    split
    · exact ⟨[], (List.append_nil _).symm, by simp⟩
    · refine ⟨[place], rfl, ?_⟩
      simp [find?_put_self disk hplace]

/-- A file that is put where there was no directory. -/
theorem put_file {place : Place} (h : disk.find? place ≠ some .directory) (content : Content) :
    Updated [place] disk (disk.put place (.file content)) := by
  have hplace : place ≠ [] := by
    rintro rfl
    exact h (find?_root disk)
  have hother {other : Place} (hne : other ≠ place) :
      (disk.put place (.file content)).find? other = disk.find? other :=
    find?_put_other disk hne _
  constructor
  · intro other hdirectory
    rwa [hother]
    rintro rfl
    exact h hdirectory
  · intro other old hne hfile
    rwa [hother (List.mem_singleton.not.1 hne)]
  · intro other new hne hfile
    rwa [hother (List.mem_singleton.not.1 hne)] at hfile
  · intro other hother
    rw [List.mem_singleton.1 hother, find?_put_self disk hplace]
    exact ⟨content, rfl⟩
  · rw [places_put]
    split
    · exact ⟨[], (List.append_nil _).symm, by simp⟩
    · exact ⟨[place], rfl, fun other hother => .inl hother⟩

/-! ## What stays -/

variable (h : Updated written disk after)
include h

/-- What led to a place leads there. -/
theorem walk {place target : Place} {components : List String}
    (hwalk : disk.walk place components = .ok target) :
    after.walk place components = .ok target := by
  induction components generalizing place with
  | nil => exact hwalk
  | cons component rest ih =>
    have hdirectory := directory_of_walk_cons hwalk
    rw [walk_cons_of_directory hdirectory] at hwalk
    rw [walk_cons_of_directory (h.directory place hdirectory)]
    split_ifs at hwalk ⊢ <;> exact ih hwalk

theorem locate {path : String} {place : Place} (hlocate : disk.locate path = .ok place) :
    after.locate path = .ok place := by
  rw [locate_ok_iff] at hlocate ⊢
  exact ⟨hlocate.1, h.walk hlocate.2⟩

theorem isDirectory {path : String} (hdirectory : disk.isDirectory path = true) :
    after.isDirectory path = true := by
  rw [isDirectory_iff] at hdirectory ⊢
  obtain ⟨place, hlocate, hplace⟩ := hdirectory
  exact ⟨place, h.locate hlocate, h.directory place hplace⟩

/-- Where there is a file, there was one, and the other way round, if anything was there. -/
theorem file_iff {place : Place} (hplace : disk.find? place ≠ none) :
    (∃ content, after.find? place = some (.file content)) ↔
      ∃ content, disk.find? place = some (.file content) := by
  obtain ⟨entry, hentry⟩ := Option.ne_none_iff_exists'.1 hplace
  cases entry with
  | directory => simp [h.directory place hentry, hentry]
  | file content =>
    refine iff_of_true ?_ ⟨content, hentry⟩
    by_cases hwritten : place ∈ written
    · exact h.overwritten place hwritten
    · exact ⟨content, h.file place content hwritten hentry⟩

/-- A file that is not written reads as before. -/
theorem readText {path text : String} (hread : disk.readText path = .ok text)
    (hplace : ∀ place, disk.locate path = .ok place → place ∉ written) :
    after.readText path = .ok text := by
  rw [readText_ok_iff] at hread ⊢
  obtain ⟨place, hlocate, hfile⟩ := hread
  exact ⟨place, h.locate hlocate, h.file place _ (hplace place hlocate) hfile⟩

end Updated

/-! ## Requests -/

theorem makeDirectory_ok_iff {disk after : Disk} {path : String} :
    disk.makeDirectory path = .ok after ↔ ∃ place, disk.locateBare path = .ok place ∧
      disk.find? place = none ∧ after = disk.put place .directory := by
  rw [makeDirectory]
  cases disk.locateBare path with
  | error fault => simp
  | ok place => cases hfind : disk.find? place <;> simp [hfind, eq_comm]

/-- Making directories keeps what each step of it keeps: a step puts a directory where there was
    nothing. -/
theorem makeNested_induction (Kept : Disk → Disk → Prop) (hrefl : ∀ disk, Kept disk disk)
    (htrans : ∀ disk mid after, Kept disk mid → Kept mid after → Kept disk after)
    (hmake : ∀ disk after path, disk.makeDirectory path = .ok after → Kept disk after)
    (fuel : Nat) (disk : Disk) (path : String) : Kept disk (makeNested fuel disk path).2 := by
  induction fuel generalizing disk path with
  | zero => exact hrefl disk
  | succ fuel ih =>
    rw [makeNested]
    split
    · exact hrefl disk
    · split
      · next made hmade => exact hmake disk made path hmade
      · -- The directory above is made first, and then the directory itself is tried again.
        have habove := ih disk (Path.parent path)
        split
        · next hnested => rwa [hnested] at habove
        · next hnested =>
          rw [hnested] at habove
          split
          · next made hmade => exact htrans _ _ _ habove (hmake _ made path hmade)
          · exact habove
      · exact hrefl disk

theorem updated_makeDirectories (disk : Disk) (path : String) :
    Updated [] disk (disk.makeDirectories path).2 := by
  refine makeNested_induction (Updated []) Updated.refl
    (fun _ _ _ h h' => h.trans h') (fun disk after path hmake => ?_) _ disk path
  obtain ⟨place, -, hnone, rfl⟩ := makeDirectory_ok_iff.1 hmake
  exact .put_directory hnone

theorem write_ok_iff {disk after : Disk} {path : String} {content : Content} :
    disk.write path content = .ok after ↔ ∃ place, disk.locate path = .ok place ∧
      disk.find? place ≠ some .directory ∧ after = disk.put place (.file content) := by
  rw [write]
  cases disk.locate path with
  | error fault => simp
  | ok place =>
    rcases hfind : disk.find? place with _ | _ | _ <;> simp [hfind, eq_comm]

end PatternTable.Disk
