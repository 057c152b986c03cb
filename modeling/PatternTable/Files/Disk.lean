import PatternTable.Files.Access
import PatternTable.Files.Path
import PatternTable.Text.Octets

/-!
# A file system as a value

A disk is a list of files and directories below a root, each with the names that lead to it. Paths
are relative to the root; there is nothing above it.

Results:
* `find?_put_self`, `find?_put_other`: an entry that is put on a disk is there, and every other
  place is as before.
-/

namespace PatternTable

/-- What a file holds: a text, or octets that are no text in UTF-8. -/
inductive Content where
  | text (text : String)
  | octets (octets : List UInt8)
  deriving DecidableEq

/-- The content made of some octets. -/
def Content.ofOctets (bytes : List UInt8) : Content :=
  match String.fromUTF8? ⟨bytes.toArray⟩ with
  | some decoded => .text decoded
  | none => .octets bytes

/-- What may be at a place of a disk. -/
inductive Entry where
  | file (content : Content)
  | directory
  deriving DecidableEq

/-- A place of a disk: the names that lead to it from the root. -/
abbrev Place := List String

/-- The files and directories below a root. -/
structure Disk where
  entries : List (Place × Entry) := []
  deriving DecidableEq

namespace Disk

/-- What is at a place. The root is a directory. -/
def find? (disk : Disk) (place : Place) : Option Entry :=
  if place.isEmpty then some .directory else disk.entries.lookup place

/-- Entries with an entry at a place, in place of what was there. -/
def putEntry (place : Place) (entry : Entry) : List (Place × Entry) → List (Place × Entry)
  | [] => [(place, entry)]
  | (other, old) :: rest =>
    if other = place then (place, entry) :: rest else (other, old) :: putEntry place entry rest

/-- A disk with an entry at a place, in place of what was there. -/
def put (disk : Disk) (place : Place) (entry : Entry) : Disk :=
  ⟨putEntry place entry disk.entries⟩

/-- A disk without what is at a place. -/
def remove (disk : Disk) (place : Place) : Disk :=
  ⟨disk.entries.filter fun entry => entry.1 ≠ place⟩

/-! ## Paths -/

/-- The most octets that a name may have. -/
def maxNameOctets : Nat := 255

/-- Why names cannot be looked up at a place, if they cannot. -/
def lookupFault? (disk : Disk) (place : Place) : Option FileFault :=
  match disk.find? place with
  | some .directory => none
  | some (.file _) => some .notDirectory
  | none => some .notFound

/-- The place that components lead to from a place. Every place on the way must be a directory. -/
def walk (disk : Disk) (place : Place) : List String → Except FileFault Place
  | [] => .ok place
  | component :: rest =>
    match disk.lookupFault? place with
    | some fault => .error fault
    | none =>
      if component = "" ∨ component = "." then disk.walk place rest
      else if component = ".." then
        if place.isEmpty then .error .notFound else disk.walk place.dropLast rest
      else if maxNameOctets < Text.octets component.toList then .error .nameTooLong
      else disk.walk (place ++ [component]) rest

/-- What is wrong with a path on any disk. The empty path leads nowhere, and neither does one from
    above the root. -/
def pathFault? (path : String) : Option FileFault :=
  match Path.fault? path with
  | some fault => some fault
  | none => if path.isEmpty || Path.isAbsolute path then some .notFound else none

/-- The place of a path. -/
def locate (disk : Disk) (path : String) : Except FileFault Place :=
  match pathFault? path with
  | some fault => .error fault
  | none => disk.walk [] (Path.components path)

/-- What is at a path. -/
def entryAt (disk : Disk) (path : String) : Except FileFault Entry :=
  match disk.locate path with
  | .error fault => .error fault
  | .ok place =>
    match disk.find? place with
    | some entry => .ok entry
    | none => .error .notFound

/-! ## Requests -/

/-- Whether there is a directory at a path. -/
def isDirectory (disk : Disk) (path : String) : Bool :=
  match disk.entryAt path with
  | .ok .directory => true
  | _ => false

/-- Whether there is a regular file at a path. -/
def isFile (disk : Disk) (path : String) : Bool :=
  match disk.entryAt path with
  | .ok (.file _) => true
  | _ => false

/-- The names of what lies in the directory at a place. -/
def namesIn (disk : Disk) (place : Place) : List String :=
  disk.entries.filterMap fun (other, _) =>
    if other.dropLast = place then other.getLast? else none

/-- The names of the regular files in a directory. A file counts if it is at the path that joins its
    name to that of the directory; there is none where that path is too long. -/
def fileNames (disk : Disk) (path : String) : Except FileFault (List String) :=
  match disk.locate path with
  | .error fault => .error fault
  | .ok place =>
    match disk.lookupFault? place with
    | some fault => .error fault
    | none => .ok ((disk.namesIn place).filter fun name => disk.isFile (Path.join path name))

/-- The text of a file. -/
def readText (disk : Disk) (path : String) : Except FileFault String :=
  match disk.entryAt path with
  | .error fault => .error fault
  | .ok .directory => .error .isDirectory
  | .ok (.file (.octets _)) => .error .notText
  | .ok (.file (.text text)) => .ok text

/-- A disk with a content at the path of a file. The directory of the file must exist. -/
def write (disk : Disk) (path : String) (content : Content) : Except FileFault Disk :=
  match disk.locate path with
  | .error fault => .error fault
  | .ok place =>
    match disk.find? place with
    | some .directory => .error .isDirectory
    | _ => .ok (disk.put place (.file content))

/-- A path without the slashes at its end. -/
def bare (path : String) : String :=
  String.ofList (path.toList.reverse.dropWhile (· == '/')).reverse

/-- The place of a path at which a directory is to be made, which may end in slashes. -/
def locateBare (disk : Disk) (path : String) : Except FileFault Place :=
  match pathFault? path with
  | some fault => .error fault
  | none => disk.locate (bare path)

/-- A disk with a new directory at a path. -/
def makeDirectory (disk : Disk) (path : String) : Except FileFault Disk :=
  match disk.locateBare path with
  | .error fault => .error fault
  | .ok place =>
    match disk.find? place with
    | some _ => .error .alreadyExists
    | none => .ok (disk.put place .directory)

/-- Makes a directory at a path, and those that it lies in, where there are none. What has been made
    before a fault stays. A path of `n` characters lies in fewer than `n` directories. -/
def makeNested : (fuel : Nat) → Disk → String → Except FileFault Unit × Disk
  | 0, disk, _ => (.error .notFound, disk)
  | fuel + 1, disk, path =>
    if path.isEmpty then (.ok (), disk)
    else
      match disk.makeDirectory path with
      | .ok disk => (.ok (), disk)
      | .error .notFound =>
        match makeNested fuel disk (Path.parent path) with
        | (.error fault, disk) => (.error fault, disk)
        | (.ok (), disk) =>
          match disk.makeDirectory path with
          | .ok disk => (.ok (), disk)
          | .error fault => (if disk.isDirectory path then .ok () else .error fault, disk)
      | .error fault => (if disk.isDirectory path then .ok () else .error fault, disk)

/-- Makes a directory at a path, and those that it lies in, where there are none. -/
def makeDirectories (disk : Disk) (path : String) : Except FileFault Unit × Disk :=
  makeNested (path.length + 1) disk path

/-- The paths of everything on a disk, those of directories with a slash after them. -/
def listing (disk : Disk) : List String :=
  (disk.entries.map fun (place, entry) =>
      "/".intercalate place ++
        match entry with
        | .directory => "/"
        | .file _ => "").mergeSort
    fun a b => (Text.compareOctets a.toList b.toList).isLE

/-- The disk after a file has been written. A fault leaves the disk as it is. -/
def writeText (disk : Disk) (path text : String) : Except FileFault Unit × Disk :=
  match disk.write path (.text text) with
  | .ok after => (.ok (), after)
  | .error fault => (.error fault, disk)

/-- The requests to a disk. -/
def access : FileAccess (StateM Disk) where
  isDirectory path := fun disk => (disk.isDirectory path, disk)
  fileNames path := fun disk => (disk.fileNames path, disk)
  readText path := fun disk => (disk.readText path, disk)
  makeDirectories path := fun disk => disk.makeDirectories path
  writeText path text := fun disk => disk.writeText path text

theorem lookup_putEntry_self (place : Place) (entry : Entry) (entries : List (Place × Entry)) :
    (putEntry place entry entries).lookup place = some entry := by
  induction entries with
  | nil => simp [putEntry]
  | cons head rest ih =>
    rcases head with ⟨other, old⟩
    by_cases h : other = place
    · simp [putEntry, h]
    · simp [putEntry, h, List.lookup_cons, beq_eq_false_iff_ne.2 (Ne.symm h), ih]

theorem lookup_putEntry_other {place other : Place} (h : other ≠ place) (entry : Entry)
    (entries : List (Place × Entry)) :
    (putEntry place entry entries).lookup other = entries.lookup other := by
  induction entries with
  | nil => simp [putEntry, List.lookup_cons, beq_eq_false_iff_ne.2 h]
  | cons head rest ih =>
    rcases head with ⟨first, old⟩
    by_cases hf : first = place
    · subst hf
      simp [putEntry, List.lookup_cons, beq_eq_false_iff_ne.2 h]
    · simp [putEntry, hf, List.lookup_cons, ih]

theorem find?_put_self (disk : Disk) {place : Place} (h : place ≠ []) (entry : Entry) :
    (disk.put place entry).find? place = some entry := by
  simp [find?, put, h, lookup_putEntry_self]

theorem find?_put_other (disk : Disk) {place other : Place} (h : other ≠ place) (entry : Entry) :
    (disk.put place entry).find? other = disk.find? other := by
  simp [find?, put, lookup_putEntry_other h]

end Disk

end PatternTable
