import PatternTable.Files.Access
import PatternTable.Text.Octets
import PatternTable.Text.Pieces

/-!
# File paths

A path is a text of components that slashes separate. Empty components and dots say nothing, except
at the start of a path. No file system looks up a path that is too long, whatever it leads to.

Results:
* `join_of_isAbsolute`: joining an absolute path forgets the directory.
-/

namespace PatternTable.Path

/-- The components of a path, empty ones and dots included. -/
def components (path : String) : List String :=
  (Text.pieces (· == '/') path.toList).map String.ofList

/-- Whether a path starts at the root of the file system: with a slash. -/
def isAbsolute (path : String) : Bool :=
  path.toList.head? == some '/'

/-- A path relative to a directory. A path that starts with a slash stands for itself. -/
def join (directory path : String) : String :=
  if isAbsolute path || directory.isEmpty then path
  else if directory.toList.getLast? == some '/' then directory ++ path
  else directory ++ "/" ++ path

/-- The most octets that a path may have. -/
def maxOctets : Nat := 4095

/-- What is wrong with a path on any file system. -/
def fault? (path : String) : Option FileFault :=
  if path.toList.contains '\x00' then some .nulInName
  else if maxOctets < Text.octets path.toList then some .nameTooLong
  else none

/-- Components without those at the end that say nothing. The first component stays. -/
def trimComponents : List String → List String
  | [] => []
  | first :: rest =>
    first :: (rest.reverse.dropWhile fun component => component = "" ∨ component = ".").reverse

/-- The path that components make. -/
def ofComponents : List String → String
  | [""] => "/"
  | components => "/".intercalate components

/-- The directory that a path lies in: the path without its last component. -/
def parent (path : String) : String :=
  ofComponents (trimComponents (trimComponents (components path)).dropLast)

theorem join_of_isAbsolute {path : String} (h : isAbsolute path) (directory : String) :
    join directory path = path := by
  simp [join, h]

example : parent "g/x.json" = "g" ∧ parent "x.json" = "" ∧ parent "./x" = "." ∧
    parent "g//./x" = "g" := by
  decide +kernel

end PatternTable.Path
