/-!
# Terminal colors

The escape sequences that color a message: red for errors, yellow for warnings, dim for the place a
message is about. Without colors all sequences are empty.
-/

namespace PatternTable

/-- The escape sequences of a terminal. -/
structure Palette where
  red : String := ""
  yellow : String := ""
  dim : String := ""
  reset : String := ""
  deriving DecidableEq, Repr

namespace Palette

/-- No colors. -/
def plain : Palette := {}

/-- The standard colors. -/
def colored : Palette :=
  ⟨"\x1b[31m", "\x1b[33m", "\x1b[2m", "\x1b[0m"⟩

/-- The palette of a terminal on which colors are on or off. -/
def ofEnabled (enabled : Bool) : Palette :=
  if enabled then colored else plain

end Palette

end PatternTable
